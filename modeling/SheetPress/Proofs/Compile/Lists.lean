import SheetPress.Proofs.Expr.Phrases
import SheetPress.Proofs.Library.Positions

/-!
# Functions on lists in expressions

A call evaluates its arguments, makes a list of them and looks the function up, first among the
functions of the stylesheet and then in the library.  A list that comes back takes over the
separator of the argument list, which is a comma as soon as there are two arguments.
-/

set_option autoImplicit false

namespace SheetPress

open List
open Items (ofList)

/-! ## The functions -/

/-- The functions on lists. -/
inductive ListFunction where
  | join
  | append
  | nth
  | length

namespace ListFunction

def text : ListFunction → Text
  | .join => "join".toList
  | .append => "append".toList
  | .nth => "nth".toList
  | .length => "length".toList

variable (f : ListFunction)

theorem names_text : ∀ c ∈ f.text, Text.isName c = true := by
  cases f <;> exact all_eq_true.mp rfl

theorem starts_text : f.text.head?.any startsName = true ∨
    (f.text.head? = some '-' ∧ f.text.tail.head?.any startsName = true) := by
  cases f <;> exact .inl (by decide)

theorem free_text : f.text ∉ reservedWords := by
  cases f <;> decide +kernel

theorem underscore_notMem : '_' ∉ f.text := by
  cases f <;> decide +kernel

/-- The name of a function. -/
def name (f : ListFunction) : Identifier := ⟨f.text, names_text f, starts_text f, free_text f⟩

end ListFunction

namespace Library

/-- The keys of the functions on lists. -/
def listKeys : List Text :=
  ["join:2", "join:3", "append:2", "append:3", "nth:2", "length:1", "length:n"].map String.toList

theorem first_lacks : ∀ k ∈ listKeys,
    ((images ++ positions ++ gradients ++ colours).all fun p => p.1.toList != k) = true := by
  decide +kernel

/-- The functions that stand before those on lists in the table have other keys. -/
theorem lookup_table {k : Text} (hk : k ∈ listKeys) :
    table.lookup k =
      ((lists ++ (selectors ++ numbers)).map fun p => (p.1.toList, p.2)).lookup k := by
  have hfirst := first_lacks k hk
  have hnone : ((images ++ positions ++ gradients ++ colours).map
      fun p => (p.1.toList, p.2)).lookup k = none := by
    rw [lookup_eq_none_iff]
    intro p hp
    obtain ⟨q, hq, rfl⟩ := mem_map.mp hp
    rw [bne_comm]
    exact all_eq_true.mp hfirst q hq
  have htable : table = ((images ++ positions ++ gradients ++ colours).map
      fun p => (p.1.toList, p.2)) ++
        ((lists ++ (selectors ++ numbers)).map fun p => (p.1.toList, p.2)) := by
    rw [table, ← map_append]
    simp only [append_assoc]
  rw [htable, lookup_append, hnone, Option.none_or]

variable {count : Nat}

theorem find?_of_lookup {name : Text} {f : Routine}
    (hkey : name ++ ':' :: Text.ofNat count ∈ listKeys)
    (h : ((lists ++ (selectors ++ numbers)).map fun p => (p.1.toList, p.2)).lookup
      (name ++ ':' :: Text.ofNat count) = some f) : find? name count = some f := by
  rw [find?, lookup_table hkey, h]

theorem find?_join (hcount : count = 2 ∨ count = 3) :
    find? ListFunction.join.text count = some (.ofTwoOrThree "lst1" "lst2" "separator" join) := by
  rcases hcount with rfl | rfl
  · exact find?_of_lookup (by decide) rfl
  · exact find?_of_lookup (by decide) rfl

theorem find?_append (hcount : count = 2 ∨ count = 3) :
    find? ListFunction.append.text count = some (.ofTwoOrThree "lst" "val" "separator" append) := by
  rcases hcount with rfl | rfl
  · exact find?_of_lookup (by decide) rfl
  · exact find?_of_lookup (by decide) rfl

theorem find?_nth : find? ListFunction.nth.text 2 = some (.ofTwo "lst" "n" nth) :=
  find?_of_lookup (by decide) (by rfl)

theorem find?_length : find? ListFunction.length.text 1 = some (.ofAny length) := by
  have hone := lookup_table (k := "length:1".toList) (by decide)
  have hany := lookup_table (k := "length:n".toList) (by decide)
  rw [find?, show ListFunction.length.text ++ ':' :: Text.ofNat 1 = "length:1".toList from rfl,
    hone, show ListFunction.length.text ++ [':', 'n'] = "length:n".toList from rfl, hany]
  rfl

end Library

/-! ## Calls -/

theorem mem_ofList {vs : List Value} {p : Key × Value} (h : p ∈ ofList vs) :
    ∃ i < vs.length, p.1 = .index i := by
  obtain ⟨⟨v, i⟩, hmem, rfl⟩ := mem_map.mp h
  exact ⟨i, by simpa using snd_lt_add_of_mem_zipIdx hmem, rfl⟩

variable (vs : List Value)

theorem values_ofList : (ofList vs).map Prod.snd = vs := by
  have hsnd : Prod.snd ∘ (fun p : Value × Nat => (Key.index p.2, p.1)) = Prod.fst := rfl
  simp [ofList, hsnd]

theorem insert_last {n : Nat} {items : List (Key × Value)}
    (h : ∀ p ∈ items, ∃ i < n, p.1 = .index (i : Nat)) (v : Value) :
    Items.insert (.index n) v items = items ++ [(.index n, v)] := by
  induction items with
  | nil => rfl
  | cons p items ih =>
    obtain ⟨k, w⟩ := p
    obtain ⟨i, hi, rfl : k = .index i⟩ := h (k, w) mem_cons_self
    have hcompare : compare (n : Int) i = .gt := by
      rw [Int.compare_eq_gt]
      omega
    rw [Items.insert, Key.order, hcompare]
    simp only [ih fun q hq => h q (mem_cons_of_mem _ hq)]
    rfl

theorem isIndex_ofList : ∀ q ∈ ofList vs, q.1.isIndex = true := by
  intro q hq
  obtain ⟨i, -, hkey⟩ := mem_ofList hq
  rw [hkey]
  rfl

/-- A step that puts each value behind the positions there are makes a list of the values. -/
theorem foldl_unnamed {step : List (Key × Value) → Option Text × Value → List (Key × Value)}
    (hstep : ∀ items v, step items (none, v) =
      Items.insert (.index (items.countP fun q => q.1.isIndex)) v items) (us vs : List Value) :
    (vs.map fun v => (none, v)).foldl step (ofList us) = ofList (us ++ vs) := by
  induction vs generalizing us with
  | nil => simp
  | cons v vs ih =>
    have hcount : (ofList us).countP (fun q => q.1.isIndex) = us.length := by
      rw [countP_eq_length.mpr (isIndex_ofList us)]
      simp [ofList]
    have hinsert : Items.insert (.index us.length) v (ofList us) =
        ofList (us ++ [v]) := by
      rw [insert_last (fun p hp => mem_ofList hp)]
      simp [ofList, zipIdx_append]
    rw [map_cons, foldl_cons, hstep, hcount, hinsert, ih]
    simp

theorem itemsOfNamed_unnamed : itemsOfNamed (vs.map fun v => (none, v)) = ofList vs :=
  foldl_unnamed (fun _ _ => rfl) [] vs

theorem run_listOfNamed (p : Pool) (vs : List Value) :
    (listOfNamed (vs.map fun v => (none, v))).run p =
      (.ok (.list p.separators.size (ofList vs)),
        p.withList (if vs.length < 2 then none else some [','])) := by
  rw [listOfNamed, itemsOfNamed_unnamed, length_map]
  rfl

namespace Compile

variable {inner : Compiler} {r : Nat} {s : Session}

theorem orderedArguments_ofList (vs : List Value) : orderedArguments (ofList vs) = vs := by
  rw [orderedArguments, filter_eq_self.mpr (isIndex_ofList vs), values_ofList]

theorem namedArguments_ofList (vs : List Value) : namedArguments (ofList vs) = [] := by
  rw [namedArguments, filterMap_eq_nil_iff]
  intro q hq
  obtain ⟨i, -, hkey⟩ := mem_ofList hq
  rw [hkey]

section Call

variable {name : Text} {args : List Value} {f : Routine} {slot : Nat} {sep : Option Text}

theorem run_applyFunction
    (hown : (s.settings.getD (s.rules.getD r {}).settings []).get?
      (definitionKey "@function".toList name args.length) = none)
    (hfind : Library.find? name args.length = some f) :
    (applyFunction inner r name args []).run s = (Run.ofCalc (f.apply args [])).run s := by
  rw [applyFunction]
  simp only [hfind]
  rw [Run.run_settingsOf_bind, hown]
  rfl

/-- What a function of the library gives is the value of the call, after a list has got the
separator of the arguments. -/
theorem run_callValue (hslot : s.pool.separators[slot]? = some sep)
    (hname : '_' ∉ name)
    (hown : (s.settings.getD (s.rules.getD r {}).settings []).get?
      (definitionKey "@function".toList name args.length) = none)
    (hfind : Library.find? name args.length = some f) {v : Value} {p q : Pool}
    (hrun : (f.apply args []).run s.pool = (.ok v, p))
    (hset : ((∀ slot' items, v ≠ .list slot' items) ∧ q = p) ∨
      ∃ slot' items, v = .list slot' items ∧ sep = some [','] ∧ args ≠ [] ∧
        q = { p with separators := p.separators.setIfInBounds slot' (some [',']) }) :
    (callValue inner r name (some (.list slot (ofList args)))).run s =
      (.ok v, { s with pool := q }) := by
  have hknown : name.map (fun c => if c == '_' then '-' else c) = name := by
    refine (map_congr_left fun c hc => ?_).trans (map_id name)
    have hc : (c == '_') = false := beq_eq_false_iff_ne.mpr fun h => hname (h ▸ hc)
    rw [hc]
    rfl
  have happly : (applyFunction inner r name args []).run s = (.ok v, { s with pool := p }) := by
    rw [run_applyFunction hown hfind, Run.run_ofCalc, hrun]
  have harguments : (argumentsOf (some (.list slot (ofList args)))).run s =
      (.ok ⟨sep, ofList args⟩, s) := by
    have hsep : ((Calc.separator slot : Calc (Option Text)) : Run (Option Text)).run s =
        (.ok sep, s) := by
      change (Run.ofCalc (Calc.separator slot)).run s = _
      rw [Run.run_ofCalc, run_separator hslot]
    exact Run.bind_ok hsep
  rw [callValue, Run.bind_ok harguments, callWith]
  dsimp only
  rw [hknown, orderedArguments_ofList, namedArguments_ofList]
  refine Run.bind_ok (Run.attempt_ok (t := { s with pool := q }) (a := v) ?_)
  rw [Run.bind_ok happly]
  rcases hset with ⟨hv, rfl⟩ | ⟨slot', items, rfl, rfl, hargs, rfl⟩
  · cases v with
    | list slot' items => exact absurd rfl (hv slot' items)
    | _ => rfl
  · have hitems : (ofList args).isEmpty = false := by
      rw [isEmpty_eq_false_iff]
      intro hnil
      exact hargs (by rw [← values_ofList args, hnil]; rfl)
    simp only [hitems]
    rfl

end Call

end Compile

/-! ## Expressions -/

namespace Identifier

theorem names_letter {c : Char} (h : startsName c = true) : ∀ x ∈ [c], Text.isName x = true := by
  intro x hx
  rw [mem_singleton.mp hx]
  simp only [startsName, Text.isName, Text.isWord, Char.isAlphanum, Bool.or_eq_true] at h ⊢
  tauto

theorem starts_letter {c : Char} (h : startsName c = true) : [c].head?.any startsName = true ∨
    ([c].head? = some '-' ∧ [c].tail.head?.any startsName = true) := .inl h

theorem free_letter (c : Char) : [c] ∉ reservedWords := by
  have hlong : ∀ w ∈ reservedWords, w.length ≠ 1 := by decide +kernel
  exact fun h => hlong _ h rfl

/-- A name of one letter. -/
def letter (c : Char) (h : startsName c = true) : Identifier :=
  ⟨[c], names_letter h, starts_letter h, free_letter c⟩

end Identifier

namespace Compile

open SheetPress.Expr (eval evalItems)

variable {inner : Compiler} {r : Nat} {s : Session}

/-- The stylesheet has no functions of its own that are called like those on lists. -/
def Leaves (r : Nat) (s : Session) : Prop :=
  ∀ (f : ListFunction) (count : Nat), (s.settings.getD (s.rules.getD r {}).settings []).get?
    (definitionKey "@function".toList f.text count) = none

theorem leaves_empty : Leaves 0 {} := fun _ _ => rfl

/-- The expressions have these values, and nothing but the pool is changed. -/
def Yield (m : Expr.Meaning) (s : Session) (es : List Expr) (vs : List Value) (p : Pool) : Prop :=
  (evalItems m (es.map fun e => (none, e))).run s =
    (.ok (vs.map fun v => (none, v)), { s with pool := p })

section Evaluate

variable {m : Expr.Meaning} {e : Expr} {es : List Expr} {v : Value} {vs : List Value} {p q : Pool}

theorem yield_nil : Yield m s [] [] s.pool := rfl

theorem Yield.cons (he : (eval m e).run s = (.ok v, { s with pool := p }))
    (hes : Yield m { s with pool := p } es vs q) : Yield m s (e :: es) (v :: vs) q := by
  rw [Yield, map_cons, evalItems, Run.bind_ok he, Run.bind_ok hes]
  rfl

theorem Yield.row (h : Yield m s es vs p) (hes : es.length ≠ 1) :
    (eval m (Grammar.rowOf es)).run s =
      (.ok (.list p.separators.size (ofList vs)), { s with pool := p.withList none }) := by
  have hvalues : (vs.map fun v => ((none : Option Text), v)).map Prod.snd = vs := by simp
  rw [Grammar.rowOf_of_length hes, eval, Run.bind_ok h, hvalues]
  rfl

theorem Yield.list (h : Yield m s es vs p) (hvs : 2 ≤ vs.length) :
    (eval m (.list (es.map fun e => (none, e)))).run s =
      (.ok (.list p.separators.size (ofList vs)),
        { s with pool := p.withList (some [',']) }) := by
  obtain ⟨v, v', vs, rfl⟩ : ∃ v v' vs', vs = v :: v' :: vs' := by
    rcases vs with _ | ⟨v, _ | ⟨v', vs⟩⟩
    · simp at hvs
    · simp at hvs
    · exact ⟨v, v', vs, rfl⟩
  have hlist := run_listOfNamed p (v :: v' :: vs)
  rw [if_neg (by simp)] at hlist
  rw [eval, Run.bind_ok h, itemsOfNamed_unnamed]
  change (Run.ofCalc (listOfNamed _)).run { s with pool := p } = _
  rw [Run.run_ofCalc, hlist]

theorem eval_group (m : Expr.Meaning) (e : Expr) : eval m (.list [(none, e)]) = eval m e :=
  Formula.eval_grouped m true e

theorem eval_ofNat (m : Expr.Meaning) (s : Session) (i : Nat) :
    (eval m (Phrase.Item.number (.ofNat i)).expr).run s =
      (.ok (.number s.pool.quantities.size),
        { s with pool := s.pool.withNumber (Float.ofScientific i false 0) }) := by
  have hofInt : Decimal.ofInt i = Float.ofScientific i false 0 := by
    rw [Decimal.ofInt, if_neg (by omega)]
    rfl
  rw [Phrase.Item.expr, Numeral.text_ofNat, eval, readFloat?_digits, hofInt]
  rfl

end Evaluate

/-! ## Texts -/

section Texts

variable {v : Value} {p : Pool} {t : Text}

theorem run_guarded {x : Run Value} {s' : Session} (expression : Text)
    (h : x.run s = (.ok v, s')) : (guarded r expression x).run s = (.ok v, s') :=
  Run.bind_ok (Run.attempt_ok h)

theorem eval_parse (m : Expr.Meaning) (row : Phrase.Row) :
    eval m (Expr.parse row.text) = eval m row.expr := by
  have hparse := Phrase.Series.parse_text (.one row)
  rw [Phrase.Series.text, Phrase.Series.exprs] at hparse
  rw [hparse, eval_group, Phrase.Row.expr]

theorem run_value (row : Phrase.Row)
    (h : (eval (meaning inner r) row.expr).run s = (.ok v, { s with pool := p })) :
    (value inner row.text r).run s = (.ok v, { s with pool := p }) := by
  rw [← eval_parse] at h
  exact run_guarded row.text h

/-- The text of the value of a row that was read from its text. -/
theorem run_valueText (row : Phrase.Row)
    (h : (eval (meaning inner r) row.expr).run s = (.ok v, { s with pool := p }))
    (hv : v ≠ .nothing) (hshown : v.shown.run p = (.ok t, p)) :
    (valueText inner row.text r).run s = (.ok (some t), { s with pool := p }) := by
  rw [← eval_parse] at h
  have hword : (Run.ofCalc v.shown).run { s with pool := p } = (.ok t, { s with pool := p }) := by
    rw [Run.run_ofCalc, hshown]
  refine Run.bind_ok (run_guarded row.text (v := .word t) ?_)
  rw [Run.bind_ok h]
  cases v with
  | nothing => exact absurd rfl hv
  | _ => exact Run.bind_ok hword

end Texts

/-! ## Calls of functions on lists -/

section Calls

variable {f : ListFunction} {routine : Routine} {es : List Expr} {vs : List Value} {p : Pool}

theorem eval_call (h : Yield (meaning inner r) s es vs p) :
    (eval (meaning inner r) (.call f.text (some (es.map fun e => (none, e))))).run s =
      (callValue inner r f.text (some (.list p.separators.size (ofList vs)))).run
        { s with pool := p.withList (if vs.length < 2 then none else some [',']) } := by
  have hlist : (Run.ofCalc (listOfNamed (vs.map fun v => (none, v)))).run { s with pool := p } =
      (.ok (.list p.separators.size (ofList vs)),
        { s with pool := p.withList (if vs.length < 2 then none else some [',']) }) := by
    rw [Run.run_ofCalc, run_listOfNamed]
  rw [eval, Run.bind_ok h]
  exact Run.bind_ok hlist

/-- A list that a function gives for two or more arguments gets a comma. -/
theorem eval_listCall (hs : Leaves r s) (h : Yield (meaning inner r) s es vs p)
    (hvs : 2 ≤ vs.length) (hfind : Library.find? f.text vs.length = some routine)
    {items : List (Key × Value)} {sep : Option Text}
    (hrun : (routine.apply vs []).run (p.withList (some [','])) =
      (.ok (.list (p.withList (some [','])).separators.size items),
        (p.withList (some [','])).withList sep)) :
    (eval (meaning inner r) (.call f.text (some (es.map fun e => (none, e))))).run s =
      (.ok (.list (p.withList (some [','])).separators.size items),
        { s with pool := (p.withList (some [','])).withList (some [',']) }) := by
  rw [eval_call h, if_neg (by omega)]
  have hne : vs ≠ [] := by
    rintro rfl
    simp at hvs
  exact run_callValue (s := { s with pool := p.withList (some [',']) })
    (Pool.getElem?_withList p (some [','])) f.underscore_notMem (hs f vs.length) hfind hrun
    (.inr ⟨_, _, rfl, rfl, hne, Pool.set_withList _ sep _⟩)

/-- Anything else that a function gives is the value of the call. -/
theorem eval_otherCall (hs : Leaves r s) (h : Yield (meaning inner r) s es vs p)
    (hfind : Library.find? f.text vs.length = some routine) {v : Value} {q : Pool}
    (hv : ∀ slot items, v ≠ .list slot items)
    (hrun : (routine.apply vs []).run (p.withList (if vs.length < 2 then none else some [','])) =
      (.ok v, q)) :
    (eval (meaning inner r) (.call f.text (some (es.map fun e => (none, e))))).run s =
      (.ok v, { s with pool := q }) := by
  rw [eval_call h]
  exact run_callValue
    (s := { s with pool := p.withList (if vs.length < 2 then none else some [',']) })
    (Pool.getElem?_withList p _) f.underscore_notMem (hs f vs.length) hfind hrun (.inl ⟨hv, rfl⟩)

end Calls

end Compile

end SheetPress
