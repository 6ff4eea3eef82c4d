import SheetPress.Proofs.Compile.Lists

/-!
# Separators of lists

A list that is written down has no separator between blanks and a comma between commas.  A
function on lists keeps a separator or takes the one that is given to it, but the call then sets
the separator of its result to that of the arguments.  With two arguments or more this is a
comma, whatever the function made of it.
-/

set_option autoImplicit false

namespace SheetPress

open List

/-! ## Literals -/

namespace Phrase

mutual

/-- No function is called. -/
def Item.Literal : Item → Prop
  | .word _ => True
  | .number _ => True
  | .quotation _ => True
  | .group l => l.Literal
  | .call _ _ => False

def Row.Literal : Row → Prop
  | .one i => i.Literal
  | .more i r => i.Literal ∧ r.Literal

def Series.Literal : Series → Prop
  | .one r => r.Literal
  | .more r l => r.Literal ∧ l.Literal

end

mutual

/-- It is a list, and not one value alone. -/
def Item.several : Item → Bool
  | .group l => l.several
  | _ => false

def Row.several : Row → Bool
  | .one i => i.several
  | .more _ _ => true

def Series.several : Series → Bool
  | .one r => r.several
  | .more _ _ => true

end

mutual

/-- What separates the values of a list. -/
def Item.separator : Item → Option Text
  | .group l => l.separator
  | _ => none

def Row.separator : Row → Option Text
  | .one i => i.separator
  | .more _ _ => none

def Series.separator : Series → Option Text
  | .one r => r.separator
  | .more _ _ => some [',']

end

/-- The rows of a list. -/
def Series.rows : Series → List Row
  | .one r => [r]
  | .more r l => r :: l.rows

/-- Two rows, and perhaps a third one. -/
def Series.pair (a b : Row) : Option Row → Series
  | none => .more a (.one b)
  | some c => .more a (.more b (.one c))

theorem Series.exprs_eq (l : Series) :
    l.exprs = (l.rows.map Row.expr).map fun e => (none, e) :=
  match l with
  | .one _ => rfl
  | .more r l => congrArg (List.cons (none, r.expr)) (Series.exprs_eq l)

theorem Series.rows_ne_nil (l : Series) : l.rows ≠ [] := by
  cases l <;> exact cons_ne_nil _ _

theorem Row.exprs_ne_nil (r : Row) : r.exprs ≠ [] := by
  cases r <;> exact cons_ne_nil _ _

/-- A call with some rows as its arguments. -/
def callRow (f : ListFunction) (l : Series) : Row := .one (.call f.name l)

end Phrase

/-! ## Their values -/

/-- In the pool, the value is a list with the separator, or a value alone. -/
inductive Pool.Stands (p : Pool) : Value → Bool → Option Text → Prop where
  | word (w : Identifier) : Stands p (.word w.text) false none
  | number {slot : Nat} {x : Float} (h : p.quantities[slot]? = some (.bare x)) :
      Stands p (.number slot) false none
  | quoted (t : Text) : Stands p (.quoted t) false none
  | list {slot : Nat} {sep : Option Text} {items : List (Key × Value)}
      (h : p.separators[slot]? = some sep) (hitems : items ≠ []) :
      Stands p (.list slot items) true sep

theorem get?_ofList (vs : List Value) (i : Nat) :
    Items.get? (Items.ofList vs) (.index i) = vs[i]? := by
  have hgo : ∀ start, ((vs.zipIdx start).map fun p => (Key.index p.2, p.1)).lookup
      (Key.index (start + i : Nat)) = vs[i]? := by
    induction vs generalizing i with
    | nil => simp
    | cons v vs ih =>
      intro start
      rw [zipIdx_cons, map_cons, lookup_cons]
      cases i with
      | zero => simp
      | succ i =>
        have hne : (Key.index (start + (i + 1) : Nat) == Key.index start) = false := by
          rw [beq_eq_false_iff_ne]
          intro h
          have := Key.index.inj h
          omega
        have hrest := ih i (start + 1)
        rw [show start + 1 + i = start + (i + 1) by omega] at hrest
        rw [hne]
        exact hrest
  have hzero := hgo 0
  rw [Nat.zero_add] at hzero
  exact hzero

namespace Pool.Stands

variable {p q : Pool} {v : Value} {several : Bool} {sep : Option Text}

theorem mono (h : p.Stands v several sep) (hgrows : p.Grows q) : q.Stands v several sep := by
  cases h with
  | word w => exact .word w
  | number h => exact .number (hgrows.quantity h)
  | quoted t => exact .quoted t
  | list h hitems => exact .list (hgrows.separator h) hitems

theorem run_listing (h : p.Stands v several sep) :
    ∃ l, v.listing.run p = (.ok l, p) ∧ l.items ≠ [] := by
  cases h with
  | word w => exact ⟨_, (Pool.Holds.word w).run_listing, cons_ne_nil _ _⟩
  | number h => exact ⟨_, rfl, cons_ne_nil _ _⟩
  | quoted t => exact ⟨_, rfl, cons_ne_nil _ _⟩
  | list h hitems => exact ⟨_, Run.bind_ok (run_separator h), hitems⟩

theorem run_text (h : p.Stands v false sep) :
    (∃ t, v.text.run p = (.ok t, p)) ∧ ∃ b, v.isTrue.run p = (.ok b, p) := by
  cases h with
  | word w =>
    refine ⟨⟨w.text, ?_⟩, _, rfl⟩
    change (Value.word w.text).shown.run p = _
    rw [Value.shown]
    rfl
  | number h =>
    refine ⟨?_, _, Run.bind_ok (run_quantity h)⟩
    change ∃ t, (Value.number _).shown.run p = (.ok t, p)
    rw [Value.shown, Run.bind_ok (run_quantity h)]
    exact ⟨_, rfl⟩
  | quoted t => exact ⟨⟨t, rfl⟩, _, rfl⟩

variable {w : Value} {m n : Bool} {sep' : Option Text} {g : Option Value}

theorem run_join (hv : p.Stands v m sep) (hw : p.Stands w n sep')
    (hg : ∀ u ∈ g, ∃ sep'', p.Stands u false sep'') :
    ∃ items sep'', (Library.join v w g).run p =
      (.ok (.list p.separators.size items), p.withList sep'') := by
  obtain ⟨l, hl, -⟩ := hv.run_listing
  obtain ⟨k, hk, -⟩ := hw.run_listing
  have htext : ∀ u ∈ g, ∃ t, u.text.run p = (.ok t, p) := by
    intro u hu
    obtain ⟨sep'', hu⟩ := hg u hu
    exact hu.run_text.1
  obtain ⟨items, sep'', hrun, -⟩ := SheetPress.run_join hl hk htext
  exact ⟨items, sep'', hrun⟩

theorem run_append (hv : p.Stands v m sep) (hw : p.Stands w n sep')
    (hg : ∀ u ∈ g, ∃ sep'', p.Stands u false sep'') :
    ∃ items sep'', (Library.append v w g).run p =
      (.ok (.list p.separators.size items), p.withList sep'') := by
  obtain ⟨l, hl, -⟩ := hv.run_listing
  obtain ⟨k, hk, hne⟩ := hw.run_listing
  have htext : ∀ u ∈ g, (∃ t, u.text.run p = (.ok t, p)) ∧ ∃ b, u.isTrue.run p = (.ok b, p) := by
    intro u hu
    obtain ⟨sep'', hu⟩ := hg u hu
    exact hu.run_text
  obtain ⟨items, sep'', hrun, -⟩ := SheetPress.run_append hl hk hne htext
  exact ⟨items, sep'', hrun⟩

theorem run_nth {vs : List Value} {slot i : Nat} (h : p.Stands v true sep) (hv : vs[i]? = some v)
    (hslot : p.separators[slot]? = some sep') (hn : w.text.run p = (.ok (Text.ofNat (i + 1)), p))
    (hlt : i + 1 < 2 ^ 53) :
    ∃ items, (Library.nth (.list slot (Items.ofList vs)) w).run p =
      (.ok (.list p.separators.size items), p.withList sep) := by
  have hlisting : (Value.list slot (Items.ofList vs)).listing.run p =
      (.ok ⟨sep', Items.ofList vs⟩, p) := Run.bind_ok (run_separator hslot)
  have hbound : i + 1 ≤ Library.Listing.entries ⟨sep', Items.ofList vs⟩ := by
    have hi := (List.getElem?_eq_some_iff.mp hv).1
    simp only [Library.Listing.entries, Items.ofList, length_map, length_zipIdx]
    omega
  rw [SheetPress.run_nth hlisting hn (Nat.succ_le_succ (Nat.zero_le i)) hbound hlt,
    Nat.add_sub_cancel, get?_ofList, hv, Option.some_or, Option.getD_some]
  cases h with
  | list hfound => exact ⟨_, Run.bind_ok (run_separator hfound)⟩

end Pool.Stands

namespace Compile

open SheetPress.Expr (eval)
open Phrase (Row Series callRow)

variable {inner : Compiler} {r : Nat} {s : Session}

/-- The expression has such a value, and nothing but the pool grows. -/
def Denotes (m : Expr.Meaning) (e : Expr) (several : Bool) (sep : Option Text) : Prop :=
  ∀ s, ∃ v p, (eval m e).run s = (.ok v, { s with pool := p }) ∧ s.pool.Grows p ∧
    p.Stands v several sep

/-- The expressions have values, and nothing but the pool grows. -/
def Yields (m : Expr.Meaning) (es : List Expr) : Prop :=
  ∀ s, ∃ vs p, Yield m s es vs p ∧ s.pool.Grows p ∧ vs.length = es.length

/-- Rows have the values that they are written as. -/
def DenoteRows (m : Expr.Meaning) (rows : List Row) : Prop :=
  ∀ s, ∃ vs p, Yield m s (rows.map Row.expr) vs p ∧ s.pool.Grows p ∧
    List.Forall₂ (fun row v => p.Stands v row.several row.separator) rows vs

section Literals

variable {m : Expr.Meaning} {e : Expr} {es : List Expr} {several : Bool} {sep : Option Text}
  {row : Row} {rows : List Row}

theorem denotes_word (w : Identifier) : Denotes m (.word w.text) false none := by
  intro s
  refine ⟨_, _, ?_, .refl s.pool, .word w⟩
  rw [eval]
  rfl

theorem denotes_number (n : Numeral) : Denotes m (.numeral n.text) false none := by
  intro s
  refine ⟨_, _, ?_, Pool.grows_withNumber s.pool ((Decimal.readFloat? n.text).getD 0.0),
    .number (Pool.getElem?_withNumber _ _)⟩
  rw [eval]
  rfl

theorem denotes_quotation (q : Quotation) : Denotes m (.quoted q.text) false none := by
  intro s
  refine ⟨_, _, ?_, .refl s.pool, .quoted (Text.dequote q.text)⟩
  rw [eval]
  rfl

theorem yields_nil : Yields m [] := fun s => ⟨[], s.pool, yield_nil, .refl _, rfl⟩

theorem Denotes.yields (he : Denotes m e several sep) (hes : Yields m es) : Yields m (e :: es) := by
  intro s
  obtain ⟨v, p, hv, hp, -⟩ := he s
  obtain ⟨vs, q, hvs, hq, hlength⟩ := hes { s with pool := p }
  exact ⟨v :: vs, q, .cons hv hvs, hp.trans hq, congrArg Nat.succ hlength⟩

theorem ofList_ne_nil {vs : List Value} (h : vs ≠ []) : Items.ofList vs ≠ [] := by
  intro hnil
  rw [← values_ofList vs, hnil] at h
  exact h rfl

theorem Yields.spaced (h : Yields m es) (hes : 2 ≤ es.length) :
    Denotes m (Grammar.rowOf es) true none := by
  intro s
  obtain ⟨vs, p, hvs, hp, hlength⟩ := h s
  have hne : vs ≠ [] := ne_nil_of_length_pos (by omega)
  exact ⟨_, _, hvs.row (by omega), hp.trans (Pool.grows_withList p none),
    .list (Pool.getElem?_withList p none) (ofList_ne_nil hne)⟩

theorem denoteRows_nil : DenoteRows m [] := fun s => ⟨[], s.pool, yield_nil, .refl _, .nil⟩

theorem Denotes.before (hrow : Denotes m row.expr row.several row.separator)
    (hrows : DenoteRows m rows) : DenoteRows m (row :: rows) := by
  intro s
  obtain ⟨v, p, hv, hp, hstands⟩ := hrow s
  obtain ⟨vs, q, hvs, hq, hall⟩ := hrows { s with pool := p }
  exact ⟨v :: vs, q, .cons hv hvs, hp.trans hq, .cons (hstands.mono hq) hall⟩

theorem DenoteRows.group (h : DenoteRows m rows) (hrows : 2 ≤ rows.length) :
    Denotes m (.list ((rows.map Row.expr).map fun e => (none, e))) true (some [',']) := by
  intro s
  obtain ⟨vs, p, hvs, hp, hall⟩ := h s
  have hlength := hall.length_eq
  have hne : vs ≠ [] := ne_nil_of_length_pos (by omega)
  exact ⟨_, _, hvs.list (by omega), hp.trans (Pool.grows_withList p (some [','])),
    .list (Pool.getElem?_withList p (some [','])) (ofList_ne_nil hne)⟩

end Literals

/-! The rows of a list are parts of it, and so are the items of a row. -/

mutual

theorem denotes_item {m : Expr.Meaning} :
    ∀ i : Phrase.Item, i.Literal → Denotes m i.expr i.several i.separator
  | .word w, _ => denotes_word w
  | .number n, _ => denotes_number n
  | .quotation q, _ => denotes_quotation q
  | .group (.one row), h => by
      have hrow := denotes_row (m := m) row h
      rw [Phrase.Item.expr, Series.exprs, Denotes, eval_group]
      exact hrow
  | .group (.more row l), h => by
      have hrows := (denotes_row (m := m) row h.1).before (denoteRows_series l h.2)
      have hlength := length_pos_of_ne_nil l.rows_ne_nil
      rw [Phrase.Item.expr, Series.exprs_eq]
      exact hrows.group (Nat.succ_le_succ hlength)

theorem yields_row {m : Expr.Meaning} : ∀ row : Row, row.Literal → Yields m row.exprs
  | .one i, h => (denotes_item i h).yields yields_nil
  | .more i row, h => (denotes_item i h.1).yields (yields_row row h.2)

theorem denotes_row {m : Expr.Meaning} :
    ∀ row : Row, row.Literal → Denotes m row.expr row.several row.separator
  | .one i, h => denotes_item i h
  | .more i row, h =>
    ((denotes_item i h.1).yields (yields_row row h.2)).spaced
      (Nat.succ_le_succ (length_pos_of_ne_nil row.exprs_ne_nil))

theorem denoteRows_series {m : Expr.Meaning} :
    ∀ l : Series, l.Literal → DenoteRows m l.rows
  | .one row, h => (denotes_row row h).before denoteRows_nil
  | .more row l, h => (denotes_row row h.1).before (denoteRows_series l h.2)

end

/-! ## Calls -/

/-- The text of a row, read and evaluated, gives a list with the separator. -/
def GivesList (inner : Compiler) (r : Nat) (s : Session) (row : Row) (sep : Option Text) :
    Prop :=
  ∃ slot items p, (value inner row.text r).run s = (.ok (.list slot items), { s with pool := p }) ∧
    p.separators[slot]? = some sep

theorem givesList_literal {row : Row} (h : row.Literal) (hseveral : row.several = true) :
    GivesList inner r s row row.separator := by
  obtain ⟨v, p, hv, -, hstands⟩ := denotes_row (m := meaning inner r) row h s
  rw [hseveral] at hstands
  cases hstands with
  | list hslot => exact ⟨_, _, p, run_value row hv, hslot⟩

theorem givesList_call (hs : Leaves r s) {f : ListFunction} {routine : Routine} {l : Series}
    (hl : l.Literal) (hrows : 2 ≤ l.rows.length)
    (hfind : Library.find? f.text l.rows.length = some routine)
    (hrun : ∀ vs p,
      List.Forall₂ (fun row v => Pool.Stands p v row.several row.separator) l.rows vs →
      ∃ items sep, (routine.apply vs []).run p =
        (.ok (.list p.separators.size items), p.withList sep)) :
    GivesList inner r s (callRow f l) (some [',']) := by
  obtain ⟨vs, p, hvs, -, hall⟩ := denoteRows_series (m := meaning inner r) l hl s
  have hlength := hall.length_eq
  have hgrows := Pool.grows_withList p (some [','])
  obtain ⟨items, sep, hitems⟩ := hrun vs _ (hall.imp fun _ _ h => h.mono hgrows)
  have heval := eval_listCall (f := f) hs hvs (by omega) (hlength ▸ hfind) hitems
  rw [← Series.exprs_eq] at heval
  exact ⟨_, _, _, run_value (callRow f l) heval, Pool.getElem?_withList _ _⟩

theorem givesList_pair (inner : Compiler) (hs : Leaves r s) {f : ListFunction} {x y z : String}
    {body : Value → Value → Option Value → Calc Value}
    (hfind : ∀ {n : Nat}, n = 2 ∨ n = 3 → Library.find? f.text n = some (.ofTwoOrThree x y z body))
    (hbody : ∀ {p : Pool} {v w : Value} {m n : Bool} {sep sep' : Option Text} {g : Option Value},
      p.Stands v m sep → p.Stands w n sep' → (∀ u ∈ g, ∃ sep'', p.Stands u false sep'') →
        ∃ items sep'', (body v w g).run p =
          (.ok (.list p.separators.size items), p.withList sep''))
    {a b : Row} {c : Option Row} (ha : a.Literal) (hb : b.Literal)
    (hc : ∀ row ∈ c, row.Literal ∧ row.several = false) :
    GivesList inner r s (callRow f (.pair a b c)) (some [',']) := by
  cases c with
  | none =>
    refine givesList_call hs ⟨ha, hb⟩ (Nat.le_refl 2) (hfind (.inl rfl)) ?_
    rintro _ p (_ | ⟨hv, _ | ⟨hw, _ | _⟩⟩)
    exact hbody (g := none) hv hw (fun _ h => nomatch h)
  | some c =>
    obtain ⟨hc, halone⟩ := hc c rfl
    refine givesList_call hs ⟨ha, hb, hc⟩ (Nat.le_succ 2) (hfind (.inr rfl)) ?_
    rintro _ p (_ | ⟨hv, _ | ⟨hw, _ | ⟨hu, _ | _⟩⟩⟩)
    rw [halone] at hu
    refine hbody (g := some _) hv hw fun u h => ?_
    cases h
    exact ⟨_, hu⟩

theorem standing_at {p : Pool} {rows : List Row} {vs : List Value} {i : Nat}
    {row : Row}
    (h : List.Forall₂ (fun row v => p.Stands v row.several row.separator) rows vs)
    (hi : rows[i]? = some row) : ∃ v, vs[i]? = some v ∧ p.Stands v row.several row.separator := by
  induction h generalizing i with
  | nil => simp at hi
  | cons hfirst _ ih =>
    cases i with
    | zero =>
      cases hi
      exact ⟨_, rfl, hfirst⟩
    | succ i => exact ih hi

theorem givesList_nth (hs : Leaves r s) {l : Series} (hl : l.Literal)
    (hrows : 2 ≤ l.rows.length) {i : Nat} {row : Row} (hi : l.rows[i]? = some row)
    (hseveral : row.several = true) (hlt : i + 1 < 2 ^ 53) :
    GivesList inner r s
      (callRow .nth (.more (.one (.group l)) (.one (.one (.number (.ofNat (i + 1)))))))
      (some [',']) := by
  obtain ⟨vs, p, hvs, -, hall⟩ := denoteRows_series (m := meaning inner r) l hl s
  have hlength := hall.length_eq
  have hgroup := hvs.list (by omega)
  rw [← Series.exprs_eq] at hgroup
  have hyield : Yield (meaning inner r) s
      [(Phrase.Item.group l).expr, (Phrase.Item.number (.ofNat (i + 1))).expr] _ _ :=
    .cons hgroup (.cons (eval_ofNat _ _ (i + 1)) yield_nil)
  have hnumbered := Pool.grows_withList ((p.withList (some [','])).withNumber
    (Float.ofScientific (i + 1) false 0)) (some [','])
  have hlisted := (Pool.grows_withNumber (p.withList (some [','])) _).trans hnumbered
  obtain ⟨v, hv, hstands⟩ := standing_at hall hi
  rw [hseveral] at hstands
  have hnumber := run_shown_number (Nat.succ_pos i) hlt
    (hnumbered.quantity (Pool.getElem?_withNumber _ _))
  obtain ⟨items, hrun⟩ :=
    (hstands.mono ((Pool.grows_withList p (some [','])).trans hlisted)).run_nth
      (w := .number (p.withList (some [','])).quantities.size) hv
      (hlisted.separator (Pool.getElem?_withList p (some [',']))) hnumber hlt
  have heval := eval_listCall (f := .nth) hs hyield (Nat.le_refl 2) Library.find?_nth hrun
  exact ⟨_, _, _, run_value (callRow .nth (.more (.one (.group l)) _)) heval,
    Pool.getElem?_withList _ _⟩

/-- A list that is written down has the separator that it is written with, but what a function
makes of two lists, or finds in a list of lists, is separated by commas, whatever separators the
lists have and whatever separator is given. -/
theorem list_calls_separate_by_commas (inner : Compiler) (r : Nat) (s : Session)
    (hs : Leaves r s) :
    (∀ a : Row, a.Literal → a.several = true → GivesList inner r s a a.separator) ∧
    (∀ (a b : Row) (c : Option Row), a.Literal → b.Literal →
      (∀ row ∈ c, row.Literal ∧ row.several = false) →
        GivesList inner r s (callRow .join (.pair a b c)) (some [',']) ∧
        GivesList inner r s (callRow .append (.pair a b c)) (some [','])) ∧
    ∀ (l : Series) (i : Nat) (row : Row), l.Literal → 2 ≤ l.rows.length →
      l.rows[i]? = some row → row.several = true → i + 1 < 2 ^ 53 →
        GivesList inner r s
          (callRow .nth (.more (.one (.group l)) (.one (.one (.number (.ofNat (i + 1)))))))
          (some [',']) := by
  refine ⟨fun a ha hseveral => givesList_literal ha hseveral, fun a b c ha hb hc => ⟨?_, ?_⟩, ?_⟩
  · exact givesList_pair inner (f := .join) hs Library.find?_join Pool.Stands.run_join ha hb hc
  · exact givesList_pair inner (f := .append) hs Library.find?_append Pool.Stands.run_append ha hb
      hc
  · intro l i row hl hrows hi hseveral hlt
    exact givesList_nth hs hl hrows hi hseveral hlt

/-- A pair of letters with a blank between them. -/
def letterPair (c d : Char) (hc : startsName c = true) (hd : startsName d = true) : Row :=
  .more (.word (.letter c hc)) (.one (.word (.letter d hd)))

theorem list_calls_separate_pairs :
    let a := letterPair 'a' 'b' rfl rfl
    let b := letterPair 'c' 'd' rfl rfl
    let c : Row := .one (.word (.letter 'x' rfl))
    Leaves 0 {} ∧ (callRow .append (.pair a b (some c))).text = "append(a b, c d, x)".toList ∧
      GivesList (compiler 1) 0 {} (callRow .append (.pair a b (some c))) (some [',']) ∧
      GivesList (compiler 1) 0 {} (callRow .nth
        (.more (.one (.group (.more a (.one b)))) (.one (.one (.number (.ofNat (1 + 1)))))))
        (some [',']) := by
  intro a b c
  have hliteral : a.Literal ∧ b.Literal := ⟨⟨trivial, trivial⟩, trivial, trivial⟩
  obtain ⟨-, hcalls, hnth⟩ := list_calls_separate_by_commas (compiler 1) 0 {} leaves_empty
  refine ⟨leaves_empty, by decide +kernel, (hcalls a b (some c) hliteral.1 hliteral.2 ?_).2,
    hnth (.more a (.one b)) 1 b hliteral (Nat.le_refl 2) rfl rfl (by decide)⟩
  intro row hrow
  cases hrow
  exact ⟨trivial, rfl⟩

/-- Two lists without a separator do not make another one when they are joined. -/
theorem join_of_rows_not_row :
    let a := letterPair 'a' 'b' rfl rfl
    let b := letterPair 'c' 'd' rfl rfl
    (callRow .join (.pair a b none)).text = "join(a b, c d)".toList ∧
      GivesList (compiler 1) 0 {} a none ∧ GivesList (compiler 1) 0 {} b none ∧
      ¬ GivesList (compiler 1) 0 {} (callRow .join (.pair a b none)) none := by
  intro a b
  have ha : a.Literal := ⟨trivial, trivial⟩
  have hb : b.Literal := ⟨trivial, trivial⟩
  refine ⟨by decide +kernel, givesList_literal ha rfl, givesList_literal hb rfl, ?_⟩
  rintro ⟨slot, items, p, hrun, hslot⟩
  obtain ⟨slot', items', p', hrun', hslot'⟩ := givesList_pair (compiler 1) (f := .join)
    leaves_empty Library.find?_join Pool.Stands.run_join ha hb (c := none) (fun _ h => nomatch h)
  obtain ⟨hvalue, hsession⟩ := Prod.mk.inj (hrun.symm.trans hrun')
  cases hvalue
  cases congrArg Session.pool hsession
  rw [hslot] at hslot'
  cases hslot'

end Compile

end SheetPress
