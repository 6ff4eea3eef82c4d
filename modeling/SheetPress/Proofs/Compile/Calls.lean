import SheetPress.Proofs.Compile.Counting
import SheetPress.Proofs.Compile.Tables

/-!
# Calls of functions that a stylesheet defines

A definition is known under its name for every number of arguments that leaves only parameters
with a default over.  A call finds it by the number of its arguments without a name, and the code
sees each parameter as the argument in its place or as its default.  But the call looks for a name
with hyphens where it was written with underscores, and an argument with a name neither counts nor
reaches the parameter of that name: it is passed on without the sign of a variable.
-/

set_option autoImplicit false

namespace SheetPress.Compile

open List Run

/-! ## Definitions -/

/-- A definition is known for the numbers of arguments that leave only defaults over, where the
first parameter does not count. -/
theorem mem_aritiesFrom_iff (hasDefault : Text → Bool) (parameters : List Text) (k : Nat) :
    k ∈ aritiesFrom hasDefault parameters ↔ k ≤ parameters.length ∧
      ∀ p ∈ parameters.reverse.drop (max k 1), hasDefault p = true := by
  induction parameters with
  | nil => simp [aritiesFrom]
  | cons p rest ih =>
    rw [aritiesFrom, mem_cons, length_cons, reverse_cons]
    by_cases hall : rest.length + 1 ≤ max k 1
    · -- No parameter is left over, or the first one is the only one.
      have hnil : (rest.reverse ++ [p]).drop (max k 1) = [] :=
        drop_eq_nil_of_le (by simpa using hall)
      have hle : rest.length < k ∨ rest = [] ∧ k = 0 := by
        rw [← length_eq_zero_iff]
        omega
      rcases hle with hle | ⟨rfl, rfl⟩
      · have hnot : k ∉ aritiesFrom hasDefault rest := fun h => absurd (ih.mp h).1 (by omega)
        have hk : k ≠ 0 := by omega
        rw [hnil]
        split_ifs <;> simp [hnot, hk] <;> omega
      · cases hp : hasDefault p <;> simp [aritiesFrom]
    · have hle : max k 1 ≤ rest.length := by omega
      have hne : rest.isEmpty = false := by
        cases rest with
        | nil => simp at hle
        | cons q rest => rfl
      have hk : k ≠ rest.length + 1 := by omega
      have hk' : k ≤ rest.length := by omega
      rw [drop_append_of_le_length (by simpa using hle), forall_mem_append, hne]
      cases hp : hasDefault p with
      | true => simp [hk, hk', ih, hp, Nat.le_succ_of_le hk']
      | false => simp [hk, hp]

theorem definitionKey_injective (kind name : Text) : (definitionKey kind name).Injective := by
  intro k l h
  have hdigits : Text.ofNat k = Text.ofNat l := by simpa [definitionKey] using h
  have hvalue : ∀ n, Nat.ofDigitChars 10 (Text.ofNat n) 0 = n := fun _ =>
    Nat.ofDigitChars_ten_toDigits
  rw [← hvalue k, hdigits, hvalue l]

/-- Settings that are all set to the same are so in the end, and others stay. -/
theorem get?_foldl_set {key : Nat → Text} (hkey : key.Injective) (v : Setting) (k : Nat)
    (ks : List Nat) (d : Settings) : (ks.foldl (fun d n => d.set (key n) v) d).get? (key k) =
      if k ∈ ks then some v else d.get? (key k) := by
  induction ks generalizing d with
  | nil => simp
  | cons l ks ih =>
    rw [foldl_cons, ih]
    by_cases hkl : k = l
    · simp [hkl, get?_set_self]
    · simp [hkl, get?_set_of_ne d v (hkey.ne hkl)]

/-- The word that defines a function. -/
def functionWord : Text := "@function".toList

variable {s t : Session} {f : Frame} {line : Int} {head code : Text} {m : Mixin} {p : Pool}

/-- What a definition makes known. -/
def defined (f : Frame) (line : Int) (kind : Text) (m : Mixin) : Setting :=
  if kind == functionWord then .function ⟨m, f.rule, f.owner, f.scope, line⟩ else .mixin m

/-- The settings with a definition under its name, for each number of arguments. -/
def withDefinition (kind name : Text) (m : Mixin) (v : Setting) (d : Settings) : Settings :=
  (arities m.parameters fun q => m.defaults.any (·.1 == q)).foldl
    (fun d n => d.set (definitionKey kind name n) v) d

/-- A definition changes the settings of the rule that it stands in. -/
theorem run_define_read {kind : Text} (hhead : head ≠ [])
    (hread : (readMixin (variablesOf s f.rule) (readHead head).2 code).run s.pool = (.ok m, p)) :
    (define f line kind head code).run s =
      (modifySettings f.rule (withDefinition kind (readHead head).1 m
        (defined f line kind m))).run { s with pool := p } := by
  have hempty : head.isEmpty = false := by simpa using hhead
  have hmixin :
      (monadLift (readMixin (variablesOf s f.rule) (readHead head).2 code) : Run Mixin).run s =
        (.ok m, { s with pool := p }) := by
    change (ofCalc _).run s = _
    rw [run_ofCalc, hread]
  rw [define, hempty]
  simp only [Bool.false_eq_true, if_false, run_contextOf_bind]
  exact bind_ok hmixin

/-- All parameters behind so many have a default, where the first one does not count. -/
def Suffices (m : Mixin) (k : Nat) : Prop :=
  k ≤ m.parameters.length ∧ ∀ q ∈ m.parameters.drop (max k 1), m.defaults.any (·.1 == q) = true

instance : DecidablePred (Suffices m) := fun _ => instDecidableAnd

theorem settingOf_define (line : Int) (kind : Text) (hs : Placed f.rule s) (hhead : head ≠ [])
    (hread : (readMixin (variablesOf s f.rule) (readHead head).2 code).run s.pool = (.ok m, p))
    (k : Nat) :
    settingOf ((define f line kind head code).run s).2 f.rule
        (definitionKey kind (readHead head).1 k) =
      if Suffices m k then some (defined f line kind m)
      else settingOf s f.rule (definitionKey kind (readHead head).1 k) := by
  have hmem : (k ∈ arities m.parameters fun q => m.defaults.any (·.1 == q)) ↔ Suffices m k := by
    rw [arities, mem_aritiesFrom_iff, reverse_reverse, length_reverse, Suffices]
  rw [run_define_read hhead hread]
  refine (settingOf_modifySettings (s := { s with pool := p })
    ⟨hs.rule, hs.context, hs.settings⟩ _ _).trans ?_
  rw [withDefinition, get?_foldl_set (definitionKey_injective kind _)]
  exact if_congr hmem rfl rfl

/-- A definition is known for exactly the numbers of arguments that suffice; for others, what was
known stays.  A mixin that was not known before is not found if arguments are missing. -/
theorem definition_known_by_number (hs : Placed f.rule s) (hhead : head ≠ [])
    (hread : (readMixin (variablesOf s f.rule) (readHead head).2 code).run s.pool = (.ok m, p)) :
    (∀ kind k, settingOf ((define f line kind head code).run s).2 f.rule
        (definitionKey kind (readHead head).1 k) =
      if Suffices m k then some (defined f line kind m)
      else settingOf s f.rule (definitionKey kind (readHead head).1 k)) ∧
    ∀ t r, (∀ k, settingOf t r (definitionKey "@mixin".toList (readHead head).1 k) =
        settingOf ((define f line "@mixin".toList head code).run s).2 f.rule
          (definitionKey "@mixin".toList (readHead head).1 k)) →
      (∀ k, settingOf s f.rule (definitionKey "@mixin".toList (readHead head).1 k) = none) →
      ∀ args count, count ≤ m.parameters.length → ¬ Suffices m count →
        findMixin (t.settings.getD (t.rules.getD r {}).settings []) (readHead head).1 args count =
          none := by
  have hdefine := fun kind k => settingOf_define line kind hs hhead hread k
  refine ⟨hdefine, fun t r hlater hnone args count hcount hnot => ?_⟩
  have hget : ∀ k, max k 1 ≤ max count 1 →
      (t.settings.getD (t.rules.getD r {}).settings []).get?
        (definitionKey "@mixin".toList (readHead head).1 k) = none := by
    intro k hk
    refine (hlater k).trans ?_
    rw [hdefine, if_neg, hnone]
    rintro ⟨-, hall⟩
    refine hnot ⟨hcount, fun q hq => hall q ?_⟩
    rw [← Nat.add_sub_cancel' hk, ← drop_drop] at hq
    exact mem_of_mem_drop hq
  rw [findMixin, hget count le_rfl, hget 1 (by simp)]

/-- Two parameters, of which the second one has a default. -/
def twoParameters : Mixin :=
  ⟨["$a".toList, "$b".toList], [("$b".toList, .word ['x'])], .word "c:d;".toList⟩

theorem read_twoParameters : (readMixin (variablesOf oneRule 0) (readHead "f($a, $b: x)".toList).2
    "c:d;".toList).run oneRule.pool = (.ok twoParameters, {}) := by
  have hparameters : (readHead "f($a, $b: x)".toList).2 = ["$a".toList, " $b: x".toList] := by
    simp [readHead, Text.cut?, Text.after?, Text.unwrap, Text.splitArguments, Text.splitOn,
      Text.gatherBalanced, Text.balanced, Text.countOf]
  rw [hparameters]
  rfl

theorem definition_known_by_number_pair :
    let t := ((define ⟨0, 0, none, none⟩ 0 "@mixin".toList "f($a, $b: x)".toList "c:d;".toList).run
      oneRule).2
    settingOf t 0 (definitionKey "@mixin".toList ['f'] 1) = some (.mixin twoParameters) ∧
      settingOf t 0 (definitionKey "@mixin".toList ['f'] 3) = none := by
  have hknown := (@definition_known_by_number oneRule ⟨0, 0, none, none⟩ 0 _ _ _ _ placed_oneRule
    (by decide) read_twoParameters).1 "@mixin".toList
  exact ⟨hknown 1, hknown 3⟩

/-- A mixin whose only parameter has no default is also known without arguments. -/
theorem required_parameter_left_out :
    (settingOf ((define ⟨0, 0, none, none⟩ 0 "@mixin".toList "f($a)".toList "c:d;".toList).run
      oneRule).2 0 (definitionKey "@mixin".toList ['f'] 0)).isSome = true := by
  decide +kernel

/-! ## Bindings -/

section Bindings

variable {c d : Context} {q : Text}

theorem get?_update_of_notMem (h : ∀ p ∈ d, p.1 ≠ .name q) : (c.update d).get? q = c.get? q := by
  induction d generalizing c with
  | nil => rfl
  | cons p d ih =>
    have hne : Key.name q ≠ p.1 := (h p mem_cons_self).symm
    exact (ih fun p hp => h p (mem_cons_of_mem _ hp)).trans (Context.get?_set_of_ne c _ hne)

theorem get?_update_of_mem (h : ∃ v, (.name q, v) ∈ d) :
    ∃ v, (.name q, v) ∈ d ∧ (c.update d).get? q = some v := by
  induction d using List.reverseRecOn with
  | nil => simp at h
  | append_singleton d p ih =>
    have happend : c.update (d ++ [p]) = (c.update d).set p.1 p.2 := by
      rw [Context.update, foldl_append]
      rfl
    rw [happend]
    by_cases hp : .name q = p.1
    · exact ⟨p.2, by simp [hp], by rw [← hp, Context.get?_set_self]⟩
    · obtain ⟨v, hv, hget⟩ := ih (by
        obtain ⟨v, hv⟩ := h
        refine ⟨v, (mem_append.mp hv).resolve_right fun hlast => hp ?_⟩
        exact congrArg Prod.fst (mem_singleton.mp hlast))
      exact ⟨v, by simp [hv], (Context.get?_set_of_ne _ _ hp).trans hget⟩

/-- Bindings of texts are bindings of names. -/
def named (bindings : List (Text × Value)) : Context := bindings.map fun p => (.name p.1, p.2)

theorem mem_named {bindings : List (Text × Value)} {v : Value} :
    (.name q, v) ∈ named bindings ↔ (q, v) ∈ bindings := by
  simp [named]

theorem notMem_named {bindings : List (Text × Value)} (h : ∀ p ∈ bindings, p.1 ≠ q) :
    ∀ p ∈ named bindings, p.1 ≠ .name q := by
  intro p hp hpq
  obtain ⟨p', hp', rfl⟩ := mem_map.mp hp
  exact h p' hp' (Key.name.inj hpq)

end Bindings

/-- The variables that the code of a function sees. -/
def callContext (outer : Context) (m : Mixin) (ordered : List Value)
    (byName : List (Text × Value)) : Context :=
  ((outer.update (named m.defaults)).update (named (m.parameters.zip ordered))).update
    (named byName)

/-- Parameters are bound to the arguments in their places, or else to their defaults. -/
theorem get?_callContext (outer : Context) (ordered : List Value) {byName : List (Text × Value)}
    (hnodup : m.parameters.Nodup) (hnames : ∀ p ∈ byName, p.1 ∉ m.parameters) {i : Nat} {q : Text}
    (hq : m.parameters[i]? = some q) :
    (∀ v, ordered[i]? = some v → (callContext outer m ordered byName).get? q = some v) ∧
    (ordered[i]? = none → m.defaults.any (·.1 == q) = true →
      ∃ v, (q, v) ∈ m.defaults ∧ (callContext outer m ordered byName).get? q = some v) := by
  obtain ⟨hi, hqi⟩ := List.getElem?_eq_some_iff.mp hq
  have hmem : q ∈ m.parameters := mem_of_getElem? hq
  have hplace : ∀ v, (q, v) ∈ m.parameters.zip ordered → ordered[i]? = some v := by
    intro v hv
    obtain ⟨j, hj, hjv⟩ := mem_iff_getElem.mp hv
    rw [getElem_zip, Prod.mk.injEq] at hjv
    have hij : j = i := (List.Nodup.getElem_inj_iff hnodup).mp (hjv.1.trans hqi.symm)
    subst hij
    exact List.getElem?_eq_some_iff.mpr ⟨_, hjv.2⟩
  have hlast : (callContext outer m ordered byName).get? q =
      ((outer.update (named m.defaults)).update (named (m.parameters.zip ordered))).get? q :=
    get?_update_of_notMem (notMem_named fun p hp h => hnames p hp (h ▸ hmem))
  rw [hlast]
  constructor
  · intro v hv
    have hzip : (q, v) ∈ m.parameters.zip ordered := by
      refine mem_of_getElem? (i := i) ?_
      rw [List.getElem?_zip_eq_some]
      exact ⟨hq, hv⟩
    obtain ⟨w, hw, hget⟩ := get?_update_of_mem (c := outer.update (named m.defaults))
      ⟨v, mem_named.mpr hzip⟩
    rw [hget, ← hv, hplace w (mem_named.mp hw)]
  · intro hnone hdefault
    rw [get?_update_of_notMem (notMem_named fun p hp h => ?_)]
    · obtain ⟨⟨q', v⟩, hv, hqv⟩ := any_eq_true.mp hdefault
      obtain rfl : q' = q := by simpa using hqv
      obtain ⟨w, hw, hget⟩ := get?_update_of_mem (c := outer) ⟨v, mem_named.mpr hv⟩
      exact ⟨w, mem_named.mp hw, hget⟩
    · rw [hplace p.2 (h ▸ hp)] at hnone
      cases hnone

/-! ## Calls -/

/-- The session in which the code of a function is worked on: there is a new rule for it, behind all
others. -/
def calling (s : Session) (r : Nat) (g : FunctionDef) (c : Context) : Session :=
  { s with
    contexts := s.contexts.push c
    settings := s.settings.push (s.settings.getD (s.rules.getD g.rule {}).settings [])
    sinks := s.sinks.push []
    rules := s.rules.push
      { s.rules.getD r {} with
        context := s.contexts.size, settings := s.settings.size, deps := []
        sink := some s.sinks.size, line := g.line } }

/-- Work on the code of a function, and take what it returns. -/
def runBody (inner : Compiler) (f : Frame) (code : Text) : Run Value := do
  inner.work f code
  return (((← Run.settingsOf f.rule).get? "@return".toList).map Setting.toValue).getD (.word [])

/-- The frame of the code of a function. -/
def callFrame (s : Session) (r : Nat) (g : FunctionDef) : Frame :=
  ⟨s.rules.size, g.owner, some (g.scope.getD []), (s.rules.getD r {}).media⟩

theorem run_runFunction (inner : Compiler) (r : Nat) {g : FunctionDef} {ordered : List Value}
    {byName : List (Text × Value)} {body : Text} (s : Session) (hbody : g.mixin.body = .word body)
    (hlength : ordered.length ≤ g.mixin.parameters.length) (hnames : ∀ p ∈ byName, p.1 ≠ ['R']) :
    (runFunction inner r g ordered byName).run s =
      (runBody inner (callFrame s r g) body).run
        (calling s r g (callContext (variablesOf s g.rule) g.mixin ordered byName)) := by
  have hany : byName.any (·.1 == ['R']) = false := by simpa using fun a b h => hnames (a, b) h
  have hlong : ¬ g.mixin.parameters.length < ordered.length := Nat.not_lt.mpr hlength
  simp only [runFunction, hany, Bool.false_eq_true, if_false, run_contextOf_bind, hlong, hbody]
  rfl

theorem run_callWith (inner : Compiler) {r : Nat} {name : Text} {arguments : Listing}
    {g : FunctionDef} (otherwise : Run Value) (hname : '_' ∉ name)
    (hknown : settingOf t r (definitionKey functionWord name
      (orderedArguments arguments.items).length) = some (.function g)) {v : Value} {u : Session}
    (hrun : (runFunction inner r g (orderedArguments arguments.items)
      (namedArguments arguments.items)).run t = (.ok v, u)) :
    ∃ q, (callWith inner r name arguments otherwise).run t = (.ok v, { u with pool := q }) := by
  have hsame : name.map (fun c => if c == '_' then '-' else c) = name := by
    refine (map_congr_left fun c hc => ?_).trans (map_id name)
    have hne : c ≠ '_' := fun h => hname (h ▸ hc)
    simp [hne]
  have happly : (applyFunction inner r name (orderedArguments arguments.items)
      (namedArguments arguments.items)).run t = (.ok v, u) := by
    have hget : (t.settings.getD (t.rules.getD r {}).settings []).get?
        (definitionKey "@function".toList name (orderedArguments arguments.items).length) =
        some (.function g) := hknown
    rw [applyFunction, run_settingsOf_bind, hget]
    exact hrun
  unfold callWith
  dsimp only
  rw [hsame]
  have hattempt : ∀ x : Run Value, (attempt x).run t = (kept (x.run t).1, (x.run t).2) :=
    fun _ => rfl
  rw [run_bind, hattempt, bind_ok happly]
  -- Only a list takes over a separator.
  cases v with
  | list slot items =>
    cases arguments.separator with
    | none => exact ⟨_, rfl⟩
    | some separator => cases arguments.items.isEmpty <;> exact ⟨_, rfl⟩
  | _ => exact ⟨_, rfl⟩

/-- Where a function was defined and its name has no underscores, a call whose arguments without a
name cover the parameters without a default works on its code, and there each parameter is the
argument in its place or its default. -/
theorem defined_function_is_called (inner : Compiler) (hs : Placed f.rule s) (hhead : head ≠ [])
    (hread : (readMixin (variablesOf s f.rule) (readHead head).2 code).run s.pool = (.ok m, p))
    {body : Text} (hbody : m.body = .word body) (hname : '_' ∉ (readHead head).1)
    (hnodup : m.parameters.Nodup) {required optional : List Text}
    (hparameters : m.parameters = required ++ optional)
    (hdefaults : ∀ q ∈ optional, m.defaults.any (·.1 == q) = true) {r : Nat}
    (hlater : ∀ k, settingOf t r (definitionKey functionWord (readHead head).1 k) =
      settingOf ((define f line functionWord head code).run s).2 f.rule
        (definitionKey functionWord (readHead head).1 k)) {arguments : Listing}
    (hcover : required.length ≤ (orderedArguments arguments.items).length)
    (hmost : (orderedArguments arguments.items).length ≤ m.parameters.length)
    (hnames : ∀ q ∈ namedArguments arguments.items, q.1 ∉ m.parameters ∧ q.1 ≠ ['R'])
    (otherwise : Run Value) :
    let ordered := orderedArguments arguments.items
    let c := callContext (variablesOf t f.rule) m ordered (namedArguments arguments.items)
    let g : FunctionDef := ⟨m, f.rule, f.owner, f.scope, line⟩
    (∀ (i : Nat) (q : Text), m.parameters[i]? = some q →
      (∀ v, ordered[i]? = some v → c.get? q = some v) ∧
      (ordered[i]? = none → ∃ v, (q, v) ∈ m.defaults ∧ c.get? q = some v)) ∧
    ∀ v u, (runBody inner (callFrame t r g) body).run (calling t r g c) = (.ok v, u) →
      ∃ pool, (callWith inner r (readHead head).1 arguments otherwise).run t =
        (.ok v, { u with pool }) := by
  intro ordered c g
  constructor
  · intro i q hq
    obtain ⟨hgiven, husual⟩ := get?_callContext (variablesOf t f.rule) ordered
      hnodup (fun p hp => (hnames p hp).1) hq
    refine ⟨hgiven, fun hnone => husual hnone (hdefaults q ?_)⟩
    have hi : required.length ≤ i := Nat.le_trans hcover (List.getElem?_eq_none_iff.mp hnone)
    rw [hparameters, List.getElem?_append_right hi] at hq
    exact List.mem_of_getElem? hq
  · intro v u hrun
    have hsuffices : Suffices m ordered.length := by
      refine ⟨hmost, fun q hq => hdefaults q ?_⟩
      rw [hparameters, drop_append, drop_eq_nil_of_le (le_max_of_le_left hcover),
        nil_append] at hq
      exact mem_of_mem_drop hq
    have hknown : settingOf t r (definitionKey functionWord (readHead head).1 ordered.length) =
        some (.function g) := by
      rw [hlater, settingOf_define line functionWord hs hhead hread, if_pos hsuffices]
      rfl
    refine run_callWith inner otherwise hname hknown (Eq.trans ?_ hrun)
    exact run_runFunction inner r t hbody hmost fun p hp => (hnames p hp).2

theorem defined_function_is_called_once :
    (callContext (variablesOf ((define ⟨0, 0, none, none⟩ 0 functionWord "f($a, $b: x)".toList
      "c:d;".toList).run oneRule).2 0) twoParameters [.word ['y']] []).get? "$a".toList =
      some (.word ['y']) := by
  have hcalled := @defined_function_is_called oneRule _ ⟨0, 0, none, none⟩ 0
    "f($a, $b: x)".toList "c:d;".toList twoParameters {} (compiler 0) placed_oneRule (by decide)
    read_twoParameters "c:d;".toList rfl (by decide) (by decide) ["$a".toList] ["$b".toList] rfl
    (by decide) 0 (fun _ => rfl) ⟨none, [(.index 0, .word ['y'])]⟩ (by decide) (by decide)
    (by decide) (pure .nothing)
  exact (hcalled.1 0 _ rfl).1 _ rfl

/-- A function whose name is written with an underscore is defined, but the call does not find it
and falls back. -/
theorem underscored_function_is_not_found :
    ((callWith (compiler 1) 0 "a_b".toList ⟨none, []⟩ (throw .missingPart)).run
      ((define ⟨0, 0, none, none⟩ 0 functionWord "a_b()".toList "@return c;".toList).run
        oneRule).2).1.isOk = false := by
  decide +kernel

end SheetPress.Compile
