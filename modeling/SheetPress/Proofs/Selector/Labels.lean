import SheetPress.Proofs.Selector.Names

/-!
# Labels of nodes

Rules are kept under labels: selectors joined by commas, and behind ` extends ` one selector that
they extend.  A label can be read back (`label_injective`), and putting selectors to a label in
normal form gives the label of all of them (`normalize_label`).
-/

set_option autoImplicit false

namespace SheetPress.Selector

open Text

/-- Selectors, and the one that they extend, if there is one. -/
def label (selectors : List Text) : (parent : Option Text) → Text
  | none => joinWith [','] selectors
  | some p => joinWith [','] selectors ++ (extendsMark ++ p)

theorem Compact.single {c : Text} (h : Compact c) : Single c where
  ne_nil := h.ne_nil
  neat := by rw [neat, squeeze_of_chars fun d hd => (h.chars d hd).1, h.tight.trim]
  comma := h.notMem.2.1
  amp := h.notMem.2.2

theorem Compact.bare {c : Text} (h : Compact c) : Bare c := by
  have hmark : extendsMark = " extends".toList ++ [' '] := rfl
  rw [Bare, squeeze_of_chars fun d hd => (h.chars d hd).1, contains_eq_false_iff]
  intro hstretch
  refine h.notMem.1 ?_
  rcases List.infix_concat_iff.mp hstretch with ⟨a, ha⟩ | hstretch
  · rw [hmark, ← List.append_assoc] at ha
    exact List.append_cancel_right ha ▸ List.mem_append_right a (by decide)
  · exact hstretch.subset (by decide)

section Labels

variable {cs ds : List Text} {p q : Text}

theorem extendsMark_eq : extendsMark = ' ' :: "extends ".toList := rfl

theorem blank_notMem_joinWith (hcs : ∀ c ∈ cs, Compact c) : ' ' ∉ joinWith [','] cs := by
  intro h
  rcases mem_joinWith h with h | ⟨c, hc, h⟩
  · exact absurd h (by decide)
  · exact (hcs c hc).notMem.1 h

theorem splitOn_joinWith_compact (hne : cs ≠ []) (hcs : ∀ c ∈ cs, Compact c) :
    Text.splitOn ',' (joinWith [','] cs) = cs :=
  splitOn_joinWith hne fun c hc => (hcs c hc).notMem.2.1

theorem cut?_label_none (hcs : ∀ c ∈ cs, Compact c) :
    cut? extendsMark (label cs none) = none := by
  rw [extendsMark_eq]
  exact cut?_eq_none_of_notMem (blank_notMem_joinWith hcs)

theorem cut?_label_some (hcs : ∀ c ∈ cs, Compact c) (p : Text) :
    cut? extendsMark (label cs (some p)) = some (joinWith [','] cs, p) := by
  rw [label, extendsMark_eq]
  exact cut?_append_of_notMem (blank_notMem_joinWith hcs)

theorem cutExtends_label (hcs : ∀ c ∈ cs, Compact c) (parent : Option Text) :
    cutExtends (label cs parent) = (joinWith [','] cs, parent.getD []) := by
  cases parent with
  | none =>
    rw [cutExtends, cut, cut?_label_none hcs]
    rfl
  | some p =>
    rw [cutExtends, cut, cut?_label_some hcs p]
    rfl

/-- A label tells its selectors and the one that they extend. -/
theorem label_injective (hcs : ∀ c ∈ cs, Compact c) (hds : ∀ d ∈ ds, Compact d) (hne : cs ≠ [])
    (hne' : ds ≠ []) {parent parent' : Option Text} (hp : ∀ p ∈ parent, p ≠ [])
    (hp' : ∀ p ∈ parent', p ≠ []) (h : label cs parent = label ds parent') :
    cs = ds ∧ parent = parent' := by
  have hcut := congrArg cutExtends h
  rw [cutExtends_label hcs, cutExtends_label hds, Prod.mk.injEq] at hcut
  constructor
  · rw [← splitOn_joinWith_compact hne hcs, hcut.1, splitOn_joinWith_compact hne' hds]
  · cases parent with
    | none =>
      cases parent' with
      | none => rfl
      | some q => exact absurd hcut.2.symm (hp' q rfl)
    | some p =>
      cases parent' with
      | none => exact absurd hcut.2 (hp p rfl)
      | some q => exact congrArg some hcut.2

/-! ## Reading -/

theorem read_squeeze_label (hne : cs ≠ []) (hcs : ∀ c ∈ cs, Compact c) {parent : Option Text}
    (hp : ∀ p ∈ parent, Compact p) :
    read (squeeze (label cs parent)) = (cs, parent.toList) := by
  have hneat : ∀ c ∈ cs, c ≠ [] ∧ neat c = c := fun c hc =>
    ⟨(hcs c hc).ne_nil, (hcs c hc).single.neat⟩
  have hplain : ∀ c ∈ cs, ',' ∉ c ∧ ¬ extendsMark <:+: squeeze c := fun c hc =>
    ⟨(hcs c hc).notMem.2.1, cut?_eq_none_iff.mp (cut?_of_bare (hcs c hc).bare)⟩
  cases parent with
  | none => rw [label, read_joined hne hplain, map_squeeze_of_neat hneat, filled_of_neat hneat,
      Option.toList_none]
  | some p =>
    have hparent := (hp p rfl).single
    rw [label, read_extending hne hplain (fun c hc => (hcs c (List.mem_of_getLast? hc)).bare)
      hparent.comma hparent.tight.head, map_squeeze_of_neat hneat, filled_of_neat hneat,
      hparent.neat, hparent.parts, Option.toList_some]

theorem normalize_label (hne : cs ≠ []) (hcs : ∀ c ∈ cs, Compact c) (hds : ∀ d ∈ ds, Compact d)
    {parent : Option Text} (hp : ∀ p ∈ parent, Compact p) :
    normalize (label cs parent) ds [] = label (sortedSet (cs ++ ds)) parent := by
  have hsorted : (sortedSet (cs ++ ds)).isEmpty = false := by
    have hboth : cs ++ ds ≠ [] := by simp [hne]
    simpa using sortedSet_ne_nil hboth
  have hnone : sortedSet [] = [] := by simp [sortedSet]
  have hds' : ∀ d ∈ ds, d ≠ [] ∧ neat d = d := fun d hd =>
    ⟨(hds d hd).ne_nil, (hds d hd).single.neat⟩
  rw [normalize, read_squeeze_label hne hcs hp, filled_of_neat hds']
  cases parent with
  | none => simp [write, hsorted, filled, hnone, label]
  | some p => simp [write, hsorted, filled, sortedSet_singleton, label, joinWith]

/-! ## Several parents -/

/-- A selector with those that it extends. -/
def extending (selector : Text) (parents : List Text) : Text :=
  if parents = [] then selector else selector ++ (extendsMark ++ joinWith ['&'] parents)

theorem extending_ne_nil (hp : p ≠ []) (ps : List Text) : extending p ps ≠ [] := by
  unfold extending
  split <;> simp [hp]

theorem cut?_extending (hp : Compact p) (ps : List Text) :
    cut? extendsMark (extending p ps) = if ps = [] then none else some (p, joinWith ['&'] ps) := by
  have hcs : ∀ x ∈ [p], Compact x := by simpa using hp
  have hjoin : joinWith [','] [p] = p := by simp [joinWith]
  unfold extending
  split
  · simpa [label, hjoin] using cut?_label_none hcs
  · simpa [label, hjoin] using cut?_label_some hcs (joinWith ['&'] ps)

theorem cutExtends_extending (hp : Compact p) (ps : List Text) :
    cutExtends (extending p ps) = (p, joinWith ['&'] ps) := by
  rw [cutExtends, cut, cut?_extending hp]
  split
  next hps => simp [extending, hps, joinWith]
  next => rfl

end Labels

end SheetPress.Selector
