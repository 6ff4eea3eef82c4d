import SheetPress.Proofs.Text.Sorting

/-!
# Pieces of texts

A text falls into pieces at a separator (`splitOn_induct`).  The pieces of two texts that are put
together are those of both, only that the last piece of the first and the first of the second make
one (`exists_splitOn_append`).  A mark without the separator is found in a text only if it is found
in one of the pieces.
-/

set_option autoImplicit false

namespace SheetPress.Text

open List

variable {a b s : Text} {c sep : Char}

/-! ## Marks -/

theorem cut?_append_self (mark b : Text) : cut? mark (mark ++ b) = some ([], b) := by
  have hafter := after?_append mark b
  rcases hs : mark ++ b with _ | ⟨c, r⟩
  · rw [append_eq_nil_iff] at hs
    simp [hs, cut?]
  · rw [hs] at hafter
    rw [cut?, hafter]

variable {mark : Text}

theorem contains_iff : contains s mark = true ↔ mark <:+: s := by
  constructor
  · intro h
    obtain ⟨⟨a, b⟩, hcut⟩ := Option.isSome_iff_exists.mp h
    exact ⟨a, b, by rw [eq_append_of_cut? hcut, append_assoc]⟩
  · rintro ⟨a, b, rfl⟩
    rw [append_assoc]
    induction a with
    | nil => simp [contains, cut?_append_self]
    | cons c a ih => exact contains_cons c ih

theorem contains_eq_false_iff : contains s mark = false ↔ ¬ mark <:+: s := by
  rw [← contains_iff, Bool.not_eq_true]

theorem cut?_eq_none_iff : cut? mark s = none ↔ ¬ mark <:+: s := by
  rw [← contains_iff, contains, Option.not_isSome_iff_eq_none]

/-- Whether a text starts with a mark shows in as many characters as the mark has. -/
theorem after?_append_of_le {x : Text} (h : mark.length ≤ x.length) (y : Text) :
    after? mark (x ++ y) = (after? mark x).map (· ++ y) := by
  induction mark generalizing x with
  | nil => simp [after?]
  | cons m mark ih =>
    cases x with
    | nil => simp at h
    | cons c x =>
      simp only [cons_append, after?]
      split
      · exact ih (by simpa using h)
      · rfl

theorem cut?_cons_eq_some {d : Char} :
    cut? mark (c :: s) = some (d :: a, b) ↔
      c = d ∧ after? mark (c :: s) = none ∧ cut? mark s = some (a, b) := by
  rw [cut?]
  cases after? mark (c :: s) with
  | some rest => simp
  | none =>
    simp only [Option.map_eq_some_iff, Prod.mk.injEq, List.cons.injEq, true_and]
    constructor
    · rintro ⟨⟨a', b'⟩, hcut, ⟨rfl, rfl⟩, rfl⟩
      exact ⟨rfl, hcut⟩
    · rintro ⟨rfl, hcut⟩
      exact ⟨(a, b), hcut, ⟨rfl, rfl⟩, rfl⟩

/-- Where a text is cut depends on nothing behind the mark. -/
theorem cut?_of_cut? (h : cut? mark s = some (a, b)) (b' : Text) :
    cut? mark (a ++ (mark ++ b')) = some (a, b') := by
  induction a generalizing s with
  | nil => exact cut?_append_self mark b'
  | cons c a ih =>
    obtain rfl := eq_append_of_cut? h
    rw [cons_append] at h ⊢
    obtain ⟨-, hafter, hcut⟩ := cut?_cons_eq_some.mp h
    refine cut?_cons_eq_some.mpr ⟨rfl, ?_, ih hcut⟩
    have hle : mark.length ≤ (c :: (a ++ mark)).length := by simp; omega
    have hold := after?_append_of_le hle b
    have hnew := after?_append_of_le hle b'
    simp only [cons_append, append_assoc] at hold hnew
    rw [hafter, eq_comm, Option.map_eq_none_iff] at hold
    rw [hnew, hold, Option.map_none]

/-- A text is cut at the first place where the mark is found. -/
theorem length_le_of_cut? {a' b' : Text} (h : cut? mark s = some (a, b))
    (hs : s = a' ++ (mark ++ b')) : a.length ≤ a'.length := by
  induction a' generalizing s a with
  | nil =>
    rw [hs, nil_append, cut?_append_self, Option.some.injEq, Prod.mk.injEq] at h
    simp [← h.1]
  | cons c a' ih =>
    cases a with
    | nil => simp
    | cons d a =>
      rw [hs, cons_append, cut?_cons_eq_some] at h
      simpa using ih h.2.2 rfl

/-- The mark is not found before the place of the cut. -/
theorem not_infix_of_cut? (hmark : mark ≠ []) (h : cut? mark s = some (a, b)) : ¬ mark <:+: a := by
  rintro ⟨u, v, rfl⟩
  have hs : s = u ++ (mark ++ (v ++ (mark ++ b))) := by
    rw [eq_append_of_cut? h]
    simp
  have hle := length_le_of_cut? h hs
  have hpos := length_pos_of_ne_nil hmark
  simp only [length_append] at hle
  omega

/-- What stands behind a text does not change where it is cut. -/
theorem cut?_append (h : cut? mark s = some (a, b)) (r : Text) :
    cut? mark (s ++ r) = some (a, b ++ r) := by
  rw [eq_append_of_cut? h, append_assoc, append_assoc]
  exact cut?_of_cut? h (b ++ r)

/-- A text is cut at a mark behind a character that the mark does not have, unless the mark is found
before that character. -/
theorem cut?_append_cons_iff (hmark : mark ≠ []) (hc : c ∉ mark) :
    cut? mark (a ++ c :: (mark ++ b)) = some (a ++ [c], b) ↔ ¬ mark <:+: a := by
  refine ⟨fun h hfound => not_infix_of_cut? hmark h
    (hfound.trans (prefix_append a [c]).isInfix), fun h => ?_⟩
  have hafter : ∀ x : Text, ¬ mark <:+: x → after? mark (x ++ c :: (mark ++ b)) = none := by
    intro x hx
    refine Option.eq_none_iff_forall_ne_some.mpr fun rest hrest => ?_
    have heq := eq_append_of_after? hrest
    rcases append_eq_append_iff.mp heq with ⟨y, hy, hz⟩ | ⟨y, hy, -⟩
    · cases y with
      | nil =>
        rw [append_nil] at hy
        exact hx (hy ▸ infix_rfl)
      | cons d y =>
        obtain ⟨hd, -⟩ := List.cons.inj hz
        exact hc (by rw [hy, hd]; simp)
    · exact hx (hy ▸ (prefix_append mark y).isInfix)
  induction a with
  | nil =>
    have hnone := hafter [] (by simpa using hmark)
    simp only [nil_append] at hnone ⊢
    rw [cut?, hnone, cut?_append_self]
    rfl
  | cons d a ih =>
    have hnone := hafter (d :: a) h
    simp only [cons_append] at hnone ⊢
    exact cut?_cons_eq_some.mpr ⟨rfl, hnone, ih fun hfound => h (infix_cons hfound)⟩

/-- A mark is found on one side of a character that it does not have. -/
theorem infix_append_cons (hc : c ∉ mark) (h : mark <:+: a ++ c :: b) :
    mark <:+: a ∨ mark <:+: b := by
  obtain ⟨u, v, h⟩ := h
  rcases append_eq_append_iff.mp h with ⟨x, ha, -⟩ | ⟨x, hx, hb⟩
  · exact Or.inl ⟨u, x, ha.symm⟩
  · cases x with
    | nil => exact Or.inl ⟨u, [], by simpa using hx⟩
    | cons d x =>
      obtain ⟨rfl, rfl⟩ := List.cons.inj hb
      -- The character stands before the mark, which is found behind it then.
      rcases append_eq_append_iff.mp hx with ⟨y, -, hmark⟩ | ⟨y, hu, hmark⟩
      · exact absurd (by simp [hmark]) hc
      · cases y with
        | nil =>
          rw [nil_append] at hmark
          exact absurd (hmark ▸ mem_cons_self) hc
        | cons e y =>
          obtain ⟨rfl, rfl⟩ := List.cons.inj hmark
          exact Or.inr ⟨y, v, rfl⟩

/-! ## Pieces -/

/-- A text has no separator, or a piece before its first one. -/
theorem splitOn_induct {motive : Text → Prop} (sep : Char) (single : ∀ s, sep ∉ s → motive s)
    (more : ∀ a b, sep ∉ a → motive b → motive (a ++ sep :: b)) (s : Text) : motive s := by
  induction hn : s.length using Nat.strong_induction_on generalizing s with
  | _ n ih =>
    by_cases hs : sep ∈ s
    · obtain ⟨a, b, rfl, ha⟩ := eq_append_cons_of_mem hs
      exact more a b ha (ih b.length (by simp [← hn]; omega) b rfl)
    · exact single s hs

theorem splitOn_ne_nil (sep : Char) (t : Text) : splitOn sep t ≠ [] := by
  unfold splitOn
  split
  · simp
  · split
    · simp
    · split <;> simp

theorem splitOn_append_cons (sep : Char) (a b : Text) :
    splitOn sep (a ++ sep :: b) = splitOn sep a ++ splitOn sep b := by
  induction a using splitOn_induct sep with
  | single a ha => rw [splitOn_append b ha, splitOn_of_notMem ha, singleton_append]
  | more x y hx ih =>
    rw [append_assoc, cons_append, splitOn_append _ hx, splitOn_append _ hx, ih,
      cons_append]

theorem splitOn_append_of_notMem {x y first : Text} {rest : List Text}
    (hx : sep ∉ x) (hy : splitOn sep y = first :: rest) :
    splitOn sep (x ++ y) = (x ++ first) :: rest := by
  induction x with
  | nil => exact hy
  | cons c x ih =>
    simp only [mem_cons, not_or] at hx
    rw [cons_append, splitOn, if_neg (Ne.symm hx.1), ih hx.2]
    rfl

/-- The last piece of a text goes on with the first one of the text behind it. -/
theorem exists_splitOn_append (sep : Char) (a : Text) :
    ∃ init last, splitOn sep a = init ++ [last] ∧ ∀ {b first rest},
      splitOn sep b = first :: rest → splitOn sep (a ++ b) = init ++ (last ++ first) :: rest := by
  induction a using splitOn_induct sep with
  | single a ha => exact ⟨[], a, splitOn_of_notMem ha, fun hb => splitOn_append_of_notMem ha hb⟩
  | more x y hx ih =>
    obtain ⟨init, last, hy, happend⟩ := ih
    refine ⟨x :: init, last, by rw [splitOn_append _ hx, hy, cons_append], fun hb => ?_⟩
    rw [append_assoc, cons_append, splitOn_append _ hx, happend hb, cons_append]

theorem infix_of_mem_splitOn {p : Text} (h : p ∈ splitOn sep s) : p <:+: s := by
  induction s using splitOn_induct sep with
  | single s hs =>
    rw [splitOn_of_notMem hs, mem_singleton] at h
    exact h ▸ infix_rfl
  | more a b ha ih =>
    rw [splitOn_append _ ha, mem_cons] at h
    rcases h with rfl | h
    · exact ⟨[], sep :: b, rfl⟩
    · exact (ih h).trans ⟨a ++ [sep], [], by simp⟩

theorem infix_trim (t : Text) : trim t <:+: t := by
  obtain ⟨a, b, -, -, ht⟩ := exists_trim t
  exact ⟨a, b, by rw [append_assoc, ← ht]⟩

/-- A mark without the separator is found in one of the pieces. -/
theorem exists_infix_splitOn (hsep : sep ∉ mark) (h : mark <:+: s) :
    ∃ p ∈ splitOn sep s, mark <:+: p := by
  induction s using splitOn_induct sep with
  | single s hs => exact ⟨s, by simp [splitOn_of_notMem hs], h⟩
  | more a b ha ih =>
    rw [splitOn_append _ ha]
    rcases infix_append_cons hsep h with h | h
    · exact ⟨a, by simp, h⟩
    · obtain ⟨p, hp, hmark⟩ := ih h
      exact ⟨p, by simp [hp], hmark⟩

theorem splitOn_joinWith_flatMap {ts : List Text} (hne : ts ≠ []) :
    splitOn sep (joinWith [sep] ts) = ts.flatMap (splitOn sep) := by
  induction ts with
  | nil => exact absurd rfl hne
  | cons s ts ih =>
    cases ts with
    | nil => simp [joinWith]
    | cons t ts =>
      rw [joinWith_cons_cons, singleton_append, splitOn_append_cons, ih (by simp)]
      rfl

theorem joinWith_splitOn (sep : Char) (t : Text) : joinWith [sep] (splitOn sep t) = t := by
  induction t using splitOn_induct sep with
  | single t ht => simp [splitOn_of_notMem ht, joinWith]
  | more a b ha ih =>
    obtain ⟨first, rest, hrest⟩ := exists_cons_of_ne_nil (splitOn_ne_nil sep b)
    rw [splitOn_append _ ha, hrest, joinWith_cons_cons, ← hrest, ih, singleton_append]

end SheetPress.Text
