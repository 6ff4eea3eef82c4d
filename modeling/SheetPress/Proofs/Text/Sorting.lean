import SheetPress.Proofs.Text.Cutting

/-!
# Sorted sets of texts

Byte order is a linear order, so that the distinct texts of a list have one sorted form:
`sortedSet` is the strictly increasing list with the same members, and depends on nothing else.
A list of texts can be read back from its joined form if no text has the separator in it.
-/

set_option autoImplicit false

namespace SheetPress.Text

open List

variable {xs : List Text}

/-! ## Byte order -/

/-- Characters by their codes. -/
def codeOrder (a b : Char) : Ordering := compare a.toNat b.toNat

theorem order_eq_compareLex (s t : Text) : order s t = List.compareLex codeOrder s t := by
  induction s generalizing t with
  | nil => cases t <;> rfl
  | cons a s ih =>
    cases t with
    | nil => rfl
    | cons b t =>
      simp only [order, List.compareLex_cons_cons, ← ih, codeOrder]
      cases compare a.toNat b.toNat <;> rfl

instance : Std.TransCmp codeOrder :=
  inferInstanceAs (Std.TransCmp (compareOn Char.toNat))

instance : Std.LawfulEqCmp codeOrder where
  compare_self := by simp [codeOrder]
  eq_of_compare := by
    intro a b h
    exact Char.toNat_inj.mp (Nat.compare_eq_eq.mp h)

instance : Std.TransCmp order := by
  have h : order = List.compareLex codeOrder := funext₂ order_eq_compareLex
  rw [h]
  infer_instance

instance : Std.LawfulEqCmp order := by
  have h : order = List.compareLex codeOrder := funext₂ order_eq_compareLex
  rw [h]
  infer_instance

/-! ## Sorted sets -/

/-- A list in byte order without repetitions. -/
def Increasing (xs : List Text) : Prop := xs.Pairwise fun s t => order s t = .lt

theorem Increasing.nodup (h : Increasing xs) : xs.Nodup := by
  refine List.Pairwise.imp ?_ h
  intro s t hlt heq
  have hself : order s s = .eq := Std.ReflCmp.compare_self
  rw [← heq, hself] at hlt
  exact Ordering.noConfusion hlt

theorem Increasing.ext {ys : List Text} (hx : Increasing xs) (hy : Increasing ys)
    (h : ∀ t, t ∈ xs ↔ t ∈ ys) : xs = ys := by
  have hperm : xs.Perm ys := (perm_ext_iff_of_nodup hx.nodup hy.nodup).mpr h
  refine hperm.eq_of_pairwise (fun s t _ _ hst hts => ?_) hx hy
  have hswap : order t s = (order s t).swap := Std.OrientedCmp.eq_swap
  rw [hswap, hst] at hts
  exact Ordering.noConfusion hts

theorem mem_insertSorted {s t : Text} :
    t ∈ insertSorted s xs ↔ t = s ∨ t ∈ xs := by
  induction xs with
  | nil => simp [insertSorted]
  | cons x xs ih =>
    cases h : order s x with
    | lt => simp [insertSorted, h]
    | eq =>
      obtain rfl := Std.LawfulEqCmp.eq_of_compare h
      simp [insertSorted, h]
    | gt =>
      simp only [insertSorted, h, mem_cons, ih]
      tauto

theorem Increasing.insertSorted (h : Increasing xs) (s : Text) :
    Increasing (insertSorted s xs) := by
  induction xs with
  | nil => exact pairwise_singleton _ s
  | cons x xs ih =>
    obtain ⟨hx, hxs⟩ := pairwise_cons.mp h
    cases hs : order s x with
    | lt =>
      rw [Text.insertSorted, hs]
      refine pairwise_cons.mpr ⟨fun t ht => ?_, h⟩
      rcases mem_cons.mp ht with rfl | ht
      · exact hs
      · exact Std.TransCmp.lt_trans hs (hx t ht)
    | eq => rwa [Text.insertSorted, hs]
    | gt =>
      rw [Text.insertSorted, hs]
      refine pairwise_cons.mpr ⟨fun t ht => ?_, ih hxs⟩
      rcases mem_insertSorted.mp ht with rfl | ht
      · exact Std.OrientedCmp.lt_of_gt hs
      · exact hx t ht

theorem mem_sortedSet {t : Text} : t ∈ sortedSet xs ↔ t ∈ xs := by
  induction xs with
  | nil => exact Iff.rfl
  | cons x xs ih => rw [sortedSet, foldr_cons, mem_insertSorted, mem_cons, ← ih, sortedSet]

theorem increasing_sortedSet (xs : List Text) : Increasing (sortedSet xs) := by
  induction xs with
  | nil => exact .nil
  | cons x xs ih => exact ih.insertSorted x

theorem sortedSet_congr {ys : List Text} (h : ∀ t, t ∈ xs ↔ t ∈ ys) :
    sortedSet xs = sortedSet ys :=
  (increasing_sortedSet xs).ext (increasing_sortedSet ys) fun t => by
    rw [mem_sortedSet, mem_sortedSet, h]

theorem sortedSet_ne_nil (h : xs ≠ []) : sortedSet xs ≠ [] := by
  obtain ⟨t, ht⟩ := exists_mem_of_ne_nil xs h
  exact ne_nil_of_mem (mem_sortedSet.mpr ht)

/-! ## Joined texts -/

theorem joinWith_cons_cons (sep s t : Text) (ts : List Text) :
    joinWith sep (s :: t :: ts) = s ++ (sep ++ joinWith sep (t :: ts)) := by
  simp [joinWith, intercalate_cons_cons]

theorem splitOn_joinWith {sep : Char} {ts : List Text} (hne : ts ≠ []) (h : ∀ t ∈ ts, sep ∉ t) :
    splitOn sep (joinWith [sep] ts) = ts := by
  induction ts with
  | nil => exact absurd rfl hne
  | cons s ts ih =>
    cases ts with
    | nil => simpa [joinWith] using splitOn_of_notMem (h s (by simp))
    | cons t ts =>
      rw [joinWith_cons_cons, singleton_append, splitOn_append _ (h s (by simp)),
        ih (by simp) fun u hu => h u (by simp [hu])]

theorem mem_joinWith {sep : Text} {ts : List Text} {c : Char} (h : c ∈ joinWith sep ts) :
    c ∈ sep ∨ ∃ t ∈ ts, c ∈ t := by
  induction ts with
  | nil => simp [joinWith] at h
  | cons s ts ih =>
    cases ts with
    | nil => exact Or.inr ⟨s, by simp, by simpa [joinWith] using h⟩
    | cons t ts =>
      rw [joinWith_cons_cons, mem_append, mem_append] at h
      rcases h with h | h | h
      · exact Or.inr ⟨s, by simp, h⟩
      · exact Or.inl h
      · rcases ih h with h | ⟨u, hu, h⟩
        · exact Or.inl h
        · exact Or.inr ⟨u, by simp [hu], h⟩

end SheetPress.Text
