import SheetPress.Proofs.Extend.Link

/-!
# The order of the rules

Rules are sorted by rank.  The rank of a rule is the number behind its position, or the first of
the positions that it has to come before, if that is less.  So a rule comes before another one
whose position it has to come before, as long as that one keeps its own place: a rule that has to
come before others moves up without those that wait for it.
-/

set_option autoImplicit false

namespace SheetPress.Compile

open List

variable {s v : Session} {r p c m n : Nat}

/-! ## Ranks -/

/-- What a rule is sorted by. -/
def rankOf (s : Session) (r : Nat) : Option Nat := (place (s.rules.getD r {})).position

theorem isLeast_least (n : Nat) (ns : List Nat) : IsLeast {k | k = n ∨ k ∈ ns} (least n ns) := by
  induction ns generalizing n with
  | nil => exact ⟨.inl rfl, by simp [least, lowerBounds]⟩
  | cons k ns ih =>
    obtain ⟨hmem, hle⟩ := ih (min n k)
    have hmin : least n (k :: ns) ≤ min n k := hle (.inl rfl)
    refine ⟨?_, ?_⟩
    · rcases hmem with h | h
      · have hone : least n (k :: ns) = n ∨ least n (k :: ns) = k := h ▸ min_choice n k
        exact hone.imp_right fun h => mem_cons.mpr (.inl h)
      · exact .inr (mem_cons_of_mem k h)
    · rintro j (rfl | hj)
      · exact hmin.trans (Nat.min_le_left _ k)
      · rcases mem_cons.mp hj with rfl | hj
        · exact hmin.trans (Nat.min_le_right n _)
        · exact hle (.inr hj)

/-- A placed rule has to come before the number behind its position too, and its new position is
the first of all that it has to come before. -/
theorem exists_place {rule : Rule} (hp : rule.position = some p) :
    ∃ m, (place rule).position = some m ∧ IsLeast {n | n ∈ (place rule).deps} m ∧
      ∀ n, n ∈ (place rule).deps ↔ n = p + 1 ∨ n ∈ rule.deps := by
  obtain ⟨deps, hplace, hmem⟩ : ∃ deps : List Nat,
      place rule = { rule with deps, position := some (least (p + 1) deps) } ∧
      ∀ n, n ∈ deps ↔ n = p + 1 ∨ n ∈ rule.deps := by
    refine ⟨if rule.deps.contains (p + 1) then rule.deps else rule.deps ++ [p + 1],
      by simp only [place, hp], fun n => ?_⟩
    split
    next h =>
      exact ⟨.inr, fun hn => hn.elim (fun heq => heq ▸ contains_iff_mem.mp h) id⟩
    next => rw [mem_append, mem_singleton, or_comm]
  have hset : {n | n ∈ deps} = {n | n = p + 1 ∨ n ∈ deps} := by
    ext n
    exact ⟨.inr, fun h => h.elim (fun heq => (hmem n).mpr (.inl heq)) id⟩
  rw [hplace]
  exact ⟨_, rfl, hset ▸ isLeast_least (p + 1) deps, hmem⟩

theorem rankOf_le (hp : positionOf s r = some p) (hn : n = p + 1 ∨ n ∈ depsOf s r) :
    ∃ m, rankOf s r = some m ∧ m ≤ n := by
  obtain ⟨m, hm, hleast, hdeps⟩ := exists_place hp
  exact ⟨m, hm, hleast.2 ((hdeps n).mpr hn)⟩

theorem lt_rankOf (hp : positionOf s r = some p) (hn : n ≤ p) (hdeps : ∀ d ∈ depsOf s r, n < d) :
    ∃ m, rankOf s r = some m ∧ n < m := by
  obtain ⟨m, hm, hleast, hmem⟩ := exists_place hp
  refine ⟨m, hm, ?_⟩
  rcases (hmem m).mp hleast.1 with rfl | h
  · exact Nat.lt_succ_of_le hn
  · exact hdeps m h

/-! ## Sorting -/

theorem comesBefore_trans (a b c : Option Nat) (hab : comesBefore a b = true)
    (hbc : comesBefore b c = true) : comesBefore a c = true := by
  cases a <;> cases b <;> cases c <;> simp_all [comesBefore]
  omega

theorem comesBefore_total (a b : Option Nat) : (comesBefore a b || comesBefore b a) = true := by
  cases a <;> cases b <;> simp [comesBefore]
  omega

theorem pairwise_ranked (rank : Nat → Option Nat) (l : List Nat) :
    (l.mergeSort fun a b => comesBefore (rank a) (rank b)).Pairwise
      fun a b => comesBefore (rank a) (rank b) = true :=
  pairwise_mergeSort (fun a b c => comesBefore_trans (rank a) (rank b) (rank c))
    (fun a b => comesBefore_total (rank a) (rank b)) l

theorem orderRules_eq (s : Session) :
    orderRules.run s = (.ok (), { s with
      rules := modifyAll s.order place s.rules
      order := s.order.mergeSort fun a b => comesBefore
        ((modifyAll s.order place s.rules).getD a {}).position
        ((modifyAll s.order place s.rules).getD b {}).position }) := by
  simp only [orderRules, Run.run_get_bind]
  rw [Run.bind_ok (run_modifyAll s.order place s)]
  rfl

/-- The rules will be in order when they have been placed. -/
def InOrder (s : Session) : Prop :=
  s.order.Pairwise fun a b => comesBefore
    ((modifyAll s.order place s.rules).getD a {}).position
    ((modifyAll s.order place s.rules).getD b {}).position = true

instance : DecidablePred InOrder := fun _ => inferInstanceAs (Decidable (List.Pairwise _ _))

theorem InOrder.run_orderRules (h : InOrder s) :
    orderRules.run s = (.ok (), { s with rules := modifyAll s.order place s.rules }) := by
  rw [orderRules_eq, mergeSort_of_pairwise h]

/-- The session after its rules have been sorted. -/
structure Ordered (s v : Session) : Prop where
  parts : v.parts = s.parts
  pool : v.pool = s.pool
  selectors : ∀ r, selectorsOf v r = selectorsOf s r
  perm : v.order.Perm s.order
  sorted : v.order.Pairwise fun a b => comesBefore (rankOf s a) (rankOf s b) = true

theorem run_orderRules (hnodup : s.order.Nodup) (hbound : ∀ r ∈ s.order, r < s.rules.size) :
    ∃ v, orderRules.run s = (.ok (), v) ∧ Ordered s v := by
  have hrank : ∀ r ∈ s.order, ((modifyAll s.order place s.rules).getD r {}).position = rankOf s r :=
    fun r hr => by rw [getD_modifyAll hr hnodup place s.rules (hbound r hr), rankOf]
  refine ⟨_, orderRules_eq s, rfl, rfl, fun r => ?_, mergeSort_perm _ _, ?_⟩
  · refine field_modifyAll Rule.selectors (fun rule => ?_) s.order s.rules r
    unfold place
    split <;> rfl
  · have hsorted := pairwise_ranked
      (fun r => ((modifyAll s.order place s.rules).getD r {}).position) s.order
    refine hsorted.imp_of_mem fun {a b} ha hb hab => ?_
    rwa [hrank a (mem_mergeSort.mp ha), hrank b (mem_mergeSort.mp hb)] at hab

/-- A rule of lower rank comes first. -/
theorem Ordered.sublist (h : Ordered s v) (hp : p ∈ s.order) (hc : c ∈ s.order)
    (hm : rankOf s p = some m) (hn : rankOf s c = some n) (hlt : m < n) :
    [p, c].Sublist v.order := by
  obtain ⟨front, back, hsplit⟩ := append_of_mem (h.perm.mem_iff.mpr hp)
  have hc' : c ∈ front ++ p :: back := hsplit ▸ h.perm.mem_iff.mpr hc
  have hne : c ≠ p := by
    rintro rfl
    rw [hm, Option.some.injEq] at hn
    omega
  have hback : c ∈ back := by
    rcases mem_append.mp hc' with hfront | hback
    · have hsorted := h.sorted
      rw [hsplit, pairwise_append] at hsorted
      have hle := hsorted.2.2 c hfront p (by simp)
      rw [hm, hn, comesBefore, decide_eq_true_eq] at hle
      omega
    · exact (mem_cons.mp hback).resolve_left hne
  rw [hsplit]
  exact (List.Sublist.cons_cons p (singleton_sublist.mpr hback)).trans
    (sublist_append_right front _)

/-! ## Ordering again -/

theorem position_place_place (rule : Rule) :
    (place (place rule)).position = (place rule).position := by
  cases hp : rule.position with
  | none => simp [place, hp]
  | some p =>
    obtain ⟨m, hm, hleast, -⟩ := exists_place hp
    obtain ⟨m', hm', hleast', hmem⟩ := exists_place hm
    have hle : m' ≤ m := hleast'.2 ((hmem m).mpr (.inr hleast.1))
    have hge : m ≤ m' := by
      rcases (hmem m').mp hleast'.1 with h | h
      · omega
      · exact hleast.2 h
    rw [hm', hm, Nat.le_antisymm hle hge]

/-- Every rule has the position at which it stands. -/
def Numbered (s : Session) : Prop := ∀ i r, s.order[i]? = some r → positionOf s r = some i

theorem Numbered.nodup (h : Numbered s) : s.order.Nodup := by
  rw [nodup_iff_getElem?_ne_getElem?]
  intro i j hij hj heq
  have hr := getElem?_eq_getElem hj
  have hi := h i _ (heq.trans hr)
  rw [h j _ hr] at hi
  exact absurd (Option.some.inj hi) (by omega)

theorem Numbered.lt_size (h : Numbered s) : ∀ r ∈ s.order, r < s.rules.size := by
  intro r hr
  obtain ⟨i, hi⟩ := mem_iff_getElem?.mp hr
  by_contra hge
  have hp := h i r hi
  simp [positionOf, Array.getD, hge] at hp

theorem pair_sublist {l : List Nat} {i j a b : Nat} (hij : i < j) (ha : l[i]? = some a)
    (hb : l[j]? = some b) : [a, b].Sublist l := by
  have ha' : a ∈ l.take j := mem_of_getElem? ((getElem?_take_of_lt hij).trans ha)
  have hb' : b ∈ l.drop j := mem_of_getElem? (i := 0) (getElem?_drop.trans hb)
  rw [← take_append_drop j l]
  exact (singleton_sublist.mpr ha').append (singleton_sublist.mpr hb')

/-- Ordering the rules keeps the order of any two of them, unless the second one has to come before
a position up to that of the first; and ordering them once more changes nothing. -/
theorem ordering_stable_idempotent (s : Session) (hs : Numbered s) :
    ∃ t, orderRules.run s = (.ok (), t) ∧ t.order.Perm s.order ∧
      (∀ i j a b, i < j → s.order[i]? = some a → s.order[j]? = some b →
        (∀ d ∈ depsOf s b, i < d) → [a, b].Sublist t.order) ∧
      ∃ u, orderRules.run t = (.ok (), u) ∧ u.order = t.order ∧
        ∀ r, positionOf u r = positionOf t r := by
  have hplaced : ∀ r ∈ s.order, (modifyAll s.order place s.rules).getD r {} =
      place (s.rules.getD r {}) := fun r hr =>
    getD_modifyAll hr hs.nodup place s.rules (hs.lt_size r hr)
  refine ⟨_, orderRules_eq s, List.mergeSort_perm _ _, fun i j a b hij ha hb hdeps => ?_, ?_⟩
  · obtain ⟨m, hm, hle⟩ := rankOf_le (hs i a ha) (Or.inl rfl)
    obtain ⟨n, hn, hlt⟩ := lt_rankOf (hs j b hb) hij.le hdeps
    refine List.pair_sublist_mergeSort (fun _ _ _ => comesBefore_trans _ _ _)
      (fun _ _ => comesBefore_total _ _) ?_ (pair_sublist hij ha hb)
    rw [hplaced a (List.mem_of_getElem? ha), hplaced b (List.mem_of_getElem? hb)]
    rw [rankOf] at hm hn
    simp only [hm, hn, comesBefore, decide_eq_true_eq]
    omega
  · obtain ⟨t, ht⟩ : ∃ t : Session, t = { s with
        rules := modifyAll s.order place s.rules
        order := s.order.mergeSort fun a b => comesBefore
          ((modifyAll s.order place s.rules).getD a {}).position
          ((modifyAll s.order place s.rules).getD b {}).position } := ⟨_, rfl⟩
    rw [← ht]
    have hperm : t.order.Perm s.order := ht ▸ List.mergeSort_perm _ _
    -- Placing the rules once more leaves their positions, so they are in order already.
    have hsame : ∀ r, ((modifyAll t.order place t.rules).getD r {}).position = positionOf t r := by
      intro r
      by_cases hr : r ∈ t.order
      · have hrule : t.rules.getD r {} = place (s.rules.getD r {}) := by
          rw [ht]
          exact hplaced r (hperm.mem_iff.mp hr)
        have hbound : r < t.rules.size := by
          rw [ht, size_modifyAll]
          exact hs.lt_size r (hperm.mem_iff.mp hr)
        rw [getD_modifyAll hr (hperm.nodup_iff.mpr hs.nodup) place _ hbound, positionOf, hrule,
          position_place_place]
      · rw [getD_modifyAll_of_notMem _ hr, positionOf]
    have hsorted : InOrder t := by
      simp only [InOrder, hsame, positionOf]
      rw [ht]
      exact pairwise_ranked
        (fun r => ((modifyAll s.order place s.rules).getD r {}).position) s.order
    exact ⟨_, hsorted.run_orderRules, rfl, hsame⟩

/-- Three rules of which the second has to come before the first. -/
def raised : Session where
  rules := #[{ position := some 0 }, { position := some 1, deps := [0] }, { position := some 2 }]
  order := [0, 1, 2]

theorem ordering_stable_idempotent_raised : ∃ t u, orderRules.run raised = (.ok (), t) ∧
    [0, 2].Sublist t.order ∧ orderRules.run t = (.ok (), u) ∧ u.order = t.order := by
  have hraised : Numbered raised := by
    rintro (_ | _ | _ | i) r h <;> cases h <;> rfl
  obtain ⟨t, ht, -, hstable, u, hu, horder, -⟩ := ordering_stable_idempotent raised hraised
  exact ⟨t, u, ht, hstable 0 2 0 2 (by decide) rfl rfl (by decide), hu, horder⟩

end SheetPress.Compile
