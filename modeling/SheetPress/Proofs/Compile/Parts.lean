import Mathlib
import SheetPress.Compile.Extend

/-!
# The table of nodes

What stands under a key after a node has been forgotten, added or moved to another key.  `Holds`
says in one which nodes there are and which rules they have.
-/

set_option autoImplicit false

namespace SheetPress.Parts

open List

section Keys

variable {k' : Text} {r : Nat}

variable (ps : Parts) (k x : Text) (rules : List Nat)

theorem rulesOf_cons (p : Text × List Nat) :
    rulesOf (p :: ps) x = if x = p.1 then p.2 else rulesOf ps x := by
  obtain ⟨key, rs⟩ := p
  by_cases h : x = key
  · simp [rulesOf, h]
  · have hne : (x == key) = false := by simpa using h
    simp [rulesOf, lookup_cons, h, hne]

theorem rulesOf_without : (ps.without k).rulesOf x = if x = k then [] else ps.rulesOf x := by
  induction ps with
  | nil => simp [without, rulesOf]
  | cons p ps ih =>
    unfold without at ih ⊢
    by_cases hp : p.1 = k
    · rw [filter_cons_of_neg (by simpa using hp), ih, rulesOf_cons, hp]
      split <;> rfl
    · rw [filter_cons_of_pos (by simpa using hp), rulesOf_cons, ih, rulesOf_cons]
      by_cases hx : x = p.1
      · simp [hx, hp]
      · simp [hx]

theorem rulesOf_add :
    (add k rules ps).rulesOf x = if x = k then ps.rulesOf k ++ rules else ps.rulesOf x := by
  induction ps with
  | nil =>
    unfold add
    rw [rulesOf_cons]
    simp [rulesOf]
  | cons p ps ih =>
    unfold add
    by_cases hp : p.1 = k
    · rw [if_pos hp, rulesOf_cons, rulesOf_cons, rulesOf_cons, if_pos hp.symm, hp]
      split <;> rfl
    · rw [if_neg hp, rulesOf_cons, ih, rulesOf_cons, rulesOf_cons, if_neg (Ne.symm hp)]
      by_cases hx : x = p.1
      · simp [hx, hp]
      · simp [hx]

theorem mem_keys_without :
    x ∈ (ps.without k).map Prod.fst ↔ x ≠ k ∧ x ∈ ps.map Prod.fst := by
  simp only [without, mem_map, mem_filter, bne_iff_ne]
  constructor
  · rintro ⟨p, ⟨hp, hne⟩, rfl⟩
    exact ⟨hne, p, hp, rfl⟩
  · rintro ⟨hne, p, hp, rfl⟩
    exact ⟨p, ⟨hp, hne⟩, rfl⟩

theorem mem_keys_add :
    x ∈ (add k rules ps).map Prod.fst ↔ x = k ∨ x ∈ ps.map Prod.fst := by
  induction ps with
  | nil => simp [add]
  | cons p ps ih =>
    by_cases h : p.1 = k
    · simp [add, h]
    · simp only [add, h, if_false, map_cons, mem_cons, ih]
      tauto

theorem nodup_keys_add (h : (ps.map Prod.fst).Nodup) : ((add k rules ps).map Prod.fst).Nodup := by
  induction ps with
  | nil => simp [add]
  | cons p ps ih =>
    rw [map_cons, nodup_cons] at h
    by_cases hp : p.1 = k
    · rw [add, if_pos hp, map_cons, nodup_cons]
      exact h
    · rw [add, if_neg hp, map_cons, nodup_cons, mem_keys_add, not_or]
      exact ⟨⟨hp, h.1⟩, ih h.2⟩

/-- Move the rules of a node to another key. -/
def move (k' : Text) : Parts := (ps.without k).add k' (ps.rulesOf k)

variable {k}

theorem rulesOf_move (h : k' ≠ k) :
    (ps.move k k').rulesOf x =
      if x = k' then ps.rulesOf k' ++ ps.rulesOf k else if x = k then [] else ps.rulesOf x := by
  rw [move, rulesOf_add, rulesOf_without, rulesOf_without, if_neg h]

theorem mem_rulesOf_move :
    r ∈ (ps.move k k').rulesOf x ↔
      x = k' ∧ r ∈ ps.rulesOf k ∨ x ≠ k ∧ r ∈ ps.rulesOf x := by
  rw [move, rulesOf_add]
  split
  next hx =>
    subst hx
    rw [mem_append, rulesOf_without]
    split
    next hx => simp [hx]
    next hx => simp [hx, or_comm]
  next hx =>
    rw [rulesOf_without]
    split
    next hk => simp [hk ▸ hx, hk]
    next hk => simp [hx, hk]

theorem mem_keys_move :
    x ∈ (ps.move k k').map Prod.fst ↔ x = k' ∨ x ≠ k ∧ x ∈ ps.map Prod.fst := by
  rw [move, mem_keys_add, mem_keys_without]

theorem nodup_keys_move (h : (ps.map Prod.fst).Nodup) :
    ((ps.move k k').map Prod.fst).Nodup := by
  refine nodup_keys_add _ _ _ ?_
  exact h.sublist (filter_sublist.map _)

theorem rulesOf_eq_nil (h : x ∉ ps.map Prod.fst) : ps.rulesOf x = [] := by
  induction ps with
  | nil => rfl
  | cons p ps ih =>
    rw [map_cons, mem_cons, not_or] at h
    rw [rulesOf_cons, if_neg h.1, ih h.2]

theorem mem_keys_of_mem_rulesOf (h : r ∈ ps.rulesOf x) : x ∈ ps.map Prod.fst := by
  by_contra hx
  rw [rulesOf_eq_nil _ _ hx] at h
  exact not_mem_nil h

/-! ## The rules of all nodes -/

/-- The rules of all nodes. -/
def filed : List Nat := ps.flatMap Prod.snd

theorem mem_filed_of_mem_rulesOf (h : r ∈ ps.rulesOf x) : r ∈ ps.filed := by
  induction ps with
  | nil => simp [rulesOf] at h
  | cons p ps ih =>
    rw [rulesOf_cons] at h
    rw [filed, flatMap_cons, mem_append]
    split at h
    · exact Or.inl h
    · exact Or.inr (ih h)

theorem mem_filed (hkeys : (ps.map Prod.fst).Nodup) :
    r ∈ ps.filed ↔ ∃ k, r ∈ ps.rulesOf k := by
  refine ⟨fun h => ?_, fun ⟨k, hk⟩ => mem_filed_of_mem_rulesOf ps k hk⟩
  induction ps with
  | nil => simp [filed] at h
  | cons p ps ih =>
    rw [map_cons, nodup_cons] at hkeys
    rw [filed, flatMap_cons, mem_append] at h
    rcases h with h | h
    · exact ⟨p.1, by rwa [rulesOf_cons, if_pos rfl]⟩
    · obtain ⟨k, hk⟩ := ih hkeys.2 h
      have hne : k ≠ p.1 := by
        rintro rfl
        rw [rulesOf_eq_nil _ _ hkeys.1] at hk
        exact not_mem_nil hk
      exact ⟨k, by rwa [rulesOf_cons, if_neg hne]⟩

theorem key_unique (h : ps.filed.Nodup) (hr : r ∈ ps.rulesOf k)
    (hr' : r ∈ ps.rulesOf k') : k = k' := by
  induction ps with
  | nil => simp [rulesOf] at hr
  | cons p ps ih =>
    rw [filed, flatMap_cons, nodup_append'] at h
    rw [rulesOf_cons] at hr hr'
    have hapart : r ∈ p.2 → ∀ x, r ∉ rulesOf ps x := fun hp x hx =>
      h.2.2 hp (mem_filed_of_mem_rulesOf ps x hx)
    split at hr
    next heq =>
      split at hr'
      next heq' => rw [heq, heq']
      next => exact absurd hr' (hapart hr k')
    next =>
      split at hr'
      next => exact absurd hr (hapart hr' k)
      next => exact ih h.2.1 hr hr'

theorem filed_add : (add k rules ps).filed.Perm (ps.filed ++ rules) := by
  induction ps with
  | nil => simp [add, filed]
  | cons p ps ih =>
    unfold filed at ih ⊢
    rw [add, flatMap_cons]
    split
    · rw [flatMap_cons, append_assoc, append_assoc]
      exact perm_append_comm.append_left _
    · rw [flatMap_cons, append_assoc]
      exact ih.append_left _

theorem filed_without (hkeys : (ps.map Prod.fst).Nodup) :
    (ps.rulesOf k ++ (ps.without k).filed).Perm ps.filed := by
  induction ps with
  | nil => simp [rulesOf, without, filed]
  | cons p ps ih =>
    rw [map_cons, nodup_cons] at hkeys
    unfold without filed at ih ⊢
    rw [rulesOf_cons]
    by_cases hp : p.1 = k
    · have hrest : ps.filter (fun q => q.1 != k) = ps := by
        rw [filter_eq_self]
        intro q hq
        have hne : q.1 ≠ k := fun heq => hkeys.1 (mem_map.mpr ⟨q, hq, heq.trans hp.symm⟩)
        simpa using hne
      rw [if_pos hp.symm, filter_cons_of_neg (by simpa using hp), hrest, flatMap_cons]
    · rw [if_neg (Ne.symm hp), filter_cons_of_pos (by simpa using hp), flatMap_cons,
        flatMap_cons]
      refine (perm_append_comm_assoc _ _ _).trans ?_
      exact (ih hkeys.2).append_left _

/-- Moving a node loses no rule and doubles none. -/
theorem filed_move (hkeys : (ps.map Prod.fst).Nodup) :
    (ps.move k k').filed.Perm ps.filed :=
  (filed_add _ _).trans (perm_append_comm.trans (filed_without ps hkeys))

end Keys

/-! ## What a table says -/

/-- What a table says: which nodes there are, and which rules they have. -/
structure Holds (ps : Parts) (key : Text → Prop) (rule : Text → Nat → Prop) : Prop where
  nodup : (ps.map Prod.fst).Nodup
  keys : ∀ k, k ∈ ps.map Prod.fst ↔ key k
  rules : ∀ k r, r ∈ ps.rulesOf k ↔ rule k r

namespace Holds

variable {ps : Parts} {key key' : Text → Prop} {rule rule' : Text → Nat → Prop}

theorem congr (h : Holds ps key rule) (hkeys : ∀ k, key' k ↔ key k)
    (hrules : ∀ k r, rule' k r ↔ rule k r) : Holds ps key' rule' :=
  ⟨h.nodup, fun k => (h.keys k).trans (hkeys k).symm,
    fun k r => (h.rules k r).trans (hrules k r).symm⟩

theorem empty : Holds [] (fun _ => False) fun _ _ => False := by
  refine ⟨?_, ?_, ?_⟩ <;> simp [rulesOf]

theorem key_of_rule (h : Holds ps key rule) {k : Text} {r : Nat} (hr : rule k r) : key k := by
  rw [← h.keys]
  by_contra hk
  rw [← h.rules, rulesOf_eq_nil _ _ hk] at hr
  exact not_mem_nil hr

theorem add (h : Holds ps key rule) (k : Text) (rules : List Nat) :
    Holds (ps.add k rules) (fun x => x = k ∨ key x) fun x r => rule x r ∨ x = k ∧ r ∈ rules := by
  refine ⟨nodup_keys_add _ _ _ h.nodup, fun x => ?_, fun x r => ?_⟩
  · rw [mem_keys_add, h.keys]
  · rw [rulesOf_add, ← h.rules]
    split
    next hx => simp [hx]
    next hx => simp [hx]

theorem without (h : Holds ps key rule) (k : Text) :
    Holds (ps.without k) (fun x => x ≠ k ∧ key x) fun x r => x ≠ k ∧ rule x r := by
  refine ⟨h.nodup.sublist (filter_sublist.map _), fun x => ?_, fun x r => ?_⟩
  · rw [mem_keys_without, h.keys]
  · rw [rulesOf_without, ← h.rules]
    split
    next hx => simp [hx]
    next hx => simp [hx]

theorem addAll (h : Holds ps key rule) (names : List Text) :
    Holds (names.foldl (fun ps n => ps.add n []) ps) (fun k => k ∈ names ∨ key k) rule := by
  induction names generalizing ps key with
  | nil => exact h.congr (by simp) (by simp)
  | cons name names ih =>
    have hadd : Holds (ps.add name []) (fun k => k = name ∨ key k) rule :=
      (h.add name []).congr (fun _ => Iff.rfl) (by simp)
    exact (ih hadd).congr (fun k => by simp [or_left_comm, or_assoc]) (by simp)

end Holds

end SheetPress.Parts
