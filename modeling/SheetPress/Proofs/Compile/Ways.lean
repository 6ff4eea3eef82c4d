import Mathlib.Data.List.Dedup
import Mathlib.Data.List.Perm.Subperm
import Mathlib.Logic.Relation
import SheetPress.Compile.Interpolate

/-!
# Ways from variable to variable

A variable may hold a word that is the name of a variable again.  `Ends` says how many steps the way
from a word takes, `Circles` that it runs into variables that lead back to each other.  Where every
way arrives at a word (`Settled`), a context can be made flat.
-/

set_option autoImplicit false

namespace SheetPress.Context

open List
open Relation (ReflTransGen TransGen)

/-- The word that a variable holds. -/
def wordAt? (c : Context) (t : Text) : Option Text :=
  match c.get? t with
  | some (.word u) => some u
  | _ => none

/-- The variable `t` holds the word `u`, which is not its own name. -/
def Leads (c : Context) (t u : Text) : Prop := c.wordAt? t = some u ∧ u ≠ t

instance (c : Context) (t u : Text) : Decidable (c.Leads t u) :=
  inferInstanceAs (Decidable (_ ∧ _))

/-- The way from a word runs into variables that lead back to each other. -/
def Circles (c : Context) (t : Text) : Prop :=
  ∃ u, ReflTransGen c.Leads t u ∧ TransGen c.Leads u u

/-- The way from a word to the value behind it takes at most `n` steps. -/
inductive Ends (c : Context) : (n : Nat) → (t : Text) → Prop
  | free (n : Nat) {t : Text} : c.get? t = none → Ends c n t
  | itself (n : Nat) {t : Text} : c.get? t = some (.word t) → Ends c n t
  | value (n : Nat) {t : Text} {v : Value} :
      c.get? t = some v → (∀ u, v ≠ .word u) → Ends c (n + 1) t
  | next {n : Nat} {t u : Text} : c.Leads t u → Ends c n u → Ends c (n + 1) t

/-- The number of variables. -/
def keyCount (c : Context) : Nat := (c.map Prod.fst).dedup.length

theorem keyCount_le (c : Context) : c.keyCount ≤ c.length := by
  simpa [keyCount] using (dedup_sublist (c.map Prod.fst)).length_le

variable {c : Context} {t u : Text}

theorem get?_set_self (c : Context) (name : Text) (v : Value) :
    (c.set (.name name) v).get? name = some v := by
  induction c with
  | nil => simp [set, get?]
  | cons p c ih =>
    obtain ⟨key, w⟩ := p
    by_cases h : key = .name name
    · simp [set, get?, h]
    · have hne : (Key.name name == key) = false := by simpa using Ne.symm h
      simpa [set, get?, h, lookup_cons, hne] using ih

theorem get?_set_of_ne (c : Context) {name : Text} {k : Key} (v : Value) (h : .name name ≠ k) :
    (c.set k v).get? name = c.get? name := by
  have hne : (Key.name name == k) = false := by simpa using h
  induction c with
  | nil => simp [set, get?, lookup_cons, hne]
  | cons p c ih =>
    obtain ⟨key, w⟩ := p
    simp only [get?] at ih
    by_cases hkey : key = k
    · simp [set, get?, hkey, lookup_cons, hne]
    · simp [set, get?, hkey, lookup_cons, ih]

theorem set_set (c : Context) (k : Key) (v w : Value) : (c.set k v).set k w = c.set k w := by
  induction c with
  | nil => simp [set]
  | cons p c ih =>
    obtain ⟨key, x⟩ := p
    by_cases h : key = k
    · simp [set, h]
    · simp [set, h, ih]

theorem mem_set {p : Key × Value} {k : Key} {v : Value} (h : p ∈ c.set k v) :
    p = (k, v) ∨ p ∈ c := by
  induction c with
  | nil => exact .inl (mem_singleton.mp h)
  | cons q c ih =>
    unfold set at h
    split at h
    · exact (mem_cons.mp h).imp_right (mem_cons_of_mem q)
    · rcases mem_cons.mp h with rfl | h
      · exact .inr mem_cons_self
      · exact (ih h).imp_right (mem_cons_of_mem q)

theorem wordAt?_eq_some : c.wordAt? t = some u ↔ c.get? t = some (.word u) := by
  unfold wordAt?
  split <;> simp_all

theorem Leads.get? (h : c.Leads t u) : c.get? t = some (.word u) := wordAt?_eq_some.mp h.1

theorem Leads.unique {w : Text} (h : c.Leads t u) (h' : c.Leads t w) : u = w :=
  Option.some.inj (h.1.symm.trans h'.1)

theorem mem_of_get? {v : Value} (h : c.get? t = some v) : Key.name t ∈ c.map Prod.fst := by
  by_contra hmem
  have hnone : c.get? t = none := lookup_eq_none_iff.mpr fun p hp => by
    simpa using fun heq : Key.name t = p.1 => hmem (heq ▸ mem_map_of_mem hp)
  simp [h] at hnone

/-- A way that runs into a circle goes on, and what comes next runs into it as well. -/
theorem Circles.next (h : c.Circles t) : ∃ u, c.Leads t u ∧ c.Circles u := by
  obtain ⟨w, hway, hcircle⟩ := h
  rcases hway.cases_head with rfl | ⟨u, htu, huw⟩
  · obtain ⟨u, htu, hut⟩ := TransGen.head'_iff.mp hcircle
    exact ⟨u, htu, u, .refl, .tail' hut htu⟩
  · exact ⟨u, htu, w, huw, hcircle⟩

theorem Circles.not_ends (h : c.Circles t) (n : Nat) : ¬ c.Ends n t := by
  intro hends
  induction hends with
  | free n hnone =>
    obtain ⟨u, hstep, -⟩ := h.next
    simp [hstep.get?] at hnone
  | itself n hself =>
    obtain ⟨u, hstep, -⟩ := h.next
    exact hstep.2 (by simpa using hstep.get?.symm.trans hself)
  | value n hv hword =>
    obtain ⟨u, hstep, -⟩ := h.next
    exact hword u (Option.some.inj (hv.symm.trans hstep.get?))
  | next hstep _ ih =>
    obtain ⟨u, hstep', hu⟩ := h.next
    exact ih (hstep.unique hstep' ▸ hu)

/-- The variables that are behind on a way that has come to `t`, each of them once. -/
structure Behind (c : Context) (met : List Key) (t : Text) : Prop where
  nodup : met.Nodup
  sub : met ⊆ c.map Prod.fst
  leads : ∀ k ∈ met, ∃ w, k = .name w ∧ TransGen c.Leads w t

namespace Behind

variable {met : List Key} (h : c.Behind met t) (hcircle : ¬ c.Circles t)

include h hcircle

theorem fresh : Key.name t ∉ met := by
  intro hmem
  obtain ⟨w, heq, hw⟩ := h.leads _ hmem
  obtain rfl : t = w := by simpa using heq
  exact hcircle ⟨t, .refl, hw⟩

theorem next (hstep : c.Leads t u) : c.Behind (.name t :: met) u where
  nodup := nodup_cons.mpr ⟨h.fresh hcircle, h.nodup⟩
  sub := cons_subset.mpr ⟨mem_of_get? hstep.get?, h.sub⟩
  leads k hk := by
    rcases mem_cons.mp hk with rfl | hk
    · exact ⟨t, rfl, .single hstep⟩
    · obtain ⟨w, hw, hway⟩ := h.leads k hk
      exact ⟨w, hw, hway.tail hstep⟩

theorem room {v : Value} (hget : c.get? t = some v) : met.length < c.keyCount := by
  have hnodup : (Key.name t :: met).Nodup := nodup_cons.mpr ⟨h.fresh hcircle, h.nodup⟩
  have hsub : Key.name t :: met ⊆ (c.map Prod.fst).dedup := fun k hk =>
    mem_dedup.mpr (cons_subset.mpr ⟨mem_of_get? hget, h.sub⟩ hk)
  exact (subperm_of_subset hnodup hsub).length_le

/-- On a way without circles no variable is met twice. -/
theorem ends {n : Nat} (hn : c.keyCount ≤ met.length + n) : c.Ends n t := by
  induction n generalizing met t with
  | zero =>
    cases hget : c.get? t with
    | none => exact .free 0 hget
    | some v => exact absurd (h.room hcircle hget) (by omega)
  | succ n ih =>
    cases hget : c.get? t with
    | none => exact .free _ hget
    | some v =>
      by_cases hword : ∃ u, v = .word u
      · obtain ⟨u, rfl⟩ := hword
        by_cases hut : u = t
        · exact .itself _ (hut ▸ hget)
        · have hstep : c.Leads t u := ⟨wordAt?_eq_some.mpr hget, hut⟩
          have hnext : ¬ c.Circles u := fun ⟨w, huw, hw⟩ => hcircle ⟨w, .head hstep huw, hw⟩
          exact .next hstep (ih (h.next hcircle hstep) hnext (by simp; omega))
      · exact .value n hget fun u hu => hword ⟨u, hu⟩

end Behind

/-! ## What is found -/

theorem follow_value {v : Value} (hget : c.get? t = some v) (hv : ∀ u, v ≠ .word u) (n : Nat) :
    c.follow (n + 1) (.word t) = do if ← v.isWord t then return .word t else return v := by
  simp only [follow, hget]

theorem follow_leads (h : c.Leads t u) (n : Nat) :
    c.follow (n + 1) (.word t) = c.follow n (.word u) := by
  simp [follow, h.get?, h.2]

/-- Going further than to the end of the way changes nothing. -/
theorem Ends.follow_eq {n m k : Nat} (h : c.Ends n t) (hm : n < m) (hk : n < k) :
    c.follow m (.word t) = c.follow k (.word t) := by
  induction h generalizing m k with
  | free n hnone =>
    obtain ⟨m, rfl⟩ := Nat.exists_eq_add_of_lt hm
    obtain ⟨k, rfl⟩ := Nat.exists_eq_add_of_lt hk
    simp [follow, hnone]
  | itself n hself =>
    obtain ⟨m, rfl⟩ := Nat.exists_eq_add_of_lt hm
    obtain ⟨k, rfl⟩ := Nat.exists_eq_add_of_lt hk
    simp [follow, hself]
  | value n hv hword =>
    obtain ⟨m, rfl⟩ := Nat.exists_eq_add_of_lt hm
    obtain ⟨k, rfl⟩ := Nat.exists_eq_add_of_lt hk
    rw [follow_value hv hword, follow_value hv hword]
  | next hstep _ ih =>
    obtain ⟨m, rfl⟩ := Nat.exists_eq_add_of_lt hm
    obtain ⟨k, rfl⟩ := Nat.exists_eq_add_of_lt hk
    rw [follow_leads hstep, follow_leads hstep]
    exact ih (by omega) (by omega)

theorem Circles.follow_eq (h : c.Circles t) (n : Nat) :
    c.follow n (.word t) = throw .endless := by
  induction n generalizing t with
  | zero => rfl
  | succ n ih =>
    obtain ⟨u, hstep, hu⟩ := h.next
    rw [follow_leads hstep, ih hu]

/-! ## Flat contexts -/

/-- The way from a word ends at a word. -/
inductive Arrives (c : Context) : (t : Text) → Prop
  | free {t : Text} : c.get? t = none → Arrives c t
  | itself {t : Text} : c.get? t = some (.word t) → Arrives c t
  | next {t u : Text} : c.Leads t u → Arrives c u → Arrives c t

/-- No way from what a variable holds runs in a circle, or to a value that is no word. -/
def Settled (c : Context) : Prop := ∀ p ∈ c, ∀ t, p.2 = .word t → c.Arrives t

theorem settle_free (h : c.get? t = none) : c.settle (.word t) = pure (.word t) := by
  simp only [settle, follow, h]

theorem Arrives.exists_follow (h : c.Arrives t) :
    ∃ n u, c.Ends n t ∧ ∀ m, n < m → c.follow m (.word t) = pure (.word u) := by
  induction h with
  | @free t hnone =>
    refine ⟨0, t, .free 0 hnone, fun m hm => ?_⟩
    obtain ⟨m, rfl⟩ := Nat.exists_eq_add_of_lt hm
    simp [follow, hnone]
  | @itself t hself =>
    refine ⟨0, t, .itself 0 hself, fun m hm => ?_⟩
    obtain ⟨m, rfl⟩ := Nat.exists_eq_add_of_lt hm
    simp [follow, hself]
  | @next t u hstep _ ih =>
    obtain ⟨n, w, hends, hfollow⟩ := ih
    refine ⟨n + 1, w, .next hstep hends, fun m hm => ?_⟩
    obtain ⟨m, rfl⟩ := Nat.exists_eq_add_of_lt hm
    rw [follow_leads hstep]
    exact hfollow _ (by omega)

/-- The context is long enough for every way that arrives. -/
theorem Arrives.settle (h : c.Arrives t) : ∃ u, c.settle (.word t) = pure (.word u) := by
  obtain ⟨n, u, hends, hfollow⟩ := h.exists_follow
  have hcircle : ¬ c.Circles t := fun hcircle => hcircle.not_ends n hends
  have hbehind : c.Behind [] t := ⟨List.nodup_nil, by simp, by simp⟩
  have hshort : c.Ends c.keyCount t := hbehind.ends hcircle (by simp)
  have hlong : c.keyCount < n + c.length + 1 := by
    have hle := c.keyCount_le
    omega
  refine ⟨u, ?_⟩
  rw [Context.settle, hshort.follow_eq (Nat.lt_succ_of_le c.keyCount_le) hlong]
  exact hfollow _ (by omega)

theorem exists_settleAll (d : Context) (h : ∀ p ∈ d, ∀ t, p.2 = .word t → c.Arrives t) :
    ∃ flat, c.settleAll d = pure flat ∧ ∀ name t, d.get? name = some (.word t) →
      c.get? t = none → flat.get? name = some (.word t) := by
  induction d with
  | nil => exact ⟨[], rfl, nofun⟩
  | cons p d ih =>
    obtain ⟨k, v⟩ := p
    obtain ⟨flat, hflat, hget⟩ := ih fun p hp => h p (mem_cons_of_mem _ hp)
    obtain ⟨w, hw, hfree⟩ : ∃ w, c.settle v = pure w ∧
        ∀ t, v = .word t → c.get? t = none → w = .word t := by
      by_cases hword : ∃ t, v = .word t ∧ c.get? t ≠ none
      · obtain ⟨t, rfl, hsome⟩ := hword
        obtain ⟨u, hu⟩ := (h _ mem_cons_self t rfl).settle
        refine ⟨_, hu, fun t' ht' hnone => absurd hnone ?_⟩
        rwa [← Value.word.inj ht']
      · refine ⟨v, ?_, fun t ht _ => ht⟩
        cases v with
        | word t => exact settle_free (by simpa using fun hsome => hword ⟨t, rfl, hsome⟩)
        | _ => rfl
    refine ⟨(k, w) :: flat, by simp [settleAll, hw, hflat], fun name t hname hnone => ?_⟩
    by_cases hk : k = .name name
    · subst hk
      have hv : v = .word t := by simpa [get?] using hname
      simp [get?, hfree t hv hnone]
    · have hne : (Key.name name == k) = false := by simpa using Ne.symm hk
      simp only [get?, lookup_cons, hne] at hname ⊢
      exact hget name t hname hnone

/-- A context whose ways arrive is made flat, and words that name no variable stay. -/
theorem Settled.exists_flatten (h : c.Settled) :
    ∃ flat, c.flatten = pure flat ∧ ∀ name t, c.get? name = some (.word t) →
      c.get? t = none → flat.get? name = some (.word t) :=
  exists_settleAll c h

/-- A variable may be given a word that names no variable. -/
theorem Settled.set (h : c.Settled) {name : Text} (hfree : c.get? u = none) (hne : u ≠ name) :
    (Context.set (.name name) (.word u) c).Settled := by
  have hself := get?_set_self c name (.word u)
  have hother : ∀ {t}, t ≠ name → (Context.set (.name name) (.word u) c).get? t = c.get? t :=
    fun ht => get?_set_of_ne c _ (by simpa using ht)
  have harrived : (Context.set (.name name) (.word u) c).Arrives name :=
    .next ⟨wordAt?_eq_some.mpr hself, hne⟩ (.free (by rw [hother hne, hfree]))
  have hkept : ∀ {t}, c.Arrives t → (Context.set (.name name) (.word u) c).Arrives t := by
    intro t ht
    induction ht with
    | @free t hnone =>
      by_cases hname : t = name
      · exact hname ▸ harrived
      · exact .free (by rw [hother hname, hnone])
    | @itself t hget =>
      by_cases hname : t = name
      · exact hname ▸ harrived
      · exact .itself (by rw [hother hname, hget])
    | @next t w hstep _ ih =>
      by_cases hname : t = name
      · exact hname ▸ harrived
      · exact .next ⟨wordAt?_eq_some.mpr (by rw [hother hname, hstep.get?]), hstep.2⟩ ih
  intro p hp t ht
  rcases mem_set hp with rfl | hp
  · obtain rfl := Value.word.inj ht
    exact .free (by rw [hother hne, hfree])
  · exact hkept (h p hp t ht)

end SheetPress.Context
