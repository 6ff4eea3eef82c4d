import SheetPress.Proofs.Compile.Growth
import SheetPress.Proofs.Extend.Link

/-!
# Filing rules

Rules wait in a queue until their code has been worked on.  Then each of them gets the next
position, comes last in the order and is filed in the table under the selectors it has, those that
it extends included.  What the table and the order say of each other, `Filed`, holds while the queue
is worked on, whatever the code of the rules does (`Filed.run_runFirst`), since work on code only
adds rules that nobody has seen before.
-/

set_option autoImplicit false

namespace SheetPress.Compile

open List

/-- Finished rules are filed once each under their selectors, and have the positions of their
order. -/
structure Filed (s : Session) : Prop where
  keys : (s.parts.map Prod.fst).Nodup
  filled : ∀ k ∈ s.parts.map Prod.fst, Parts.rulesOf s.parts k ≠ []
  rules : (Parts.filed s.parts).Perm s.order
  nodup : (s.queue ++ s.order).Nodup
  bound : ∀ r ∈ s.queue ++ s.order, r < s.rules.size
  named : ∀ k, ∀ r ∈ Parts.rulesOf s.parts k, selectorsOf s r = k
  placed : s.order.map (positionOf s) = (List.range s.order.length).map some

/-- No rule has been worked on, and none waits twice. -/
structure Ready (s : Session) : Prop where
  parts : s.parts = []
  order : s.order = []
  nodup : s.queue.Nodup
  bound : ∀ r ∈ s.queue, r < s.rules.size

theorem Ready.filed {s : Session} (h : Ready s) : Filed s where
  keys := by simp [h.parts]
  filled := by simp [h.parts]
  rules := by simp [h.parts, h.order, Parts.filed]
  nodup := by simpa [h.order] using h.nodup
  bound := by simpa [h.order] using h.bound
  named := by simp [h.parts, Parts.rulesOf]
  placed := by simp [h.order]

namespace Filed

variable {s t : Session} {r : Nat}

theorem mem_order (h : Filed s) {k : Text} (hr : r ∈ Parts.rulesOf s.parts k) : r ∈ s.order :=
  h.rules.mem_iff.mp (Parts.mem_filed_of_mem_rulesOf s.parts k hr)

theorem nodup_filed (h : Filed s) : (Parts.filed s.parts).Nodup :=
  h.rules.nodup_iff.mpr h.nodup.of_append_right

theorem bound_filed (h : Filed s) (hr : r ∈ Parts.filed s.parts) : r < s.rules.size :=
  h.bound r (mem_append_right _ (h.rules.mem_iff.mp hr))

theorem mem_rulesOf (h : Filed s) (hr : r ∈ s.order) :
    r ∈ Parts.rulesOf s.parts (selectorsOf s r) := by
  obtain ⟨k, hk⟩ := (Parts.mem_filed _ h.keys).mp (h.rules.mem_iff.mpr hr)
  rwa [h.named k r hk]

theorem exists_position (h : Filed s) (hr : r ∈ s.order) : ∃ n, positionOf s r = some n := by
  have hmem : positionOf s r ∈ (List.range s.order.length).map some := by
    rw [← h.placed]
    exact mem_map_of_mem hr
  obtain ⟨n, -, hn⟩ := mem_map.mp hmem
  exact ⟨n, hn.symm⟩

/-! ## One rule -/

/-- The session in which a rule has been filed, and the rules nested in it wait before all
others. -/
def filing (r : Nat) (nested : List Nat) (selectors : Text) (s : Session) : Session :=
  { s with
    queue := nested ++ s.queue
    rules := s.rules.modify r fun rule =>
      { rule with selectors, position := some s.order.length }
    parts := Parts.add selectors [r] s.parts
    order := s.order ++ [r] }

section Filing

variable {rest nested : List Nat} {owners : Array Owner} {selectors : Text}
variable (h : Filed s) (hqueue : s.queue = r :: rest)
variable (hgrows : Grows { s with queue := rest, owners } t)

include h hqueue hgrows

theorem getD_filing_self : (filing r nested selectors t).rules.getD r {} =
    { t.rules.getD r {} with selectors, position := some t.order.length } := by
  have hr : r < s.rules.size := h.bound r (by simp [hqueue])
  exact getD_modify_self _ (Nat.lt_of_lt_of_le hr (size_le_of_isPrefix hgrows.rules)) _

/-- The rules that were filed before are still what they were. -/
theorem getD_filing {x : Nat} (hx : x ∈ s.order) :
    (filing r nested selectors t).rules.getD x {} = s.rules.getD x {} := by
  have hnodup : (r :: rest ++ s.order).Nodup := hqueue ▸ h.nodup
  have hne : x ≠ r := by
    rintro rfl
    exact (nodup_cons.mp hnodup).1 (by simp [hx])
  exact (getD_modify_of_ne _ hne _).trans (hgrows.rule (h.bound x (by simp [hx])))

theorem named_filing (k : Text) :
    ∀ x ∈ Parts.rulesOf (filing r nested selectors t).parts k,
      selectorsOf (filing r nested selectors t) x = k := by
  intro x hx
  have hmem : ∀ {k'}, x ∈ Parts.rulesOf t.parts k' →
      selectorsOf (filing r nested selectors t) x = k' := by
    intro k' hx
    rw [hgrows.parts] at hx
    rw [selectorsOf, getD_filing h hqueue hgrows (h.mem_order hx)]
    exact h.named k' x hx
  rw [filing, Parts.rulesOf_add] at hx
  split at hx
  next heq =>
    subst heq
    rcases mem_append.mp hx with hx | hx
    · exact hmem hx
    · rw [mem_singleton.mp hx, selectorsOf, getD_filing_self h hqueue hgrows]
  next => exact hmem hx

theorem placed_filing : (filing r nested selectors t).order.map
      (positionOf (filing r nested selectors t)) =
    (List.range (filing r nested selectors t).order.length).map some := by
  have hpositions : s.order.map (positionOf (filing r nested selectors t)) =
      s.order.map (positionOf s) :=
    map_congr_left fun x hx => by
      rw [positionOf, getD_filing h hqueue hgrows hx, positionOf]
  have hlast : positionOf (filing r nested selectors t) r = some s.order.length := by
    rw [positionOf, getD_filing_self h hqueue hgrows, hgrows.order]
  have horder : (filing r nested selectors t).order = s.order ++ [r] := by
    rw [filing, hgrows.order]
  rw [horder, map_append, hpositions, h.placed, length_append, length_singleton,
    range_succ, map_append, map_singleton, hlast, map_singleton]

/-- A rule that waits may be filed after its code has been worked on. -/
theorem file (hnested : nested.Nodup)
    (hfresh : ∀ n ∈ nested, s.rules.size ≤ n ∧ n < t.rules.size) (selectors : Text) :
    Filed (filing r nested selectors t) := by
  have hsize : s.rules.size ≤ t.rules.size := size_le_of_isPrefix hgrows.rules
  have hbound : ∀ x ∈ r :: rest ++ s.order, x < s.rules.size := hqueue ▸ h.bound
  have hnodup : (r :: rest ++ s.order).Nodup := hqueue ▸ h.nodup
  refine ⟨?_, ?_, ?_, ?_, ?_, named_filing h hqueue hgrows, placed_filing h hqueue hgrows⟩
  · exact Parts.nodup_keys_add _ _ _ (hgrows.parts ▸ h.keys)
  · intro k hk
    rw [filing, Parts.mem_keys_add] at hk
    rw [filing, Parts.rulesOf_add]
    split
    · simp
    next hne => exact hgrows.parts ▸ h.filled k (hgrows.parts ▸ hk.resolve_left hne)
  · refine (Parts.filed_add _ _).trans ?_
    rw [hgrows.parts, filing, hgrows.order]
    exact h.rules.append_right _
  · have hall : (nested ++ (r :: rest ++ s.order)).Nodup := by
      refine nodup_append'.mpr ⟨hnested, hnodup, fun x hx hx' => ?_⟩
      exact absurd (hbound x hx') (Nat.not_lt.mpr (hfresh x hx).1)
    refine (List.Perm.nodup_iff ?_).mpr hall
    simp only [filing, hgrows.queue, hgrows.order, append_assoc]
    refine List.Perm.append_left _ ?_
    rw [← append_assoc]
    exact perm_append_singleton r _
  · intro x hx
    simp only [filing, hgrows.queue, hgrows.order, mem_append, mem_singleton] at hx
    have hsize' : (filing r nested selectors t).rules.size = t.rules.size := by simp [filing]
    rw [hsize']
    rcases hx with (hx | hx) | hx | rfl
    · exact (hfresh x hx).2
    · exact Nat.lt_of_lt_of_le (hbound x (by simp [hx])) hsize
    · exact Nat.lt_of_lt_of_le (hbound x (by simp [hx])) hsize
    · exact Nat.lt_of_lt_of_le (hbound x (by simp)) hsize

end Filing

theorem run_runRule (h : Filed s) {rest : List Nat} (hqueue : s.queue = r :: rest) {depth : Nat}
    (hrun : (runRule depth s.order.length r).run { s with queue := rest } = (.ok (), t)) :
    Filed t ∧ t.order = s.order ++ [r] ∧ ∃ nested, t.queue = nested ++ rest := by
  obtain ⟨selectors, parents, hcut⟩ :
      ∃ x y, Selector.cutExtends (s.rules.getD r {}).selectors = (x, y) := ⟨_, _, rfl⟩
  obtain ⟨owner, howner⟩ : ∃ x : Owner, (⟨Text.splitOn ',' selectors,
      ((Text.splitOn '&' parents).filter (!·.isEmpty)).eraseDups, []⟩ : Owner) = x := ⟨_, rfl⟩
  unfold runRule at hrun
  rw [Run.run_get_bind, Run.run_rule_bind] at hrun
  simp only [hcut, howner] at hrun
  rw [Run.run_newOwner_bind] at hrun
  obtain ⟨⟨⟩, u, hwork, hrest⟩ := Run.of_bind_ok hrun
  have hgrows : Grows { s with queue := rest, owners := s.owners.push owner } u :=
    Steps.grows ((steps_work depth _ _).of_run hwork)
  obtain ⟨nested, hnested, hsorted, hfresh⟩ := hgrows.nested s.owners.size
  have hchildren : childrenOf u s.owners.size = nested := by
    rw [hnested, childrenOf, getD_push_size, ← howner, nil_append]
  obtain ⟨selectors', ht⟩ : ∃ x, t = filing r nested x u := by
    rw [Run.run_owner_bind, Run.run_modify_bind, Run.run_modifyRule_bind, Run.run_modify] at hrest
    refine ⟨if (u.owners.getD s.owners.size ⟨[], [], []⟩).parents.isEmpty then
        (s.rules.getD r {}).selectors
      else selectors ++ Selector.extendsMark ++
        Text.joinWith ['&'] (s.sets.list (u.owners.getD s.owners.size ⟨[], [], []⟩).parents), ?_⟩
    rw [← hchildren, ← (Prod.mk.inj hrest).2, filing, hgrows.order]
    rfl
  rw [ht]
  refine ⟨h.file hqueue hgrows (hsorted.imp Nat.ne_of_lt) hfresh _, ?_, nested, ?_⟩
  · rw [filing, hgrows.order]
  · rw [filing, hgrows.queue]

/-! ## The whole queue -/

/-- The first waiting rules have been worked on, with all that is nested in them. -/
structure Advanced (waiting : List Nat) (position : Nat) (t : Session) : Prop where
  filed : Filed t
  queue : t.queue = waiting
  position : position = t.order.length

theorem run_repeatFrom {once : Nat → Run Nat}
    (honce : ∀ {s t : Session} {r : Nat} {rest : List Nat} {p : Nat}, Filed s →
      s.queue = r :: rest → (once s.order.length).run s = (.ok p, t) → Advanced rest p t)
    (first rest : List Nat) {p : Nat} (h : Filed s) (hqueue : s.queue = first ++ rest)
    (hrun : (repeatFrom once first.length s.order.length).run s = (.ok p, t)) :
    Advanced rest p t := by
  induction first generalizing s with
  | nil =>
    cases hrun
    exact ⟨h, hqueue, rfl⟩
  | cons r first ih =>
    obtain ⟨q, u, hrun₁, hrun₂⟩ := Run.of_bind_ok hrun
    obtain ⟨hu, hqueue', rfl⟩ := honce h hqueue hrun₁
    exact ih hu hqueue' hrun₂

theorem run_runFirst {depth n : Nat} {rest : List Nat} {p : Nat} (h : Filed s)
    (hqueue : s.queue = r :: rest) (hrun : (runFirst depth n s.order.length).run s = (.ok p, t)) :
    Advanced rest p t := by
  induction n generalizing s t r rest p with
  | zero => cases hrun
  | succ n ih =>
    unfold runFirst at hrun
    rw [Run.run_get_bind] at hrun
    simp only [hqueue, Run.run_modify_bind] at hrun
    obtain ⟨⟨⟩, u, hrule, hrest⟩ := Run.of_bind_ok hrun
    obtain ⟨hu, horder, nested, hnested⟩ := h.run_runRule hqueue hrule
    have hlength : s.order.length + 1 = u.order.length := by simp [horder]
    have hcount : u.queue.length - rest.length = nested.length := by simp [hnested]
    rw [Run.run_get_bind, hlength, hcount] at hrest
    exact run_repeatFrom ih nested rest hu hnested hrest

end Filed

/-- Once all rules have been worked on, they are filed. -/
theorem Ready.run_runRules {s t : Session} (h : Ready s) (hrun : runRules.run s = (.ok (), t)) :
    Filed t ∧ t.queue = [] := by
  have hzero : s.order.length = 0 := by simp [h.order]
  unfold runRules at hrun
  rw [Run.run_get_bind, ← hzero] at hrun
  obtain ⟨p, u, hqueue, hrest⟩ := Run.of_bind_ok hrun
  cases hrest
  obtain ⟨ht, hempty, -⟩ :=
    Filed.run_repeatFrom Filed.run_runFirst s.queue [] h.filed (by simp) hqueue
  exact ⟨ht, hempty⟩

end SheetPress.Compile
