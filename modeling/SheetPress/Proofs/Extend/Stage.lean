import SheetPress.Proofs.Extend.Link
import SheetPress.Proofs.Extend.Table

/-!
# Making one link

When a class is linked with one that it extends, all nodes that have this one among their
selectors are renamed, one after the other and in any order.  `Stage` says what table and rules
are like under any naming, `midLabel` names the nodes while some of them have their old names, and
at the end the link is made: `Stage.run_extendNode`.
-/

set_option autoImplicit false

namespace SheetPress.Extending

open List
open Relation (ReflTransGen)
open Hierarchy (nodeLabel nodeLabel_injective nodeLabel_ne_nil)
open Compile (selectorsOf Relabels relabel linkNode linkNodes extendNode extensions)

/-- Table and rules when some links have been made.  A rule at a node without a link has the name
of this node as its selectors, apart from rules that are still to be named. -/
structure Stage (H : Hierarchy) (D : Text → Text → Prop) (name : Text → Option Text → Text)
    (unnamed : List Nat) (s₀ s : Session) : Prop where
  table : Table H D name s.parts
  named : ∀ {p : Text}, p ∈ H.classes → H.rule p ∈ Parts.rulesOf s.parts (name p none) →
    H.rule p ∉ unnamed → selectorsOf s (H.rule p) = name p none
  bound : ∀ {p : Text}, p ∈ H.classes → H.rule p < s.rules.size
  pool : s.pool = s₀.pool
  order : s.order = s₀.order

namespace Stage

variable {H : Hierarchy} {D : Text → Text → Prop} {name name' : Text → Option Text → Text}
  {unnamed : List Nat} {s₀ s t : Session}

theorem relabels (h : Stage H D name unnamed s₀ s) (ht : Relabels (fun _ x => x) s t) :
    Stage H D name unnamed s₀ t where
  table := by
    rw [ht.parts]
    exact h.table
  named := fun hp hrule hnew => by
    rw [ht.parts] at hrule
    rw [ht.selectors _ (h.bound hp), h.named hp hrule hnew]
  bound := fun hp => by
    rw [ht.size]
    exact h.bound hp
  pool := ht.pool.trans h.pool
  order := ht.order.trans h.order

theorem congr (h : Stage H D name unnamed s₀ s)
    (hsame : ∀ {p b}, p ∈ H.classes → H.Live D p b →
      name p b ∈ s.parts.map Prod.fst ∨ name' p b ∈ s.parts.map Prod.fst → name' p b = name p b) :
    Stage H D name' unnamed s₀ s := by
  refine ⟨h.table.congr hsame, ?_, h.bound, h.pool, h.order⟩
  intro p hp hrule hnew
  have hkey : name' p none ∈ s.parts.map Prod.fst := by
    by_contra hkey
    rw [Parts.rulesOf_eq_nil _ _ hkey] at hrule
    simp at hrule
  have heq := hsame hp H.live_none (.inr hkey)
  rw [heq] at hrule ⊢
  exact h.named hp hrule hnew

/-- A link is made, and the rule of its child is still to be named. -/
theorem advance (h : Stage H D name [] s₀ s) (hn : Naming H D name) {c a : Text}
    (hlink : H.links c a) (hopen : ¬ D c a) :
    Stage H (linked D c a) name (Parts.rulesOf s.parts (name c (some a))) s₀
      { s with parts := Parts.move s.parts (name c (some a)) (name c none) } := by
  refine ⟨Table.advance hlink hopen h.table hn, ?_, h.bound, h.pool, h.order⟩
  intro p hp hrule hnew
  have hold : H.rule p ∈ Parts.rulesOf s.parts (name p none) := by
    rw [Table.rulesOf_advance hlink hopen hn hp H.live_none] at hrule
    split at hrule
    · rename_i hpc
      rw [hpc.1] at hrule hnew ⊢
      exact (mem_append.mp hrule).resolve_right hnew
    · exact hrule
  exact h.named hp hold (by simp)

/-- A node is renamed and its rules get its new name, and the child gets its own. -/
theorem rename (h : Stage H D name unnamed s₀ s) {q c : Text} {b : Option Text}
    (hr : Renaming H D name name' q b) {childRules : List Nat} (hc : c ∈ H.classes)
    (hchild : ∀ r ∈ childRules, r = H.rule c) (hunnamed : unnamed ⊆ childRules)
    (ht : Relabels
      (relabel (name' c none) (name' q b) childRules (Parts.rulesOf s.parts (name q b)))
      { s with
        parts :=
          if name' q b = name q b then s.parts
          else Parts.move s.parts (name q b) (name' q b) } t) :
    Stage H D name' [] s₀ t := by
  obtain ⟨htable, hrules⟩ : Table H D name' t.parts ∧ ∀ {p x}, p ∈ H.classes → H.Live D p x →
      Parts.rulesOf t.parts (name' p x) = Parts.rulesOf s.parts (name p x) := by
    rw [ht.parts]
    by_cases hne : name' q b = name q b
    · have hsame : ∀ {p x}, p ∈ H.classes → H.Live D p x → name' p x = name p x := by
        intro p x hp hx
        by_cases hpx : p = q ∧ x = b
        · rw [hpx.1, hpx.2, hne]
        · exact hr.same hp hx hpx
      rw [if_pos hne]
      refine ⟨h.table.congr fun hp hx _ => hsame hp hx, ?_⟩
      intro p x hp hx
      rw [hsame hp hx]
    · rw [if_neg hne]
      exact ⟨h.table.rename hr hne, h.table.rulesOf_rename hr hne⟩
  refine ⟨htable, ?_, ?_, ht.pool.trans h.pool, ht.order.trans h.order⟩
  · intro p hp hrule _
    rw [hrules hp H.live_none] at hrule
    rw [ht.selectors _ (h.bound hp), relabel]
    by_cases hnode : H.rule p ∈ Parts.rulesOf s.parts (name q b)
    · have hpq : p = q := H.rule_injective hp hr.mem (h.table.own hr.mem hr.live _ hnode)
      subst hpq
      rw [if_pos hnode, h.table.once hp H.live_none hr.live hrule hnode]
    · rw [if_neg hnode]
      by_cases hunder : H.rule p ∈ childRules
      · rw [if_pos hunder, H.rule_injective hp hc (hchild _ hunder)]
      · have hother : ¬ (p = q ∧ none = b) := by
          rintro ⟨rfl, rfl⟩
          exact hnode hrule
        rw [if_neg hunder, hr.same hp H.live_none hother]
        exact h.named hp hrule fun hmem => hunder (hunnamed hmem)
  · intro p hp
    rw [ht.size]
    exact h.bound hp

end Stage

/-! ## Names on the way -/

section Names

variable {H : Hierarchy} {D : Text → Text → Prop} {c a q : Text}

theorem linked_le (hD : D ≤ H.links) (hlink : H.links c a) : linked D c a ≤ H.links := by
  rintro x y (h | ⟨rfl, rfl⟩)
  · exact hD x y h
  · exact hlink

theorem naming_nodeLabel {D' : Text → Text → Prop} (hD : D ≤ H.links) :
    Naming H D' (H.nodeLabel D) where
  injective := fun hp hq hb hb' h =>
    nodeLabel_injective hD hD hp hq hb.isClass hb'.isClass h
  ne_nil := fun hp => nodeLabel_ne_nil hp _

/-- The label of a node while the nodes `ks` have their old ones. -/
noncomputable def midLabel (H : Hierarchy) (D : Text → Text → Prop) (c a : Text) (ks : List Text)
    (p : Text) (b : Option Text) : Text :=
  if H.nodeLabel D p b ∈ ks then H.nodeLabel D p b else H.nodeLabel (linked D c a) p b

theorem naming_midLabel (hD : D ≤ H.links) (hlink : H.links c a) (ks : List Text) :
    Naming H (linked D c a) (midLabel H D c a ks) where
  injective := fun hp hq hb hb' h => by
    have hD' := linked_le hD hlink
    unfold midLabel at h
    split at h <;> split at h
    · exact nodeLabel_injective hD hD hp hq hb.isClass hb'.isClass h
    · exact nodeLabel_injective hD hD' hp hq hb.isClass hb'.isClass h
    · exact nodeLabel_injective hD' hD hp hq hb.isClass hb'.isClass h
    · exact nodeLabel_injective hD' hD' hp hq hb.isClass hb'.isClass h
  ne_nil := fun hp => by
    unfold midLabel
    split <;> exact nodeLabel_ne_nil hp _

theorem midLabel_cons_of_ne {k p : Text} {b : Option Text} {ks : List Text}
    (h : H.nodeLabel D p b ≠ k) :
    midLabel H D c a ks p b = midLabel H D c a (k :: ks) p b := by
  simp [midLabel, h]

/-- A class does not reach the one that it extends. -/
theorem parent_notMem_under (hD : D ≤ H.links) (hlink : H.links c a) : a ∉ H.under D c := fun h =>
  H.acyclic hlink (ReflTransGen.mono hD _ _ (H.mem_under.mp h).2)

theorem nodeLabel_linked (hlink : H.links c a) (ha : a ∉ H.under D q) (b : Option Text) :
    H.nodeLabel (linked D c a) q b = H.nodeLabel D q b := by
  rw [nodeLabel, H.under_linked_of_notMem (H.parent_mem hlink) ha, nodeLabel]

/-! ## What linking finds -/

theorem compact_of_mem_under {x : Text} (h : x ∈ H.under D q) : Selector.Compact x :=
  (H.isClass_of_mem_under h).compact

theorem splitOn_nodeLabel (hq : q ∈ H.classes) (b : Option Text) :
    Text.splitOn ',' (Selector.cutExtends (H.nodeLabel D q b)).1 = H.under D q := by
  rw [nodeLabel, Selector.cutExtends_label fun _ => compact_of_mem_under]
  exact Selector.splitOn_joinWith_compact (ne_nil_of_mem (H.self_mem_under hq))
    fun _ => compact_of_mem_under

theorem splitOn_nodeLabel_none (hq : q ∈ H.classes) :
    Text.splitOn ',' (H.nodeLabel D q none) = H.under D q :=
  Selector.splitOn_joinWith_compact (ne_nil_of_mem (H.self_mem_under hq))
    fun _ => compact_of_mem_under

/-- All that is under the child comes to the nodes that have the parent. -/
theorem extensions_nodeLabel (hD : D ≤ H.links) (hlink : H.links c a) (hq : q ∈ H.classes)
    (b : Option Text) :
    extensions a (Text.splitOn ',' (H.nodeLabel D c none))
        (Text.splitOn ',' (Selector.cutExtends (H.nodeLabel D q b)).1) =
      .ok ((H.under D q).flatMap fun x => if x = a then H.under D c else []) := by
  rw [splitOn_nodeLabel_none (H.child_mem hlink), splitOn_nodeLabel hq]
  refine Compile.extensions_class (H.isClass a (H.parent_mem hlink)) ?_ ?_ ?_
  · intro x hx
    refine ⟨H.isClass_of_mem_under hx, ?_⟩
    rintro rfl
    exact parent_notMem_under hD hlink hx
  · exact fun x hx => H.isClass_of_mem_under hx
  · exact fun x hx => H.apart a (H.parent_mem hlink) x (H.mem_under.mp hx).1

theorem flatMap_under_eq_nil (ha : a ∉ H.under D q) (xs : List Text) :
    ((H.under D q).flatMap fun x => if x = a then xs else []) = [] := by
  rw [flatMap_eq_nil_iff]
  intro x hx
  rw [if_neg]
  rintro rfl
  exact ha hx

theorem mem_flatMap_under (ha : a ∈ H.under D q) (xs : List Text) (x : Text) :
    (x ∈ (H.under D q).flatMap fun x => if x = a then xs else []) ↔ x ∈ xs := by
  rw [mem_flatMap]
  constructor
  · rintro ⟨y, _, hx⟩
    split at hx
    · exact hx
    · simp at hx
  · intro hx
    exact ⟨a, ha, by rwa [if_pos rfl]⟩

/-- A node with the parent gets the label that it has with the link made. -/
theorem normalize_nodeLabel (ha : a ∈ H.under D q) {b : Option Text} (hb : ∀ x ∈ b, IsClass x) :
    Selector.normalize (H.nodeLabel D q b)
        ((H.under D q).flatMap fun x => if x = a then H.under D c else []) [] =
      H.nodeLabel (linked D c a) q b := by
  rw [nodeLabel, Selector.normalize_label (ne_nil_of_mem ha)
    (fun _ => compact_of_mem_under) ?_ fun x hx => (hb x hx).compact]
  · rw [nodeLabel, H.under_linked_of_mem ha]
    congr 1
    refine Text.sortedSet_congr fun x => ?_
    rw [mem_append, mem_append, mem_flatMap_under ha]
  · intro x hx
    exact compact_of_mem_under ((mem_flatMap_under ha _ x).mp hx)

end Names

/-! ## The run over all nodes -/

/-- The nodes that have their old labels. -/
def IsOld (H : Hierarchy) (D D' : Text → Text → Prop) (k : Text) : Prop :=
  k = [] ∨ ∃ q ∈ H.classes, ∃ b, H.Live D' q b ∧ k = H.nodeLabel D q b

/-- The parent is one of the selectors of the node. -/
def Hit (H : Hierarchy) (D : Text → Text → Prop) (a k : Text) : Prop :=
  ∃ q ∈ H.classes, ∃ b, (∀ x ∈ b, IsClass x) ∧ k = H.nodeLabel D q b ∧ a ∈ H.under D q

namespace Stage

variable {H : Hierarchy} {D : Text → Text → Prop} {c a : Text} {childRules unnamed : List Nat}
  {k : Text} {ks : List Text} {s₀ s : Session}

theorem not_hit_nil : ¬ Hit H D a [] := by
  rintro ⟨q, hq, b, _, hnil, _⟩
  exact nodeLabel_ne_nil hq b hnil.symm

theorem hit_nodeLabel (hD : D ≤ H.links) {q : Text} (hq : q ∈ H.classes) {b : Option Text}
    (hb : ∀ x ∈ b, IsClass x) : Hit H D a (H.nodeLabel D q b) ↔ a ∈ H.under D q := by
  constructor
  · rintro ⟨p, hp, x, hx, heq, ha⟩
    rwa [(nodeLabel_injective hD hD hq hp hb hx heq).1]
  · intro ha
    exact ⟨q, hq, b, hb, rfl, ha⟩

theorem skip (h : Stage H (linked D c a) (midLabel H D c a (k :: ks)) unnamed s₀ s)
    (hlink : H.links c a) (hmiss : ¬ Hit H D a k) :
    Stage H (linked D c a) (midLabel H D c a ks) unnamed s₀ s := by
  refine h.congr ?_
  intro p b hp hb _
  by_cases hk : H.nodeLabel D p b = k
  · have ha : a ∉ H.under D p := fun ha => hmiss ⟨p, hp, b, hb.isClass, hk.symm, ha⟩
    simp [midLabel, hk, nodeLabel_linked hlink ha b]
  · exact midLabel_cons_of_ne hk

/-- Linking one node: it has its new label then, and the child has been named if it was hit. -/
theorem run_linkNode (h : Stage H (linked D c a) (midLabel H D c a (k :: ks)) unnamed s₀ s)
    (hD : D ≤ H.links) (hlink : H.links c a) (hk : k ∉ ks) (hold : IsOld H D (linked D c a) k)
    (hchild : ∀ r ∈ childRules, r = H.rule c) (hunnamed : unnamed ⊆ childRules) :
    ∃ found t, (linkNode a (H.nodeLabel D c none) childRules k).run s = (.ok found, t) ∧
      (found.isSome ↔ Hit H D a k) ∧
      Stage H (linked D c a) (midLabel H D c a ks) (if found.isSome then [] else unnamed) s₀ t := by
  rcases hold with rfl | ⟨q, hq, b, hb, rfl⟩
  · refine ⟨none, s, Compile.run_linkNode_of_nil ?_, ?_, h.skip hlink not_hit_nil⟩
    · have hroot : Text.splitOn ',' (Selector.cutExtends []).1 = [[]] := by decide
      have hempty : Text.contains [] a = false := by
        cases ha : a with
        | nil => exact absurd ha (H.isClass a (H.parent_mem hlink)).ne_nil
        | cons x xs => rfl
      rw [hroot, extensions, hempty]
      rfl
    · simp [not_hit_nil]
  · have hhit : Hit H D a (H.nodeLabel D q b) ↔ a ∈ H.under D q := hit_nodeLabel hD hq hb.isClass
    have hextensions := extensions_nodeLabel hD hlink hq b
    by_cases ha : a ∈ H.under D q
    · have hne : ((H.under D q).flatMap fun x => if x = a then H.under D c else []) ≠ [] :=
        ne_nil_of_mem ((mem_flatMap_under ha _ c).mpr (H.self_mem_under (H.child_mem hlink)))
      obtain ⟨t, hrun, ht, -⟩ :
          ∃ t, (linkNode a (H.nodeLabel D c none) childRules (H.nodeLabel D q b)).run s = _ ∧ _ :=
        Compile.run_linkNode_of_ne hextensions hne
      rw [normalize_nodeLabel ha hb.isClass] at ht
      refine ⟨_, t, hrun, by simp [hhit, ha], ?_⟩
      have hnew : midLabel H D c a ks q b = H.nodeLabel (linked D c a) q b := by
        simp [midLabel, hk]
      have hnow : midLabel H D c a (H.nodeLabel D q b :: ks) q b = H.nodeLabel D q b := by
        simp [midLabel]
      have hchildren : midLabel H D c a ks c none = H.nodeLabel D c none := by
        unfold midLabel
        rw [nodeLabel_linked hlink (parent_notMem_under hD hlink), ite_self]
      have hr : Renaming H (linked D c a) (midLabel H D c a (H.nodeLabel D q b :: ks))
          (midLabel H D c a ks) q b := by
        refine ⟨naming_midLabel hD hlink _, naming_midLabel hD hlink _, hq, hb, ?_⟩
        intro p x hp hx hpx
        refine midLabel_cons_of_ne fun heq => hpx ?_
        exact nodeLabel_injective hD hD hp hq hx.isClass hb.isClass heq
      refine h.rename hr (H.child_mem hlink) hchild hunnamed ?_
      rw [hnew, hnow, hchildren]
      exact ht
    · refine ⟨none, s, Compile.run_linkNode_of_nil ?_, by simp [hhit, ha], ?_⟩
      · rw [hextensions, flatMap_under_eq_nil ha]
      · exact h.skip hlink (mt hhit.mp ha)

theorem run_linkNodes {found : Option (List Nat)}
    (h : Stage H (linked D c a) (midLabel H D c a ks) (if found.isSome then [] else childRules) s₀
      s)
    (hD : D ≤ H.links) (hlink : H.links c a) (hks : ks.Nodup)
    (hold : ∀ k ∈ ks, IsOld H D (linked D c a) k) (hchild : ∀ r ∈ childRules, r = H.rule c) :
    ∃ found' t, (linkNodes a (H.nodeLabel D c none) childRules found ks).run s = (.ok found', t) ∧
      (found'.isSome ↔ found.isSome ∨ ∃ k ∈ ks, Hit H D a k) ∧
      Stage H (linked D c a) (H.nodeLabel (linked D c a))
        (if found'.isSome then [] else childRules) s₀ t := by
  induction ks generalizing found s with
  | nil =>
    refine ⟨found, s, rfl, by simp, h.congr ?_⟩
    intro p b _ _ _
    simp [midLabel]
  | cons k ks ih =>
    rw [nodup_cons] at hks
    have hunnamed : (if found.isSome then [] else childRules) ⊆ childRules := by
      split <;> simp
    obtain ⟨here, u, hrun, hhere, hu⟩ := h.run_linkNode hD hlink hks.1 (hold k (by simp))
      hchild hunnamed
    have hrest : ∀ k ∈ ks, IsOld H D (linked D c a) k := fun x hx => hold x (by simp [hx])
    unfold linkNodes
    rw [Run.bind_ok hrun]
    cases here with
    | none =>
      obtain ⟨found', t, hruns, hfound, ht⟩ := ih hu hks.2 hrest
      refine ⟨found', t, hruns, ?_, ht⟩
      have hmiss : ¬ Hit H D a k := by simpa using hhere
      simp [hfound, hmiss]
    | some rules =>
      have hnamed : Stage H (linked D c a) (midLabel H D c a ks)
          (if (some (found.getD [] ++ rules)).isSome then [] else childRules) s₀ u := hu
      obtain ⟨found', t, hruns, hfound, ht⟩ := ih hnamed hks.2 hrest
      refine ⟨found', t, hruns, ?_, ht⟩
      have hhit : Hit H D a k := by simpa using hhere
      simp [hfound, hhit]

/-- Linking one extending node makes its link, and the class that it extends is found. -/
theorem run_extendNode (h : Stage H D (H.nodeLabel D) [] s₀ s) (hD : D ≤ H.links)
    (hlink : H.links c a) (hopen : ¬ D c a) {arrange : List Text → List Text}
    (harrange : ∀ ks, (arrange ks).Perm ks) :
    ∃ t, (extendNode arrange (H.nodeLabel D c (some a))).run s = (.ok (), t) ∧
      Stage H (linked D c a) (H.nodeLabel (linked D c a)) [] s₀ t := by
  have hc := H.child_mem hlink
  have hlive : H.Live D c (some a) := ⟨hlink, hopen⟩
  have hadvance := h.advance (naming_nodeLabel hD) hlink hopen
  obtain ⟨rest, hrest⟩ : ∃ ps, ps = Parts.move s.parts (H.nodeLabel D c (some a))
      (H.nodeLabel D c none) := ⟨_, rfl⟩
  rw [← hrest] at hadvance
  obtain ⟨ks, hks⟩ : ∃ ks, ks = arrange (rest.map Prod.fst) := ⟨_, rfl⟩
  have hperm : ks.Perm (rest.map Prod.fst) := hks ▸ harrange _
  have hstart : Stage H (linked D c a) (midLabel H D c a ks)
      (if (none : Option (List Nat)).isSome then [] else
        Parts.rulesOf s.parts (H.nodeLabel D c (some a))) s₀ { s with parts := rest } := by
    refine hadvance.congr ?_
    intro p b hp hb hkey
    by_cases hmem : H.nodeLabel D p b ∈ ks
    · simp [midLabel, hmem]
    · -- A new label of a node that is not there is not there either.
      exfalso
      have hnew : midLabel H D c a ks p b = H.nodeLabel (linked D c a) p b := by
        simp [midLabel, hmem]
      rw [hperm.mem_iff] at hmem
      rw [hnew] at hkey
      rcases hadvance.table.keys _ (hkey.resolve_left hmem) with hnil | ⟨q, hq, x, hx, heq⟩
      · exact nodeLabel_ne_nil hp b hnil
      · obtain ⟨rfl, rfl⟩ := nodeLabel_injective (linked_le hD hlink) hD hp hq
          hb.isClass hx.isClass heq
        exact hmem (heq ▸ hkey.resolve_left hmem)
  have hold : ∀ k ∈ ks, IsOld H D (linked D c a) k := fun k hk =>
    hadvance.table.keys k (hperm.mem_iff.mp hk)
  obtain ⟨found, u, hrun, hfound, hu⟩ := hstart.run_linkNodes hD hlink
    (hperm.nodup_iff.mpr hadvance.table.nodup) hold (h.table.own hc hlive)
  have hhit : ∃ k ∈ ks, Hit H D a k := by
    have ha := H.parent_mem hlink
    obtain ⟨b, hb, hmem⟩ := hadvance.table.exists_node ha
    exact ⟨_, hperm.mem_iff.mpr hmem, a, ha, b, hb.isClass, rfl, H.self_mem_under ha⟩
  obtain ⟨parents, rfl⟩ := Option.isSome_iff_exists.mp (hfound.mpr (.inr hhit))
  obtain ⟨⟨context, settings⟩, hheritage⟩ := Compile.run_heritage parents [] [] u
  obtain ⟨t, hinherit, ht, -⟩ := Compile.run_inheritAll context settings
    (Parts.rulesOf s.parts (H.nodeLabel D c (some a))) u
  refine ⟨t, ?_, hu.relabels ht⟩
  have hcut : Selector.cutExtends (H.nodeLabel D c (some a)) = (H.nodeLabel D c none, a) :=
    Selector.cutExtends_label (fun _ => compact_of_mem_under) (some a)
  have hany : s.parts.any (·.1 == H.nodeLabel D c (some a)) = true := by
    obtain ⟨node, hnode, hkey⟩ := mem_map.mp (h.table.waiting hlink hopen)
    exact any_eq_true.mpr ⟨node, hnode, by simp [hkey]⟩
  unfold extendNode
  rw [hcut, Run.run_get_bind]
  simp only [hany, Bool.not_true, Bool.false_eq_true, if_false, Run.run_modify_bind]
  rw [← Parts.move, ← hrest, ← hks, Run.bind_ok hrun, Run.bind_ok hheritage, Run.bind_ok hinherit]
  rfl

/-- A node that has been linked is gone, and nothing is done about it. -/
theorem run_extendNode_of_notMem {arrange : List Text → List Text} {node : Text}
    (h : node ∉ s.parts.map Prod.fst) : (extendNode arrange node).run s = (.ok (), s) := by
  have hany : s.parts.any (·.1 == node) = false := by
    rw [any_eq_false]
    intro p hp hnode
    exact h (mem_map.mpr ⟨p, hp, by simpa using hnode⟩)
  unfold extendNode
  rw [Run.run_get_bind]
  simp only [hany, Bool.not_false, if_true]
  rfl

end Stage

end SheetPress.Extending
