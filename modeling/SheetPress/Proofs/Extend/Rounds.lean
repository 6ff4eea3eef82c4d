import SheetPress.Proofs.Extend.Stage

/-!
# Ten rounds

A round goes through the nodes as they were at its start.  A node that gets another label before
its turn is passed over, and its link has to wait for the next round.  But the labels of a class
change only with links into the classes below it: once these have been made, the next round makes
all links of the class itself.  So the links of all classes that are reached over chains of fewer
than `n` links are made after `n` rounds, and ten rounds are enough for chains of ten links
(`run_extendRounds`).
-/

set_option autoImplicit false

namespace SheetPress.Extending

open Relation (ReflTransGen)
open Compile (extendNode extendNodes extendRounds isExtending)

/-- A chain of `n` links ends in the class. -/
def Climbs (R : Text → Text → Prop) : Nat → Text → Prop
  | 0, _ => True
  | n + 1, c => ∃ x, R x c ∧ Climbs R n x

section Chains

variable {R : Text → Text → Prop}

theorem Climbs.of_succ {n : Nat} {c : Text} (h : Climbs R (n + 1) c) : Climbs R n c := by
  induction n generalizing c with
  | zero => trivial
  | succ n ih =>
    obtain ⟨x, hx, hclimbs⟩ := h
    exact ⟨x, hx, ih hclimbs⟩

theorem Climbs.reach {n : Nat} {x c : Text} (h : Climbs R n x) (hreach : ReflTransGen R x c) :
    Climbs R n c := by
  induction hreach with
  | refl => exact h
  | tail _ hstep ih => exact Climbs.of_succ ⟨_, hstep, ih⟩

end Chains

variable {H : Hierarchy} {D D₀ : Text → Text → Prop} {s₀ s : Session} {n : Nat} {c a : Text}

/-- All links of classes that no chain of `n` links ends in have been made. -/
def Settled (H : Hierarchy) (D : Text → Text → Prop) (n : Nat) : Prop :=
  ∀ c a, H.links c a → ¬ Climbs H.links n c → D c a

/-- Nothing comes under a class any more whose links are made next. -/
theorem Settled.under_eq (h : Settled H D₀ n) (hle : D₀ ≤ D) (hD : D ≤ H.links)
    (hc : ¬ Climbs H.links (n + 1) c) : H.under D c = H.under D₀ c := by
  refine H.under_congr fun x => ⟨fun hreach => ?_, ReflTransGen.mono hle _ _⟩
  induction hreach using ReflTransGen.head_induction_on with
  | refl => exact .refl
  | head hstep hrest ih =>
    refine .head (h _ _ (hD _ _ hstep) fun hclimbs => hc ?_) ih
    exact Climbs.reach ⟨_, hD _ _ hstep, hclimbs⟩ (ReflTransGen.mono hD _ _ hrest)

/-- Some links have been made. -/
structure Linked (H : Hierarchy) (D : Text → Text → Prop) (s₀ s : Session) : Prop where
  le : D ≤ H.links
  stage : Stage H D (H.nodeLabel D) [] s₀ s

/-! ## One round -/

theorem isClass_parent (hlink : H.links c a) : ∀ x ∈ some a, IsClass x := by
  rintro x ⟨⟩
  exact H.isClass a (H.parent_mem hlink)

/-- The turn of a node of the round: its link is made, unless it has got another label. -/
theorem Linked.run_turn (h : Linked H D s₀ s) (hle : D₀ ≤ D) (hlink : H.links c a)
    {arrange : List Text → List Text} (harrange : ∀ ks, (arrange ks).Perm ks) :
    ∃ D' t, (extendNode arrange (H.nodeLabel D₀ c (some a))).run s = (.ok (), t) ∧ D ≤ D' ∧
      Linked H D' s₀ t ∧ (Settled H D₀ n → ¬ Climbs H.links (n + 1) c → D' c a) := by
  by_cases hmem : H.nodeLabel D₀ c (some a) ∈ s.parts.map Prod.fst
  · have hkey : H.Live D c (some a) ∧ H.nodeLabel D₀ c (some a) = H.nodeLabel D c (some a) := by
      rcases h.stage.table.keys _ hmem with hnil | ⟨p, hp, b, hb, heq⟩
      · exact absurd hnil (Hierarchy.nodeLabel_ne_nil (H.child_mem hlink) _)
      · obtain ⟨rfl, rfl⟩ := Hierarchy.nodeLabel_injective (hle.trans h.le) h.le
          (H.child_mem hlink) hp (isClass_parent hlink) hb.isClass heq
        exact ⟨hb, heq⟩
    obtain ⟨t, hrun, ht⟩ := h.stage.run_extendNode h.le hlink hkey.1.2 harrange
    rw [hkey.2]
    exact ⟨linked D c a, t, hrun, fun _ _ => Or.inl, ⟨linked_le h.le hlink, ht⟩,
      fun _ _ => Or.inr ⟨rfl, rfl⟩⟩
  · refine ⟨D, s, Stage.run_extendNode_of_notMem hmem, le_rfl, h, fun hsettled hc => ?_⟩
    -- The node has kept its label, so it is not there because its link has been made.
    by_contra hopen
    apply hmem
    rw [Hierarchy.nodeLabel, ← hsettled.under_eq hle h.le hc]
    exact h.stage.table.waiting hlink hopen

/-- A round over nodes: the links of classes that no longer change are made. -/
theorem Linked.run_extendNodes (e : Enumeration) (round : Nat) {nodes : List Text}
    (hnodes : ∀ k ∈ nodes, ∃ c a, H.links c a ∧ k = H.nodeLabel D₀ c (some a)) :
    ∀ {D : Text → Text → Prop} {s : Session} (turn : Nat), Linked H D s₀ s → D₀ ≤ D →
      ∃ D' t, (extendNodes e round turn nodes).run s = (.ok (), t) ∧ D ≤ D' ∧ Linked H D' s₀ t ∧
        (Settled H D₀ n → ∀ c a, H.links c a → H.nodeLabel D₀ c (some a) ∈ nodes →
          ¬ Climbs H.links (n + 1) c → D' c a) := by
  induction nodes with
  | nil =>
    intro D s turn h _
    exact ⟨D, s, rfl, le_rfl, h, by simp⟩
  | cons k nodes ih =>
    intro D s turn h hle
    obtain ⟨c, a, hlink, rfl⟩ := hnodes k (by simp)
    obtain ⟨D₁, s₁, hrun₁, hle₁, h₁, hmade₁⟩ :=
      h.run_turn (n := n) hle hlink (e.perm round turn)
    obtain ⟨D', t, hrun, hle', h', hmade⟩ :=
      ih (fun k hk => hnodes k (by simp [hk])) (turn + 1) h₁ (hle.trans hle₁)
    refine ⟨D', t, ?_, hle₁.trans hle', h', fun hsettled c' a' hlink' hmem hc => ?_⟩
    · unfold extendNodes
      rw [Run.bind_ok hrun₁]
      exact hrun
    · rcases List.mem_cons.mp hmem with heq | hmem
      · obtain ⟨rfl, ⟨⟩⟩ := Hierarchy.nodeLabel_injective (hle.trans h.le) (hle.trans h.le)
          (H.child_mem hlink') (H.child_mem hlink) (isClass_parent hlink')
          (isClass_parent hlink) heq
        exact hle' _ _ (hmade₁ hsettled hc)
      · exact hmade hsettled c' a' hlink' hmem hc

/-! ## All rounds -/

theorem isExtending_nodeLabel (D : Text → Text → Prop) (p : Text) {b : Option Text}
    (hb : ∀ x ∈ b, IsClass x) : isExtending (H.nodeLabel D p b) = b.isSome := by
  rw [isExtending, Hierarchy.nodeLabel, Selector.cutExtends_label fun _ => compact_of_mem_under]
  cases b with
  | none => rfl
  | some x => simpa using (hb x rfl).ne_nil

/-- The nodes of a round are those of the links that are still to be made. -/
theorem Linked.mem_extending (h : Linked H D s₀ s) {k : Text} :
    k ∈ (s.parts.map Prod.fst).filter isExtending ↔
      ∃ c a, H.links c a ∧ ¬ D c a ∧ k = H.nodeLabel D c (some a) := by
  rw [List.mem_filter]
  constructor
  · rintro ⟨hmem, hextending⟩
    rcases h.stage.table.keys k hmem with rfl | ⟨p, hp, b, hb, rfl⟩
    · exact absurd hextending (by decide)
    · rw [isExtending_nodeLabel D p hb.isClass] at hextending
      obtain ⟨a, rfl⟩ := Option.isSome_iff_exists.mp hextending
      exact ⟨p, a, hb.1, hb.2, rfl⟩
  · rintro ⟨c, a, hlink, hopen, rfl⟩
    have hlive : H.Live D c (some a) := ⟨hlink, hopen⟩
    exact ⟨h.stage.table.waiting hlink hopen, isExtending_nodeLabel D c hlive.isClass⟩

/-- After a round one more level of classes is settled. -/
theorem Linked.run_round (h : Linked H D s₀ s) (hsettled : Settled H D n) (e : Enumeration)
    (round : Nat) {nodes : List Text}
    (hnodes : nodes.Perm ((s.parts.map Prod.fst).filter isExtending)) :
    ∃ D' t, (extendNodes e round 1 nodes).run s = (.ok (), t) ∧ Linked H D' s₀ t ∧
      Settled H D' (n + 1) := by
  have hform : ∀ k ∈ nodes, ∃ c a, H.links c a ∧ k = H.nodeLabel D c (some a) := by
    intro k hk
    obtain ⟨c, a, hlink, -, rfl⟩ := h.mem_extending.mp (hnodes.mem_iff.mp hk)
    exact ⟨c, a, hlink, rfl⟩
  obtain ⟨D', t, hrun, hle, h', hmade⟩ :=
    Linked.run_extendNodes (n := n) e round hform 1 h le_rfl
  refine ⟨D', t, hrun, h', fun c a hlink hc => ?_⟩
  by_cases hold : D c a
  · exact hle _ _ hold
  · refine hmade hsettled c a hlink (hnodes.mem_iff.mpr ?_) hc
    exact h.mem_extending.mpr ⟨c, a, hlink, hold, rfl⟩

/-- With as many rounds as the longest chain is long, all links are made. -/
theorem run_extendRounds (e : Enumeration) {m : Nat} (h : Linked H D s₀ s)
    (hsettled : Settled H D n) (hchains : ∀ c a, H.links c a → ¬ Climbs H.links (n + m) c) :
    ∃ t, (extendRounds e m).run s = (.ok (), t) ∧ Linked H H.links s₀ t := by
  induction m generalizing n D s with
  | zero =>
    have hall : D = H.links :=
      le_antisymm h.le fun c a hlink => hsettled c a hlink (hchains c a hlink)
    exact ⟨s, rfl, hall ▸ h⟩
  | succ m ih =>
    obtain ⟨nodes, heq⟩ :
        ∃ nodes, (e.order (m + 1) 0 (s.parts.map Prod.fst)).filter isExtending = nodes := ⟨_, rfl⟩
    have hnodes : nodes.Perm ((s.parts.map Prod.fst).filter isExtending) :=
      heq ▸ (e.perm (m + 1) 0 _).filter isExtending
    unfold extendRounds
    rw [Run.run_get_bind]
    simp only [heq]
    split
    next hempty =>
      have hall : D = H.links := by
        refine le_antisymm h.le fun c a hlink => ?_
        by_contra hopen
        have hmem := hnodes.mem_iff.mpr (h.mem_extending.mpr ⟨c, a, hlink, hopen, rfl⟩)
        rw [List.isEmpty_iff.mp hempty] at hmem
        exact List.not_mem_nil hmem
      exact ⟨s, rfl, hall ▸ h⟩
    next =>
      obtain ⟨D', t₁, hround, h', hsettled'⟩ := h.run_round hsettled e (m + 1) hnodes
      obtain ⟨t, hrun, ht⟩ := ih h' hsettled' fun c a hlink => by
        rw [Nat.add_assoc, Nat.add_comm 1 m]
        exact hchains c a hlink
      refine ⟨t, ?_, ht⟩
      rw [Run.bind_ok hround]
      exact hrun

end SheetPress.Extending
