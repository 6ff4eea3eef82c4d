import SheetPress.Proofs.Compile.Run
import SheetPress.Proofs.Compile.Parts

/-!
# Linking one node

Linking gives rules new selectors, notes what they depend on and lets them inherit variables; of
these, `Relabels` keeps the selectors and `Defers` the positions that rules have to come before.  A
node is left alone if the parent is not found in it (`run_linkNode_of_nil`), and is moved to its new
selectors with all its rules if it is (`run_linkNode_of_ne`).
-/

set_option autoImplicit false

namespace SheetPress.Compile

open List

/-- The selectors of a rule. -/
def selectorsOf (s : Session) (r : Nat) : Text := (s.rules.getD r {}).selectors

/-- The position of a rule. -/
def positionOf (s : Session) (r : Nat) : Option Nat := (s.rules.getD r {}).position

/-- The positions that a rule has to come before. -/
def depsOf (s : Session) (r : Nat) : List Nat := (s.rules.getD r {}).deps

/-- The selectors of the rules change as given; table and journal stay as they are. -/
structure Relabels (f : (r : Nat) → (selectors : Text) → Text) (s t : Session) : Prop where
  parts : t.parts = s.parts
  pool : t.pool = s.pool
  order : t.order = s.order
  size : t.rules.size = s.rules.size
  selectors : ∀ r < s.rules.size, selectorsOf t r = f r (selectorsOf s r)

namespace Relabels

variable {f g : Nat → Text → Text} {s t u : Session}

theorem refl (s : Session) : Relabels (fun _ x => x) s s :=
  ⟨rfl, rfl, rfl, rfl, fun _ _ => rfl⟩

theorem trans (h : Relabels f s t) (h' : Relabels g t u) :
    Relabels (fun r x => g r (f r x)) s u where
  parts := h'.parts.trans h.parts
  pool := h'.pool.trans h.pool
  order := h'.order.trans h.order
  size := h'.size.trans h.size
  selectors := fun r hr => by
    rw [h'.selectors r (by rwa [h.size]), h.selectors r hr]

end Relabels

/-- The rules keep their positions, and have to come before the given ones in addition. -/
structure Defers (later : (r n : Nat) → Prop) (s t : Session) : Prop where
  positions : ∀ r, positionOf t r = positionOf s r
  deps : ∀ r < s.rules.size, ∀ n, n ∈ depsOf t r ↔ n ∈ depsOf s r ∨ later r n

/-- Nothing has to come later than before. -/
abbrev Defers.Nothing : Session → Session → Prop := Defers fun _ _ => False

namespace Defers

variable {later : Nat → Nat → Prop} {s t u : Session}

theorem refl (s : Session) : Nothing s s := ⟨fun _ => rfl, by simp⟩

theorem trans_nothing (h : Defers later s t) (h' : Nothing t u)
    (hsize : t.rules.size = s.rules.size) : Defers later s u where
  positions := fun r => (h'.positions r).trans (h.positions r)
  deps := fun r hr n => by
    rw [h'.deps r (by rwa [hsize]), or_false, h.deps r hr]

theorem nothing_trans (h : Nothing s t) (h' : Defers later t u)
    (hsize : t.rules.size = s.rules.size) : Defers later s u where
  positions := fun r => (h'.positions r).trans (h.positions r)
  deps := fun r hr n => by
    rw [h'.deps r (by rwa [hsize]), h.deps r hr, or_false]

end Defers

/-! ## Loops over rules -/

theorem field_modifyAll {β : Type} (f : Rule → β) {g : Rule → Rule}
    (hg : ∀ rule, f (g rule) = f rule) (rs : List Nat) (rules : Array Rule) (r : Nat) :
    f ((modifyAll rs g rules).getD r {}) = f (rules.getD r {}) := by
  induction rs generalizing rules with
  | nil => rfl
  | cons x rs ih =>
    rw [modifyAll, foldl_cons]
    exact (ih _).trans (field_modify f hg rules x r)

theorem selectors_setAll (rs : List Nat) (selectors : Text) {rules : Array Rule} {r : Nat}
    (hr : r < rules.size) :
    ((modifyAll rs (fun rule => { rule with selectors }) rules).getD r {}).selectors =
      if r ∈ rs then selectors else (rules.getD r {}).selectors := by
  induction rs generalizing rules with
  | nil => simp [modifyAll]
  | cons x rs ih =>
    rw [modifyAll, foldl_cons]
    refine (ih (by simpa using hr)).trans ?_
    by_cases hx : r = x
    · subst hx
      rw [getD_modify_self _ hr]
      simp
    · rw [getD_modify_of_ne _ hx]
      simp [hx]

theorem defers_modifyAll {g : Rule → Rule} (hposition : ∀ rule, (g rule).position = rule.position)
    (hdeps : ∀ rule, (g rule).deps = rule.deps) (rs : List Nat) (s : Session) :
    Defers.Nothing s { s with rules := modifyAll rs g s.rules } where
  positions := field_modifyAll Rule.position hposition rs s.rules
  deps := fun r _ n => by
    rw [or_false, depsOf, depsOf, field_modifyAll Rule.deps hdeps rs s.rules r]

theorem deps_addAll (rs deps : List Nat) {rules : Array Rule} {r : Nat} (hr : r < rules.size)
    (n : Nat) :
    n ∈ ((modifyAll rs (fun rule => { rule with deps := (rule.deps ++ deps).eraseDups })
        rules).getD r {}).deps ↔ n ∈ (rules.getD r {}).deps ∨ r ∈ rs ∧ n ∈ deps := by
  induction rs generalizing rules with
  | nil => simp [modifyAll]
  | cons x rs ih =>
    rw [modifyAll, foldl_cons]
    refine (ih (by simpa using hr)).trans ?_
    by_cases hx : r = x
    · subst hx
      rw [getD_modify_self _ hr]
      simp only [mem_eraseDups, mem_append, mem_cons, true_or, true_and]
      tauto
    · rw [getD_modify_of_ne _ hx]
      simp [hx]

theorem run_positions (rs : List Nat) (s : Session) :
    (rs.mapM fun r => do return (← Run.rule r).position : Run (List (Option Nat))).run s =
      (.ok (rs.map fun r => (s.rules.getD r {}).position), s) := by
  induction rs with
  | nil => rfl
  | cons r rs ih =>
    rw [mapM_cons, bind_assoc, Run.run_rule_bind, pure_bind, Run.bind_ok ih]
    rfl

theorem run_heritage (rs : List Nat) (c : Context) (t : Settings) (s : Session) :
    ∃ x, (heritage c t rs).run s = (.ok x, s) := by
  induction rs generalizing c t with
  | nil => exact ⟨_, rfl⟩
  | cons r rs ih =>
    unfold heritage
    rw [Run.run_contextOf_bind, Run.run_settingsOf_bind]
    exact ih _ _

theorem run_inherit (c : Context) (t : Settings) (r : Nat) (s : Session) :
    ∃ u, (inherit c t r).run s = (.ok (), u) ∧ Relabels (fun _ x => x) s u ∧
      Defers.Nothing s u := by
  have hfield : ∀ {β : Type} (f : Rule → β),
      (∀ rule : Rule, f { rule with context := s.contexts.size, settings := s.settings.size } =
        f rule) → ∀ x, f ((s.rules.modify r fun rule =>
          { rule with context := s.contexts.size, settings := s.settings.size }).getD x {}) =
            f (s.rules.getD x {}) := fun f hf => field_modify f hf s.rules r
  refine ⟨_, rfl, ⟨rfl, rfl, rfl, by simp, fun x _ => ?_⟩, ⟨fun x => ?_, fun x _ n => ?_⟩⟩
  · exact hfield Rule.selectors (fun _ => rfl) x
  · exact hfield Rule.position (fun _ => rfl) x
  · rw [or_false]
    exact iff_of_eq (congrArg (n ∈ ·) (hfield Rule.deps (fun _ => rfl) x))

theorem run_inheritAll (c : Context) (t : Settings) (rs : List Nat) (s : Session) :
    ∃ u, (forIn rs PUnit.unit fun r _ => do
        inherit c t r
        pure (ForInStep.yield PUnit.unit) : Run PUnit).run s = (.ok (), u) ∧
      Relabels (fun _ x => x) s u ∧ Defers.Nothing s u := by
  induction rs generalizing s with
  | nil => exact ⟨s, rfl, .refl s, .refl s⟩
  | cons r rs ih =>
    obtain ⟨u, hinherit, hu, hu'⟩ := run_inherit c t r s
    obtain ⟨v, hrest, hv, hv'⟩ := ih u
    refine ⟨v, ?_, hu.trans hv, hu'.trans_nothing hv' hu.size⟩
    rw [forIn_cons, bind_assoc, Run.bind_ok hinherit, pure_bind]
    exact hrest

theorem run_setSelectors (rs : List Nat) (selectors : Text) (s : Session) :
    ∃ t, (setSelectors rs selectors).run s = (.ok (), t) ∧
      Relabels (fun r x => if r ∈ rs then selectors else x) s t ∧ Defers.Nothing s t := by
  unfold setSelectors
  rw [Run.bind_ok (run_modifyAll rs _ s)]
  refine ⟨_, rfl, ⟨rfl, rfl, rfl, ?_, ?_⟩, defers_modifyAll ?_ ?_ rs s⟩
  · exact size_modifyAll _ _ _
  · intro r hr
    exact selectors_setAll rs selectors hr
  · intro _
    rfl
  · intro _
    rfl

theorem run_addDeps (rs deps : List Nat) (s : Session) :
    ∃ t, (addDeps rs deps).run s = (.ok (), t) ∧ Relabels (fun _ x => x) s t ∧
      Defers (fun r n => r ∈ rs ∧ n ∈ deps) s t := by
  unfold addDeps
  rw [Run.bind_ok (run_modifyAll rs _ s)]
  refine ⟨_, rfl, ⟨rfl, rfl, rfl, ?_, ?_⟩, ⟨?_, ?_⟩⟩
  · exact size_modifyAll _ _ _
  · intro r _
    refine field_modifyAll Rule.selectors ?_ rs s.rules r
    intro _
    rfl
  · refine field_modifyAll Rule.position ?_ rs s.rules
    intro _
    rfl
  · exact fun r hr n => deps_addAll rs deps hr n

/-! ## One node -/

section Node

variable {parent children node : Text} {childRules : List Nat} {s : Session}

theorem run_linkNode_of_nil
    (h : extensions parent (Text.splitOn ',' children)
      (Text.splitOn ',' (Selector.cutExtends node).1) = .ok []) :
    (linkNode parent children childRules node).run s = (.ok none, s) := by
  unfold linkNode
  rw [Run.run_get_bind]
  simp only [h]
  rfl

/-- The rules of a node get new selectors, and those of the child get the selectors of the child. -/
def relabel (children selectors : Text) (childRules rules : List Nat) (r : Nat) (x : Text) : Text :=
  if r ∈ rules then selectors else if r ∈ childRules then children else x

theorem run_relabel (children selectors : Text) (childRules rules : List Nat) (s : Session) :
    ∃ t, (do
        setSelectors childRules children
        let positions ← childRules.mapM fun r => do return (← Run.rule r).position
        setSelectors rules selectors
        addDeps rules (positions.filterMap id)
        pure (some rules) : Run (Option (List Nat))).run s = (.ok (some rules), t) ∧
      Relabels (relabel children selectors childRules rules) s t ∧
      Defers (fun r n => r ∈ rules ∧ ∃ c ∈ childRules, positionOf s c = some n) s t := by
  obtain ⟨s₁, hchild, h₁, h₁'⟩ := run_setSelectors childRules children s
  obtain ⟨s₂, hparent, h₂, h₂'⟩ := run_setSelectors rules selectors s₁
  obtain ⟨t, hdeps, h₃, h₃'⟩ := run_addDeps rules
    ((childRules.map fun r => (s₁.rules.getD r {}).position).filterMap id) s₂
  have hpositions : ∀ n, n ∈ (childRules.map fun r => (s₁.rules.getD r {}).position).filterMap id ↔
      ∃ c ∈ childRules, positionOf s c = some n := by
    intro n
    simp only [mem_filterMap, mem_map, id_eq, exists_eq_right]
    exact exists_congr fun c => and_congr_right fun _ => by rw [← h₁'.positions c, positionOf]
  refine ⟨t, ?_, (h₁.trans h₂).trans h₃, ?_⟩
  · rw [Run.bind_ok hchild, Run.bind_ok (run_positions childRules s₁), Run.bind_ok hparent,
      Run.bind_ok hdeps, Run.run_pure]
  · simp only [hpositions] at h₃'
    exact h₁'.nothing_trans (h₂'.nothing_trans h₃' h₂.size) h₁.size

/-- A node with the parent is moved to its new selectors, and its rules get them. -/
theorem run_linkNode_of_ne {new : List Text}
    (h : extensions parent (Text.splitOn ',' children)
      (Text.splitOn ',' (Selector.cutExtends node).1) = .ok new) (hne : new ≠ []) :
    ∃ t, (linkNode parent children childRules node).run s =
        (.ok (some (Parts.rulesOf s.parts node)), t) ∧
      Relabels (relabel children (Selector.normalize node new []) childRules
          (Parts.rulesOf s.parts node))
        { s with
          parts :=
            if Selector.normalize node new [] = node then s.parts
            else Parts.move s.parts node (Selector.normalize node new []) } t ∧
      Defers (fun r n => r ∈ Parts.rulesOf s.parts node ∧
        ∃ c ∈ childRules, positionOf s c = some n) s t := by
  obtain ⟨n, new, rfl⟩ := exists_cons_of_ne_nil hne
  obtain ⟨selectors, hselectors⟩ :
      ∃ t, Selector.normalize node (n :: new) [] = t := ⟨_, rfl⟩
  rw [hselectors]
  unfold linkNode
  rw [Run.run_get_bind]
  simp only [h, hselectors]
  by_cases hsame : selectors = node
  · have hbne : (selectors != node) = false := by simp [hsame]
    rw [hbne, if_pos hsame]
    exact run_relabel children selectors childRules _ s
  · have hbne : (selectors != node) = true := by simp [hsame]
    rw [hbne, if_neg hsame]
    simp only [if_true, Run.run_modify_bind]
    obtain ⟨t, hrun, ht, ht'⟩ := run_relabel children selectors childRules
      (Parts.rulesOf s.parts node) { s with parts := Parts.move s.parts node selectors }
    exact ⟨t, hrun, ht, ⟨ht'.positions, ht'.deps⟩⟩

end Node

end SheetPress.Compile
