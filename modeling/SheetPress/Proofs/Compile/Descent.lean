import SheetPress.Proofs.Compile.Growth
import SheetPress.Proofs.Extend.Link

/-!
# Where rules come from

While rules are worked on, linked, ordered and collected, no rule changes its file, and each new one
is made from another: it has the file of that one, and its properties go where those of that one go
or to a place that is new.  So every rule *descends* from one that was there at the start
(`descends_finishRules`).
-/

set_option autoImplicit false

namespace SheetPress.Compile

/-- The file that a rule belongs to. -/
def fileOf (s : Session) (r : Nat) : Option Text := (s.rules.getD r {}).file

/-- Every rule of the later session descends from one of the earlier session, and those that were
there have kept their files. -/
structure Descends (s t : Session) : Prop where
  rules : s.rules.size ≤ t.rules.size
  sinks : s.sinks.size ≤ t.sinks.size
  kept : ∀ r < s.rules.size, fileOf t r = fileOf s r
  origin : ∀ r, ∃ q, fileOf t r = fileOf s q ∧
    ∀ i, sinkOf t r = some i → sinkOf s q = some i ∨ s.sinks.size ≤ i

namespace Descends

variable {s t u : Session}

theorem same (hrules : t.rules.size = s.rules.size) (hsinks : t.sinks.size = s.sinks.size)
    (hfile : ∀ r, fileOf t r = fileOf s r) (hsink : ∀ r, sinkOf t r = sinkOf s r) :
    Descends s t where
  rules := hrules.ge
  sinks := hsinks.ge
  kept := fun r _ => hfile r
  origin := fun r => ⟨r, hfile r, fun _ hi => .inl (hsink r ▸ hi)⟩

instance : Std.Refl Descends := ⟨fun _ => same rfl rfl (fun _ => rfl) fun _ => rfl⟩

theorem trans (h : Descends s t) (h' : Descends t u) : Descends s u where
  rules := h.rules.trans h'.rules
  sinks := h.sinks.trans h'.sinks
  kept := fun r hr => (h'.kept r (hr.trans_le h.rules)).trans (h.kept r hr)
  origin := fun r => by
    obtain ⟨q, hfile, hsink⟩ := h'.origin r
    obtain ⟨p, hfile', hsink'⟩ := h.origin q
    refine ⟨p, hfile.trans hfile', fun i hi => ?_⟩
    rcases hsink i hi with hi | hi
    · exact hsink' i hi
    · exact .inr (h.sinks.trans hi)

instance : IsTrans Session Descends := ⟨fun _ _ _ h h' => h.trans h'⟩

theorem push {b r : Rule} (hb : Known s b) (hrules : t.rules = s.rules.push r)
    (hsinks : s.sinks.size ≤ t.sinks.size) (hfile : r.file = b.file)
    (hsink : ∀ i, r.sink = some i → b.sink = some i ∨ s.sinks.size ≤ i) : Descends s t where
  rules := by simp [hrules]
  sinks := hsinks
  kept := fun x hx => by
    unfold fileOf
    rw [hrules, getD_of_isPrefix (prefix_push s.rules r) hx]
  origin := fun x => by
    obtain ⟨q, rfl⟩ := hb
    by_cases hx : x = s.rules.size
    · refine ⟨q, ?_, fun i hi => hsink i ?_⟩
      · rw [fileOf, hrules, hx, getD_push_size, hfile, fileOf]
      · rwa [sinkOf, hrules, hx, getD_push_size] at hi
    · have hold : (s.rules.push r).getD x {} = s.rules.getD x {} := by
        simp only [Array.getD_eq_getD_getElem?, Array.getElem?_push, if_neg hx]
      exact ⟨x, by rw [fileOf, hrules, hold, fileOf], fun i hi => .inl (by
        rwa [sinkOf, hrules, hold] at hi)⟩

end Descends

theorem Step.descends {s t : Session} (h : Step s t) : Descends s t := by
  cases h with
  | property i p => exact .same rfl (by simp) (fun _ => rfl) fun _ => rfl
  | copy hb hfile hsink =>
    refine .push hb rfl le_rfl hfile fun i hi => .inl ?_
    rcases hsink with hsink | hsink
    · rwa [← hsink]
    · cases hsink.symm.trans hi
  | fresh hb hfile hsink | nested o hb hfile hsink =>
    refine .push hb rfl (by simp) hfile fun i hi => .inr ?_
    exact (Option.some.inj (hsink.symm.trans hi)).le
  | _ => exact .same rfl rfl (fun _ => rfl) fun _ => rfl

theorem Steps.descends {s t : Session} (h : Steps s t) : Descends s t := by
  induction h with
  | refl => exact refl_of Descends s
  | tail _ hstep ih => exact ih.trans hstep.descends

open Run

theorem descends_modify {g : Session → Session} (hrules : ∀ s, (g s).rules = s.rules)
    (hsinks : ∀ s, (g s).sinks = s.sinks) : Within Descends (modify g : Run PUnit) :=
  within_modify fun s => .same (by rw [hrules]) (by rw [hsinks])
    (fun r => by rw [fileOf, hrules, fileOf]) fun r => by rw [sinkOf, hrules, sinkOf]

/-- A rule may be changed, but for its file and the place for its properties. -/
theorem descends_modifyRule (r : Nat) {g : Rule → Rule} (hfile : ∀ b, (g b).file = b.file)
    (hsink : ∀ b, (g b).sink = b.sink) : Within Descends (modifyRule r g) :=
  within_modify fun s => .same (by simp) rfl (field_modify Rule.file hfile s.rules r)
    (field_modify Rule.sink hsink s.rules r)

theorem descends_of_steps {α : Type} {x : Run α} (h : Within Steps x) : Within Descends x :=
  h.mono fun _ _ => Steps.descends

/-! ## Work on rules -/

theorem descends_runRule (depth position r : Nat) : Within Descends (runRule depth position r) := by
  have howner : ∀ o, Within Descends (newOwner o) := fun _ _ =>
    .same rfl rfl (fun _ => rfl) fun _ => rfl
  unfold runRule
  refine within_bind within_get fun s => ?_
  refine within_bind (within_rule r) fun rule => ?_
  refine within_bind (howner _) fun o => ?_
  refine within_bind (descends_of_steps (steps_work depth _ _)) fun _ => ?_
  refine within_bind (within_owner o) fun owner => ?_
  refine within_bind (descends_modify (fun _ => rfl) fun _ => rfl) fun _ => ?_
  refine within_bind (descends_modifyRule r (fun _ => rfl) fun _ => rfl) fun _ => ?_
  exact descends_modify (fun _ => rfl) fun _ => rfl

theorem descends_repeatFrom {once : Nat → Run Nat} (h : ∀ position, Within Descends (once position))
    (count position : Nat) : Within Descends (repeatFrom once count position) := by
  induction count generalizing position with
  | zero => exact within_pure _
  | succ count ih => exact within_bind (h position) fun _ => ih _

theorem descends_runFirst (depth n position : Nat) :
    Within Descends (runFirst depth n position) := by
  induction n generalizing position with
  | zero => exact within_throw _
  | succ n ih =>
    unfold runFirst
    refine within_bind within_get fun s => ?_
    split
    · exact within_pure _
    · refine within_bind (descends_modify (fun _ => rfl) fun _ => rfl) fun _ => ?_
      refine within_bind (descends_runRule depth position _) fun _ => ?_
      exact within_bind within_get fun _ => descends_repeatFrom ih _ _

/-! ## Links -/

theorem descends_loop {g : Nat → Run PUnit} (hg : ∀ r, Within Descends (g r)) (rules : List Nat) :
    Within Descends (forIn rules PUnit.unit fun r _ => do
      g r
      pure (ForInStep.yield PUnit.unit)) :=
  within_forIn (fun r _ => within_bind (hg r) fun _ => within_pure _) rules _

theorem descends_setSelectors (rules : List Nat) (selectors : Text) :
    Within Descends (setSelectors rules selectors) := by
  unfold setSelectors
  refine within_bind (descends_loop (fun r => ?_) rules) fun _ => within_pure _
  exact descends_modifyRule r (fun _ => rfl) fun _ => rfl

theorem descends_addDeps (rules deps : List Nat) : Within Descends (addDeps rules deps) := by
  unfold addDeps
  refine within_bind (descends_loop (fun r => ?_) rules) fun _ => within_pure _
  exact descends_modifyRule r (fun _ => rfl) fun _ => rfl

theorem descends_linkNode (parent children : Text) (childRules : List Nat) (node : Text) :
    Within Descends (linkNode parent children childRules node) := by
  unfold linkNode
  refine within_bind within_get fun s => ?_
  dsimp only
  split
  · exact within_throw _
  · exact within_pure _
  · have hlinked : ∀ selectors (rules : List Nat), Within Descends (do
        setSelectors childRules children
        let positions ← childRules.mapM fun r => do return (← Run.rule r).position
        setSelectors rules selectors
        addDeps rules (positions.filterMap id)
        return some rules : Run (Option (List Nat))) := by
      intro selectors rules
      refine within_bind (descends_setSelectors _ _) fun _ => ?_
      refine within_bind (within_mapM (fun r => ?_) _) fun positions => ?_
      · exact within_bind (within_rule r) fun _ => within_pure _
      refine within_bind (descends_setSelectors _ _) fun _ => ?_
      exact within_bind (descends_addDeps _ _) fun _ => within_pure _
    split
    · refine within_bind (descends_modify (fun _ => rfl) fun _ => rfl) fun _ => hlinked _ _
    · exact hlinked _ _

theorem descends_linkNodes (parent children : Text) (childRules : List Nat)
    (found : Option (List Nat)) (nodes : List Text) :
    Within Descends (linkNodes parent children childRules found nodes) := by
  induction nodes generalizing found with
  | nil => exact within_pure _
  | cons node rest ih =>
    unfold linkNodes
    refine within_bind (descends_linkNode parent children childRules node) fun linked => ?_
    cases linked with
    | none => exact ih _
    | some rules => exact ih _

theorem descends_heritage (context : Context) (settings : Settings) (rules : List Nat) :
    Within Descends (heritage context settings rules) := by
  induction rules generalizing context settings with
  | nil => exact within_pure _
  | cons r rest ih =>
    refine within_bind (within_contextOf r) fun _ => ?_
    exact within_bind (within_settingsOf r) fun _ => ih _ _

theorem descends_inherit (context : Context) (settings : Settings) (r : Nat) :
    Within Descends (inherit context settings r) := by
  unfold inherit
  refine within_bind (within_contextOf r) fun _ => ?_
  refine within_bind (descends_of_steps (steps_newContext _)) fun _ => ?_
  refine within_bind (within_settingsOf r) fun _ => ?_
  refine within_bind (descends_of_steps (steps_newSettings _)) fun _ => ?_
  exact descends_modifyRule r (fun _ => rfl) fun _ => rfl

theorem descends_extendNode (arrange : List Text → List Text) (node : Text) :
    Within Descends (extendNode arrange node) := by
  unfold extendNode
  dsimp only
  refine within_bind within_get fun s => ?_
  split
  · exact within_pure _
  · refine within_bind (descends_modify (fun _ => rfl) fun _ => rfl) fun _ => ?_
    refine within_bind (descends_linkNodes _ _ _ _ _) fun found => ?_
    split
    · exact descends_of_steps (steps_logLine _ _)
    · refine within_bind (descends_heritage _ _ _) fun _ => ?_
      exact within_bind (descends_loop (descends_inherit _ _) _) fun _ => within_pure _

theorem descends_extendNodes (e : Enumeration) (round turn : Nat) (nodes : List Text) :
    Within Descends (extendNodes e round turn nodes) := by
  induction nodes generalizing turn with
  | nil => exact within_pure _
  | cons node rest ih => exact within_bind (descends_extendNode _ node) fun _ => ih _

theorem descends_extendRounds (e : Enumeration) (n : Nat) :
    Within Descends (extendRounds e n) := by
  induction n with
  | zero => exact within_pure _
  | succ n ih =>
    unfold extendRounds
    refine within_bind within_get fun s => ?_
    dsimp only
    split
    · exact within_pure _
    · exact within_bind (descends_extendNodes e _ _ _) fun _ => ih

/-! ## All of it -/

theorem descends_orderRules : Within Descends orderRules := by
  unfold orderRules
  refine within_bind within_get fun s => within_bind (descends_loop (fun r => ?_) _) fun _ => ?_
  · have hplace : ∀ b, (place b).file = b.file ∧ (place b).sink = b.sink := by
      intro b
      unfold place
      split <;> exact ⟨rfl, rfl⟩
    exact descends_modifyRule r (fun b => (hplace b).1) fun b => (hplace b).2
  · exact fun t => .same rfl rfl (fun _ => rfl) fun _ => rfl

/-- All rules descend from those that were there before the waiting ones were worked on. -/
theorem descends_finishRules : Within Descends finishRules := by
  unfold finishRules runRules extendAll extendAllIn collectRules
  refine within_bind (within_bind within_get fun s => within_bind
    (descends_repeatFrom (descends_runFirst _ _) _ _) fun _ => within_pure _) fun _ => ?_
  refine within_bind (within_bind (descends_modify (fun _ => rfl) fun _ => rfl) fun _ =>
    descends_extendRounds _ _) fun _ => ?_
  exact within_bind descends_orderRules fun _ => descends_modify (fun _ => rfl) fun _ => rfl

end SheetPress.Compile
