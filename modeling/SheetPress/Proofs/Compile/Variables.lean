import SheetPress.Proofs.Compile.Results

/-!
# Variables while expressions are calculated

Calculating an expression sets no variable: every context holds the values it held before.  But
values share their numbers with the expression, and an operation may change an operand.  What can
happen to a number is that it becomes a percentage, if it was bare, and that it loses its fraction
(`calculate_keeps_variables`); and this does happen (`sum_changes_variable`).
-/

set_option autoImplicit false

namespace SheetPress

mutual

/-- The shared parts of the value are the same in both pools. -/
def Value.Untouched (p p' : Pool) : Value → Prop
  | .number slot => p'.quantities[slot]? = p.quantities[slot]?
  | .colour ⟨.shared slot, _⟩ => p'.mixtures[slot]? = p.mixtures[slot]?
  | .list slot items => p'.separators[slot]? = p.separators[slot]? ∧ UntouchedItems p p' items
  | .table _ items => UntouchedItems p p' items
  | _ => True

/-- The shared parts of all items are the same in both pools. -/
def UntouchedItems (p p' : Pool) : List (Key × Value) → Prop
  | [] => True
  | (_, v) :: rest => v.Untouched p p' ∧ UntouchedItems p p' rest

end

namespace Calc

variable {α β : Type} {p p' : Pool}

/-- The computation comes to the same in both pools and leaves them alone. -/
def Same (p p' : Pool) (x : Calc α) : Prop :=
  ∃ result, x.run p = (result, p) ∧ x.run p' = (result, p')

theorem same_pure (a : α) : Same p p' (pure a) := ⟨.ok a, rfl, rfl⟩

theorem same_ofExcept (x : Except Fault α) : Same p p' (ofExcept x) := by
  cases x with
  | ok a => exact ⟨.ok a, rfl, rfl⟩
  | error f => exact ⟨.error f, rfl, rfl⟩

theorem Same.bind {x : Calc α} {f : α → Calc β} (hx : Same p p' x) (hf : ∀ a, Same p p' (f a)) :
    Same p p' (x >>= f) := by
  obtain ⟨result, hp, hp'⟩ := hx
  cases result with
  | error e => exact ⟨.error e, by rw [run_bind, hp], by rw [run_bind, hp']⟩
  | ok a =>
    obtain ⟨result, hrun, hrun'⟩ := hf a
    refine ⟨result, ?_, ?_⟩
    · rw [run_bind, hp]
      exact hrun
    · rw [run_bind, hp']
      exact hrun'

theorem same_read {f : Pool → α} (h : f p' = f p) : Same p p' (do return f (← get)) :=
  ⟨.ok (f p), rfl, h ▸ rfl⟩

end Calc

open Calc

namespace Value

variable {p p' : Pool}

mutual

theorem same_shown : (v : Value) → v.Untouched p p' → Same p p' v.shown
  | .number slot, h => by
      unfold Untouched at h
      unfold shown
      refine (same_read ?_).bind fun _ => same_ofExcept _
      rw [Array.getD_eq_getD_getElem?, Array.getD_eq_getD_getElem?, h]
  | .colour ⟨.own c, _⟩, _ => by
      unfold shown
      exact (same_pure c).bind fun _ => same_ofExcept _
  | .colour ⟨.shared slot, _⟩, h => by
      unfold Untouched at h
      unfold shown
      refine (same_read ?_).bind fun _ => same_ofExcept _
      rw [Array.getD_eq_getD_getElem?, Array.getD_eq_getD_getElem?, h]
  | .list slot items, h => by
      unfold Untouched at h
      unfold shown
      refine (same_read ?_).bind fun _ => (same_shownItems items h.2).bind fun _ => same_pure _
      rw [Array.getD_eq_getD_getElem?, Array.getD_eq_getD_getElem?, h.1]
  | .table _ items, h => by
      unfold Untouched at h
      unfold shown
      exact (same_shownItems items h).bind fun _ => same_pure _
  | .nothing, _ | .scalar _, _ | .word _, _ | .boolean _, _ | .string _, _
  | .gradient _ _ _ _, _ | .quoted _, _ => by
      unfold shown
      exact same_pure _

theorem same_shownItems : (items : List (Key × Value)) → UntouchedItems p p' items →
    Same p p' (shownItems items)
  | [], _ => by
      unfold shownItems
      exact same_pure _
  | (_, v) :: rest, h => by
      unfold UntouchedItems at h
      unfold shownItems
      refine (same_shown v h.1).bind fun _ => ?_
      exact (same_shownItems rest h.2).bind fun _ => same_pure _

end

end Value

namespace Compile

open Run

/-- Calculating an expression leaves every variable its value, and a value is shown as before
unless one of its shared parts has changed.  A number can only have drifted: a unit is kept, but
for a bare number that may have become a percentage. -/
theorem calculate_keeps_variables (n : Nat) {r : Nat} {s : Session} (hs : Plain r s) (c : Context)
    (t : Text) :
    ∃ result s', (calculate (compiler n) r c t).run s = (result, s') ∧
      s'.contexts = s.contexts ∧
      (∀ v : Value, v.Untouched s.pool s'.pool →
        (v.shown.run s'.pool).1 = (v.shown.run s.pool).1) ∧
      (∀ (slot : Nat) (q : Quantity), s.pool.quantities[slot]? = some q →
        ∃ q', s'.pool.quantities[slot]? = some q' ∧ q.Drifts q' ∧
          (q'.unit = q.unit ∨ q.unit = [] ∧ q'.unit = ['%'])) ∧
      ∀ (slot : Nat) (m : Channels), s.pool.mixtures[slot]? = some m →
        ∃ m', s'.pool.mixtures[slot]? = some m' ∧ m'.alpha = m.alpha := by
  have hreads : Consults r (fun _ => True) (calculate (compiler n) r c t) :=
    calculate_consults (mildValues_compiler r n) c t fun _ _ => trivial
  obtain ⟨result, p, new, hdrift, hrun, -⟩ := hreads s hs s.results s.results fun _ _ => rfl
  refine ⟨result, _, hrun, rfl, fun v hv => ?_, fun slot q hq => ?_, hdrift.mixtures⟩
  · obtain ⟨shown, hp, hp'⟩ := Value.same_shown v hv
    rw [hp, hp']
  · obtain ⟨q', hq', hq⟩ := hdrift.quantities slot q hq
    exact ⟨q', hq', hq, hq.unit⟩

/-- A session in which `$a` is the product of two bare numbers. -/
def productSession : Session :=
  ((do let v ← calculate (compiler depthLimit) 0 [] "2*3".toList
       Run.setVariable 0 (.name "$a".toList) v : Run Unit).run firstSession).2

theorem calculate_keeps_variables_product :
    Plain 0 productSession ∧
      ∃ result s', (calculate (compiler depthLimit) 0 (productSession.contexts.getD 0 [])
        "50% + $a".toList).run productSession = (result, s') ∧
        s'.contexts = productSession.contexts ∧
        ∀ (slot : Nat) (q : Quantity), productSession.pool.quantities[slot]? = some q →
          ∃ q', s'.pool.quantities[slot]? = some q' ∧ q.Drifts q' ∧
            (q'.unit = q.unit ∨ q.unit = [] ∧ q'.unit = ['%']) := by
  have hs : Plain 0 productSession := by
    have hproduct := (calculate_consults (K := fun _ => True) (mildValues_compiler 0 depthLimit) []
      "2*3".toList fun _ _ => trivial).plain plain_firstSession
    unfold productSession
    rw [Run.run_bind]
    rcases hrun : (calculate (compiler depthLimit) 0 [] "2*3".toList).run firstSession
      with ⟨_ | v, s⟩
    · rw [hrun] at hproduct
      exact hproduct
    · rw [hrun] at hproduct
      exact hproduct
  obtain ⟨result, s', hrun, hcontexts, -, hquantities, -⟩ :=
    calculate_keeps_variables depthLimit hs _ _
  exact ⟨hs, result, s', hrun, hcontexts, hquantities⟩

/-- The unit of a variable of the first context that is a number. -/
def unitOf (name : Text) (s : Session) : Option Text :=
  match (s.contexts.getD 0 []).get? name with
  | some (.number slot) => (s.pool.quantities[slot]?).map Quantity.unit
  | _ => none

/-- Adding a variable to a percentage makes a percentage of the variable. -/
theorem sum_changes_variable :
    unitOf "$a".toList productSession = some [] ∧
      unitOf "$a".toList ((calculate (compiler depthLimit) 0 (productSession.contexts.getD 0 [])
        "50% + $a".toList).run productSession).2 = some ['%'] := by
  decide +kernel

end Compile

end SheetPress
