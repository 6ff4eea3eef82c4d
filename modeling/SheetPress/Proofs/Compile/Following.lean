import SheetPress.Proofs.Compile.Arrange

/-!
# Following variables

A variable may hold a word that is the name of a variable again.  The way from a word to the
value behind it ends after at most as many steps as there are variables, unless it runs into
variables that lead back to each other; then it has no end at all.
-/

set_option autoImplicit false

namespace SheetPress.Context

/-- In every context, the way from a word to the value behind it either ends after at most as
many steps as there are variables, and then what is found does not depend on how far one is
ready to go; or it runs into variables that lead back to each other, and has no end. -/
theorem way_ends_or_circles (c : Context) (t : Text) :
    (¬ c.Circles t ∧ c.Ends c.keyCount t ∧
      ∀ n, c.keyCount < n → c.follow n (.word t) = c.settle (.word t)) ∨
    (c.Circles t ∧ (∀ n, ¬ c.Ends n t) ∧ ∀ n, c.follow n (.word t) = throw .endless) := by
  by_cases hcircle : c.Circles t
  · exact .inr ⟨hcircle, hcircle.not_ends, hcircle.follow_eq⟩
  · have hbehind : c.Behind [] t := ⟨List.nodup_nil, by simp, by simp⟩
    have hends : c.Ends c.keyCount t := hbehind.ends hcircle (by simp)
    exact .inl ⟨hcircle, hends, fun n hn =>
      hends.follow_eq hn (Nat.lt_succ_of_le c.keyCount_le)⟩

/-- Two variables that are given each other's names. -/
def crossed : Session :=
  Compile.opened {} [] none "b = $a; $a: b; .x$a \x7bc: d\x7d".toList

/-- Assignments can lead in a circle: the source is worked on without end. -/
theorem crossed_without_end : (Compile.runRules.run crossed).1 = .error .endless ∧
    ∃ c ∈ (Compile.runRules.run crossed).2.contexts, ∀ n, ¬ c.Ends n "$a".toList := by
  have hleads : ∃ c ∈ (Compile.runRules.run crossed).2.contexts,
      c.Leads "$a".toList ['b'] ∧ c.Leads ['b'] "$a".toList := by
    decide +kernel
  obtain ⟨c, hmem, ha, hb⟩ := hleads
  exact ⟨by decide +kernel, c, hmem, Circles.not_ends ⟨_, .refl, .head ha (.single hb)⟩⟩

end SheetPress.Context
