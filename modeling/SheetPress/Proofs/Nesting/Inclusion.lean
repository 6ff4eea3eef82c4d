import SheetPress.Proofs.Nesting.Flatten

/-!
# Inclusions are inlined

A sheet with holes can be filled in two ways: with items, or with lines that include a mixin
whose code is those items.  `inclusion_eq_inlining` says that both are compiled to the same
rules.
-/

set_option autoImplicit false

namespace SheetPress.Nesting

open Source (Outline Word PlainWord classHead directive includeWord)
open Compile (Finished mixinHead oneMixin arrange ruleOf styledRules)

namespace Sheet

/-- The sheet with items in every hole. -/
def fill : Sheet Unit → Sheet Empty → Sheet Empty
  | .nil, _ => .nil
  | .declare name value rest, content => .declare name value (rest.fill content)
  | .group name body rest, content => .group name (body.fill content) (rest.fill content)
  | .rule name body rest, content => .rule name (body.fill content) (rest.fill content)
  | .media query body rest, content => .media query (body.fill content) (rest.fill content)
  | .hole _ rest, content => content.append (rest.fill content)

/-- The sheet with an inclusion in every hole. -/
def including (name : PlainWord) (t : Sheet Unit) : Outline :=
  t.outlineWith fun _ => directive includeWord.toWord name.text

/-- A mixin with the given items, and the sheet that includes it in every hole, written on one
line with single blanks. -/
def mixinSource (t : Sheet Unit) (name : PlainWord) (content : Sheet Empty) : Text :=
  (Outline.block (mixinHead name) content.outline (t.including name)).source

end Sheet

/-- With its mixin, a sheet that includes items comes to the same as the sheet with the items in
place. -/
theorem comesTo_including (name : PlainWord) (content : Sheet Empty) (depth : Nat) (t : Sheet Unit)
    (path : List Word) (media : List Text) (scope : Option Text) :
    ComesTo (oneMixin name.text content.outline) .unknown depth content.outline.size
      (t.including name).size (path.map classHead) media scope (t.including name)
      ((t.fill content).properties (scope.getD [])) ((t.fill content).blocks path media) := by
  induction t generalizing path media scope with
  | nil => exact comesTo_nil
  | declare n value rest ih => exact (ih path media scope).declare n value
  | group n body rest ihb ihr => exact (ihb path media _).group (ihr path media scope)
  | rule n body rest ihb ihr => exact comesTo_rule (ihb _ media none) (ihr path media scope)
  | media query body rest ihb ihr =>
    exact (ihb path _ none).mediaBlock Selector.isClass_path (ihr path media scope)
  | hole h rest ih =>
    rw [Sheet.fill, Sheet.properties_append, Sheet.blocks_append]
    exact (comesTo_outline _ depth content path media scope).inclusion (by simp [oneMixin])
      (ih path media scope)

/-- Including a mixin in every hole of a sheet gives the same rules as writing its items there. -/
theorem inclusion_eq_inlining (s : Session) (vars : Context) (file : Option Text) (name : PlainWord)
    (content : Sheet Empty) (sheet : Sheet Unit) :
    ∃ t u, (arrange file (sheet.mixinSource name content)).run (s.restart vars []) = (.ok (), t) ∧
      (arrange file (sheet.fill content).source).run (s.restart vars []) = (.ok (), u) ∧
      styledRules t = styledRules u := by
  have hcalm : (Outline.block (mixinHead name) content.outline (sheet.including name)).AllCalm :=
    ⟨Source.calm_directive Source.mixinWord (Source.calm_word name),
      content.allCalm_outlineWith nofun,
      sheet.allCalm_outlineWith fun _ => Source.calm_directive includeWord (Source.calm_word name)⟩
  have hsheet := fun depth => comesTo_including name content depth sheet [] [] none
  obtain ⟨t, hrun, hrules⟩ := Compile.arranged_of_mixin s vars file hcalm
    (fun depth hdepth => (hsheet depth).drains hdepth.le) (by nlinarith)
    ((hsheet _).single (Nat.le_refl _))
  obtain ⟨u, hrun', hrules'⟩ := arranged_sheet s vars file (sheet.fill content)
  exact ⟨t, u, hrun, hrun', by rw [styledRules, styledRules, hrules, hrules']; rfl⟩

end SheetPress.Nesting
