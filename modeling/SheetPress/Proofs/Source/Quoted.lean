import SheetPress.Proofs.Source.Words

/-!
# Lines with a string

A directive whose argument is a word in quotes, as in `@import "name";`.  A line with such a
directive is read as one item.
-/

set_option autoImplicit false

namespace SheetPress.Source

open List

/-- A word in quotes. -/
def quoted (w : Word) : Text := '"' :: (w.text ++ ['"'])

/-- The line of a directive with a word in quotes. -/
def quotedLine (kind w : Word) : Text := directive kind (quoted w) ++ [';']

theorem quotedLine_append (kind w : Word) (rest : Text) :
    quotedLine kind w ++ rest = '@' :: (kind.text ++ ' ' :: (quoted w ++ ';' :: rest)) := by
  simp [quotedLine, directive]

theorem mem_quotedLine {kind w : Word} {c : Char} (h : c ∈ quotedLine kind w) :
    c.isLower = true ∨ c ∈ ['@', ' ', '"', ';'] := by
  rw [← append_nil (quotedLine kind w), quotedLine_append] at h
  simp only [quoted, mem_cons, mem_append, not_mem_nil, or_false] at h ⊢
  rcases h with h | h | h | (h | h | h) | h
  · simp [h]
  · exact Or.inl (kind.lower c h)
  · simp [h]
  · simp [h]
  · exact Or.inl (w.lower c h)
  · simp [h]
  · simp [h]

theorem notMem_quotedLine (kind w : Word) {c : Char} (hlower : c.isLower = false)
    (hc : c ∉ ['@', ' ', '"', ';']) : c ∉ quotedLine kind w := by
  intro h
  rcases mem_quotedLine h with h | h
  · rw [hlower] at h
    exact Bool.noConfusion h
  · exact hc h

/-! ## Reading -/

/-- A string takes the search to the point behind it, and nothing else changes. -/
theorem itemsAfter_quoted {s rest : Text} (w : Word) (line : Int) (init safe loose start i : Nat)
    (previous : Option Char) :
    itemsAfter s i previous (.idle line init safe loose start) (quoted w ++ rest) =
      itemsAfter s (i + (quoted w).length) (some '"') (.idle line init safe loose start) rest := by
  have hopen : itemsAfter s i previous (.idle line init safe loose start)
      ('"' :: (w.text ++ '"' :: rest)) =
        itemsAfter s (i + 1) (some '"') { Scan.idle line init safe loose start with
          quote := some '"' } (w.text ++ '"' :: rest) :=
    itemsAfter_silent (by decide) (by simp [step, Scan.idle])
  have hunstructured : ∀ c ∈ w.text, isStructural c = false := by
    intro c hc
    have hne : ∀ d : Char, d.isLower = false → c ≠ d := fun d => Word.ne_of_mem hc
    simp [isStructural, hne '{' (by decide), hne '}' (by decide), hne ',' (by decide),
      hne ';' (by decide), hne '(' (by decide), hne ')' (by decide), hne '\'' (by decide),
      hne '"' (by decide), hne '\n' (by decide)]
  obtain ⟨previous', hinside⟩ := itemsFrom_unstructured (s := s)
    { Scan.idle line init safe loose start with quote := some '"' } hunstructured (i + 1)
    (some '"') ('"' :: rest)
  have hpass : itemsAfter s (i + 1) (some '"') { Scan.idle line init safe loose start with
      quote := some '"' } (w.text ++ '"' :: rest) =
        itemsAfter s (i + 1 + w.text.length) previous' { Scan.idle line init safe loose start with
          quote := some '"' } ('"' :: rest) := by
    rw [itemsAfter, hinside]
    rfl
  have hclose : itemsAfter s (i + 1 + w.text.length) previous'
      { Scan.idle line init safe loose start with quote := some '"' } ('"' :: rest) =
        itemsAfter s (i + 1 + w.text.length + 1) (some '"') (.idle line init safe loose start)
          rest :=
    itemsAfter_silent (by decide) (by simp [step, Scan.idle])
  have hpos : i + 1 + w.text.length + 1 = i + (quoted w).length := by
    simp only [quoted, length_cons, length_append, length_nil]
    omega
  rw [← hpos, ← hclose, ← hpass, ← hopen]
  simp [quoted]

theorem tight_quoted_directive (kind w : Word) : Text.Tight (directive kind (quoted w)) where
  head := by simp [directive, Text.isSpace]
  last := by
    have hend : directive kind (quoted w) =
        ('@' :: (kind.text ++ ' ' :: '"' :: w.text)) ++ ['"'] := by
      simp [directive, quoted]
    rw [hend, List.getLast?_concat]
    simp [Text.isSpace]

theorem readHead_quoted {before behind : Text} (hw : Wraps before behind) (kind w : Word) :
    ∃ line, readHead 0 (before ++ directive kind (quoted w)) =
      .ok (line, directive kind (quoted w)) := by
  have hnot : ∀ c : Char, c.isLower = false → c ∉ ['@', ' ', '"', ';'] →
      c ∉ directive kind (quoted w) := by
    intro c hlower hc hmem
    exact notMem_quotedLine kind w hlower hc (mem_append_left _ hmem)
  have hbreak := hnot '\n' (by decide) (by decide)
  cases hw with
  | bare =>
    refine ⟨0, ?_⟩
    rw [nil_append, readHead_of_unmarked 0 (hnot mark (by decide) (by decide)) hbreak,
      (tight_quoted_directive kind w).trim]
  | tagged n =>
    obtain ⟨line, hline⟩ := readHead_tag 0 n [] (by simp)
    refine ⟨line, ?_⟩
    have hread := hline (directive kind (quoted w))
    rwa [dropTags_of_notMem hbreak, (tight_quoted_directive kind w).trim] at hread

theorem quiet_directive_start {before behind : Text} (hw : Wraps before behind) (kind : PlainWord) :
    Quiet (before ++ '@' :: (kind.text ++ [' '])) := by
  have hbefore : Quiet before := by
    cases hw with
    | bare => simp [Quiet]
    | tagged n => exact quiet_tag n
  have hat : Quiet ['@'] := by
    intro c hc
    rw [mem_singleton] at hc
    subst hc
    decide
  exact hbefore.append (hat.append ((calm_word kind).quiet.append quiet_blank))

theorem items_quotedLine {before behind : Text} (hw : Wraps before behind) (kind w : PlainWord) :
    ∃ line, items (before ++ (quotedLine kind.toWord w.toWord ++ behind)) =
      ⟨[⟨line, directive kind.toWord (quoted w.toWord), none⟩], none⟩ := by
  obtain ⟨line, hread⟩ := readHead_quoted hw kind.toWord w.toWord
  refine ⟨line, ?_⟩
  let piece := before ++ directive kind.toWord (quoted w.toWord)
  have hpiece : ';' ∉ piece := by
    have hbefore := (hw.notMem_sides (c := ';') (by decide) (by decide) (by decide)).1
    have hkind : ';' ∉ kind.text := kind.notMem (by decide)
    have hword : ';' ∉ w.text := w.notMem (by decide)
    simp [piece, directive, quoted, hbefore, hkind, hword]
  have htext : before ++ (quotedLine kind.toWord w.toWord ++ behind) =
      [] ++ (pending [piece] ++ behind) := by
    simp [pending, piece, quotedLine]
  have hparts : before ++ (quotedLine kind.toWord w.toWord ++ behind) =
      (before ++ '@' :: (kind.text ++ [' '])) ++ (quoted w.toWord ++ ';' :: behind) := by
    simp [quotedLine_append]
  have hclosing : Closing (before ++ (quotedLine kind.toWord w.toWord ++ behind)) behind := by
    rw [← append_assoc]
    cases hw with
    | bare => exact closing_nil _
    | tagged n => exact closing_break n (by simp [tag])
  have hloose : looseItems 0 [piece] =
      ([⟨line, directive kind.toWord (quoted w.toWord), none⟩], .ok line) := by
    simp only [looseItems, piece, hread]
    simp [directive]
  -- The start of the directive, the string and the semicolon.
  rw [items_eq]
  obtain ⟨safe, previous, hstart, -⟩ := itemsAfter_quiet
    (s := before ++ (quotedLine kind.toWord w.toWord ++ behind)) 0 0 0 0
    (quoted w.toWord ++ ';' :: behind) (quiet_directive_start hw kind) 0 0 none
  rw [← hparts] at hstart
  have hpos : 0 + (before ++ '@' :: (kind.text ++ [' '])).length + (quoted w.toWord).length + 1 =
      standing [] [piece] := by
    simp only [standing, pending, piece, directive, flatMap_cons, flatMap_nil,
      append_nil, length_append, length_cons, length_nil]
    omega
  rw [htext] at hclosing
  have hend := itemsAfter_closing [] hclosing (by simpa using hpiece) hloose 0 (some ';')
  rw [← htext] at hend
  change itemsAfter _ 0 none (.idle 0 0 0 0 0) _ = _
  rw [hstart, itemsAfter_quoted, itemsAfter_semicolon, hpos]
  exact hend

/-- A line with a word in quotes is one item of the code that loading makes of it, if loading leaves
the line as it is. -/
theorem items_load_quotedLine (first : Nat) (file : Option Text) (kind w : PlainWord)
    (htreat : treat (quotedLine kind.toWord w.toWord) = quotedLine kind.toWord w.toWord)
    (hopen : ¬ ['/', '*'] <:+: hideStrings (quotedLine kind.toWord w.toWord)) :
    ∃ line, items (load first file (quotedLine kind.toWord w.toWord)).code =
      ⟨[⟨line, directive kind.toWord (quoted w.toWord), none⟩], none⟩ := by
  obtain ⟨before, behind, hw, hload⟩ := load_line first file
  rw [hload (notMem_quotedLine _ _ (by decide) (by decide)) hopen, htreat]
  exact items_quotedLine hw kind w

end SheetPress.Source
