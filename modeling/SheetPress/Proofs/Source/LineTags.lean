import SheetPress.Text.Wrap
import SheetPress.Proofs.Source.Lines

/-!
# Tags lead to lines

Loading a file puts a tag before each line, and then takes blank lines away with their tags.  The
tags that are left still lead to their lines, but for the first one: it shares its number with the
tag of the second line.
-/

set_option autoImplicit false

namespace SheetPress.Source

open List Text

variable {before s r l w : Text} {n : Nat}

/-- Lines, each behind a break and the tag of its number. -/
def written (tagOf : Nat → Nat) (lines : List (Text × Nat)) : Text :=
  lines.flatMap fun l => '\n' :: (tag (tagOf l.2) ++ l.1)

theorem ByLine.written {f : Text → Text} (hf : ByLine f) (tagOf : Nat → Nat)
    (lines : List (Text × Nat)) (x : Text) : f (x ++ written tagOf lines) =
      f x ++ Source.written tagOf (lines.map fun l => (f l.1, l.2)) := by
  induction lines generalizing x with
  | nil => simp [Source.written]
  | cons l lines ih =>
    have hrest := ih l.1
    simp only [Source.written, flatMap_cons, map_cons, cons_append,
      append_assoc] at hrest ⊢
    rw [hf.newline, hrest]

theorem joinWith_written (tagOf : Nat → Nat) (lines : List (Text × Nat)) (x : Text) :
    joinWith ['\n'] (x :: lines.map fun l => tag (tagOf l.2) ++ l.1) =
      x ++ written tagOf lines := by
  induction lines generalizing x with
  | nil => simp [joinWith, written]
  | cons l lines ih =>
    have hrest := ih (tag (tagOf l.2) ++ l.1)
    simp only [joinWith, map_cons] at hrest ⊢
    simp [hrest, written]

/-! ## Blank lines -/

theorem blankLines_eq_none (h : '\n' ∉ s.takeWhile isSpace) : blankLines s = none := by
  have hall : (s.takeWhile isSpace).reverse.takeWhile (· != '\n') =
      (s.takeWhile isSpace).reverse := by
    rw [takeWhile_eq_self_iff]
    intro c hc
    have hne : c ≠ '\n' := fun hc' => h (hc' ▸ mem_reverse.mp hc)
    simpa using hne
  simp [blankLines, hall]

theorem blankLines_filled (hl : isBlank l = false) (hbreak : '\n' ∉ l) (w : Text) :
    blankLines (l ++ w) = none := by
  refine blankLines_eq_none fun hmem => ?_
  have hfilled : (l.takeWhile isSpace).length ≠ l.length := by
    intro hlength
    have hall := takeWhile_eq_self_iff.mp
      ((List.takeWhile_prefix isSpace).eq_of_length hlength)
    simp [isBlank, all_eq_true.mpr hall] at hl
  rw [takeWhile_append, if_neg hfilled] at hmem
  exact hbreak ((List.takeWhile_prefix _).subset hmem)

/-- Blanks up to the end of a line are cut with the line break. -/
theorem blankLines_newline (hl : isBlank l = true) (n : Nat) (r : Text) :
    blankLines (l ++ '\n' :: (tag n ++ r)) = some (l.length + 1) := by
  have hblanks : (l ++ '\n' :: (tag n ++ r)).takeWhile isSpace = l ++ ['\n'] := by
    obtain ⟨c, ds, hn⟩ := exists_cons_of_ne_nil (ofNat_ne_nil n)
    have hc : c.isDigit = true := isDigit_of_mem_ofNat (n := n) (by simp [hn])
    have hbreak : isSpace '\n' = true := by decide
    rw [takeWhile_append_of_pos (all_eq_true.mp hl)]
    simp [tag, hn, hbreak, isSpace_of_isDigit hc]
  simp [blankLines, hblanks]

theorem takeWhile_ne_append {c : Char} {a b : Text} (ha : c ∉ a) :
    (a ++ b).takeWhile (· != c) = a ++ b.takeWhile (· != c) :=
  takeWhile_append_of_pos fun _ hd => bne_iff_ne.mpr fun h => ha (h ▸ hd)

theorem tagLength_append (n : Nat) (hl : mark ∉ l) :
    tagLength (tag n ++ l) = some (tag n).length := by
  have htail : (tag n ++ l).reverse.takeWhile (· != mark) = l.reverse := by
    rw [reverse_append, takeWhile_ne_append (by simpa using hl)]
    simp [tag]
  have hpos : 1 ≤ (Text.ofNat n).length := length_pos_of_ne_nil (ofNat_ne_nil n)
  have hlength : 2 ≤ (tag n).length := by simpa [tag] using hpos
  unfold tagLength
  rw [htail]
  simp [hlength]

theorem findEmptyLine_line (before : Text) (n : Nat) (hbreak : '\n' ∉ l) (hmark : mark ∉ l)
    (hw : ∀ c ∈ w.head?, c = '\n') : findEmptyLine before ('\n' :: (tag n ++ (l ++ w))) =
      (blankLines (l ++ w)).map fun k => (1 + (tag n).length + k, ['\n']) := by
  have hline : (tag n ++ (l ++ w)).takeWhile (· != '\n') = tag n ++ l := by
    rw [takeWhile_ne_append (notMem_tag n (by decide) (by decide)), takeWhile_ne_append hbreak]
    cases w with
    | nil => simp
    | cons c w => simp [hw c rfl]
  simp [findEmptyLine, hline, tagLength_append n hmark]

theorem head?_written (tagOf : Nat → Nat) (lines : List (Text × Nat)) :
    ∀ c ∈ (written tagOf lines).head?, c = '\n' := by
  cases lines <;> simp [written]

section Dropping

variable (tagOf : Nat → Nat) {line next : Text × Nat} {lines : List (Text × Nat)} (before : Text)

theorem written_cons : written tagOf (line :: lines) =
    '\n' :: (tag (tagOf line.2) ++ (line.1 ++ written tagOf lines)) := by
  simp [written]

variable (hbreak : '\n' ∉ line.1) (hmark : mark ∉ line.1)

include hbreak hmark

/-- A line stays if no line break follows blanks at its start. -/
theorem substituteFrom_stays (hstays : blankLines (line.1 ++ written tagOf lines) = none) :
    substituteFrom findEmptyLine before (written tagOf (line :: lines)) =
      '\n' :: substituteFrom findEmptyLine ('\n' :: before)
        (tag (tagOf line.2) ++ line.1 ++ written tagOf lines) := by
  have hfind := findEmptyLine_line before (tagOf line.2) hbreak hmark (head?_written tagOf lines)
  rw [hstays] at hfind
  rw [written_cons, substituteFrom_cons hfind, append_assoc]

/-- A blank line goes with its tag, and the next one is not looked at. -/
theorem substituteFrom_goes (hblank : isBlank line.1 = true) :
    substituteFrom findEmptyLine before (written tagOf (line :: next :: lines)) =
      '\n' :: substituteFrom findEmptyLine
        (('\n' :: (tag (tagOf line.2) ++ (line.1 ++ ['\n']))).reverse ++ before)
        (tag (tagOf next.2) ++ next.1 ++ written tagOf lines) := by
  have hfind := findEmptyLine_line before (tagOf line.2) hbreak hmark
    (head?_written tagOf (next :: lines))
  have hparts : written tagOf (line :: next :: lines) =
      ('\n' :: (tag (tagOf line.2) ++ (line.1 ++ ['\n']))) ++
        (tag (tagOf next.2) ++ next.1 ++ written tagOf lines) := by
    rw [written_cons, written_cons]
    simp
  rw [written_cons, blankLines_newline hblank, ← written_cons, ← written_cons, hparts] at hfind
  rw [hparts, substituteFrom_found (t := ['\n']) (by simp)]
  · rfl
  · rw [hfind]
    simp
    omega

end Dropping

/-- Some of the blank lines are dropped with their tags, and no other lines. -/
theorem dropEmptyLines_written (tagOf : Nat → Nat) (lines : List (Text × Nat))
    (hlines : ∀ l ∈ lines, '\n' ∉ l.1 ∧ mark ∉ l.1) (before x : Text) (hx : '\n' ∉ x) :
    ∃ kept : List (Text × Nat), kept.Sublist lines ∧
      (∀ l ∈ lines, isBlank l.1 = false → l ∈ kept) ∧
      substituteFrom findEmptyLine before (x ++ written tagOf lines) =
        x ++ written tagOf kept := by
  induction hn : lines.length using Nat.strong_induction_on generalizing lines before x with
  | _ n ih =>
    have hpass : Text.Turns findEmptyLine x x :=
      turns_of_heads fun c hc _ _ => findEmptyLine_of_ne fun h => hx (h ▸ hc)
    obtain ⟨before', hstart⟩ := hpass before (written tagOf lines)
    have htag : ∀ n, '\n' ∉ tag n := fun n => notMem_tag n (by decide) (by decide)
    rw [hstart]
    cases lines with
    | nil => exact ⟨[], by simp, by simp, by simp [written, substituteFrom_nil]⟩
    | cons l lines =>
      obtain ⟨hbreak, hmark⟩ := hlines l mem_cons_self
      have hrest : ∀ m ∈ lines, '\n' ∉ m.1 ∧ mark ∉ m.1 := fun m hm =>
        hlines m (mem_cons_of_mem l hm)
      by_cases hdrop : blankLines (l.1 ++ written tagOf lines) = none
      · obtain ⟨kept, hsub, hfull, hkept⟩ := ih lines.length (by simp [← hn]) lines hrest
          ('\n' :: before') (tag (tagOf l.2) ++ l.1) (by simp [htag, hbreak]) rfl
        refine ⟨l :: kept, hsub.cons_cons l, ?_, ?_⟩
        · intro m hm hblank
          rcases mem_cons.mp hm with rfl | hm
          · exact mem_cons_self
          · exact mem_cons_of_mem l (hfull m hm hblank)
        · rw [substituteFrom_stays tagOf before' hbreak hmark hdrop, hkept]
          simp [written]
      · have hblank : isBlank l.1 = true := by
          by_contra h
          exact hdrop (blankLines_filled (by simpa using h) hbreak _)
        cases lines with
        | nil =>
          refine absurd (blankLines_eq_none fun hmem => hbreak ?_) hdrop
          simpa [written] using (List.takeWhile_prefix _).subset hmem
        | cons m lines =>
          obtain ⟨kept, hsub, hfull, hkept⟩ := ih lines.length (by simp [← hn]) lines
            (fun k hk => hrest k (mem_cons_of_mem m hk))
            (('\n' :: (tag (tagOf l.2) ++ (l.1 ++ ['\n']))).reverse ++ before')
            (tag (tagOf m.2) ++ m.1) (by simp [htag, (hrest m mem_cons_self).1]) rfl
          refine ⟨m :: kept, (hsub.cons_cons m).cons l, ?_, ?_⟩
          · intro k hk hfilled
            rcases mem_cons.mp hk with rfl | hk
            · simp [hblank] at hfilled
            rcases mem_cons.mp hk with rfl | hk
            · exact mem_cons_self
            · exact mem_cons_of_mem m (hfull k hk hfilled)
          · rw [substituteFrom_goes tagOf before' hbreak hmark hblank, hkept]
            simp [written]

theorem openless_written (tagOf : Nat → Nat) {lines : List (Text × Nat)}
    (hlines : ∀ l ∈ lines, ¬ ['/', '*'] <:+: l.1) {x : Text} (hx : ¬ ['/', '*'] <:+: x) :
    ¬ ['/', '*'] <:+: x ++ written tagOf lines := by
  induction lines generalizing x with
  | nil => simpa [written] using hx
  | cons l lines ih =>
    have hrest := ih (fun m hm => hlines m (mem_cons_of_mem l hm))
      (openless_tag (hlines l mem_cons_self) (tagOf l.2))
    intro hinfix
    simp only [written, flatMap_cons, cons_append] at hinfix hrest
    exact (infix_append_cons (by decide) hinfix).elim hx hrest

/-! ## The lines of a source -/

theorem tagBreaks_append (next : Nat) {a : Text} (ha : '\n' ∉ a) (b : Text) :
    tagBreaks next (a ++ b) = a ++ tagBreaks next b := by
  induction a with
  | nil => rfl
  | cons c a ih =>
    simp only [mem_cons, not_or] at ha
    simp [tagBreaks, Ne.symm ha.1, ih ha.2]

/-- The tag of a line in a source whose first tag is `first`: the first line shares the tag of the
second. -/
def lineTag (first k : Nat) : Nat := first + (k - 2)

theorem tagBreaks_eq (first k : Nat) (hk : 2 ≤ k) (code : Text) :
    ∃ l ls, Text.splitOn '\n' code = l :: ls ∧
      tagBreaks (lineTag first k) code = l ++ written (lineTag first) (ls.zipIdx k) := by
  induction code using splitOn_induct '\n' generalizing k with
  | single s hs =>
    have hself := tagBreaks_append (lineTag first k) hs []
    exact ⟨s, [], splitOn_of_notMem hs, by simpa [written, tagBreaks] using hself⟩
  | more a b ha ih =>
    obtain ⟨l, ls, hsplit, hbreaks⟩ := ih (k + 1) (by omega)
    have hnext : lineTag first k + 1 = lineTag first (k + 1) := by
      unfold lineTag
      omega
    refine ⟨a, l :: ls, by rw [splitOn_append b ha, hsplit], ?_⟩
    rw [tagBreaks_append _ ha]
    simp [tagBreaks, hnext, hbreaks, written, tag]

theorem length_splitOn (c : Char) (s : Text) :
    (Text.splitOn c s).length = countOf c s + 1 := by
  have hnone : ∀ {a : Text}, c ∉ a → countOf c a = 0 := fun ha =>
    countP_eq_zero.mpr fun d hd h => ha (beq_iff_eq.mp h ▸ hd)
  induction s using splitOn_induct c with
  | single s hs => simp [splitOn_of_notMem hs, hnone hs]
  | more a b ha ih =>
    have ha' := hnone ha
    simp only [countOf] at ha' ih ⊢
    simp [splitOn_append b ha, ih, ha']

/-- The lines of a source with their numbers; the last of them is what stands behind the line break
that loading adds. -/
def numbered (source : Text) : List (Text × Nat) :=
  (Text.splitOn '\n' (source ++ ['\n'])).zipIdx 1

/-- Every line of a source that is not blank is a line of the loaded code, with a tag before it;
the tag leads to the number of the line, but for the first line, whose tag leads to the second. -/
theorem tags_lead_to_lines (earlier : List Text) (file source : Text) (hmark : mark ∉ source)
    (hcomment : ∀ line ∈ Text.splitOn '\n' source, ¬ ['/', '*'] <:+: hideStrings line) :
    ∃ kept : List (Text × Nat), kept.Sublist (numbered source) ∧
      (∀ l ∈ numbered source, Text.isBlank l.1 = false → l ∈ kept) ∧
      (load earlier.length (some file) source).code =
        Text.joinWith ['\n'] (kept.map fun l => tag (lineTag earlier.length l.2) ++ treat l.1) ∧
      ∀ l ∈ kept,
        (earlier ++ (load earlier.length (some file) source).places)[lineTag earlier.length l.2]? =
          some (file ++ ':' :: Text.ofNat (max 2 l.2)) := by
  obtain ⟨l, ls, hsplit, hbreaks⟩ :=
    tagBreaks_eq earlier.length 2 (Nat.le_refl 2) (source ++ ['\n'])
  have hnumbered : numbered source = (l, 1) :: ls.zipIdx 2 := by simp [numbered, hsplit]
  have hclean : ∀ m ∈ numbered source,
      '\n' ∉ m.1 ∧ mark ∉ m.1 ∧ ¬ ['/', '*'] <:+: hideStrings m.1 := by
    intro m hm
    have hmem : m.1 ∈ Text.splitOn '\n' (source ++ ['\n']) := List.fst_mem_of_mem_zipIdx hm
    refine ⟨Text.notMem_of_mem_splitOn hmem, fun h => ?_, ?_⟩
    · rcases List.mem_append.mp (Text.mem_of_mem_splitOn '\n' hmem h) with h | h
      · exact hmark h
      · exact absurd (List.mem_singleton.mp h) (by decide)
    · rw [Text.splitOn_append_cons, List.mem_append] at hmem
      rcases hmem with hmem | hmem
      · exact hcomment m.1 hmem
      · rw [List.mem_singleton.mp hmem]
        decide
  rw [hnumbered] at hclean ⊢
  obtain ⟨hl, hrest⟩ := List.forall_mem_cons.mp hclean
  have htag : '\n' ∉ tag earlier.length := notMem_tag _ (by decide) (by decide)
  obtain ⟨kept, hsub, hfull, hdrop⟩ := dropEmptyLines_written (lineTag earlier.length)
    (ls.zipIdx 2) (fun m hm => ⟨(hrest m hm).1, (hrest m hm).2.1⟩) [] (tag earlier.length ++ l)
    (by simp [htag, hl.1])
  have hkept : ∀ m ∈ kept, '\n' ∉ m.1 ∧ mark ∉ m.1 ∧ ¬ ['/', '*'] <:+: hideStrings m.1 :=
    fun m hm => hrest m (hsub.subset hm)
  have hlines : dropEmptyLines (tagLines earlier.length source) =
      (tag earlier.length ++ l) ++ written (lineTag earlier.length) kept := by
    rw [← hdrop, dropEmptyLines, Text.substitute_eq, tagLines, List.append_assoc, ← hbreaks]
    simp [tag, lineTag]
  have hstrings : ByLine hideStrings := linewise_findLiteral.byLine
  have hopenless :
      ¬ ['/', '*'] <:+: hideStrings (dropEmptyLines (tagLines earlier.length source)) := by
    rw [hlines, hstrings.written, hstrings.tag]
    refine openless_written _ (fun m hm => ?_) (openless_tag hl.2.2 _)
    obtain ⟨k, hk, rfl⟩ := List.mem_map.mp hm
    exact (hkept k hk).2.2
  refine ⟨(l, 1) :: kept, hsub.cons_cons _, ?_, ?_, ?_⟩
  · exact List.forall_mem_cons.mpr ⟨fun _ => List.mem_cons_self, fun m hm hblank =>
      List.mem_cons_of_mem _ (hfull m hm hblank)⟩
  · simp only [load]
    rw [prepare_eq_treat hopenless, hlines, byLine_treat.written, byLine_treat.tag,
      ← joinWith_written, List.map_map]
    rfl
  · intro m hm
    have hk : m.2 < 1 + (Text.splitOn '\n' (source ++ ['\n'])).length := by
      have hmem : m ∈ numbered source := hnumbered ▸ (hsub.cons_cons (l, 1)).subset hm
      exact (List.mem_zipIdx hmem).2.1
    have hcount : m.2 - 2 < Text.countOf '\n' source + 1 := by
      rw [length_splitOn] at hk
      simp only [Text.countOf, List.countP_append] at hk ⊢
      simp at hk
      omega
    have hmax : m.2 - 2 + 2 = max 2 m.2 := by omega
    rw [lineTag, List.getElem?_append_right (by omega)]
    simp [load, linePlaces, hcount, hmax]

/-- The third line keeps its number, although the second one goes. -/
theorem tags_lead_to_lines_third : ∃ kept : List (Text × Nat), (['b'], 3) ∈ kept ∧
    (load 1 (some ['f']) "a\n\nb".toList).code =
      Text.joinWith ['\n'] (kept.map fun l => tag (lineTag 1 l.2) ++ treat l.1) ∧
    (["<unknown>:0".toList] ++ (load 1 (some ['f']) "a\n\nb".toList).places)[lineTag 1 3]? =
      some "f:3".toList := by
  obtain ⟨kept, -, hfull, hcode, hplace⟩ := tags_lead_to_lines ["<unknown>:0".toList] ['f']
    "a\n\nb".toList (by decide) (by decide +kernel)
  have hkept : (['b'], 3) ∈ kept := hfull (['b'], 3) (by decide) (by decide)
  exact ⟨kept, hkept, hcode, hplace _ hkept⟩

/-- The first line is taken for the second. -/
theorem first_line_leads_to_second :
    (load 1 (some ['f']) ['a']).code = tag 1 ++ "a\n".toList ++ tag 1 ∧
    (["<unknown>:0".toList] ++ (load 1 (some ['f']) ['a']).places)[1]? = some "f:2".toList := by
  decide +kernel

end SheetPress.Source
