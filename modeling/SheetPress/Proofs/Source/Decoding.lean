import SheetPress.Proofs.Source.Tiling
import SheetPress.Proofs.Source.Loading

/-!
# Reading the tags of lines

Whatever the search for items reads starts at the start of the source or behind one of the
characters that `isBorder` names.  In a loaded source such a stretch can be read unless it runs
on: it starts in the middle of a line, and goes over the end of that line (`readHead_fails_iff`).
So a loaded source, and every block at any depth in it, has only the faults of unclosed
brackets, as long as nothing in it runs on (`tags_decode_within_lines`).
-/

set_option autoImplicit false

namespace SheetPress.Source

open List Text

variable {x : Text} {p q : Spot}

/-! ## Stretches of a numbered text -/

/-- The text goes over the end of a line whose tag it does not have, and on behind the tag of the
next line. -/
def RunsOn (x : Text) : Prop :=
  ∃ line rest, x = line ++ '\n' :: rest ∧ '\n' ∉ line ∧ mark ∉ line ∧ mark ∈ rest ∧
    ∃ c ∈ line, isSpace c = false

theorem Spot.digits_of_after (hp : p ≠ .text) (hx : mark ∉ x)
    (h : after x p = some q) : ∀ c ∈ x, c.isDigit = true := by
  induction x generalizing p with
  | nil => simp
  | cons c x ih =>
    obtain ⟨p', hpass, hrest⟩ := Option.bind_eq_some_iff.mp h
    simp only [mem_cons, not_or] at hx
    have hdigit : c.isDigit = true ∧ p' = .tag := by
      cases p with
      | start =>
        simp only [pass, Option.ite_none_right_eq_some, Option.some.injEq] at hpass
        exact ⟨hpass.1, hpass.2.symm⟩
      | tag =>
        by_cases hc : c.isDigit = true
        · simpa [pass, hc, eq_comm] using hpass
        · simp [pass, hc, Ne.symm hx.1] at hpass
      | text => exact absurd rfl hp
    obtain ⟨hc, rfl⟩ := hdigit
    intro d hd
    rcases mem_cons.mp hd with rfl | hd
    · exact hc
    · exact ih (by decide) hx.2 hrest d hd

/-- Behind the tag of a line the next tag comes with the next line. -/
theorem Spot.break_of_after (hx : mark ∉ x) (h : after x .text = some .tag) :
    ∃ line digits, x = line ++ '\n' :: digits ∧ '\n' ∉ line ∧ ∀ c ∈ digits, c.isDigit = true := by
  induction x with
  | nil => cases h
  | cons c x ih =>
    obtain ⟨p, hpass, hrest⟩ := Option.bind_eq_some_iff.mp h
    simp only [mem_cons, not_or] at hx
    by_cases hc : c = '\n'
    · subst hc
      obtain rfl : p = .start := by simpa [pass, eq_comm] using hpass
      exact ⟨[], x, rfl, by simp, digits_of_after (by decide) hx.2 hrest⟩
    · obtain rfl : p = .text := by simpa [pass, hc, Ne.symm hx.1, eq_comm] using hpass
      obtain ⟨line, digits, rfl, hline, hdigits⟩ := ih hx.2 hrest
      exact ⟨c :: line, digits, rfl, by simp [Ne.symm hc, hline], hdigits⟩

/-- A mark stands only behind digits. -/
theorem Spot.eq_tag_of_after_mark (h : after (mark :: x) p = some q) :
    p = .tag := by
  obtain ⟨p', hpass, -⟩ := Option.bind_eq_some_iff.mp h
  cases p with
  | start =>
    rw [pass, if_neg (by decide)] at hpass
    cases hpass
  | tag => rfl
  | text =>
    rw [pass, if_neg (by decide), if_pos rfl] at hpass
    cases hpass

theorem notMem_of_cut? {m : Char} {a b : Text} (h : cut? [m] x = some (a, b)) : m ∉ a := by
  intro hm
  obtain ⟨a₁, a₂, rfl, hfirst⟩ := eq_append_cons_of_mem hm
  have hx := eq_append_of_cut? h
  have hcut : cut? [m] x = some (a₁, a₂ ++ ([m] ++ b)) := by
    rw [hx, append_assoc, cons_append]
    exact cut?_append_of_notMem hfirst
  rw [h] at hcut
  have hlength := congrArg List.length (Prod.mk.inj (Option.some.inj hcut)).1
  simp at hlength

/-- A line with something in it is no part of a number. -/
theorem tagNumber?_eq_none {line digits : Text} (hline : ∃ c ∈ line, isSpace c = false)
    (hdigits : ∀ c ∈ digits, c.isDigit = true) (hne : digits ≠ []) :
    tagNumber? (line ++ '\n' :: digits) = none := by
  -- Trimming stops at the first character of the line that is no blank, before the break.
  obtain ⟨pad, c, rest, rfl, hpad, hc⟩ : ∃ pad c rest, line = pad ++ c :: rest ∧
      (∀ d ∈ pad, isSpace d = true) ∧ isSpace c = false := by
    obtain ⟨d, hd, hspace⟩ := hline
    cases hrest : line.dropWhile isSpace with
    | nil => exact absurd (dropWhile_eq_nil_iff.mp hrest d hd) (by simp [hspace])
    | cons c rest =>
      refine ⟨line.takeWhile isSpace, c, rest, ?_, fun d hd => mem_takeWhile_imp hd, ?_⟩
      · rw [← hrest, takeWhile_append_dropWhile]
      · have hhead := List.head?_dropWhile_not isSpace line
        rw [hrest] at hhead
        simpa using hhead
  have htight : Text.Tight (c :: (rest ++ '\n' :: digits)) := by
    have hfirst : Text.Tight [c] := tight_of_all (by simpa using hc)
    have hlast : Text.Tight digits :=
      tight_of_all fun d hd => isSpace_of_isDigit (hdigits d hd)
    simpa using hfirst.append (rest ++ ['\n']) hlast (by simp) hne
  have htrim : trim (pad ++ c :: rest ++ '\n' :: digits) = c :: (rest ++ '\n' :: digits) := by
    simpa using trim_pad (b := []) hpad (by simp) htight
  have hbreak : '\n' ∈ (Decimal.takeSign (c :: (rest ++ '\n' :: digits))).2 := by
    unfold Decimal.takeSign
    split
    next heq => simp [← (List.cons.inj heq).2]
    next heq => simp [← (List.cons.inj heq).2]
    next => simp
  have hall : (Decimal.takeSign (c :: (rest ++ '\n' :: digits))).2.all isDigit = false := by
    rw [all_eq_false]
    exact ⟨'\n', hbreak, by decide⟩
  unfold tagNumber?
  simp only [htrim, isEmpty_cons, Bool.false_eq_true, if_false, Decimal.readInt?, htight.trim]
  simp [hall]

/-- A stretch of a numbered text can be read, unless it runs on. -/
theorem readHead_fails_iff (h : Spot.after x p = some q) (line : Int) :
    readHead line x = .error .wrongValue ↔ RunsOn x := by
  constructor
  · intro hread
    cases hcut : cut? [mark] x with
    | none => simp [readHead, hcut] at hread
    | some r =>
      obtain ⟨tag, rest⟩ := r
      obtain rfl : x = tag ++ mark :: rest := by
        simpa using eq_append_of_cut? hcut
      have htag := notMem_of_cut? hcut
      obtain ⟨m, hm, hmark⟩ := Spot.after_eq_some_append h
      obtain rfl := Spot.eq_tag_of_after_mark hmark
      -- Digits would be read; so the stretch starts behind the tag of its line.
      obtain rfl : p = .text := by
        by_contra hp
        obtain ⟨n, hn⟩ := tagNumber?_digits (Spot.digits_of_after hp htag hm) [] (by simp)
        simp only [nil_append] at hn
        simp only [readHead, hcut, hn] at hread
        cases hread
      obtain ⟨first, digits, rfl, hfirst, hdigits⟩ := Spot.break_of_after htag hm
      simp only [mem_append, mem_cons, not_or] at htag
      refine ⟨first, digits ++ mark :: rest, by simp, hfirst, htag.1, by simp, ?_⟩
      by_contra hblank
      simp only [not_exists, not_and, Bool.not_eq_false] at hblank
      obtain ⟨n, hn⟩ := tagNumber?_digits hdigits (first ++ ['\n']) (by
        intro c hc
        rcases mem_append.mp hc with hc | hc
        · exact hblank c hc
        · rw [mem_singleton.mp hc]
          decide)
      simp only [append_assoc, singleton_append] at hn
      simp only [readHead, hcut, hn] at hread
      cases hread
  · rintro ⟨first, rest, rfl, -, hfirst, hrest, hfilled⟩
    obtain ⟨digits, behind, rfl, hdigits⟩ := eq_append_cons_of_mem hrest
    obtain ⟨m, -, hm⟩ := Spot.after_eq_some_append h
    obtain ⟨m', hbreak, hm'⟩ := Option.bind_eq_some_iff.mp hm
    obtain rfl := Spot.eq_text_of_pass (by decide) (by decide) hbreak
    obtain rfl : m' = .start := by simpa [Spot.pass, eq_comm] using hbreak
    obtain ⟨n, hn, hmark⟩ := Spot.after_eq_some_append hm'
    have hne : digits ≠ [] := by
      rintro rfl
      obtain rfl := Option.some.inj hn
      exact absurd (Spot.eq_tag_of_after_mark hmark) (by decide)
    have hnone := tagNumber?_eq_none hfilled (Spot.digits_of_after (by decide) hdigits hn) hne
    have hcut : cut? [mark] (first ++ '\n' :: (digits ++ mark :: behind)) =
        some (first ++ '\n' :: digits, behind) := by
      rw [show first ++ '\n' :: (digits ++ mark :: behind) =
        (first ++ '\n' :: digits) ++ ([mark] ++ behind) by simp]
      refine cut?_append_of_notMem ?_
      simp only [mem_append, mem_cons, not_or]
      exact ⟨hfirst, by decide, hdigits⟩
    simp [readHead, hcut, hnone]

/-! ## Loaded sources -/

/-- Every block at any depth stands in its source. -/
theorem infix_of_holdsBlock {s t : Text} (h : Relation.ReflTransGen HoldsBlock s t) : t <:+: s := by
  induction h with
  | refl => exact infix_rfl
  | tail _ hblock ih =>
    obtain ⟨i, hi, hcode⟩ := hblock
    exact ((items_outcome _).1 i hi _ hcode).trans ih

theorem Spot.after_of_isInfix {y : Text} (h : after y p = some q) (hx : x <:+: y) :
    ∃ p' q', after x p' = some q' := by
  obtain ⟨a, b, rfl⟩ := hx
  obtain ⟨m, hm, -⟩ := after_eq_some_append h
  obtain ⟨p', -, hp'⟩ := after_eq_some_append hm
  exact ⟨p', m, hp'⟩

/-- In a loaded source and in every block at any depth in it, a stretch can be read unless it
runs on from the middle of one line to the next.  Nothing else goes wrong there but that
something is left open. -/
theorem tags_decode_within_lines {source : Text} (hsource : mark ∉ source) (first : Nat)
    (file : Text) {t : Text}
    (ht : Relation.ReflTransGen HoldsBlock (load first (some file) source).code t) :
    (∀ line x, x <:+: t → (readHead line x = .error .wrongValue ↔ RunsOn x)) ∧
      ∀ f ∈ (items t).fault, f.isUnclosed = true ∨
        f = .wrongValue ∧ ∃ u x, Begins t u x ∧ RunsOn x := by
  have hread : ∀ line x, x <:+: t → (readHead line x = .error .wrongValue ↔ RunsOn x) := by
    intro line x hx
    obtain ⟨p, q, hpq⟩ := Spot.after_of_isInfix (reads_load hsource first file)
      (hx.trans (infix_of_holdsBlock ht))
    exact readHead_fails_iff hpq line
  refine ⟨hread, fun f hf => ?_⟩
  cases (items_outcome t).2 with
  | broken _ hfault hstumbles =>
    obtain rfl : f = .wrongValue := Option.some.inj (hf.symm.trans hfault)
    obtain ⟨u, x, hbegins, line, herror⟩ := hstumbles
    have hx : x <:+: t := (List.suffix_append u x).isInfix.trans hbegins.inside.isInfix
    exact Or.inr ⟨rfl, u, x, hbegins, (hread line x hx).mp herror⟩
  | unclosed f' hfault hunclosed =>
    obtain rfl : f = f' := Option.some.inj (hf.symm.trans hfault)
    exact Or.inl hunclosed
  | finished _ hfault => simp [hfault] at hf

/-- A block over four lines, with another block in it, whose code is `e:f`. -/
theorem tags_decode_within_lines_nested :
    let source :=
      ['a', '{', '\n', 'b', ':', 'c', ';', '\n', 'd', '{', 'e', ':', 'f', '}', '\n', '}']
    let code := (load 1 (some ['s']) source).code
    let t := ['e', ':', 'f']
    mark ∉ source ∧ Relation.ReflTransGen HoldsBlock code t ∧
      (∀ line x, x <:+: t → (readHead line x = .error .wrongValue ↔ RunsOn x)) ∧
      ∀ f ∈ (items t).fault, f.isUnclosed = true ∨
        f = .wrongValue ∧ ∃ u x, Begins t u x ∧ RunsOn x := by
  intro source code t
  have hsource : mark ∉ source := by decide
  have hcode : code = ['1', mark, 'a', ' ', '{', '\n', '1', mark, 'b', ':', 'c', ';', '\n', '2',
    mark, 'd', ' ', '{', 'e', ':', 'f', '}', '\n', '3', mark, '}', '\n', '4', mark] := by
    decide +kernel
  have hblocks : Relation.ReflTransGen HoldsBlock code t := by
    rw [hcode]
    refine .tail (.tail .refl ⟨⟨1, ['a'], some ['1', mark, 'b', ':', 'c', ';', '\n', '2', mark, 'd',
      ' ', '{', 'e', ':', 'f', '}', '\n', '3', mark]⟩, by decide, rfl⟩) ?_
    exact ⟨⟨2, ['d'], some ['e', ':', 'f']⟩, by decide, rfl⟩
  exact ⟨hsource, hblocks, tags_decode_within_lines hsource 1 ['s'] hblocks⟩

/-- A block whose only property starts behind the brace and ends with its line: behind the break
there is a tag, and the line does not count as a number. -/
theorem open_line_breaks_tag :
    let source := ['a', '{', 'b', ':', 'c', '\n', '}']
    mark ∉ source ∧ ∃ t, HoldsBlock (load 1 (some ['s']) source).code t ∧
      (items t).fault = some .wrongValue := by
  intro source
  have hcode : (load 1 (some ['s']) source).code = ['1', mark, 'a', ' ', '{', 'b', ':', 'c', '\n',
    '1', mark, '}', '\n', '2', mark] := by decide +kernel
  refine ⟨by decide, ['b', ':', 'c', '\n', '1', mark], ?_, by decide⟩
  rw [hcode]
  exact ⟨⟨1, ['a'], some ['b', ':', 'c', '\n', '1', mark]⟩, by decide, rfl⟩

end SheetPress.Source
