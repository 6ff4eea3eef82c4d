import SheetPress.Proofs.Source.Lines

/-!
# Strings in a line

What looks like code inside a string is hidden while comments are taken away, and put back then.
So a string gets through loading, but for the blanks before braces and the names of colours: these
passes come last and do not see quotes.
-/

set_option autoImplicit false

namespace SheetPress.Source

open List Text

variable {s a body b : Text}

/-! ## Hiding and putting back -/

/-- What is hidden, entry by entry. -/
theorem hide_induct {motive : Text → Text → Prop} (nil : motive [] [])
    (plain : ∀ c r, findEntry hidden [] (c :: r) = none → motive r (hide r) →
      motive (c :: r) (c :: hide r))
    (entry : ∀ p ∈ hidden, ∀ r, motive r (hide r) → motive (p.1 ++ r) (p.2 ++ hide r)) (s : Text) :
    motive s (hide s) := by
  have hforget : ∀ before r, substituteFrom (findEntry hidden) before r = hide r :=
    fun _ r => substituteFrom_forget (fun _ _ => rfl) r
  induction hn : s.length using Nat.strong_induction_on generalizing s with
  | _ n ih =>
    cases s with
    | nil => exact nil
    | cons c r =>
      cases hfound : findEntry hidden [] (c :: r) with
      | none =>
        have hstep : hide (c :: r) = c :: hide r := by
          rw [hide, substitute_eq, substituteFrom_cons hfound, hforget]
        rw [hstep]
        exact plain c r hfound (ih r.length (by simp [← hn]) r rfl)
      | some found =>
        obtain ⟨p, hp, ⟨y, hy⟩, hlength, htext⟩ := of_findEntry (n := found.1) (t := found.2) hfound
        have hne : p.1 ≠ [] := (by decide : ∀ p ∈ hidden, p.1 ≠ []) p hp
        rw [hy] at hn hfound ⊢
        have hstep : hide (p.1 ++ y) = p.2 ++ hide y := by
          rw [hide, substitute_eq, substituteFrom_found hne (t := p.2), hforget]
          rw [hfound, ← hlength, ← htext]
        rw [hstep]
        have hpos := length_pos_of_ne_nil hne
        exact entry p hp y (ih y.length (by rw [← hn, length_append]; omega) y rfl)

theorem turns_entry {p : Text × Text} (hp : p ∈ hidden) :
    Text.Turns (findEntry (hidden.map fun p => (p.2, p.1))) p.2 p.1 := by
  have hne : p.2 ≠ [] := (by decide : ∀ p ∈ hidden, p.2 ≠ []) p hp
  refine turns_found hne fun before rest => ?_
  simp only [hidden, map_cons, map_nil, mem_cons, not_mem_nil, or_false] at hp
  rcases hp with rfl | rfl | rfl | rfl | rfl | rfl | rfl <;> rfl

/-- What was hidden is put back, unless the text itself looks like something hidden. -/
theorem reveal_hide (hs : '^' ∉ s) : reveal (hide s) = s := by
  have hturns : '^' ∉ s → Text.Turns (findEntry (hidden.map fun p => (p.2, p.1))) (hide s) s := by
    refine hide_induct (motive := fun s t => '^' ∉ s → Text.Turns _ t s)
      (fun _ => turns_nil) (fun c r _ ih hs => ?_) (fun p hp r ih hs => ?_) s
    · simp only [mem_cons, not_or] at hs
      exact (turns_of_heads (x := [c]) fun d hd _ _ => findHidden_of_ne
        (mem_singleton.mp hd ▸ Ne.symm hs.1)).append (ih hs.2)
    · exact (turns_entry hp).append (ih fun hr => hs (mem_append_right _ hr))
  exact (hturns hs).substitute

theorem prefix_of_startsWith {start : Text} (h : startsWith s start = true) : start <+: s := by
  obtain ⟨r, hr⟩ := Option.isSome_iff_exists.mp h
  exact ⟨r, (eq_append_of_after? hr).symm⟩

theorem not_prefix_of_findEntry {table : List (Text × Text)} {before rest : Text}
    (h : findEntry table before rest = none) : ∀ p ∈ table, ¬ p.1 <+: rest := by
  rintro p hp ⟨y, rfl⟩
  simpa [startsWith, after?_append] using findSome?_eq_none_iff.mp h p hp

/-- Hiding leaves nothing that would be hidden. -/
theorem not_infix_hide (s : Text) : ∀ q ∈ hidden.map Prod.fst, ¬ q <:+: hide s := by
  have hkeys : ∀ q ∈ hidden.map Prod.fst, '^' ∉ q ∧ q.length ≤ 2 ∧
      ∀ p ∈ hidden, ¬ q <:+: p.2.dropLast := by
    decide
  have hmarks : ∀ p ∈ hidden, p.2 = p.2.dropLast ++ ['^'] ∧ p.2.head? = some '^' := by decide
  have hboth : (∀ q ∈ hidden.map Prod.fst, ¬ q <:+: hide s) ∧
      ∀ c ∈ (hide s).head?, c ≠ '^' → s.head? = some c := by
    refine hide_induct (motive := fun s t => (∀ q ∈ hidden.map Prod.fst, ¬ q <:+: t) ∧
      ∀ c ∈ t.head?, c ≠ '^' → s.head? = some c) ⟨by decide, by simp⟩ ?_ ?_ s
    · rintro c r hnone ⟨ih, hnext⟩
      refine ⟨fun q hq hinfix => ?_, by simp⟩
      rcases infix_cons_iff.mp hinfix with ⟨v, hv⟩ | hinfix
      · -- The first two characters were there before.
        obtain ⟨hcaret, hlength, -⟩ := hkeys q hq
        have hprefix : q <+: c :: r := by
          match q, hlength with
          | [], _ => exact nil_prefix
          | [d], _ => simp [(cons.inj hv).1]
          | [d, e], _ =>
            obtain ⟨rfl, hrest⟩ := cons.inj hv
            have he := hnext e (hrest ▸ rfl) (by rintro rfl; simp at hcaret)
            obtain ⟨r', rfl⟩ := head?_eq_some_iff.mp he
            simp
        obtain ⟨p, hp, rfl⟩ := mem_map.mp hq
        exact not_prefix_of_findEntry hnone p hp hprefix
      · exact ih q hq hinfix
    · rintro p hp r ⟨ih, -⟩
      obtain ⟨hlast, hhead⟩ := hmarks p hp
      obtain ⟨m, hm⟩ := head?_eq_some_iff.mp hhead
      refine ⟨fun q hq hinfix => ?_, by simp [hm]⟩
      obtain ⟨hcaret, -, hinside⟩ := hkeys q hq
      rw [hlast, append_assoc, singleton_append] at hinfix
      rcases infix_append_cons hcaret hinfix with h | h
      · exact hinside p hp h
      · exact ih q hq h
  exact hboth.1

/-- Which of the entries comes first in the table does not matter if none of them starts with
another one. -/
theorem findEntry_perm {table table' : List (Text × Text)} (h : table.Perm table')
    (hfree : table.Pairwise fun p q => ¬ p.1 <+: q.1 ∧ ¬ q.1 <+: p.1) :
    findEntry table = findEntry table' := by
  funext before rest
  unfold findEntry
  induction h with
  | nil => rfl
  | cons p _ ih => rw [findSome?_cons, findSome?_cons, ih hfree.of_cons]
  | swap p q table =>
    have hone : startsWith rest p.1 = true → ¬ startsWith rest q.1 = true := by
      intro hp hq
      obtain ⟨hqp, hpq⟩ := (pairwise_cons.mp hfree).1 p mem_cons_self
      rcases prefix_or_prefix_of_prefix (prefix_of_startsWith hp) (prefix_of_startsWith hq)
        with h | h
      · exact hpq h
      · exact hqp h
    simp only [findSome?_cons]
    split <;> split <;> simp_all
  | trans h _ ih ih' => exact (ih hfree).trans (ih' ((h.pairwise_iff fun h => h.symm).mp hfree))

/-- Whatever the order of the two tables: hiding leaves nothing that would be hidden, and what was
hidden is put back. -/
theorem hiding_inverted {encode decode : List (Text × Text)} (hencode : encode.Perm hidden)
    (hdecode : decode.Perm hidden) (hs : '^' ∉ s) :
    (∀ q ∈ hidden.map Prod.fst, ¬ q <:+: substitute (findEntry encode) s) ∧
    substitute (findEntry (decode.map fun p => (p.2, p.1)))
      (substitute (findEntry encode) s) = s := by
  rw [← findEntry_perm hencode.symm (by decide), ← findEntry_perm (hdecode.map _).symm (by decide)]
  exact ⟨not_infix_hide s, reveal_hide hs⟩

/-- Sequences that overlap, with both tables turned around. -/
theorem hiding_inverted_overlap :
    substitute (findEntry (hidden.reverse.map fun p => (p.2, p.1)))
      (substitute (findEntry hidden.reverse) "/*/*//:".toList) = "/*/*//:".toList :=
  (hiding_inverted hidden.reverse_perm hidden.reverse_perm (by decide)).2

/-! ## Quotes as borders -/

/-- The openings of comments. -/
def openings : List Text := [['/', '/'], ['/', '*']]

theorem findEntry_quote {table : List (Text × Text)} (h : ∀ p ∈ table, p.1 ≠ [] ∧ '"' ∉ p.1)
    (hfits : Text.Fits (findEntry table)) (x y : Text) :
    substitute (findEntry table) (x ++ '"' :: y) =
      substitute (findEntry table) x ++ '"' :: substitute (findEntry table) y := by
  have hbehind : ∀ before s r, findEntry table before (s ++ '"' :: r) = findEntry table before s :=
    fun _ _ _ => findEntry_append fun p hp => (h p hp).2
  refine substitute_border (findEntry table) hfits (fun before r => ?_) (fun _ _ _ => rfl)
    (fun before s r _ => hbehind before s r) x y
  refine (hbehind before [] r).trans ?_
  rw [findEntry, findSome?_eq_none_iff]
  intro p hp
  cases hp' : p.1 with
  | nil => exact absurd hp' (h p hp).1
  | cons c m => rfl

/-- What loading does to a line when strings and comments have been dealt with. -/
def finish (s : Text) : Text := Colour.expandNames (spaceBraces (reveal s))

theorem finish_quote (x y : Text) : finish (x ++ '"' :: y) = finish x ++ '"' :: finish y := by
  simp only [finish, reveal]
  rw [findEntry_quote (by decide) keeps_reveal.fits, spaceBraces_border (by decide) (by decide),
    expandNames_border (by decide)]

/-! ## A line with a string -/

/-- Text of a line around a string: no quotes, and no opening of a comment. -/
structure Around (t : Text) : Prop where
  newline : '\n' ∉ t
  double : '"' ∉ t
  single : '\'' ∉ t
  openings : ∀ q ∈ openings, ¬ q <:+: t

/-- What stands between the quotes: all characters but quotes, carets and line breaks. -/
structure Inside (t : Text) : Prop where
  newline : '\n' ∉ t
  quote : '"' ∉ t
  caret : '^' ∉ t

theorem findLiteral_string (hbody : Inside body) (before r : Text) :
    findLiteral before ('"' :: (body ++ '"' :: r)) =
      some (body.length + 2, '"' :: (hide body ++ ['"'])) := by
  have hcut : cutAt? (fun c => c == '"' || c == '\n') (body ++ '"' :: r) =
      some (body, '"', r) := by
    refine cutAt?_append _ (fun c hc => ?_) (by decide)
    have hquote : c ≠ '"' := fun h => hbody.quote (h ▸ hc)
    have hbreak : c ≠ '\n' := fun h => hbody.newline (h ▸ hc)
    simp [hquote, hbreak]
  have hquotes : ∀ x y, hide (x ++ '"' :: y) = hide x ++ '"' :: hide y :=
    findEntry_quote (by decide) keeps_hide.fits
  have hhide : hide ('"' :: (body ++ ['"'])) = '"' :: (hide body ++ ['"']) := by
    have hopen := hquotes [] (body ++ ['"'])
    rw [hquotes body []] at hopen
    exact hopen
  have htake : ('"' :: (body ++ '"' :: r)).take (body.length + 2) = '"' :: (body ++ ['"']) := by
    simp [take_append]
  simp [findLiteral, literalLength, hcut, htake, hhide]

theorem hideStrings_string (ha : Around a) (hbody : Inside body) (hb : Around b) :
    hideStrings (a ++ '"' :: (body ++ '"' :: b)) = a ++ '"' :: (hide body ++ '"' :: b) := by
  have hunquoted : ∀ {t}, Around t → Text.Turns findLiteral t t := fun {t} ht =>
    turns_of_heads fun c hc _ _ => findLiteral_of_ne (fun h => ht.double (h ▸ hc))
      fun h => ht.single (h ▸ hc)
  have hstring : Text.Turns findLiteral ('"' :: (body ++ ['"'])) ('"' :: (hide body ++ ['"'])) :=
    turns_found (by simp) fun before r => by
      simpa using findLiteral_string hbody before r
  have hall := ((hunquoted ha).append (hstring.append (hunquoted hb))).substitute
  rw [hideStrings]
  simpa using hall

theorem openings_string (ha : Around a) (hb : Around b) (body : Text) :
    ∀ q ∈ openings, ¬ q <:+: a ++ '"' :: (hide body ++ '"' :: b) := by
  intro q hq h
  have hquote : '"' ∉ q := (by decide : ∀ q ∈ openings, '"' ∉ q) q hq
  rcases infix_append_cons hquote h with h | h
  · exact ha.openings q hq h
  rcases infix_append_cons hquote h with h | h
  · exact not_infix_hide body q ((by decide : ∀ q ∈ openings, q ∈ hidden.map Prod.fst) q hq) h
  · exact hb.openings q hq h

theorem treat_string (ha : Around a) (hbody : Inside body) (hb : Around b) :
    treat (a ++ '"' :: (body ++ '"' :: b)) =
      finish a ++ '"' :: (Colour.expandNames (spaceBraces body) ++ '"' :: finish b) := by
  have hcomment : substitute findLineComment (a ++ '"' :: (hide body ++ '"' :: b)) =
      a ++ '"' :: (hide body ++ '"' :: b) := by
    refine substitute_self fun x y hxy _ => ?_
    unfold findLineComment
    split
    next =>
      exact (openings_string ha hb body ['/', '/'] (by decide)
        ⟨x, _, by rw [hxy, append_assoc]; rfl⟩).elim
    next => rfl
  have hbody' : finish (hide body) = Colour.expandNames (spaceBraces body) := by
    rw [finish, reveal_hide hbody.caret]
  rw [treat, hideStrings_string ha hbody hb, hcomment, ← hbody', ← finish_quote, ← finish_quote,
    finish]

/-- What stands around a string becomes the same whatever is in the string, and the quotes stay.
Between them blanks before braces and names of colours are dealt with as anywhere else; a string
without braces and names of colours stays as it is. -/
theorem strings_through_load (first : Nat) (file : Option Text) (ha : Around a) (hb : Around b) :
    ∃ before behind, ∀ body, Inside body →
      let code := (load first file (a ++ '"' :: (body ++ '"' :: b))).code
      code = before ++ '"' :: (Colour.expandNames (spaceBraces body) ++ '"' :: behind) ∧
      ('{' ∉ body → (∀ u v, body = u ++ v → Colour.findName u.reverse v = none) →
        Text.contains code ('"' :: (body ++ ['"'])) = true) := by
  obtain ⟨before, behind, -, hload⟩ := load_line first file
  refine ⟨before ++ finish a, finish b ++ behind, fun body hbody => ?_⟩
  have hcode := hload (x := a ++ '"' :: (body ++ '"' :: b))
    (by simp [ha.newline, hbody.newline, hb.newline])
    (by rw [hideStrings_string ha hbody hb]; exact openings_string ha hb body _ (by decide))
  rw [treat_string ha hbody hb] at hcode
  refine ⟨by simpa using hcode, fun hbrace hnames => ?_⟩
  have hself : Colour.expandNames (spaceBraces body) = body := by
    rw [spaceBraces_of_notMem hbrace]
    exact Text.substitute_self fun u v huv _ => hnames u v huv
  rw [Text.contains_iff, hcode, hself]
  exact ⟨before ++ finish a, finish b ++ behind, by simp⟩

/-- What looks like a comment is kept inside a string. -/
theorem strings_through_load_slashes :
    Text.contains (load 0 none "b:\"//\";".toList).code "\"//\"".toList = true := by
  obtain ⟨before, behind, hstring⟩ := strings_through_load (a := "b:".toList) (b := [';']) 0 none
    ⟨by decide, by decide, by decide, by decide⟩ ⟨by decide, by decide, by decide, by decide⟩
  refine (hstring ['/', '/'] ⟨by decide, by decide, by decide⟩).2 (by decide) fun u v huv => ?_
  refine findName_of_head fun c hc => ?_
  have hmem : c ∈ ['/', '/'] := huv ▸ List.mem_append_right u (List.mem_of_mem_head? hc)
  obtain rfl : c = '/' := by simpa using hmem
  decide

/-- The name of a colour is not. -/
theorem string_of_colour_changes :
    Around "a\x7bb:".toList ∧ Inside "red".toList ∧ Around ['}'] ∧
    (load 0 none "a\x7bb:\"red\"\x7d".toList).code = "a \x7bb:\"#ff0000\"\x7d".toList := by
  refine ⟨⟨?_, ?_, ?_, ?_⟩, ⟨?_, ?_, ?_⟩, ⟨?_, ?_, ?_, ?_⟩, ?_⟩ <;> decide +kernel

end SheetPress.Source
