import SheetPress.Proofs.Source.Numbering
import SheetPress.Proofs.Text.Borders
import SheetPress.Proofs.Text.Pieces

/-!
# Line by line

When the blank lines are gone, loading looks at one line at a time: a line break with the tag behind
it is a border for each of its passes, but for comments that reach over lines.  So what becomes of
a source is what becomes of its lines (`treat`).
-/

set_option autoImplicit false

namespace SheetPress.Source

open List Text
open Colour (findName expandNames isPart)

variable {find : (before rest : Text) → Option (Nat × Text)} {before behind r s w x : Text}
  {c d : Char}

theorem Keeps.fits (h : Keeps find) : Text.Fits find := by
  intro before rest t n hfound
  obtain ⟨x, y, rfl, hx, rfl, -⟩ := h hfound
  exact ⟨length_pos_of_ne_nil hx, by simp⟩

/-! ## What stands behind a text -/

theorem startsWith_append {start : Text} (hd : d ∉ start) :
    startsWith (s ++ d :: r) start = startsWith s start := by
  unfold startsWith
  induction start generalizing s with
  | nil => rfl
  | cons a start ih =>
    simp only [mem_cons, not_or] at hd
    cases s with
    | nil => simp [after?, Ne.symm hd.1]
    | cons c s =>
      by_cases hc : a = c
      · simpa [after?, hc] using ih hd.2
      · simp [after?, hc]

theorem findEntry_append {table : List (Text × Text)} (h : ∀ p ∈ table, d ∉ p.1) :
    findEntry table before (s ++ d :: r) = findEntry table before s :=
  findSome?_congr fun p hp => by rw [startsWith_append (h p hp)]

theorem cutAt?_append_right {p : Char → Bool} (hd : p d = true) :
    cutAt? p (s ++ d :: r) =
      ((cutAt? p s).map fun q => (q.1, q.2.1, q.2.2 ++ d :: r)).getD (s, d, r) := by
  induction s with
  | nil => simp [cutAt?, hd]
  | cons c s ih =>
    rw [cons_append, cutAt?, cutAt?, ih]
    split
    · rfl
    · cases cutAt? p s <;> rfl

theorem findLiteral_append : findLiteral before (s ++ '\n' :: r) = findLiteral before s := by
  have hlength : literalLength (s ++ '\n' :: r) = literalLength s := by
    cases s with
    | nil => rfl
    | cons q s =>
      rw [cons_append, literalLength, literalLength, cutAt?_append_right (by simp)]
      cases cutAt? (fun c => c == q || c == '\n') s with
      | some found => rfl
      | none =>
        split
        next hq =>
          have hbreak : '\n' ≠ q := by
            rintro rfl
            exact absurd hq (by decide)
          simp [hbreak]
        next => rfl
  rw [findLiteral, findLiteral, hlength]
  cases hs : literalLength s with
  | none => rfl
  | some n =>
    obtain ⟨c, x, y, -, rfl, rfl⟩ := literal_of_length hs
    simp [take_append]

theorem findBrace_cons : findBrace before (c :: s) =
    if isSpace c then (findBrace before s).map fun p => (p.1 + 1, p.2)
    else if c = '{' then some (1, [' ', '{']) else none := by
  by_cases hc : isSpace c = true
  · simp only [findBrace, takeWhile_cons, hc]
    simp
  · simp [findBrace, hc]

theorem findBrace_append (hw : findBrace before w = none) :
    findBrace before (s ++ w) = findBrace before s := by
  induction s with
  | nil => exact hw
  | cons c s ih => rw [cons_append, findBrace_cons, findBrace_cons, ih]

theorem findBlockBrace_cons : findBlockBrace before (c :: s) =
    if c = ':' ∨ c = '#' then (findBrace before s).map fun p => (p.1 + 1, [c, '{']) else none := by
  simp only [findBlockBrace, findBrace]
  simp

theorem findBlockBrace_append (hw : findBrace before w = none) (hs : s ≠ []) :
    findBlockBrace before (s ++ w) = findBlockBrace before s := by
  cases s with
  | nil => exact absurd rfl hs
  | cons c s => rw [cons_append, findBlockBrace_cons, findBlockBrace_cons, findBrace_append hw]

theorem spaceBraces_of_notMem (h : '{' ∉ s) : spaceBraces s = s := by
  have hnone : ∀ {t before : Text}, '{' ∉ t → findBrace before t = none := by
    intro t before ht
    induction t with
    | nil => rfl
    | cons c t ih =>
      simp only [mem_cons, not_or] at ht
      simp [findBrace_cons, Ne.symm ht.1, ih ht.2]
  have hbrace : substitute findBrace s = s :=
    substitute_self fun a b hab _ => hnone fun hb => h (by simp [hab, hb])
  have hblock : substitute findBlockBrace s = s := by
    refine substitute_self fun a b hab hb => ?_
    cases b with
    | nil => exact absurd rfl hb
    | cons c b =>
      have hb : '{' ∉ b := fun hb => h (by simp [hab, hb])
      simp [findBlockBrace_cons, hnone hb]
  rw [spaceBraces, hbrace, hblock]

theorem findName_behind (hd : isName d = false) :
    findName before (s ++ d :: r) = findName before s := by
  rw [findName, takeWhile_append_of_head s (by simpa using hd)]
  rfl

theorem findName_before (hd : isPart d = false) (a b : Text) :
    findName (a ++ d :: b) s = findName a s := by
  cases a with
  | nil => simp [findName, hd]
  | cons c a => rfl

theorem findLineComment_cons : findLineComment before (c :: d :: s) =
    if c = '/' ∧ d = '/' ∧ followsScheme before = false then
      some (2 + (s.takeWhile (· != '\n')).length, []) else none := by
  unfold findLineComment
  split
  next heq =>
    simp only [cons.injEq] at heq
    obtain ⟨rfl, rfl, rfl⟩ := heq
    cases followsScheme before <;> simp
  next hne =>
    rw [if_neg]
    rintro ⟨rfl, rfl, -⟩
    exact hne s rfl

theorem followsScheme_cons {e f : Char} (a : Text) :
    followsScheme (c :: e :: f :: a) = (c == ':' && isWord e && isWord f) := by
  unfold followsScheme
  split
  next heq =>
    simp only [cons.injEq] at heq
    simp [heq]
  next hne =>
    have hc : c ≠ ':' := fun h => hne e f a (by rw [h])
    simp [hc]

theorem followsScheme_append (a b : Text) : followsScheme (a ++ mark :: b) = followsScheme a := by
  have hmark : isWord mark = false := by decide
  rcases a with _ | ⟨c, _ | ⟨d, _ | ⟨e, a⟩⟩⟩
  · rfl
  · cases b with
    | nil => simp [followsScheme]
    | cons e b => simp [followsScheme_cons, hmark, followsScheme.eq_2]
  · simp [followsScheme_cons, hmark, followsScheme.eq_2]
  · simp [followsScheme_cons]

/-! ## Searches -/

/-- A search that looks at one line at a time. -/
structure Linewise (find : (before rest : Text) → Option (Nat × Text)) : Prop where
  fits : Text.Fits find
  /-- Nothing starts in a tag. -/
  inert : ∀ {before r c}, c.isDigit = true ∨ c = mark → find before (c :: r) = none
  newline : ∀ {before r n}, find before ('\n' :: (tag n ++ r)) = none
  before : ∀ a b s, find (a ++ mark :: b) s = find a s
  behind : ∀ {before s r n}, s ≠ [] → find before (s ++ '\n' :: (tag n ++ r)) = find before s

namespace Linewise

theorem opening (h : Linewise find) (n : Nat) : Text.Opening find (tag n) where
  inert before rest a b hab hb := by
    cases b with
    | nil => exact absurd rfl hb
    | cons c b => exact h.inert (mem_tag (n := n) (by simp [hab]))
  before a b s := by simpa [tag] using h.before a ((ofNat n).reverse ++ b) s

theorem border (h : Linewise find) (n : Nat) : Text.Border find ('\n' :: tag n) where
  fits := h.fits
  inert before rest a b hab hb := by
    cases a with
    | nil =>
      obtain rfl : '\n' :: tag n = b := hab
      exact h.newline
    | cons c a =>
      obtain ⟨rfl, htag⟩ := cons.inj hab
      simpa using (h.opening n).inert ('\n' :: before) rest a b htag hb
  before a b s := by simpa using (h.opening n).before a ('\n' :: b) s
  behind before s rest hne := h.behind hne

end Linewise

theorem ne_of_tag (hc : c.isDigit = true ∨ c = mark) (hdigit : d.isDigit = false)
    (hmark : d ≠ mark) : c ≠ d := by
  rintro rfl
  exact hc.elim (by simp [hdigit]) hmark

theorem findLiteral_of_ne (h : c ≠ '"') (h' : c ≠ '\'') : findLiteral before (c :: r) = none := by
  simp [findLiteral, literalLength, h, h']

theorem linewise_findLiteral : Linewise findLiteral where
  fits := keeps_findLiteral.fits
  inert hc := findLiteral_of_ne (ne_of_tag hc (by decide) (by decide))
    (ne_of_tag hc (by decide) (by decide))
  newline := rfl
  before _ _ _ := rfl
  behind _ := findLiteral_append

theorem hidden_caret :
    ∀ p ∈ hidden.map (fun p => (p.2, p.1)), ∃ m, p.1 = '^' :: m := by
  have hheads : ∀ p ∈ hidden.map (fun p => (p.2, p.1)), p.1.head? = some '^' := by decide
  exact fun p hp => head?_eq_some_iff.mp (hheads p hp)

theorem findHidden_of_ne (h : c ≠ '^') :
    findEntry (hidden.map fun p => (p.2, p.1)) before (c :: r) = none := by
  rw [findEntry, findSome?_eq_none_iff]
  intro p hp
  obtain ⟨m, hm⟩ := hidden_caret p hp
  rw [hm, startsWith_of_head_ne (by simpa using h)]
  rfl

theorem linewise_reveal : Linewise (findEntry (hidden.map fun p => (p.2, p.1))) where
  fits := keeps_reveal.fits
  inert hc := findHidden_of_ne (ne_of_tag hc (by decide) (by decide))
  newline := findHidden_of_ne (by decide)
  before _ _ _ := rfl
  behind _ := findEntry_append (by decide)

theorem findBrace_newline (n : Nat) : findBrace before ('\n' :: (tag n ++ r)) = none := by
  have hbreak : isSpace '\n' = true := by decide
  cases hn : ofNat n with
  | nil => exact absurd hn (ofNat_ne_nil n)
  | cons c ds =>
    have hc : c.isDigit = true := isDigit_of_mem_ofNat (n := n) (by simp [hn])
    have hbrace : c ≠ '{' := ne_of_tag (.inl hc) (by decide) (by decide)
    simp [findBrace_cons, tag, hn, hbreak, isSpace_of_isDigit hc, hbrace]

theorem linewise_findBrace : Linewise findBrace where
  fits := keeps_findBrace.fits
  inert hc := by
    have hbrace := ne_of_tag (d := '{') hc (by decide) (by decide)
    have hspace := hc.elim isSpace_of_isDigit fun h => h ▸ by decide
    simp [findBrace_cons, hbrace, hspace]
  newline := findBrace_newline _
  before _ _ _ := rfl
  behind _ := findBrace_append (findBrace_newline _)

theorem linewise_findBlockBrace : Linewise findBlockBrace where
  fits := keeps_findBlockBrace.fits
  inert hc := by
    have hcolon := ne_of_tag (d := ':') hc (by decide) (by decide)
    have hhash := ne_of_tag (d := '#') hc (by decide) (by decide)
    simp [findBlockBrace_cons, hcolon, hhash]
  newline := by simp [findBlockBrace_cons]
  before _ _ _ := rfl
  behind := findBlockBrace_append (findBrace_newline _)

theorem linewise_findName : Linewise findName where
  fits := keeps_findName.fits
  inert {_ _ c} hc := by
    rcases hc with hc | rfl
    · have hname : isName c = true := by simp [isName, isWord, Char.isAlphanum, hc]
      exact findName_of_digits? (digits?_eq_none (by simp [hname]) (isLower_of_isDigit hc))
    · exact findName_of_head (by simp; decide)
  newline := findName_of_head (by simp; decide)
  before _ _ _ := findName_before (by decide) _ _
  behind _ := findName_behind (by decide)

theorem linewise_findLineComment : Linewise findLineComment where
  fits := keeps_findLineComment.fits
  inert hc := by simp [findLineComment, ne_of_tag (d := '/') hc (by decide) (by decide)]
  newline := rfl
  before a b s := by
    unfold findLineComment
    rw [followsScheme_append]
  behind {_ s _ _} hne := by
    rcases s with _ | ⟨c, _ | ⟨e, s⟩⟩
    · exact absurd rfl hne
    · simp [findLineComment]
    · rw [cons_append, cons_append, findLineComment_cons, findLineComment_cons,
        takeWhile_append_of_head s (by simp)]

/-! ## Borders within a line -/

theorem spaceBraces_border (hspace : isSpace d = false) (hd : d ∉ [':', '#', '{']) (x y : Text) :
    spaceBraces (x ++ d :: y) = spaceBraces x ++ d :: spaceBraces y := by
  simp only [mem_cons, not_mem_nil, or_false, not_or] at hd
  have hnone : ∀ before r, findBrace before (d :: r) = none := fun before r => by
    simp [findBrace_cons, hspace, hd]
  have hblock : ∀ before r, findBlockBrace before (d :: r) = none := fun before r => by
    simp [findBlockBrace_cons, hd]
  simp only [spaceBraces]
  rw [substitute_border findBrace keeps_findBrace.fits hnone (fun _ _ _ => rfl)
      fun before _ r _ => findBrace_append (hnone before r),
    substitute_border findBlockBrace keeps_findBlockBrace.fits hblock (fun _ _ _ => rfl)
      fun before _ r => findBlockBrace_append (hnone before r)]

theorem expandNames_border (hd : isPart d = false) (x y : Text) :
    expandNames (x ++ d :: y) = expandNames x ++ d :: expandNames y := by
  have hname : isName d = false := by
    simp only [isPart, Bool.or_eq_false_iff] at hd
    exact hd.1.1.1
  exact substitute_border findName keeps_findName.fits
    (fun _ _ => findName_of_head (by simpa using hname)) (fun a b _ => findName_before hd a b)
    (fun _ _ _ _ => findName_behind hname) x y

/-! ## Tagged lines -/

/-- A function on texts that works on each line by itself and leaves the tags alone. -/
structure ByLine (f : Text → Text) : Prop where
  nil : f [] = []
  tag : ∀ n y, f (tag n ++ y) = tag n ++ f y
  newline : ∀ x n y, f (x ++ '\n' :: (Source.tag n ++ y)) = f x ++ '\n' :: (Source.tag n ++ f y)

theorem Linewise.byLine (h : Linewise find) : ByLine (substitute find) where
  nil := rfl
  tag n y := (h.opening n).substituteFrom [] y
  newline x n y := (h.border n).substitute x y

theorem ByLine.comp {f g : Text → Text} (hg : ByLine g) (hf : ByLine f) : ByLine (g ∘ f) where
  nil := by simp [hf.nil, hg.nil]
  tag n y := by simp [hf.tag, hg.tag]
  newline x n y := by simp [hf.newline, hg.newline]

/-- What loading makes of a line, but for comments that reach over lines. -/
def treat (line : Text) : Text :=
  expandNames (spaceBraces (reveal (substitute findLineComment (hideStrings line))))

theorem byLine_treat : ByLine treat := by
  have hstrings : ByLine hideStrings := linewise_findLiteral.byLine
  have hreveal : ByLine reveal := linewise_reveal.byLine
  have hbraces : ByLine spaceBraces := linewise_findBlockBrace.byLine.comp linewise_findBrace.byLine
  have hnames : ByLine expandNames := linewise_findName.byLine
  have hall :=
    hnames.comp (hbraces.comp (hreveal.comp (linewise_findLineComment.byLine.comp hstrings)))
  unfold treat
  simpa only [Function.comp_def] using hall

theorem hideStrings_of_notMem (hdouble : '"' ∉ s) (hsingle : '\'' ∉ s) : hideStrings s = s :=
  (turns_of_heads fun _ hc _ _ => findLiteral_of_ne (fun h => hdouble (h ▸ hc))
    fun h => hsingle (h ▸ hc)).substitute

theorem reveal_of_notMem (h : '^' ∉ s) : reveal s = s :=
  (turns_of_heads fun _ hc _ _ => findHidden_of_ne fun hc' => h (hc' ▸ hc)).substitute

/-- Where there are no strings and no comments, there are braces and names of colours. -/
theorem treat_plain (h : ∀ c ∈ ['"', '\'', '/', '^'], c ∉ s) :
    treat s = expandNames (spaceBraces s) := by
  have hslash : ∀ c ∈ s, c ≠ '/' := fun c hc hc' => h '/' (by simp) (hc' ▸ hc)
  have hline : substitute findLineComment s = s :=
    (turns_of_heads fun c hc _ _ => by simp [findLineComment, hslash c hc]).substitute
  rw [treat, hideStrings_of_notMem (h _ (by simp)) (h _ (by simp)), hline,
    reveal_of_notMem (h _ (by simp))]

/-! ## A single line -/

theorem substitute_findBlockComment (h : ¬ ['/', '*'] <:+: s) :
    substitute findBlockComment s = s := by
  refine substitute_self fun a b hab _ => ?_
  unfold findBlockComment
  split
  next => exact absurd ⟨a, _, by rw [hab, append_assoc]; rfl⟩ h
  next => rfl

theorem prepare_eq_treat {code : Text} (h : ¬ ['/', '*'] <:+: hideStrings (dropEmptyLines code)) :
    prepare code = treat (dropEmptyLines code) := by
  simp only [prepare, treat, dropComments, substitute_findBlockComment h]

theorem openless_tag (h : ¬ ['/', '*'] <:+: s) (n : Nat) : ¬ ['/', '*'] <:+: tag n ++ s := by
  intro hinfix
  rw [tag, append_assoc] at hinfix
  rcases infix_append_cons (by decide) hinfix with hn | hs
  · exact absurd (isDigit_of_mem_ofNat (hn.subset mem_cons_self)) (by decide)
  · exact h hs

/-- What loading puts before and behind code on one line. -/
inductive Wraps : (before behind : Text) → Prop where
  | bare : Wraps [] []
  | tagged (n : Nat) : Wraps (tag n) ('\n' :: tag n)

/-- What is around a line has only digits, breaks and marks in it. -/
theorem Wraps.notMem_sides (hw : Wraps before behind) (hdigit : c.isDigit = false)
    (hmark : c ≠ mark) (hbreak : c ≠ '\n') : c ∉ before ∧ c ∉ behind := by
  cases hw with
  | bare => simp
  | tagged n =>
    have htag : c ∉ tag n := notMem_tag n hdigit hmark
    simp [htag, hbreak]

theorem findEmptyLine_of_ne (h : c ≠ '\n') : findEmptyLine before (c :: r) = none := by
  unfold findEmptyLine
  split
  · rename_i heq
    simp only [cons.injEq] at heq
    exact absurd heq.1 h
  · rfl

/-- The line behind the last break is kept, since no break follows it. -/
theorem findEmptyLine_tag (before : Text) (n : Nat) :
    findEmptyLine before ('\n' :: tag n) = none := by
  have hline : (tag n).takeWhile (· != '\n') = tag n := by
    rw [takeWhile_eq_self_iff]
    intro c hc
    simp only [bne_iff_ne, ne_eq]
    rintro rfl
    exact notMem_tag n (by decide) (by decide) hc
  simp [findEmptyLine, hline, tagLength_tag, blankLines]

theorem dropEmptyLines_wrapped (hw : Wraps before behind) {code : Text} (hbreak : '\n' ∉ code) :
    dropEmptyLines (before ++ (code ++ behind)) = before ++ (code ++ behind) := by
  have hpass : ∀ {x : Text}, '\n' ∉ x → Text.Turns findEmptyLine x x := fun hx =>
    turns_of_heads fun c hc _ _ => findEmptyLine_of_ne fun h => hx (h ▸ hc)
  cases hw with
  | bare => simpa [dropEmptyLines] using (hpass hbreak).substitute
  | tagged n =>
    have htag : '\n' ∉ tag n := notMem_tag n (by decide) (by decide)
    obtain ⟨y, hy⟩ := ((hpass htag).append (hpass hbreak)) [] ('\n' :: tag n)
    obtain ⟨y', hlast⟩ := hpass htag ('\n' :: y) []
    rw [append_nil, substituteFrom_nil, append_nil] at hlast
    rw [substituteFrom_cons (findEmptyLine_tag _ n), hlast] at hy
    simpa [dropEmptyLines, substitute_eq] using hy

theorem load_line (first : Nat) (file : Option Text) :
    ∃ before behind, Wraps before behind ∧ ∀ {x}, '\n' ∉ x → ¬ ['/', '*'] <:+: hideStrings x →
      (load first file x).code = before ++ (treat x ++ behind) := by
  cases file with
  | none =>
    refine ⟨[], [], .bare, fun {x} hx hopen => ?_⟩
    have hlines := dropEmptyLines_wrapped .bare hx
    rw [nil_append, append_nil] at hlines
    rw [load, prepare_eq_treat (by rwa [hlines]), hlines]
    simp
  | some file =>
    refine ⟨_, _, .tagged first, fun {x} hx hopen => ?_⟩
    have hlines := dropEmptyLines_wrapped (.tagged first) hx
    have hby : ∀ {f : Text → Text}, ByLine f → f (tag first ++ (x ++ '\n' :: tag first)) =
        tag first ++ (f x ++ '\n' :: tag first) := by
      intro f hf
      have hbreak := hf.newline x first []
      rw [append_nil, hf.nil, append_nil] at hbreak
      rw [hf.tag, hbreak]
    have hstrings : ByLine hideStrings := linewise_findLiteral.byLine
    have hopenless : ¬ ['/', '*'] <:+: hideStrings (tag first ++ (x ++ '\n' :: tag first)) := by
      rw [hby hstrings]
      refine openless_tag (fun h => ?_) first
      rcases infix_append_cons (by decide) h with h | h
      · exact hopen h
      · exact notMem_tag first (by decide) (by decide) (h.subset mem_cons_self)
    simp only [load]
    rw [tagLines_of_notMem first hx, prepare_eq_treat (by rwa [hlines]), hlines, hby byLine_treat]

end SheetPress.Source
