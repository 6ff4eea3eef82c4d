import SheetPress.Source.Block
import SheetPress.Proofs.Text.Cutting

/-!
# Numbered texts

In a numbered text every line starts with a tag: digits and a mark.  A small machine reads such
texts from left to right; it knows only whether it stands before a tag, in one, or behind it.
Loading numbers the lines of a source, and whatever else it does replaces stretches by others
that the machine reads to the same end (`Keeps`).  So a loaded source is a numbered text
(`reads_load`).
-/

set_option autoImplicit false

namespace SheetPress.Source

open List Text

variable {c : Char} {n : Nat} {s t : Text}

/-! ## Names of colours -/

/-- The words of the language itself. -/
def keywords : List Text :=
  ["media", "mixin", "include", "import", "extend", "extends", "self", "for", "from", "through",
    "i"].map String.toList

/-- The names of colours are words of lower case letters, and no keywords. -/
theorem lower_of_mem_names {p : Text × Text} (hp : p ∈ Colour.names) :
    p.1 ≠ [] ∧ (∀ c ∈ p.1, c.isLower = true) ∧ p.1 ∉ keywords := by
  have hall : (Colour.names.all fun p =>
      !p.1.isEmpty && (p.1.all Char.isLower && !keywords.contains p.1)) = true := by
    decide +kernel
  simpa using all_eq_true.mp hall p hp

theorem digits?_eq_none {w : Text} (hc : c ∈ w) (h : c.isLower = false) :
    Colour.digits? w = none := by
  rw [Colour.digits?, lookup_eq_none_iff]
  intro p hp
  refine bne_iff_ne.mpr ?_
  rintro rfl
  have hlower := (lower_of_mem_names hp).2.1 c hc
  rw [h] at hlower
  exact Bool.noConfusion hlower

theorem digits?_nil : Colour.digits? [] = none := by
  rw [Colour.digits?, lookup_eq_none_iff]
  exact fun p hp => bne_iff_ne.mpr (lower_of_mem_names hp).1.symm

theorem digits?_of_mem_keywords {w : Text} (hw : w ∈ keywords) : Colour.digits? w = none := by
  rw [Colour.digits?, lookup_eq_none_iff]
  intro p hp
  refine bne_iff_ne.mpr ?_
  rintro rfl
  exact (lower_of_mem_names hp).2.2 hw

variable {rest before code : Text}

theorem takeWhile_append_of_head {p : Char → Bool} (b : Text) (h : ∀ c ∈ rest.head?, p c = false) :
    (b ++ rest).takeWhile p = b.takeWhile p := by
  induction b with
  | nil =>
    cases rest with
    | nil => rfl
    | cons c rest => simp [h c (by simp)]
  | cons c b ih => simp [takeWhile_cons, ih]

theorem findName_of_digits? (h : Colour.digits? (rest.takeWhile isName) = none) :
    Colour.findName before rest = none := by
  simp [Colour.findName, h]

theorem findName_of_head (h : ∀ c ∈ rest.head?, isName c = false) :
    Colour.findName before rest = none := by
  refine findName_of_digits? ?_
  have hnil : rest.takeWhile isName = [] := by
    simpa using takeWhile_append_of_head (p := isName) [] h
  rw [hnil, digits?_nil]

/-! ## Tags -/

/-- The tag of a line. -/
def tag (n : Nat) : Text := Text.ofNat n ++ [mark]

theorem isDigit_of_mem_ofNat (h : c ∈ Text.ofNat n) : c.isDigit = true :=
  Nat.isDigit_of_mem_toDigits (by decide) (by decide) h

theorem ofNat_ne_nil (n : Nat) : Text.ofNat n ≠ [] := Nat.toDigits_ne_nil

theorem mem_tag (h : c ∈ tag n) : c.isDigit = true ∨ c = mark := by
  rcases mem_append.mp h with h | h
  · exact .inl (isDigit_of_mem_ofNat h)
  · exact .inr (by simpa using h)

theorem notMem_tag (n : Nat) (hdigit : c.isDigit = false) (hmark : c ≠ mark) :
    c ∉ tag n := by
  intro hm
  rcases mem_tag hm with h | h
  · rw [hdigit] at h
    exact Bool.noConfusion h
  · exact hmark h

theorem tagLength_tag (n : Nat) : tagLength (tag n) = some (tag n).length := by
  have hpos : 1 ≤ (ofNat n).length := length_pos_of_ne_nil (ofNat_ne_nil n)
  simp [tagLength, tag, hpos]

theorem tagBreaks_of_notMem (next : Nat) (h : '\n' ∉ code) :
    tagBreaks next (code ++ ['\n']) = code ++ '\n' :: tag next := by
  induction code with
  | nil => simp [tagBreaks, tag]
  | cons c code ih =>
    simp only [mem_cons, not_or] at h
    simp [tagBreaks, Ne.symm h.1, ih h.2]

theorem tagLines_of_notMem (first : Nat) (h : '\n' ∉ code) :
    tagLines first code = tag first ++ (code ++ '\n' :: tag first) := by
  simp [tagLines, tagBreaks_of_notMem first h, tag]

theorem isSpace_eq_false (h : 32 < c.toNat) : isSpace c = false := by
  have hne : c ≠ ' ' := by
    rintro rfl
    exact absurd h (by decide)
  have hhigh : ¬ c.toNat ≤ 13 := by omega
  simp [isSpace, hne, hhigh]

theorem isSpace_of_isDigit (h : c.isDigit = true) : isSpace c = false := by
  simp only [Char.isDigit, Bool.and_eq_true, decide_eq_true_eq] at h
  have hlow : 48 ≤ c.toNat := UInt32.le_iff_toNat_le.mp h.1
  exact isSpace_eq_false (by omega)

theorem isSpace_of_isLower (h : c.isLower = true) : isSpace c = false := by
  simp only [Char.isLower, Bool.and_eq_true, decide_eq_true_eq] at h
  have hlow : 97 ≤ c.toNat := UInt32.le_iff_toNat_le.mp h.1
  exact isSpace_eq_false (by omega)

theorem isLower_of_isDigit (h : c.isDigit = true) : c.isLower = false := by
  simp only [Char.isDigit, Char.isLower, Bool.and_eq_true, decide_eq_true_eq,
    Bool.and_eq_false_iff, decide_eq_false_iff_not] at h ⊢
  have hhigh : c.toNat ≤ 57 := UInt32.le_iff_toNat_le.mp h.2
  left
  intro hlow
  have : 97 ≤ c.toNat := UInt32.le_iff_toNat_le.mp hlow
  omega

/-! ## Places in a line -/

/-- A place in a line of a numbered text. -/
inductive Spot where
  /-- The tag starts here. -/
  | start
  /-- Some of its digits have been read. -/
  | tag
  /-- The tag has been read. -/
  | text
  deriving DecidableEq, Repr

namespace Spot

/-- The place behind one more character, if the character may stand here. -/
def pass : Spot → Char → Option Spot
  | .start, c => if c.isDigit then some .tag else none
  | .tag, c => if c.isDigit then some .tag else if c = mark then some .text else none
  | .text, c => if c = '\n' then some .start else if c = mark then none else some .text

/-- The place behind a text. -/
def after : Text → Spot → Option Spot
  | [], p => some p
  | c :: r, p => (p.pass c).bind (after r)

variable {p q : Spot} {x y : Text}

theorem after_append (x y : Text) (p : Spot) : after (x ++ y) p = (after x p).bind (after y) := by
  induction x generalizing p with
  | nil => rfl
  | cons c x ih =>
    rw [cons_append, after, after]
    cases p.pass c with
    | none => rfl
    | some q => exact ih q

theorem after_eq_some_append (h : after (x ++ y) p = some q) :
    ∃ m, after x p = some m ∧ after y m = some q := by
  rw [after_append] at h
  exact Option.bind_eq_some_iff.mp h

/-- In front of a character that belongs to no tag the tag has been read. -/
theorem eq_text_of_pass (hdigit : c.isDigit = false) (hmark : c ≠ mark)
    (h : p.pass c = some q) : p = .text := by
  cases p with
  | start => simp [pass, hdigit] at h
  | tag => simp [pass, hdigit, hmark] at h
  | text => rfl

theorem eq_text_of_after_cons (hdigit : c.isDigit = false) (hmark : c ≠ mark)
    (h : after (c :: x) p = some q) : p = .text := by
  obtain ⟨m, hm, -⟩ := Option.bind_eq_some_iff.mp h
  exact eq_text_of_pass hdigit hmark hm

/-- A character of the text of a line. -/
def isPlain (c : Char) : Bool := !c.isDigit && c != mark && c != '\n'

theorem eq_text_of_after_snoc (hc : isPlain c = true) (h : after (x ++ [c]) p = some q) :
    q = .text := by
  simp only [isPlain, Bool.and_eq_true, Bool.not_eq_true', bne_iff_ne] at hc
  obtain ⟨m, -, hm⟩ := after_eq_some_append h
  obtain rfl := eq_text_of_after_cons hc.1.1 hc.1.2 hm
  simpa [after, pass, hc.1.2, hc.2] using hm.symm

theorem eq_start_of_after_snoc (h : after (x ++ ['\n']) p = some q) : q = .start := by
  obtain ⟨m, -, hm⟩ := after_eq_some_append h
  obtain rfl := eq_text_of_after_cons (by decide) (by decide) hm
  simpa [after, pass] using hm.symm

theorem after_text (hbreak : '\n' ∉ x) (hmark : mark ∉ x) : after x .text = some .text := by
  induction x with
  | nil => rfl
  | cons c x ih =>
    simp only [mem_cons, not_or] at hbreak hmark
    simp [after, pass, Ne.symm hbreak.1, Ne.symm hmark.1, ih hbreak.2 hmark.2]

theorem mark_notMem_of_after (hbreak : '\n' ∉ x) (h : after x .text = some q) : mark ∉ x := by
  induction x with
  | nil => simp
  | cons c x ih =>
    simp only [mem_cons, not_or] at hbreak
    have hc : c ≠ mark := by
      rintro rfl
      simp [after, pass, Ne.symm hbreak.1] at h
    simp only [after, pass, Ne.symm hbreak.1, hc, if_false, Option.bind_some] at h
    simp [Ne.symm hc, ih hbreak.2 h]

theorem after_digits (hx : ∀ c ∈ x, c.isDigit = true) : after x .tag = some .tag := by
  induction x with
  | nil => rfl
  | cons c x ih => simp [after, pass, hx c (by simp), ih fun d hd => hx d (by simp [hd])]

theorem after_tag (n : Nat) (x : Text) :
    after (Text.ofNat n ++ mark :: x) .start = after x .text := by
  cases hn : Text.ofNat n with
  | nil => exact absurd hn (ofNat_ne_nil n)
  | cons c ds =>
    have hdigits : ∀ d ∈ c :: ds, d.isDigit = true := fun d hd =>
      isDigit_of_mem_ofNat (n := n) (by rwa [hn])
    rw [cons_append, after]
    simp only [pass, hdigits c (by simp), if_true, Option.bind_some]
    rw [after_append, after_digits fun d hd => hdigits d (by simp [hd])]
    rfl

end Spot

variable {p q : Spot}

/-! ## Numbering -/

theorem after_tagBreaks (h : mark ∉ code) (next : Nat) :
    Spot.after (tagBreaks next code) .text = some .text := by
  induction code generalizing next with
  | nil => rfl
  | cons c code ih =>
    simp only [mem_cons, not_or] at h
    rw [tagBreaks]
    split
    next hc =>
      rw [Spot.after]
      simp only [Spot.pass, if_true, Option.bind_some]
      rw [Spot.after_tag, ih h.2]
    next hc => simp [Spot.after, Spot.pass, hc, Ne.symm h.1, ih h.2]

theorem after_tagLines (h : mark ∉ code) (first : Nat) :
    Spot.after (tagLines first code) .start = some .text := by
  have hcode : mark ∉ code ++ ['\n'] := by
    simp only [mem_append, not_or]
    exact ⟨h, by decide⟩
  rw [tagLines, Spot.after_tag, after_tagBreaks hcode]

/-! ## Substitutions -/

/-- What is found may be replaced: the machine comes to the same end. -/
def Keeps (find : (before rest : Text) → Option (Nat × Text)) : Prop :=
  ∀ {before rest t : Text} {n : Nat}, find before rest = some (n, t) →
    ∃ x y, rest = x ++ y ∧ x ≠ [] ∧ n = x.length ∧
      ∀ {p q : Spot}, Spot.after x p = some q → Spot.after t p = some q

theorem Keeps.substituteFrom {find : (before rest : Text) → Option (Nat × Text)}
    (hfind : Keeps find) {before : Text} (h : Spot.after s p = some q) :
    Spot.after (substituteFrom find before s) p = some q := by
  induction hn : s.length using Nat.strong_induction_on generalizing before s p with
  | h n ih =>
    cases s with
    | nil => rwa [substituteFrom_nil]
    | cons c r =>
      cases hfound : find before (c :: r) with
      | none =>
        rw [substituteFrom_cons hfound]
        obtain ⟨m, hm, hrest⟩ := Option.bind_eq_some_iff.mp h
        rw [Spot.after, hm]
        exact ih r.length (by simp [← hn]) hrest rfl
      | some found =>
        obtain ⟨k, t⟩ := found
        obtain ⟨x, y, hxy, hx, rfl, hsame⟩ := hfind hfound
        rw [hxy] at h hfound ⊢
        obtain ⟨m, hm, hrest⟩ := Spot.after_eq_some_append h
        rw [substituteFrom_found hx hfound, Spot.after_append, hsame hm]
        refine ih y.length ?_ hrest rfl
        have hpos := length_pos_of_ne_nil hx
        rw [← hn, hxy, length_append]
        omega

theorem Keeps.substitute {find : (before rest : Text) → Option (Nat × Text)} (hfind : Keeps find)
    (h : Spot.after s p = some q) :
    Spot.after (substitute find s) p = some q := hfind.substituteFrom h

/-- A stretch that does not start in a tag and leads to the text of a line may be replaced by
text of a line. -/
theorem same_of_text {x : Text} (hhead : ∀ c ∈ x.head?, c.isDigit = false ∧ c ≠ mark)
    (hne : x ≠ []) (hend : ∀ {q}, Spot.after x .text = some q → q = .text)
    (ht : Spot.after t .text = some .text) (h : Spot.after x p = some q) :
    Spot.after t p = some q := by
  cases x with
  | nil => exact absurd rfl hne
  | cons c x =>
    obtain ⟨hdigit, hmark⟩ := hhead c rfl
    obtain rfl := Spot.eq_text_of_after_cons hdigit hmark h
    rw [ht, hend h]

/-- A stretch between two characters of the text of a line may be replaced by text of a line. -/
theorem same_of_ends {d : Char} {x : Text} (hc : c.isDigit = false ∧ c ≠ mark)
    (hd : Spot.isPlain d = true) (ht : Spot.after t .text = some .text)
    (h : Spot.after (c :: (x ++ [d])) p = some q) : Spot.after t p = some q := by
  refine same_of_text ?_ (by simp) (fun hend => ?_) ht h
  · intro e he
    obtain rfl := Option.some.inj he
    exact hc
  · exact Spot.eq_text_of_after_snoc (x := c :: x) hd hend

/-- The entries of a table belong to the text of a line. -/
def isLineTable (table : List (Text × Text)) : Bool :=
  table.all fun e =>
    !e.1.isEmpty && e.1.all Spot.isPlain && e.2.all fun c => c != '\n' && c != mark

theorem same_of_entry (table : List (Text × Text)) (htable : isLineTable table = true)
    {e : Text × Text} (he : e ∈ table) :
    e.1 ≠ [] ∧ ∀ {p q : Spot}, Spot.after e.1 p = some q → Spot.after e.2 p = some q := by
  have hline := all_eq_true.mp htable e he
  simp only [Bool.and_eq_true, Bool.not_eq_true', isEmpty_eq_false_iff, all_eq_true,
    bne_iff_ne] at hline
  obtain ⟨⟨hne, hplain⟩, ht⟩ := hline
  refine ⟨hne, same_of_text ?_ hne ?_ ?_⟩
  · intro c hc
    have hc := hplain c (mem_of_mem_head? hc)
    simp only [Spot.isPlain, Bool.and_eq_true, Bool.not_eq_true', bne_iff_ne] at hc
    exact hc.1
  · intro q hq
    rw [← dropLast_append_getLast hne] at hq
    exact Spot.eq_text_of_after_snoc (hplain _ (getLast_mem hne)) hq
  · exact Spot.after_text (fun hmem => (ht _ hmem).1 rfl) fun hmem => (ht _ hmem).2 rfl

theorem of_findEntry {table : List (Text × Text)} (h : findEntry table before rest = some (n, t)) :
    ∃ e ∈ table, (∃ y, rest = e.1 ++ y) ∧ n = e.1.length ∧ t = e.2 := by
  obtain ⟨e, he, hentry⟩ := exists_of_findSome?_eq_some h
  rw [Option.ite_none_right_eq_some] at hentry
  obtain ⟨rfl, rfl⟩ := Prod.mk.inj (Option.some.inj hentry.2)
  obtain ⟨y, hy⟩ := Option.isSome_iff_exists.mp hentry.1
  exact ⟨e, he, ⟨y, eq_append_of_after? hy⟩, rfl, rfl⟩

theorem keeps_findEntry {table : List (Text × Text)} (htable : isLineTable table = true) :
    Keeps (findEntry table) := by
  intro before rest t n h
  obtain ⟨e, he, ⟨y, hy⟩, rfl, rfl⟩ := of_findEntry h
  obtain ⟨hne, hsame⟩ := same_of_entry table htable he
  exact ⟨e.1, y, hy, hne, rfl, hsame⟩

theorem keeps_hide : Keeps (findEntry hidden) := keeps_findEntry (by decide +kernel)

theorem keeps_reveal : Keeps (findEntry (hidden.map fun p => (p.2, p.1))) :=
  keeps_findEntry (by decide +kernel)

theorem literal_of_length (h : literalLength rest = some n) :
    ∃ (c : Char) (x y : Text), (c = '"' ∨ c = '\'') ∧ rest = c :: (x ++ c :: y) ∧
      n = x.length + 2 := by
  unfold literalLength at h
  split at h
  next c r =>
    split at h
    next hc =>
      split at h
      next inside d y hcut =>
        split at h
        next hd =>
          obtain rfl := Option.some.inj h
          obtain rfl : d = c := by simpa using hd
          exact ⟨d, inside, y, by simpa using hc, by rw [eq_append_of_cutAt? hcut], rfl⟩
        next => cases h
      next => cases h
    next => cases h
  next => cases h

theorem keeps_findLiteral : Keeps findLiteral := by
  intro before rest t n h
  obtain ⟨k, hlength, hfound⟩ := Option.map_eq_some_iff.mp h
  obtain ⟨rfl, rfl⟩ := Prod.mk.inj hfound
  obtain ⟨c, x, y, hc, rfl, rfl⟩ := literal_of_length hlength
  have hplain : Spot.isPlain c = true ∧ c.isDigit = false ∧ c ≠ mark := by
    rcases hc with rfl | rfl <;> decide
  have htake : (c :: (x ++ c :: y)).take (x.length + 2) = c :: (x ++ [c]) := by
    simp [take_append]
  refine ⟨c :: (x ++ [c]), y, by simp, by simp, by simp, fun hq => ?_⟩
  rw [htake]
  exact keeps_hide.substitute hq

theorem keeps_findBlockComment : Keeps findBlockComment := by
  intro before rest t n h
  unfold findBlockComment at h
  split at h
  next r =>
    obtain ⟨⟨a, b⟩, hcut, hfound⟩ := Option.map_eq_some_iff.mp h
    obtain ⟨rfl, rfl⟩ := Prod.mk.inj hfound
    refine ⟨'/' :: (('*' :: (a ++ ['*'])) ++ ['/']), b, ?_, by simp, by simp, ?_⟩
    · rw [eq_append_of_cut? hcut]
      simp
    · exact same_of_ends (by decide) (by decide) rfl
  next => cases h

theorem keeps_findLineComment : Keeps findLineComment := by
  intro before rest t n h
  unfold findLineComment at h
  split at h
  next r =>
    split at h
    next => cases h
    next =>
      obtain ⟨rfl, rfl⟩ := Prod.mk.inj (Option.some.inj h)
      refine ⟨'/' :: '/' :: r.takeWhile (· != '\n'), r.dropWhile (· != '\n'), ?_, by simp, ?_, ?_⟩
      · simp [takeWhile_append_dropWhile]
      · simp only [length_cons]
        omega
      · refine same_of_text (by simp; decide) (by simp) (fun hq => ?_) rfl
        have hbreak : '\n' ∉ '/' :: '/' :: r.takeWhile (· != '\n') := by
          intro hmem
          simp only [mem_cons] at hmem
          rcases hmem with hmem | hmem | hmem
          · exact absurd hmem (by decide)
          · exact absurd hmem (by decide)
          · simpa using mem_takeWhile_imp hmem
        rw [Spot.after_text hbreak (Spot.mark_notMem_of_after hbreak hq)] at hq
        exact (Option.some.inj hq).symm
  next => cases h

theorem blanks_brace {r : Text} (h : (r.drop (r.takeWhile isSpace).length).head? = some '{') :
    ∃ y, r = r.takeWhile isSpace ++ '{' :: y := by
  cases hrest : r.drop (r.takeWhile isSpace).length with
  | nil => simp [hrest] at h
  | cons c y =>
    obtain rfl : c = '{' := by simpa [hrest] using h
    refine ⟨y, ?_⟩
    conv_lhs => rw [← take_append_drop (r.takeWhile isSpace).length r, hrest]
    rw [prefix_iff_eq_take.mp (List.takeWhile_prefix isSpace)]
    simp

theorem isDigit_of_isSpace (h : isSpace c = true) :
    c.isDigit = false ∧ c ≠ mark := by
  refine ⟨?_, ?_⟩
  · cases hdigit : c.isDigit with
    | false => rfl
    | true => simp [isSpace_of_isDigit hdigit] at h
  · rintro rfl
    exact absurd h (by decide)

theorem keeps_findBrace : Keeps findBrace := by
  intro before rest t n h
  simp only [findBrace] at h
  split at h
  next hbrace =>
    obtain ⟨rfl, rfl⟩ := Prod.mk.inj (Option.some.inj h)
    obtain ⟨y, hy⟩ := blanks_brace (by simpa using hbrace)
    refine ⟨rest.takeWhile isSpace ++ ['{'], y, ?_, by simp, by simp, ?_⟩
    · rw [append_assoc]
      exact hy
    · refine same_of_text ?_ (by simp) (fun hq => Spot.eq_text_of_after_snoc (by decide) hq)
        (by decide)
      intro c hc
      cases hblanks : rest.takeWhile isSpace with
      | nil =>
        rw [hblanks] at hc
        obtain rfl : '{' = c := by simpa using hc
        decide
      | cons d ds =>
        have hd : isSpace d = true := mem_takeWhile_imp (l := rest) (by simp [hblanks])
        rw [hblanks] at hc
        obtain rfl : d = c := by simpa using hc
        exact isDigit_of_isSpace hd
  next => cases h

theorem keeps_findBlockBrace : Keeps findBlockBrace := by
  intro before rest t n h
  unfold findBlockBrace at h
  split at h
  next c r =>
    split at h
    next hc =>
      simp only at h
      split at h
      next hbrace =>
        obtain ⟨rfl, rfl⟩ := Prod.mk.inj (Option.some.inj h)
        obtain ⟨y, hy⟩ := blanks_brace (by simpa using hbrace)
        have hplain : (c.isDigit = false ∧ c ≠ mark) ∧ Spot.after [c, '{'] .text = some .text := by
          simp only [Bool.or_eq_true, beq_iff_eq] at hc
          rcases hc with rfl | rfl <;> decide
        refine ⟨c :: (r.takeWhile isSpace ++ ['{']), y, ?_, by simp, by simp, ?_⟩
        · rw [cons_append, append_assoc]
          exact congrArg (c :: ·) hy
        · exact same_of_ends hplain.1 (by decide) hplain.2
      next => cases h
    next => cases h
  next => cases h

theorem keeps_findName : Keeps Colour.findName := by
  intro before rest t n h
  unfold Colour.findName at h
  split at h
  next => cases h
  next =>
    obtain ⟨d, hdigits, hfound⟩ := Option.map_eq_some_iff.mp h
    obtain ⟨rfl, rfl⟩ := Prod.mk.inj hfound
    have hmem : (rest.takeWhile isName, d) ∈ Colour.names := by
      obtain ⟨l₁, l₂, hnames, -⟩ := lookup_eq_some_iff.mp hdigits
      rw [hnames]
      simp
    obtain ⟨hne, hsame⟩ := same_of_entry Colour.names (by decide +kernel) hmem
    exact ⟨_, rest.dropWhile isName, takeWhile_append_dropWhile.symm, hne, rfl, hsame⟩

theorem break_of_blankLines {m : Nat} (h : blankLines s = some m) :
    ∃ a b, s = a ++ '\n' :: b ∧ m = a.length + 1 := by
  unfold blankLines at h
  obtain ⟨blanks, hblanks⟩ : ∃ x, x = s.takeWhile isSpace := ⟨_, rfl⟩
  simp only [← hblanks, Option.ite_none_right_eq_some, Option.some.injEq] at h
  obtain ⟨hlt, rfl⟩ := h
  have hsplit := takeWhile_append_dropWhile (p := (· != '\n')) (l := blanks.reverse)
  cases hrest : blanks.reverse.dropWhile (· != '\n') with
  | nil =>
    rw [hrest, append_nil] at hsplit
    rw [hsplit, length_reverse] at hlt
    omega
  | cons c e =>
    obtain rfl : c = '\n' := by
      have hhead := head?_dropWhile_not (· != '\n') blanks.reverse
      rw [hrest] at hhead
      simpa using hhead
    rw [hrest] at hsplit
    have hback :
        blanks = e.reverse ++ '\n' :: (blanks.reverse.takeWhile (· != '\n')).reverse := by
      have hreverse := congrArg reverse hsplit
      simpa using hreverse.symm
    refine ⟨e.reverse, (blanks.reverse.takeWhile (· != '\n')).reverse ++ s.dropWhile isSpace,
      ?_, ?_⟩
    · conv_lhs =>
        rw [← takeWhile_append_dropWhile (p := isSpace) (l := s), ← hblanks, hback]
      simp
    · have hlength := congrArg length hback
      simp only [length_append, length_reverse, length_cons] at hlength ⊢
      omega

theorem keeps_findEmptyLine : Keeps findEmptyLine := by
  intro before rest t n h
  unfold findEmptyLine at h
  split at h
  next r =>
    simp only at h
    split at h
    next k hk =>
      obtain ⟨m, hblank, hfound⟩ := Option.map_eq_some_iff.mp h
      obtain ⟨rfl, rfl⟩ := Prod.mk.inj hfound
      obtain ⟨a, b, hab, rfl⟩ := break_of_blankLines hblank
      have hlength : (r.take k).length = k := by
        unfold tagLength at hk
        simp only [Option.ite_none_right_eq_some, Option.some.injEq] at hk
        have hline := (List.takeWhile_prefix (· != '\n') (l := r)).length_le
        rw [length_take]
        omega
      refine ⟨'\n' :: ((r.take k ++ a) ++ ['\n']), b, ?_, by simp, ?_, fun {p q} hq => ?_⟩
      · conv_lhs => rw [← take_append_drop k r, hab]
        simp
      · simp only [length_cons, length_append, hlength, length_nil]
        omega
      · obtain rfl := Spot.eq_text_of_after_cons (by decide) (by decide) hq
        obtain rfl := Spot.eq_start_of_after_snoc (x := '\n' :: (r.take k ++ a)) hq
        rfl
    next => cases h
  next => cases h

/-- A loaded source is a numbered text. -/
theorem reads_load {source : Text} (h : mark ∉ source) (first : Nat) (file : Text) :
    Spot.after (load first (some file) source).code .start = some .text := by
  have hlines := keeps_findEmptyLine.substitute (after_tagLines h first)
  have hcomments := keeps_findLineComment.substitute
    (keeps_findBlockComment.substitute (keeps_findLiteral.substitute hlines))
  have hbraces := keeps_findBlockBrace.substitute
    (keeps_findBrace.substitute (keeps_reveal.substitute hcomments))
  have hnames := keeps_findName.substitute hbraces
  simp only [load, prepare, Colour.expandNames, spaceBraces, reveal, dropComments, hideStrings,
    dropEmptyLines]
  exact hnames

end SheetPress.Source
