import SheetPress.Proofs.Source.Loading

/-!
# Words

Words of lower case letters, and the lines and heads that are made of them.  Loading would turn
the name of a colour into digits, so that a word is either no such name or stands behind a
point, as the name of a class.
-/

set_option autoImplicit false

namespace SheetPress.Source

open List Text
open Outline (Calm isEven isCalm interpolation)

variable {c : Char} {w : Text} {k : Int}

/-- A word of lower case letters. -/
structure Word where
  text : Text
  ne_nil : text ≠ []
  lower : ∀ c ∈ text, c.isLower = true

/-- A word that is not the name of a colour. -/
structure PlainWord extends Word where
  colourless : Colour.digits? text = none

namespace Word

variable {w : Word} {c : Char}

theorem ne_of_mem {d : Char} (hc : c ∈ w.text) (hd : d.isLower = false) : c ≠ d := by
  rintro rfl
  have := w.lower c hc
  rw [hd] at this
  exact Bool.noConfusion this

theorem notMem (w : Word) {d : Char} (hd : d.isLower = false) : d ∉ w.text :=
  fun hm => ne_of_mem hm hd rfl

theorem isName_of_mem (hc : c ∈ w.text) : isName c = true := by
  have hlower := w.lower c hc
  simp [isName, isWord, Char.isAlphanum, Char.isAlpha, hlower]

theorem isSpace_of_mem (hc : c ∈ w.text) : isSpace c = false :=
  isSpace_of_isLower (w.lower c hc)

theorem tight (w : Word) : Text.Tight w.text :=
  tight_of_all fun _ hc => isSpace_of_mem hc

end Word

/-! ## Texts without names of colours -/

/-- No name of a colour stands in the text. -/
def Nameless (t : Text) : Prop := ∀ a b, t = a ++ b → Colour.findName a.reverse b = none

theorem nameless_nil : Nameless [] := by
  intro a b hab
  simp only [nil_eq_append_iff] at hab
  exact findName_of_head (by simp [hab.2])

theorem Nameless.cons {t : Text} (ht : Nameless t) (hc : isName c = false) :
    Nameless (c :: t) := by
  intro a b hab
  cases a with
  | nil =>
    rw [nil_append] at hab
    subst hab
    exact findName_of_head (by simpa using hc)
  | cons d a =>
    rw [cons_append, List.cons.injEq] at hab
    have hend := findName_append [d] [] (ht a b hab.2) (by simp)
    simpa using hend

theorem Nameless.append {x y : Text} (hx : Nameless x) (hy : Nameless y)
    (hhead : ∀ c ∈ y.head?, isName c = false) : Nameless (x ++ y) := by
  intro a b hab
  rcases append_eq_append_iff.mp hab with ⟨z, hz, hy'⟩ | ⟨z, hz, hb⟩
  · -- The point is in the second part.
    have hend := findName_append x.reverse [] (hy z b hy') (by simp)
    simpa [hz] using hend
  · rw [hb]
    have hend := findName_append [] y (hx a z hz) hhead
    simpa using hend

/-- A name that is preceded by a character of a name or by a point is hidden. -/
theorem findName_of_isPart (a b : Text) (h : Colour.isPart c = true) :
    Colour.findName (c :: a) b = none := by
  simp [Colour.findName, h]

theorem nameless_of_digits? (hname : ∀ c ∈ w, isName c = true)
    (h : Colour.digits? w = none) : Nameless w := by
  intro a b hab
  cases ha : a.reverse with
  | nil =>
    rw [reverse_eq_nil_iff] at ha
    subst ha
    rw [nil_append] at hab
    subst hab
    exact findName_of_digits? (by rwa [takeWhile_eq_self_iff.mpr hname])
  | cons d a' =>
    refine findName_of_isPart a' b ?_
    have hd : d ∈ a := by
      rw [← mem_reverse, ha]
      simp
    simp [Colour.isPart, hname d (by simp [hab, hd])]

theorem nameless_point (hname : ∀ c ∈ w, isName c = true) :
    Nameless ('.' :: w) := by
  intro a b hab
  cases ha : a.reverse with
  | nil =>
    rw [reverse_eq_nil_iff] at ha
    subst ha
    rw [nil_append] at hab
    subst hab
    exact findName_of_head (by simp; decide)
  | cons d a' =>
    refine findName_of_isPart a' b ?_
    have hd : d ∈ '.' :: w := by
      rw [hab, mem_append, ← mem_reverse, ha]
      simp
    rcases mem_cons.mp hd with rfl | hd
    · decide
    · simp [Colour.isPart, hname d hd]

theorem PlainWord.nameless (w : PlainWord) : Nameless w.text :=
  nameless_of_digits? (fun _ hc => Word.isName_of_mem hc) w.colourless

theorem Word.nameless_class (w : Word) : Nameless ('.' :: w.text) :=
  nameless_point fun _ hc => isName_of_mem hc

/-! ## Lines and heads -/

theorem lower_of_mem_keywords (hw : w ∈ keywords) :
    w ≠ [] ∧ ∀ c ∈ w, c.isLower = true := by
  have hall : (keywords.all fun w => !w.isEmpty && w.all Char.isLower) = true := by decide
  simpa using all_eq_true.mp hall w hw

/-- A keyword. -/
def keyword (w : Text) (hw : w ∈ keywords) : PlainWord where
  text := w
  ne_nil := (lower_of_mem_keywords hw).1
  lower := (lower_of_mem_keywords hw).2
  colourless := digits?_of_mem_keywords hw

def mediaWord : PlainWord := keyword "media".toList (by decide)

def mixinWord : PlainWord := keyword "mixin".toList (by decide)

def includeWord : PlainWord := keyword "include".toList (by decide)

def importWord : PlainWord := keyword "import".toList (by decide)

def forWord : PlainWord := keyword "for".toList (by decide)

def fromWord : PlainWord := keyword "from".toList (by decide)

def throughWord : PlainWord := keyword "through".toList (by decide)

def counterWord : PlainWord := keyword "i".toList (by decide)

/-- The line of a declaration. -/
def declaration (name value : Word) : Text := name.text ++ ':' :: ' ' :: value.text

/-- The head of a group of properties. -/
def groupHead (name : Word) : Text := name.text ++ [':']

/-- The head of the rule of a class. -/
def classHead (name : Word) : Text := '.' :: name.text

/-- A directive with what stands behind it. -/
def directive (kind : Word) (argument : Text) : Text := '@' :: (kind.text ++ ' ' :: argument)

/-- The variable that a loop counts with. -/
def counterName : Text := '$' :: counterWord.text

/-- The bounds of a loop, with blanks before them and between them. -/
def loopRange (first last : Int) : Text :=
  ' ' :: (ofInt first ++ ' ' :: (throughWord.text ++ ' ' :: ofInt last))

/-- The head of a loop. -/
def loopHead (first last : Int) : Text :=
  directive forWord.toWord (counterName ++ ' ' :: (fromWord.text ++ loopRange first last))

/-- The head of the rule of a class whose name ends with the counter. -/
def numberedHead (name : Word) : Text := classHead name ++ interpolation counterName

/-- The head of the rule of a class whose name ends with a number. -/
def labelHead (name : Word) (k : Int) : Text := classHead name ++ ofInt k

theorem Word.isCalm_of_mem {w : Word} (hc : c ∈ w.text) : isCalm c = true := by
  simp [isCalm, isName_of_mem hc]

theorem calm_word (w : PlainWord) : Calm w.text where
  ne_nil := w.ne_nil
  tight := w.tight
  chars := fun _ hc => Word.isCalm_of_mem hc
  colourless := w.nameless

theorem calm_declaration (name value : PlainWord) :
    Calm (declaration name.toWord value.toWord) where
  ne_nil := by simp [declaration]
  tight := Text.Tight.append [':', ' '] name.tight value.tight name.ne_nil value.ne_nil
  chars := by
    intro c hc
    simp only [declaration, mem_append, mem_cons] at hc
    rcases hc with h | rfl | rfl | h
    · exact Word.isCalm_of_mem h
    · decide
    · decide
    · exact Word.isCalm_of_mem h
  colourless := by
    have htail : Nameless (':' :: ' ' :: value.text) :=
      (value.nameless.cons (by decide)).cons (by decide)
    exact name.nameless.append htail (by simp; decide)

theorem calm_groupHead (name : PlainWord) : Calm (groupHead name.toWord) where
  ne_nil := by simp [groupHead]
  tight := tight_of_all fun c hc => by
    rcases mem_append.mp hc with h | h
    · exact Word.isSpace_of_mem h
    · rw [mem_singleton.mp h]
      decide
  chars := by
    intro c hc
    rcases mem_append.mp hc with h | h
    · exact Word.isCalm_of_mem h
    · rw [mem_singleton.mp h]
      decide
  colourless := by
    have htail : Nameless [':'] := nameless_nil.cons (by decide)
    exact name.nameless.append htail (by simp; decide)

theorem calm_classHead (name : Word) : Calm (classHead name) where
  ne_nil := by simp [classHead]
  tight := tight_of_all fun c hc => by
    rcases mem_cons.mp hc with rfl | h
    · decide
    · exact Word.isSpace_of_mem h
  chars := by
    intro c hc
    rcases mem_cons.mp hc with rfl | h
    · decide
    · exact Word.isCalm_of_mem h
  colourless := name.nameless_class

theorem calm_directive (kind : PlainWord) {argument : Text} (h : Calm argument) :
    Calm (directive kind.toWord argument) where
  ne_nil := by simp [directive]
  tight := by
    have hat : Text.Tight ['@'] := tight_of_all (by simp; decide)
    have hall := hat.append (kind.text ++ [' ']) h.tight (by simp) h.ne_nil
    simpa [directive] using hall
  chars := by
    intro c hc
    simp only [directive, mem_append, mem_cons] at hc
    rcases hc with rfl | hc | rfl | hc
    · decide
    · exact Word.isCalm_of_mem hc
    · decide
    · exact h.chars c hc
  colourless := by
    have htail : Nameless (' ' :: argument) := Nameless.cons h.colourless (by decide)
    exact (kind.nameless.append htail (by simp; decide)).cons (by decide)

/-! ## Loops -/

theorem isDigit_or_of_mem_ofInt (hc : c ∈ ofInt k) :
    c.isDigit = true ∨ c = '-' := by
  cases k with
  | ofNat n => exact Or.inl (isDigit_of_mem_ofNat hc)
  | negSucc n =>
    rcases mem_cons.mp hc with rfl | hc
    · exact Or.inr rfl
    · exact Or.inl (isDigit_of_mem_ofNat hc)

theorem ofInt_ne_nil (k : Int) : ofInt k ≠ [] := by
  cases k with
  | ofNat n => exact ofNat_ne_nil n
  | negSucc n => exact cons_ne_nil _ _

/-- The digits and the sign of a number are characters of names, but no letters and no blanks. -/
theorem isName_of_mem_ofInt (hc : c ∈ ofInt k) :
    isName c = true ∧ c.isLower = false ∧ isSpace c = false := by
  rcases isDigit_or_of_mem_ofInt hc with h | rfl
  · refine ⟨?_, isLower_of_isDigit h, isSpace_of_isDigit h⟩
    simp [isName, isWord, Char.isAlphanum, h]
  · decide

theorem isCalm_of_mem_ofInt (hc : c ∈ ofInt k) :
    isCalm c = true := by
  simp [isCalm, (isName_of_mem_ofInt hc).1]

theorem tight_ofInt (k : Int) : Text.Tight (ofInt k) :=
  tight_of_all fun _ hc => (isName_of_mem_ofInt hc).2.2

theorem nameless_ofInt (k : Int) : Nameless (ofInt k) := by
  obtain ⟨c, hc⟩ := exists_mem_of_ne_nil _ (ofInt_ne_nil k)
  exact nameless_of_digits? (fun _ hd => (isName_of_mem_ofInt hd).1)
    (digits?_eq_none hc (isName_of_mem_ofInt hc).2.1)

theorem Nameless.spaced {x y : Text} (hx : Nameless x) (hy : Nameless y) :
    Nameless (x ++ ' ' :: y) :=
  hx.append (hy.cons (by decide)) (by simp; decide)

theorem nameless_counterName : Nameless counterName := counterWord.nameless.cons (by decide)

theorem even_loopHead (first last : Int) : Outline.Even (loopHead first last) where
  ne_nil := by simp [loopHead, directive]
  tight := by
    have hat : Text.Tight ['@'] := tight_of_all (by simp; decide)
    have hall := hat.append (forWord.text ++ ' ' :: (counterName ++ ' ' :: (fromWord.text ++
      ' ' :: (ofInt first ++ ' ' :: (throughWord.text ++ [' ']))))) (tight_ofInt last)
      (by simp) (ofInt_ne_nil last)
    simpa [loopHead, directive, loopRange] using hall
  smooth := by
    refine .plain fun c hc => ?_
    simp only [loopHead, directive, loopRange, counterName, mem_cons, mem_append] at hc
    have hword : ∀ w : PlainWord, c ∈ w.text → isEven c = true := fun w hc => by
      simp [isEven, Word.isCalm_of_mem hc]
    have hnumber : ∀ k : Int, c ∈ ofInt k → isEven c = true := fun k hc => by
      simp [isEven, isCalm_of_mem_ofInt hc]
    rcases hc with rfl | hc | rfl | (rfl | hc) | rfl | hc | rfl | hc | rfl | hc | rfl | hc
    · decide
    · exact hword _ hc
    · decide
    · decide
    · exact hword _ hc
    · decide
    · exact hword _ hc
    · decide
    · exact hnumber _ hc
    · decide
    · exact hword _ hc
    · decide
    · exact hnumber _ hc
  colourless := by
    have hrange := (nameless_ofInt first).spaced (throughWord.nameless.spaced (nameless_ofInt last))
    have hargument := nameless_counterName.spaced (fromWord.nameless.spaced hrange)
    exact (forWord.nameless.spaced hargument).cons (by decide)

theorem even_numberedHead (name : Word) : Outline.Even (numberedHead name) where
  ne_nil := by simp [numberedHead, classHead]
  tight := by
    refine tight_of_all fun c hc => ?_
    simp only [numberedHead, classHead, interpolation, counterName, mem_append,
      mem_cons, not_mem_nil, or_false] at hc
    rcases hc with (rfl | hc) | rfl | rfl | (rfl | hc) | rfl
    · decide
    · exact Word.isSpace_of_mem hc
    · decide
    · decide
    · decide
    · exact Word.isSpace_of_mem (w := counterWord.toWord) hc
    · decide
  smooth := by
    refine .ending (fun c hc => ?_) fun c hc => ?_
    · simp [isEven, (calm_classHead name).chars c hc]
    · rcases mem_cons.mp hc with rfl | hc
      · decide
      · simp [isEven, Word.isCalm_of_mem (w := counterWord.toWord) hc]
  colourless := by
    have hclosing : Nameless (counterName ++ ['}']) :=
      nameless_counterName.append (nameless_nil.cons (by decide)) (by simp; decide)
    have hbraced : Nameless (interpolation counterName) :=
      (hclosing.cons (by decide)).cons (by decide)
    exact name.nameless_class.append hbraced (by simp [interpolation]; decide)

theorem calm_labelHead (name : Word) (k : Int) : Calm (labelHead name k) where
  ne_nil := by simp [labelHead, classHead]
  tight := by
    refine tight_of_all fun c hc => ?_
    simp only [labelHead, classHead, mem_append, mem_cons] at hc
    rcases hc with (rfl | hc) | hc
    · decide
    · exact Word.isSpace_of_mem hc
    · exact (isName_of_mem_ofInt hc).2.2
  chars := by
    intro c hc
    rcases mem_append.mp hc with hc | hc
    · exact (calm_classHead name).chars c hc
    · exact isCalm_of_mem_ofInt hc
  colourless := by
    refine nameless_point fun c hc => ?_
    rcases mem_append.mp hc with hc | hc
    · exact Word.isName_of_mem hc
    · exact (isName_of_mem_ofInt hc).1

end SheetPress.Source
