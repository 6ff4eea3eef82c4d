import SheetPress.Source.Block
import SheetPress.Proofs.Text.Cutting

/-!
# Outlines of code

An outline is code as a tree: lines and blocks, each block with an outline of its own.  It is
written on one line with single blanks, and loading changes that text in one place only: a head
that ends with a colon loses the blank before its brace.

The main statement is `items_code`: searching the written outline for items finds the lines and
blocks of the outline, and the code of each block is the written outline of that block.
-/

set_option autoImplicit false

namespace SheetPress.Source

open List Text

/-- Lines and blocks one after the other. -/
inductive Outline where
  | nil
  /-- A line, without its semicolon. -/
  | line (text : Text) (rest : Outline)
  /-- A head with a block. -/
  | block (head : Text) (body rest : Outline)

namespace Outline

variable {c d : Char} {t : Text} {o : Outline}

/-- The words of an outline, braces included. -/
def words : Outline → List Text
  | .nil => []
  | .line t rest => (t ++ [';']) :: rest.words
  | .block h body rest => h :: ['{'] :: (body.words ++ ['}'] :: rest.words)

/-- The outline on one line with single blanks. -/
def source (o : Outline) : Text := joinWith [' '] o.words

/-- The outline written with `lead` before the first line or head, a blank before every other
one, and the given gap between a head and its brace. -/
def write (gap : Text → Text) : (lead : Text) → Outline → Text
  | _, .nil => []
  | lead, .line t rest => lead ++ (t ++ ';' :: write gap [' '] rest)
  | lead, .block h body rest =>
    lead ++ (h ++ (gap h ++ '{' :: (write gap [' '] body ++ ' ' :: '}' :: write gap [' '] rest)))

/-- What loading leaves between a head and its brace. -/
def gapOf (head : Text) : Text := if head.getLast? = some ':' then [] else [' ']

/-- The outline as code that has been loaded. -/
def code (o : Outline) : Text := o.write gapOf []

/-- The items of an outline that stands on one line. -/
def items (line : Int) : Outline → List Item
  | .nil => []
  | .line t rest => ⟨line, t, none⟩ :: rest.items line
  | .block h body rest => ⟨line, h, some body.code⟩ :: rest.items line

/-- How many lines and blocks there are, at all depths. -/
def size : Outline → Nat
  | .nil => 0
  | .line _ rest => rest.size + 1
  | .block _ body rest => body.size + rest.size + 1

/-! ## Calm texts -/

/-- Characters that mean nothing to the search for items and to comments. -/
def isCalm (c : Char) : Bool :=
  isName c || c == ' ' || c == '.' || c == ':' || c == '@' || c == '&' || c == ','

theorem ne_of_isCalm (hc : isCalm c = true) (hd : isCalm d = false) : c ≠ d := by
  rintro rfl
  rw [hc] at hd
  exact Bool.noConfusion hd

/-- A line or a head that is left as it is, on its way into an item. -/
structure Calm (t : Text) : Prop where
  ne_nil : t ≠ []
  tight : Text.Tight t
  chars : ∀ c ∈ t, isCalm c = true
  /-- No name of a colour stands in it. -/
  colourless : ∀ a b, t = a ++ b → Colour.findName a.reverse b = none

theorem Calm.notMem (h : Calm t) (hd : isCalm d = false) : d ∉ t :=
  fun hm => ne_of_isCalm (h.chars d hm) hd rfl

/-- All lines and heads are calm. -/
def AllCalm : Outline → Prop
  | .nil => True
  | .line t rest => Calm t ∧ rest.AllCalm
  | .block h body rest => Calm h ∧ body.AllCalm ∧ rest.AllCalm

/-! ## Even texts -/

/-- Calm characters, and the sign of variables. -/
def isEven (c : Char) : Bool := isCalm c || c == '$'

theorem ne_of_isEven (hc : isEven c = true) (hd : isEven d = false) : c ≠ d := by
  rintro rfl
  rw [hc] at hd
  exact Bool.noConfusion hd

/-- An expression whose value takes the place of the whole text. -/
def interpolation (expression : Text) : Text := '#' :: '{' :: (expression ++ ['}'])

theorem getLast?_interpolation (t e : Text) : (t ++ interpolation e).getLast? = some '}' := by
  rw [interpolation, ← cons_append, ← cons_append, ← append_assoc,
    List.getLast?_concat]

/-- Even characters, and perhaps an interpolation behind them. -/
inductive Smooth : Text → Prop where
  | plain {t : Text} (h : ∀ c ∈ t, isEven c = true) : Smooth t
  | ending {t e : Text} (h : ∀ c ∈ t, isEven c = true) (he : ∀ c ∈ e, isEven c = true) :
      Smooth (t ++ interpolation e)

/-- A line or a head that is found again in an item as it was written. -/
structure Even (t : Text) : Prop where
  ne_nil : t ≠ []
  tight : Text.Tight t
  smooth : Smooth t
  /-- No name of a colour stands in it. -/
  colourless : ∀ a b, t = a ++ b → Colour.findName a.reverse b = none

theorem Calm.even (h : Calm t) : Even t :=
  ⟨h.ne_nil, h.tight, .plain fun c hc => by simp [isEven, h.chars c hc], h.colourless⟩

theorem Smooth.mem (h : Smooth t) (hc : c ∈ t) :
    isEven c = true ∨ c ∈ ['#', '{', '}'] := by
  cases h with
  | plain h => exact .inl (h c hc)
  | ending h he =>
    simp only [interpolation, mem_append, mem_cons, not_mem_nil, or_false] at hc ⊢
    rcases hc with hc | hc | hc | hc | hc
    · exact .inl (h c hc)
    · exact .inr (.inl hc)
    · exact .inr (.inr (.inl hc))
    · exact .inl (he c hc)
    · exact .inr (.inr (.inr hc))

theorem Even.notMem (h : Even t) (hd : isEven d = false)
    (hsign : d ∉ ['#', '{', '}']) : d ∉ t := by
  intro hm
  rcases h.smooth.mem hm with hc | hc
  · exact ne_of_isEven hc hd rfl
  · exact hsign hc

/-- All lines and heads are even. -/
def AllEven : Outline → Prop
  | .nil => True
  | .line t rest => Even t ∧ rest.AllEven
  | .block h body rest => Even h ∧ body.AllEven ∧ rest.AllEven

theorem AllCalm.even (h : o.AllCalm) : o.AllEven := by
  induction o with
  | nil => trivial
  | line t rest ih => exact ⟨h.1.even, ih h.2⟩
  | block t body rest ihb ihr => exact ⟨h.1.even, ihb h.2.1, ihr h.2.2⟩

/-! ## Written outlines -/

/-- Words with a blank before each of them. -/
def spread (ws : List Text) : Text := ws.flatMap (' ' :: ·)

theorem joinWith_cons (w : Text) (ws : List Text) :
    joinWith [' '] (w :: ws) = w ++ spread ws := by
  induction ws generalizing w with
  | nil => simp [joinWith, spread]
  | cons v ws ih =>
    have htail := ih v
    simp only [joinWith] at htail ⊢
    rw [intercalate_cons_cons, htail]
    simp [spread]

theorem write_space (o : Outline) : o.write (fun _ => [' ']) [' '] = spread o.words := by
  induction o with
  | nil => rfl
  | line t rest ih => simp [write, words, spread, ih]
  | block h body rest ihb ihr => simp [write, words, spread, ihb, ihr]

theorem source_eq (o : Outline) : o.source = o.write (fun _ => [' ']) [] := by
  cases o with
  | nil => rfl
  | line t rest => simp [source, words, write, joinWith_cons, write_space]
  | block h body rest => simp [source, words, write, joinWith_cons, write_space, spread]

theorem write_lead (gap : Text → Text) (lead : Text) (h : o ≠ .nil) :
    o.write gap lead = lead ++ o.write gap [] := by
  cases o with
  | nil => exact absurd rfl h
  | line t rest => simp [write]
  | block h body rest => simp [write]

theorem size_le_length (gap : Text → Text) (o : Outline) :
    ∀ lead : Text, o.size ≤ (o.write gap lead).length := by
  induction o with
  | nil => intro lead; exact Nat.zero_le _
  | line t rest ih =>
    intro lead
    have := ih [' ']
    simp only [size, write, length_append, length_cons]
    omega
  | block h body rest ihb ihr =>
    intro lead
    have hb := ihb [' ']
    have hr := ihr [' ']
    simp only [size, write, length_append, length_cons]
    omega

theorem write_eq_snoc (gap : Text → Text) (o : Outline) :
    ∀ lead : Text, o ≠ .nil → ∃ x c, o.write gap lead = x ++ [c] ∧ (c = ';' ∨ c = '}') := by
  induction o with
  | nil => intro lead hne; exact absurd rfl hne
  | line t rest ih =>
    intro lead _
    by_cases hrest : rest = .nil
    · subst hrest
      exact ⟨lead ++ t, ';', by simp [write], Or.inl rfl⟩
    · obtain ⟨x, c, hx, hc⟩ := ih [' '] hrest
      exact ⟨lead ++ (t ++ ';' :: x), c, by simp [write, hx], hc⟩
  | block h body rest _ ih =>
    intro lead _
    by_cases hrest : rest = .nil
    · subst hrest
      exact ⟨lead ++ (h ++ (gap h ++ '{' :: (write gap [' '] body ++ [' ']))), '}',
        by simp [write], Or.inr rfl⟩
    · obtain ⟨x, c, hx, hc⟩ := ih [' '] hrest
      exact ⟨lead ++ (h ++ (gap h ++ '{' :: (write gap [' '] body ++ ' ' :: '}' :: x))), c,
        by simp [write, hx], hc⟩

/-- Loaded code starts like its first line or head and ends with a semicolon or a brace. -/
theorem tight_code (h : o.AllEven) : Text.Tight o.code := by
  constructor
  · intro c hc
    cases o with
    | nil => simp [code, write] at hc
    | line t rest =>
      refine h.1.tight.head c ?_
      simpa [code, write, List.head?_append_of_ne_nil _ h.1.ne_nil] using hc
    | block t body rest =>
      refine h.1.tight.head c ?_
      simpa [code, write, List.head?_append_of_ne_nil _ h.1.ne_nil] using hc
  · intro c hc
    by_cases hnil : o = .nil
    · subst hnil
      simp [code, write] at hc
    · obtain ⟨x, d, hx, hd⟩ := write_eq_snoc gapOf o [] hnil
      have hcd : d = c := by simpa [code, hx] using hc
      subst hcd
      rcases hd with rfl | rfl <;> decide

/-- Nothing is written but lines, heads, blanks, semicolons and braces. -/
theorem notMem_write (hd : isCalm d = false) (hsign : d ∉ [';', '{', '}'])
    (h : o.AllCalm) : ∀ lead : Text, d ∉ lead → d ∉ o.write gapOf lead := by
  have hblank : d ∉ [' '] := by
    rintro hm
    rw [mem_singleton.mp hm] at hd
    exact absurd hd (by decide)
  have hgap : ∀ t, d ∉ gapOf t := by
    intro t
    unfold gapOf
    split
    · simp
    · exact hblank
  simp only [mem_cons, not_mem_nil, or_false, not_or] at hsign
  induction o with
  | nil => intro lead _; simp [write]
  | line t rest ih =>
    intro lead hlead
    have ht := h.1.notMem hd
    have hrest := ih h.2 [' '] hblank
    simp [write, hlead, ht, hrest, hsign]
  | block t body rest ihb ihr =>
    intro lead hlead
    have ht := h.1.notMem hd
    have hbody := ihb h.2.1 [' '] hblank
    have hrest := ihr h.2.2 [' '] hblank
    have hblank' : d ≠ ' ' := by simpa using hblank
    simp [write, hlead, ht, hgap t, hbody, hrest, hsign, hblank']

theorem trim_body (h : o.AllEven) :
    trim (o.write gapOf [' '] ++ [' ']) = o.code := by
  by_cases hnil : o = .nil
  · subst hnil
    rfl
  · rw [write_lead gapOf [' '] hnil, append_assoc]
    exact trim_pad (by simp; decide) (by simp; decide) (tight_code h)

end Outline

end SheetPress.Source
