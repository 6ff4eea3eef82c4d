import SheetPress.Proofs.Expr.Precedence
import SheetPress.Proofs.Source.Loading

/-!
# Numbers behind a sign

A minus sign directly before a number is read as a sign and not as a difference, so that the text
of a negative number is one operand: `parse_negative`.
-/

set_option autoImplicit false

namespace SheetPress

open Text
open Cursor (Lexes)

/-! ## The tokens -/

theorem isLetter_of_isDigit {c : Char} (h : isDigit c = true) : isLetter c = false := by
  have hupper : c.isUpper = false := by
    simp only [isDigit, Char.isDigit, Char.isUpper, Bool.and_eq_true, decide_eq_true_eq,
      decide_eq_false_iff_not] at h ⊢
    have hhigh : c.toNat ≤ 57 := UInt32.le_iff_toNat_le.mp h.2
    intro hletter
    have hlow : 65 ≤ c.toNat := UInt32.le_iff_toNat_le.mp hletter.1
    omega
  simp [isLetter, Char.isAlpha, hupper, Source.isLower_of_isDigit h]

theorem Kind.first_sign {previous : Option Char} {d : Char} (hd : isDigit d = true)
    (rest : Text) : Kind.first previous ('-' :: d :: rest) = some (.sign, 1) := by
  have hspace : isSpace d = false := Source.isSpace_of_isDigit hd
  have hne : d ≠ '_' := by
    rintro rfl
    exact absurd hd (by decide)
  refine first_eq (i := 9) rfl (fun k hk => ?_) ?_
  · cases k <;> first | rfl | exact absurd hk (by decide) | simp [matchAt, minusAt, hspace]
  · simp [matchAt, signAt, isLetter_of_isDigit hd, hne]

namespace Numeral

/-- A whole number. -/
def ofNat (n : Nat) : Numeral where
  whole := Text.ofNat n
  fraction := none
  whole_digits := fun _ hc => Source.isDigit_of_mem_ofNat hc
  fraction_digits := by simp
  some_digit := by simpa using List.length_pos_of_ne_nil (Source.ofNat_ne_nil n)

theorem text_ofNat (n : Nat) : (ofNat n).text = Text.ofNat n := List.append_nil _

end Numeral

/-- The number behind a sign, and the end of the text behind it. -/
theorem meets_number (n : Nat) {tail : Text} (htail : tail = [] ∨ tail = [' ']) {c : Cursor}
    (hrest : c.rest = (Numeral.ofNat n).text ++ tail) :
    ∃ d d', c.Meets .numeral (Numeral.ofNat n).text d ∧ d.Meets .finish [] d' := by
  have hskip : c.skipBlanks = c := by
    have hunblank := (Formula.scans_number (Numeral.ofNat n)).unblank tail
    rw [← hrest] at hunblank
    exact Cursor.skipBlanks_eq hunblank
  have hend : ∀ y ∈ tail.head?, isDigit y = false ∧ y ≠ '.' := by
    rcases htail with rfl | rfl
    · simp
    · simp
      decide
  have hnumber := Cursor.meets_of_first (c := c) (by rw [hskip, hrest])
    (Kind.first_numeral (Numeral.ofNat n) hend)
  rw [hskip, List.take_left] at hnumber
  refine ⟨_, _, hnumber, Cursor.meets_of_first (s := []) ?_ rfl⟩
  rw [Cursor.skipBlanks, Cursor.advance, Cursor.advance, hrest, List.drop_left]
  rcases htail with rfl | rfl <;> rfl

theorem lexes_negative (n : Nat) {tail : Text} (htail : tail = [] ∨ tail = [' ']) :
    ∃ d d', Lexes (Cursor.start (' ' :: '-' :: (Text.ofNat n ++ tail)))
        [(.sign, ['-']), (.numeral, (Numeral.ofNat n).text)] d ∧ d.Meets .finish [] d' := by
  obtain ⟨x, digits, hdigits⟩ := List.exists_cons_of_ne_nil (Source.ofNat_ne_nil n)
  have hx : isDigit x = true := Source.isDigit_of_mem_ofNat (n := n) (by simp [hdigits])
  have hskip : (Cursor.start (' ' :: '-' :: (Text.ofNat n ++ tail))).skipBlanks =
      ⟨1, some ' ', '-' :: (Text.ofNat n ++ tail)⟩ :=
    Cursor.skipBlanks_blank rfl (by rintro y ⟨⟩; decide)
  have hsign := Cursor.meets_of_first (congrArg Cursor.rest hskip)
    (by rw [hdigits]; exact Kind.first_sign hx _)
  rw [hskip] at hsign
  obtain ⟨d, d', hnumber, hfinish⟩ := meets_number n htail
    (c := (⟨1, some ' ', '-' :: (ofNat n ++ tail)⟩ : Cursor).advance 1)
    (by rw [Numeral.text_ofNat]; rfl)
  exact ⟨d, d', .cons hsign (by decide) (.single hnumber (by decide)), hfinish⟩

/-! ## Reading -/

namespace Grammar

variable {loops : Nat} {ts : List (Kind × Text)} {e : Expr}

theorem Parses.negative (h : Parses loops .atom ts e) :
    Parses loops .atom ((.sign, ['-']) :: ts) (.negative e) := by
  intro depth n c d hlexes hend hdepth hloops hn r hr
  obtain ⟨m, rfl⟩ : ∃ m, n = m + 1 := ⟨n - 1, by omega⟩
  obtain ⟨c', (hmeets : c.Meets .sign ['-'] c'), hfinish, hrest⟩ := hlexes.uncons
  have hlt := hmeets.length_lt hfinish
  obtain ⟨r₁, hpeek, hr₁⟩ := hr.peek hmeets (by decide)
  obtain ⟨r₂, htake, hr₂⟩ := hr₁.take hmeets (by decide)
  obtain ⟨r₃, hread, hr₃⟩ :=
    h depth m c' d hrest hend (by omega) (by omega) (by omega) r₂ (hr₂ hfinish _)
  refine ⟨r₃, ?_, hr₃⟩
  rw [tier, signed, show r.peek (some operands) = .ok (.sign, r₁) from hpeek]
  simp only [htake, show signed (listOf loops depth) m r₂ = (e, some r₃) from hread]

end Grammar

/-- A negative number with a blank before it, and perhaps one behind it, is one operand. -/
theorem parse_negative (n : Nat) {tail : Text} (htail : tail = [] ∨ tail = [' ']) :
    Expr.parse (' ' :: '-' :: (Text.ofNat n ++ tail)) =
      .list [(none, .negative (.numeral (Text.ofNat n)))] := by
  obtain ⟨d, d', hlexes, hfinish⟩ := lexes_negative n htail
  obtain ⟨source, hsource⟩ : ∃ t, ' ' :: '-' :: (ofNat n ++ tail) = t := ⟨_, rfl⟩
  rw [hsource] at hlexes ⊢
  have hparses : Grammar.Parses (source.length + 2) .either
      [(.sign, ['-']), (.numeral, (Numeral.ofNat n).text)]
      (.negative (.numeral (Numeral.ofNat n).text)) :=
    (Grammar.parses_number (Numeral.ofNat n)).negative.lower (fun _ => ⟨_, rfl, by decide⟩)
      (Rank.index_le _)
  have hr : (Reader.ofText source).Stands (Cursor.start source) Grammar.items :=
    ⟨rfl, Reader.sound_of_fresh trivial rfl, .of_fresh rfl, fun a ha => by cases ha⟩
  obtain ⟨r', hread, hr'⟩ := Grammar.reading_list hparses ⟨_, rfl, by decide⟩ _ hlexes
    ⟨_, _, _, hfinish, by decide⟩
    (show source.length ≤ source.length + 1 by omega)
    (show source.length < source.length + 2 by omega) _ hr
  obtain ⟨r'', htake, -⟩ := hr'.take hfinish (by decide)
  unfold Expr.parse
  simp only [hread, htake, Numeral.text_ofNat]

end SheetPress
