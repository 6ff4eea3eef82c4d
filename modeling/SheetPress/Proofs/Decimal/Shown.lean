import SheetPress.Decimal.Fixed
import SheetPress.Proofs.Decimal.Exact
import SheetPress.Proofs.Source.Loading

/-!
# Whole numbers in digits

A quotient of whole numbers that comes out even is exact, on whichever way the two became doubles
(`div_even`).  So a whole number of at most 53 bits passes through the rounding to three places
unchanged, and a stylesheet shows its digits and nothing else (`shown_whole`).
-/

set_option autoImplicit false

namespace SheetPress.Decimal

open List
open Float.Model (Format totalExponent UnpackedFloat)
open Float.Model.UnpackedFloat

/-! ## Even quotients -/

section Quotient

variable {n k : Nat}

/-- The bits of a product are those of its factors, or one less. -/
theorem log2_mul_bounds (hn : 0 < n) (hk : 0 < k) :
    n.log2 + k.log2 ≤ (n * k).log2 ∧ (n * k).log2 ≤ n.log2 + k.log2 + 1 := by
  have hpos : n * k ≠ 0 := by positivity
  have hlow : 2 ^ (n.log2 + k.log2) ≤ n * k := by
    rw [Nat.pow_add]
    exact Nat.mul_le_mul (Nat.log2_self_le (by omega)) (Nat.log2_self_le (by omega))
  have hhigh : n * k < 2 ^ (n.log2 + k.log2 + 2) := by
    have hsum : n.log2 + k.log2 + 2 = (n.log2 + 1) + (k.log2 + 1) := by omega
    rw [hsum, Nat.pow_add]
    exact Nat.mul_lt_mul'' Nat.lt_log2_self Nat.lt_log2_self
  have hle := (Nat.le_log2 hpos).mpr hlow
  have hlt := (Nat.log2_lt hpos).mpr hhigh
  omega

/-- A quotient that comes out even is exact, however many zeros its parts carry. -/
theorem div_even (hn : 0 < n) (hlt : n < 2 ^ 53) (hk : 0 < k) {a b : Nat}
    {hleft : 0 < n * k * 2 ^ a} {hright : 0 < k * 2 ^ b} :
    UnpackedFloat.div .binary64 (.finite .positive (n * k * 2 ^ a) (-a) hleft)
        (.finite .positive (k * 2 ^ b) (-b) hright) =
      .finite .positive (wholeMantissa n) (wholeExponent n) (wholeMantissa_pos hn) := by
  have hlog : n.log2 < 53 := (Nat.log2_lt (by omega)).mpr hlt
  obtain ⟨hlow, hhigh⟩ := log2_mul_bounds hn hk
  have hmin : Format.binary64.minExponent = -1074 := by decide
  have hbits : (Format.binary64.mantissaBits : Int) = 53 := by decide
  have htotal : Format.binary64.targetExponent
      (totalExponent (n * k * 2 ^ a) (-a) - totalExponent (k * 2 ^ b) (-b)) =
        ((n * k).log2 : Int) - k.log2 - 53 := by
    rw [Format.targetExponent, totalExponent, totalExponent, hmin, hbits,
      log2_mul_two_pow (by positivity), log2_mul_two_pow (by omega)]
    push_cast
    omega
  -- The exponent that the quotient is computed with, and the zeros of the quotient behind `n`.
  obtain ⟨t, ht⟩ : ∃ t : Int,
      min (-(a : Int) - -(b : Int)) (((n * k).log2 : Int) - k.log2 - 53) = t := ⟨_, rfl⟩
  have hzeros : a + (-(a : Int) - -(b : Int) - t).toNat = (-t).toNat + b := by omega
  have hdividend : (n * k * 2 ^ a) <<< (-(a : Int) - -(b : Int) - t).toNat =
      n * 2 ^ (-t).toNat * (k * 2 ^ b) := by
    rw [Nat.shiftLeft_eq, Nat.mul_assoc, ← Nat.pow_add, hzeros, Nat.pow_add]
    ring
  have hshift : (-t).toNat = (52 - n.log2) + ((-t).toNat - (52 - n.log2)) := by omega
  have hcore : divCore .binary64 (n * k * 2 ^ a) (-a) (k * 2 ^ b) (-b) =
      (wholeMantissa n * 2 ^ ((-t).toNat - (52 - n.log2)),
        wholeExponent n - ((-t).toNat - (52 - n.log2) : Nat), .exact) := by
    rw [divCore]
    simp only [htotal, ht, hdividend]
    rw [Nat.mul_div_cancel _ hright, Nat.mul_mod_left]
    refine Prod.ext ?_ (Prod.ext ?_ rfl)
    · show n * 2 ^ (-t).toNat = _
      rw [wholeMantissa, Nat.mul_assoc, ← Nat.pow_add, ← hshift]
    · show t = wholeExponent n - ((-t).toNat - (52 - n.log2) : Nat)
      rw [wholeExponent]
      omega
  simp only [UnpackedFloat.div, hcore]
  exact roundWithAccuracy_zeros (inForm_whole hn hlt) (wholeMantissa_pos hn) _ _

end Quotient

/-! ## Rounding to places -/

section Whole

variable {n : Nat}

theorem unpack_whole (hn : 0 < n) (hlt : n < 2 ^ 53) :
    (Float.ofScientific n false 0).toModel.unpack =
      .finite .positive (wholeMantissa n) (wholeExponent n) (wholeMantissa_pos hn) := by
  rw [ofScientific_whole hn hlt]
  exact unpack_pack _ _ (inForm_whole hn hlt) (full_whole hn hlt)

theorem whole_div_one (hn : 0 < n) (hlt : n < 2 ^ 53) :
    Float.ofScientific n false 0 / 1.0 = Float.ofScientific n false 0 := by
  have hone : (1.0 : Float).toModel.unpack =
      .finite .positive (1 * 2 ^ 52) (-(52 : Nat)) (by decide) := rfl
  have heven := @div_even n 1 hn hlt (by decide) (52 - n.log2) 52 (by positivity) (by decide)
  simp only [Nat.mul_one, wholeExponent_eq hn hlt] at heven
  change Float.ofModel (.pack (UnpackedFloat.div .binary64
    (Float.ofScientific n false 0).toModel.unpack (1.0 : Float).toModel.unpack)) = _
  rw [unpack_whole hn hlt, hone, ofScientific_whole hn hlt]
  simp only [wholeExponent_eq hn hlt]
  exact congrArg (fun u => Float.ofModel (.pack u)) heven

theorem ofScientific_thousandths (hn : 0 < n) (hlt : n < 2 ^ 53) :
    Float.ofScientific (n * 1000) true 3 = Float.ofScientific n false 0 := by
  have hpos : 0 < n * 1000 := by omega
  rw [ofScientific_whole hn hlt]
  by_cases hfast : n * 1000 < 2 ^ 53
  · have hthousand : (Float.ofBits 0x408F400000000000).toModel.unpack =
        .finite .positive (1000 * 2 ^ 43) (-(43 : Nat)) (by decide) := rfl
    have hword : (n * 1000).toUInt64.toNat = n * 1000 := by
      rw [Nat.toUInt64, UInt64.toNat_ofNat']
      omega
    rw [Float.ofScientific, dif_pos ⟨hfast, by decide⟩]
    change Float.ofModel (.pack (UnpackedFloat.div .binary64
      (UnpackedFloat.unpack .binary64 (UnpackedFloat.pack .binary64
        (UnpackedFloat.ofNat .binary64 (n * 1000).toUInt64.toNat)))
      (Float.ofBits 0x408F400000000000).toModel.unpack)) = _
    rw [hword, hthousand, ofNat_whole hpos hfast,
      unpack_pack _ _ (inForm_whole hpos hfast) (full_whole hpos hfast)]
    simp only [wholeExponent_eq hpos hfast]
    exact congrArg (fun u => Float.ofModel (.pack u)) (div_even hn hlt (by decide))
  · have hexponent :
        ¬ (-3 : Int) < -((2 ^ Format.binary64.exponentBits : Int) + (n * 1000).log2) := by
      have hbits : (2 ^ Format.binary64.exponentBits : Int) = 2048 := by decide
      omega
    have heven := @div_even n 1000 hn hlt (by decide) 0 0 (by omega) (by decide)
    simp only [Nat.pow_zero, Nat.mul_one, Nat.cast_zero, Int.neg_zero] at heven
    rw [Float.ofScientific, dif_neg (fun h => hfast h.1)]
    change Float.ofModel (.pack (UnpackedFloat.ofScientific .binary64 (n * 1000) (-3))) = _
    rw [UnpackedFloat.ofScientific, dif_neg hpos.ne', if_neg (by decide), if_neg hexponent,
      if_neg (by decide)]
    exact congrArg (fun u => Float.ofModel (.pack u)) heven

theorem roundDiv_even (tie : Tie) {d : Nat} (hd : 0 < d) : roundDiv tie (n * d) d = n := by
  simp [roundDiv, Nat.mul_div_cancel n hd, hd]

theorem ofFloat_whole (hn : 0 < n) (hlt : n < 2 ^ 53) :
    Binary.ofFloat (Float.ofScientific n false 0) =
      .finite false (wholeMantissa n) (wholeExponent n) := by
  rw [ofScientific_whole hn hlt, ofFloat_pack _ _ (inForm_whole hn hlt) (full_whole hn hlt)]
  rfl

theorem roundTo_whole (hn : 0 < n) (hlt : n < 2 ^ 53) :
    roundTo 3 (Float.ofScientific n false 0) = Float.ofScientific n false 0 := by
  obtain ⟨d, hd, hfraction⟩ := fraction_whole hn hlt
  have hthousand : n * d * Nat.pow 10 3 = n * 1000 * d := by
    show n * d * 1000 = _
    ring
  rw [roundTo, ofFloat_whole hn hlt]
  simp only [hfraction, hthousand, roundDiv_even _ hd, ofScientific_thousandths hn hlt]
  rfl

theorem ofNat_mul_ten (hn : 0 < n) : Text.ofNat (n * 10) = Text.ofNat n ++ ['0'] := by
  have h := Nat.toDigits_append_toDigits (b := 10) (n := n) (d := 0) (by decide) hn (by decide)
  rw [Nat.toDigits_zero, Nat.add_zero, Nat.mul_comm] at h
  exact h.symm

theorem places_whole (hn : 0 < n) (hlt : n < 2 ^ 53) :
    places 3 (Float.ofScientific n false 0) = Text.ofNat n ++ ".000".toList := by
  obtain ⟨d, hd, hfraction⟩ := fraction_whole hn hlt
  have hthousand : n * d * Nat.pow 10 3 = n * 1000 * d := by
    show n * d * 1000 = _
    ring
  have hdigits : Text.ofNat (n * 1000) = Text.ofNat n ++ "000".toList := by
    have hsplit : n * 1000 = n * 10 * 10 * 10 := by ring
    rw [hsplit, ofNat_mul_ten (by omega), ofNat_mul_ten (by omega), ofNat_mul_ten hn]
    simp
  have hpad : Text.padLeft (3 + 1) '0' (Text.ofNat (n * 1000)) = Text.ofNat n ++ "000".toList := by
    have hlength : 0 < (Text.ofNat n).length := length_pos_of_ne_nil (Source.ofNat_ne_nil n)
    have hwide : 3 + 1 - (Text.ofNat n ++ "000".toList).length = 0 := by
      simp
      omega
    rw [hdigits, Text.padLeft, hwide]
    rfl
  rw [places, ofFloat_whole hn hlt]
  simp only [hfraction, hthousand, roundDiv_even _ hd, signed, pointed, hpad]
  simp

theorem shown_whole (hn : 0 < n) (hlt : n < 2 ^ 53) :
    shown (Float.ofScientific n false 0) = Text.ofNat n := by
  have hpoint : ∀ c ∈ (Text.ofNat n).reverse.head?, (c == '.') = false := by
    intro c hc
    have hdigit := Source.isDigit_of_mem_ofNat (mem_reverse.mp (mem_of_mem_head? hc))
    refine beq_eq_false_iff_ne.mpr ?_
    rintro rfl
    exact absurd hdigit (by decide)
  rw [shown, roundTo_whole hn hlt, places_whole hn hlt, trimZeros]
  simp only [Text.dropEndWhile]
  cases hreverse : (Text.ofNat n).reverse with
  | nil => exact absurd (reverse_eq_nil_iff.mp hreverse) (Source.ofNat_ne_nil n)
  | cons c r =>
    have hc := hpoint c (by rw [hreverse]; rfl)
    have hback : (c :: r).reverse = Text.ofNat n := by rw [← hreverse, reverse_reverse]
    simp only [reverse_append, hreverse]
    simp [hc, ← hback]

end Whole

end SheetPress.Decimal
