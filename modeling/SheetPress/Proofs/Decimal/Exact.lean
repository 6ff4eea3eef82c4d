import Mathlib
import SheetPress.Decimal.Binary

/-!
# Whole numbers as doubles

A double that is neither zero nor special has a mantissa and an exponent in one form only, and
rounding keeps a number that is in this form already.  So multiplying by minus one turns the sign
and nothing else (`mul_ofInt_neg_one`), and a whole number of at most 53 bits becomes a double
and comes back as it was (`truncate?_ofInt`).
-/

set_option autoImplicit false

namespace SheetPress.Decimal

variable {m : Nat} {e : Int}

open Float.Model (Format totalExponent UnpackedFloat)
open Float.Model.UnpackedFloat

/-! ## Rounding what is round -/

/-- The form of the mantissa and the exponent of a double: the mantissa is full, or the exponent
is the least one. -/
structure InForm (m : Nat) (e : Int) : Prop where
  upper : m < 2 ^ 53
  low : -1074 ≤ e
  high : e ≤ 971
  full : 2 ^ 52 ≤ m ∨ e = -1074

theorem log2_mul_two_pow (hm : m ≠ 0) (j : Nat) : (m * 2 ^ j).log2 = m.log2 + j := by
  induction j with
  | zero => simp
  | succ j ih =>
    rw [Nat.pow_succ, ← Nat.mul_assoc, Nat.mul_comm, Nat.log2_two_mul (by positivity), ih]
    omega

theorem InForm.targetExponent (h : InForm m e) (hm : 0 < m) :
    Format.binary64.targetExponent (totalExponent m e) = e := by
  have hlog : m.log2 < 53 := (Nat.log2_lt (by omega)).mpr h.upper
  have hmin : Format.binary64.minExponent = -1074 := by decide
  have hbits : (Format.binary64.mantissaBits : Int) = 53 := by decide
  rw [Format.targetExponent, totalExponent, hmin, hbits]
  have hlow := h.low
  rcases h.full with hfull | hleast
  · have : 52 ≤ m.log2 := (Nat.le_log2 (by omega)).mpr hfull
    omega
  · omega

theorem shiftRight_zeros (m j : Nat) :
    (⟨m * 2 ^ j, false, false⟩ : ExtendedMantissa) >>> j = ⟨m, false, false⟩ := by
  change Nat.repeat ExtendedMantissa.shiftRightOne j _ = _
  induction j generalizing m with
  | zero => simp [Nat.repeat]
  | succ j ih =>
    have hassoc : m * 2 ^ (j + 1) = m * 2 * 2 ^ j := by
      rw [Nat.pow_succ, Nat.mul_comm (2 ^ j), Nat.mul_assoc]
    rw [hassoc, Nat.repeat, ih]
    simp [ExtendedMantissa.shiftRightOne]

theorem shiftToTargetExponent_zeros (h : InForm m e) (hm : 0 < m) (j : Nat) :
    shiftToTargetExponent .binary64 (m * 2 ^ j) (e - j) .exact = (⟨m, false, false⟩, e) := by
  have htotal : totalExponent (m * 2 ^ j) (e - j) = totalExponent m e := by
    rw [totalExponent, totalExponent, log2_mul_two_pow (by omega)]
    push_cast
    omega
  have hshift : (e - (e - (j : Int))).toNat = j := by omega
  rw [shiftToTargetExponent, htotal, h.targetExponent hm, shiftToExponent]
  simp only [hshift, ExtendedMantissa.ofMantissaAndAccuracy, shiftRight_zeros, Int.sub_add_cancel]

/-- Rounding drops zeros and nothing else. -/
theorem roundWithAccuracy_zeros (h : InForm m e) (hm : 0 < m) (s : Sign)
    (j : Nat) :
    roundWithAccuracy .binary64 s (m * 2 ^ j) (e - j) .exact = .finite s m e hm := by
  have hagain := shiftToTargetExponent_zeros h hm 0
  simp only [Nat.pow_zero, Nat.mul_one, Nat.cast_zero, Int.sub_zero] at hagain
  have hround : ExtendedMantissa.roundedMantissa ⟨m, false, false⟩ = m := rfl
  rw [roundWithAccuracy, shiftToTargetExponent_zeros h hm]
  simp only [hround, hagain, Nat.ne_of_gt hm, dif_neg, not_false_eq_true]

/-! ## Multiplying by one -/

theorem toNat_implicit {w : Nat} (v : BitVec w) : (1#1 ++ v).toNat = 2 ^ w + v.toNat := by
  rw [BitVec.toNat_append, ← Nat.shiftLeft_add_eq_or_of_lt v.isLt]
  simp [Nat.shiftLeft_eq]

/-- The doubles that are neither zero nor special are in form. -/
theorem inForm_unpack {b : BitVec Format.binary64.numBits} {s : Sign}
    {hm : 0 < m} (h : unpack .binary64 b = .finite s m e hm) : InForm m e := by
  have hbias : ((Format.binary64.exponentBias : Nat) : Int) = 1023 := rfl
  have hexponent := (unpackExponent b).isLt
  have hmantissa := (unpackMantissa b).isLt
  rw [unpack] at h
  split at h
  · split at h <;> cases h
  · rename_i hspecial
    split at h
    · rename_i hzero
      split at h
      · cases h
      · cases h
        have hval : (unpackExponent b).toNat = 0 := by simp [hzero]
        constructor
        · simp only [Format.binary64] at hmantissa ⊢
          omega
        · simp only [hval, hbias]
          decide
        · simp only [hval, hbias]
          decide
        · right
          simp only [hval, hbias]
          decide
    · rename_i hzero
      cases h
      have hne : (unpackExponent b).toNat ≠ 0 := fun h =>
        hzero (BitVec.eq_of_toNat_eq (by simpa using h))
      have hne' : (unpackExponent b).toNat ≠ 2047 := fun h =>
        hspecial (BitVec.eq_of_toNat_eq (by rw [h]; decide))
      simp only [Format.binary64] at hexponent hmantissa
      refine ⟨?_, ?_, ?_, Or.inl ?_⟩
      · rw [toNat_implicit]
        simp only [Format.binary64]
        omega
      · simp only [hbias, Format.binary64]
        omega
      · simp only [hbias, Format.binary64]
        omega
      · rw [toNat_implicit]
        exact Nat.le_add_right _ _

/-- A product with a one of either sign has the sign of both. -/
theorem mul_unpack_one (b : BitVec Format.binary64.numBits) (sign : Sign) :
    UnpackedFloat.mul .binary64 (unpack .binary64 b) (.finite sign (2 ^ 52) (-52) (by decide)) =
      match sign with
      | .positive => unpack .binary64 b
      | .negative => (unpack .binary64 b).neg := by
  cases hu : unpack .binary64 b with
  | infinity s => cases s <;> cases sign <;> rfl
  | notANumber => cases sign <;> rfl
  | zero s => cases s <;> cases sign <;> rfl
  | finite s m e hm =>
    have hround := fun s => roundWithAccuracy_zeros (inForm_unpack hu) hm s 52
    cases s <;> cases sign <;> exact hround _

theorem mul_ofInt_neg_one (x : Float) : x * ofInt (-1) = -x := by
  have hone : (ofInt (-1)).toModel.unpack = .finite .negative (2 ^ 52) (-52) (by decide) := rfl
  change Float.ofModel (.pack (UnpackedFloat.mul .binary64 x.toModel.unpack
    (ofInt (-1)).toModel.unpack)) = Float.ofModel (.pack x.toModel.unpack.neg)
  rw [hone, Float.Model.unpack, mul_unpack_one]

/-! ## The bits of a double -/

section Bits

variable {m : Nat} {e : Int} (s : Sign) (hm : 0 < m)

theorem pack_of_full (h : InForm m e) (hfull : 2 ^ 52 ≤ m) :
    UnpackedFloat.pack .binary64 (.finite s m e hm) =
      packComponents .binary64 s (BitVec.ofNat 11 (e + 1075).toNat) (BitVec.ofNat 52 m) := by
  have hlog : m.log2 = 52 := by
    have hlow : 52 ≤ m.log2 := (Nat.le_log2 (by omega)).mpr hfull
    have hhigh : m.log2 < 53 := (Nat.log2_lt (by omega)).mpr h.upper
    omega
  have hbiased : (e + Format.binary64.exponentBias +
      Format.binary64.mantissaBitsWithoutImplicit).toNat = (e + 1075).toNat := by
    show (e + (1023 : Nat) + (52 : Nat)).toNat = _
    omega
  have hhigh := h.high
  rw [UnpackedFloat.pack]
  simp only [hlog, hbiased]
  rw [if_neg (by omega), if_pos (by decide)]

theorem unpackSign_packComponents (exponent : BitVec 11) (mantissa : BitVec 52) :
    Sign.ofBitVec (unpackSign (packComponents .binary64 s exponent mantissa)) = s := by
  simp only [unpackSign, packComponents, BitVec.extractLsb]
  rw [BitVec.extractLsb'_append_eq_of_le (by omega), BitVec.extractLsb'_append_eq_of_le (by omega)]
  cases s <;> rfl

theorem unpack_pack (h : InForm m e) (hfull : 2 ^ 52 ≤ m) :
    UnpackedFloat.unpack .binary64 (UnpackedFloat.pack .binary64 (.finite s m e hm)) =
      .finite s m e hm := by
  have hlow := h.low
  have hhigh := h.high
  have hupper := h.upper
  have hbias : ((Format.binary64.exponentBias : Nat) : Int) = 1023 := rfl
  have hexponent : (BitVec.ofNat 11 (e + 1075).toNat).toNat = (e + 1075).toNat := by
    rw [BitVec.toNat_ofNat, Nat.mod_eq_of_lt (by omega)]
  have hspecial : BitVec.ofNat 11 (e + 1075).toNat ≠ -1#11 := fun heq => by
    have hval := congrArg BitVec.toNat heq
    rw [hexponent] at hval
    have : (-1#11 : BitVec 11).toNat = 2047 := by decide
    omega
  have hzero : BitVec.ofNat 11 (e + 1075).toNat ≠ 0#11 := fun heq => by
    have hval := congrArg BitVec.toNat heq
    rw [hexponent] at hval
    have : (0#11 : BitVec 11).toNat = 0 := rfl
    omega
  have hmantissa : (1#1 ++ BitVec.ofNat 52 m).toNat = m := by
    rw [toNat_implicit, BitVec.toNat_ofNat]
    omega
  rw [pack_of_full s hm h hfull, UnpackedFloat.unpack]
  simp only [unpackMantissa_packComponents, unpackExponent_packComponents,
    unpackSign_packComponents, if_neg hspecial, if_neg hzero, hexponent, hmantissa, hbias]
  congr 1
  show ((e + 1075).toNat : Int) - (1023 + (52 : Nat)) = e
  omega

/-- The bits of a double give back its mantissa and its exponent. -/
theorem ofFloat_pack (h : InForm m e) (hfull : 2 ^ 52 ≤ m) :
    Binary.ofFloat (Float.ofModel (.pack (.finite s m e hm))) =
      .finite (s == .negative) m e := by
  have hlow := h.low
  have hhigh := h.high
  have hupper := h.upper
  obtain ⟨sign, hsign⟩ : ∃ n, s.toBitVec.toNat = n := ⟨_, rfl⟩
  obtain ⟨field, hfield⟩ : ∃ n, (e + 1075).toNat = n := ⟨_, rfl⟩
  have hone : sign < 2 := hsign ▸ s.toBitVec.isLt
  have hbits : (Float.ofModel (.pack (.finite s m e hm))).toBits.toNat =
      (sign * 2 ^ 11 + field) * 2 ^ 52 + (m - 2 ^ 52) := by
    change (UnpackedFloat.pack .binary64 (.finite s m e hm)).toNat = _
    rw [pack_of_full s hm h hfull, packComponents, BitVec.toNat_append, BitVec.toNat_append,
      ← Nat.shiftLeft_add_eq_or_of_lt (BitVec.isLt _),
      ← Nat.shiftLeft_add_eq_or_of_lt (BitVec.isLt _), Nat.shiftLeft_eq, Nat.shiftLeft_eq,
      BitVec.toNat_ofNat, BitVec.toNat_ofNat, hsign, hfield]
    omega
  obtain ⟨bits, hbits'⟩ : ∃ n, (sign * 2 ^ 11 + field) * 2 ^ 52 + (m - 2 ^ 52) = n := ⟨_, rfl⟩
  have hnegative : bits / Nat.pow 2 63 = sign := by
    show bits / 2 ^ 63 = sign
    omega
  have hexponent : bits / Nat.pow 2 52 % Nat.pow 2 11 = field := by
    show bits / 2 ^ 52 % 2 ^ 11 = field
    omega
  have hmantissa : bits % Nat.pow 2 52 + Nat.pow 2 52 = m := by
    show bits % 2 ^ 52 + 2 ^ 52 = m
    omega
  have hside : (sign == 1) = (s == .negative) := by
    rw [← hsign]
    cases s <;> rfl
  have hspecial : (field == 2047) = false := by
    rw [beq_eq_false_iff_ne]
    omega
  have hleast : (field == 0) = false := by
    rw [beq_eq_false_iff_ne]
    omega
  have hscale : (field : Int) - 1075 = e := by omega
  unfold Binary.ofFloat
  simp only [hbits, hbits', hnegative, hexponent, hmantissa, hside, hspecial, hleast, hscale,
    Bool.false_eq_true, if_false]

end Bits

/-! ## Whole numbers -/

/-- The mantissa of a whole number: its digits with zeros behind them. -/
def wholeMantissa (n : Nat) : Nat := n * 2 ^ (52 - n.log2)

/-- The exponent of a whole number. -/
def wholeExponent (n : Nat) : Int := (n.log2 : Int) - 52

section Whole

variable {n : Nat}

theorem wholeMantissa_pos (hn : 0 < n) : 0 < wholeMantissa n := by
  unfold wholeMantissa
  positivity

theorem log2_wholeMantissa (hn : 0 < n) (hlt : n < 2 ^ 53) : (wholeMantissa n).log2 = 52 := by
  have hlog : n.log2 < 53 := (Nat.log2_lt (by omega)).mpr hlt
  rw [wholeMantissa, log2_mul_two_pow (by omega)]
  omega

theorem full_whole (hn : 0 < n) (hlt : n < 2 ^ 53) : 2 ^ 52 ≤ wholeMantissa n :=
  (Nat.le_log2 (Nat.ne_of_gt (wholeMantissa_pos hn))).mp (log2_wholeMantissa hn hlt).ge

theorem inForm_whole (hn : 0 < n) (hlt : n < 2 ^ 53) :
    InForm (wholeMantissa n) (wholeExponent n) := by
  have hlog : n.log2 < 53 := (Nat.log2_lt (by omega)).mpr hlt
  refine ⟨?_, ?_, ?_, Or.inl (full_whole hn hlt)⟩
  · refine (Nat.log2_lt (Nat.ne_of_gt (wholeMantissa_pos hn))).mp ?_
    rw [log2_wholeMantissa hn hlt]
    decide
  · rw [wholeExponent]
    omega
  · rw [wholeExponent]
    omega

theorem ofNat_whole (hn : 0 < n) (hlt : n < 2 ^ 53) :
    UnpackedFloat.ofNat .binary64 n =
      .finite .positive (wholeMantissa n) (wholeExponent n) (wholeMantissa_pos hn) := by
  have hlog : n.log2 < 53 := (Nat.log2_lt (by omega)).mpr hlt
  have htarget : Format.binary64.targetExponent (totalExponent n 0) = wholeExponent n := by
    have hmin : Format.binary64.minExponent = -1074 := by decide
    have hbits : (Format.binary64.mantissaBits : Int) = 53 := by decide
    rw [Format.targetExponent, totalExponent, hmin, hbits, wholeExponent]
    omega
  have hshift : (0 - wholeExponent n).toNat = 52 - n.log2 := by
    rw [wholeExponent]
    omega
  have hdecrease : decreaseExponent n 0 (wholeExponent n) =
      (wholeMantissa n, wholeExponent n) := by
    rw [decreaseExponent, hshift, Nat.shiftLeft_eq, wholeMantissa, wholeExponent]
    congr 1
    omega
  have hround := roundWithAccuracy_zeros (inForm_whole hn hlt) (wholeMantissa_pos hn) .positive 0
  simp only [Nat.pow_zero, Nat.mul_one, Nat.cast_zero, Int.sub_zero] at hround
  have hcompare : compare (n : Int) 0 = .gt := by
    rw [Int.compare_eq_gt]
    omega
  rw [UnpackedFloat.ofNat, UnpackedFloat.ofInt, UnpackedFloat.normalize, hcompare]
  simp only [Int.toNat_natCast, UnpackedFloat.round, htarget, hdecrease, hround]

theorem ofScientific_whole (hn : 0 < n) (hlt : n < 2 ^ 53) :
    Float.ofScientific n false 0 = Float.ofModel (.pack
      (.finite .positive (wholeMantissa n) (wholeExponent n) (wholeMantissa_pos hn))) := by
  have hword : n.toUInt64.toNat = n := by
    rw [Nat.toUInt64, UInt64.toNat_ofNat']
    omega
  have hone : (Float.ofBits 0x3FF0000000000000).toModel.unpack =
      .finite .positive (2 ^ 52) (-52) (by decide) := rfl
  rw [Float.ofScientific, dif_pos ⟨hlt, by decide⟩]
  change Float.ofModel (.pack (UnpackedFloat.mul .binary64
    (UnpackedFloat.unpack .binary64 (UnpackedFloat.pack .binary64
      (UnpackedFloat.ofNat .binary64 n.toUInt64.toNat)))
    (Float.ofBits 0x3FF0000000000000).toModel.unpack)) = _
  rw [hword, hone, mul_unpack_one, ofNat_whole hn hlt,
    unpack_pack _ _ (inForm_whole hn hlt) (full_whole hn hlt)]

theorem neg_whole (hn : 0 < n) (hlt : n < 2 ^ 53) :
    -Float.ofScientific n false 0 = Float.ofModel (.pack
      (.finite .negative (wholeMantissa n) (wholeExponent n) (wholeMantissa_pos hn))) := by
  rw [ofScientific_whole hn hlt]
  change Float.ofModel (.pack (UnpackedFloat.neg
    (UnpackedFloat.unpack .binary64 (UnpackedFloat.pack .binary64 _)))) = _
  rw [unpack_pack _ _ (inForm_whole hn hlt) (full_whole hn hlt)]
  rfl

theorem wholeExponent_eq (hn : 0 < n) (hlt : n < 2 ^ 53) :
    wholeExponent n = -((52 - n.log2 : Nat) : Int) := by
  have hlog : n.log2 < 53 := (Nat.log2_lt (by omega)).mpr hlt
  rw [wholeExponent]
  omega

theorem fraction_whole (hn : 0 < n) (hlt : n < 2 ^ 53) :
    ∃ d, 0 < d ∧ fraction (wholeMantissa n) (wholeExponent n) = (n * d, d) := by
  refine ⟨2 ^ (52 - n.log2), by positivity, ?_⟩
  rw [wholeExponent_eq hn hlt, fraction, wholeMantissa]
  split
  next hwhole =>
    have hfull : 52 - n.log2 = 0 := by omega
    simp [hfull]
  · simp

theorem truncate?_pack (hn : 0 < n) (hlt : n < 2 ^ 53) (s : Sign) :
    truncate? (Float.ofModel (.pack
      (.finite s (wholeMantissa n) (wholeExponent n) (wholeMantissa_pos hn)))) =
        some (if s == .negative then -(n : Int) else n) := by
  obtain ⟨d, hd, hfraction⟩ := fraction_whole hn hlt
  rw [truncate?, ofFloat_pack s _ (inForm_whole hn hlt) (full_whole hn hlt)]
  simp only [hfraction, Nat.mul_div_cancel n hd]

end Whole

/-- A whole number of at most 53 bits, or the next one, comes back from its double. -/
theorem truncate?_ofInt {a : Int} (h : a.natAbs ≤ 2 ^ 53) : truncate? (ofInt a) = some a := by
  by_cases hzero : a = 0
  · subst hzero
    decide +kernel
  by_cases hlast : a.natAbs = 2 ^ 53
  · rcases Int.natAbs_eq_iff.mp hlast with rfl | rfl <;> decide +kernel
  have hpos : 0 < a.natAbs := Int.natAbs_pos.mpr hzero
  have hlt : a.natAbs < 2 ^ 53 := Nat.lt_of_le_of_ne h hlast
  by_cases hneg : a < 0
  · rw [ofInt, if_pos hneg, neg_whole hpos hlt, truncate?_pack hpos hlt]
    simp only [beq_self_eq_true, if_true]
    congr 1
    omega
  · rw [ofInt, if_neg hneg, ofScientific_whole hpos hlt, truncate?_pack hpos hlt]
    have hside : (Sign.positive == Sign.negative) = false := rfl
    simp only [hside, Bool.false_eq_true, if_false]
    congr 1
    omega

end SheetPress.Decimal
