
/-!
# Doubles as exact fractions

A finite double is `± mantissa · 2 ^ exponent`.  `Binary.ofFloat` reads that off the
bits, so that rounding and printing work on whole numbers.  The remainder of two
doubles is computed exactly in the same way.
-/

set_option autoImplicit false

namespace SheetPress.Decimal

/-- What a double stands for. -/
inductive Binary where
  | nan
  /-- Beyond every number, on the side that `negative` names. -/
  | infinite (negative : Bool)
  /-- `± mantissa · 2 ^ exponent`. -/
  | finite (negative : Bool) (mantissa : Nat) (exponent : Int)
  deriving DecidableEq, Repr

namespace Binary

/-- Read a double's sign, exponent field and fraction field. -/
def ofFloat (x : Float) : Binary :=
  let bits := x.toBits.toNat
  let negative := bits / Nat.pow 2 63 == 1
  let field : Nat := bits / Nat.pow 2 52 % Nat.pow 2 11
  let fraction : Nat := bits % Nat.pow 2 52
  if field == 2047 then
    if fraction == 0 then .infinite negative else .nan
  else if field == 0 then .finite negative fraction (-1074)
  else .finite negative (fraction + Nat.pow 2 52) ((field : Int) - 1075)

end Binary

/-- The absolute value `mantissa · 2 ^ exponent` as numerator and denominator. -/
def fraction (mantissa : Nat) (exponent : Int) : Nat × Nat :=
  if 0 ≤ exponent then (mantissa * Nat.pow 2 exponent.toNat, 1)
  else (mantissa, Nat.pow 2 (-exponent).toNat)

def isNaN (x : Float) : Bool := Binary.ofFloat x == .nan

def isInfinite (x : Float) : Bool :=
  match Binary.ofFloat x with
  | .infinite _ => true
  | _ => false

/-- The whole part of a finite double, cut towards zero. -/
def truncate? (x : Float) : Option Int :=
  match Binary.ofFloat x with
  | .finite negative m e =>
    let (num, den) := fraction m e
    let q : Int := (num / den : Nat)
    some (if negative then -q else q)
  | _ => none

/-- The greatest whole number that is not above a finite double. -/
def floor? (x : Float) : Option Int :=
  match Binary.ofFloat x with
  | .finite negative m e =>
    let (num, den) := fraction m e
    some (Int.fdiv (if negative then -(num : Int) else num) den)
  | _ => none

/-- The least whole number that is not below a finite double. -/
def ceiling? (x : Float) : Option Int := (floor? (-x)).map fun i => -i

def ofInt (i : Int) : Float :=
  let a := Float.ofScientific i.natAbs false 0
  if i < 0 then -a else a

/-- `± n · 2 ^ e` as a double, exact where a double can hold it. -/
def ofScaled (negative : Bool) (n : Nat) (e : Int) : Float :=
  let a := Float.scaleB (Float.ofScientific n false 0) e
  if negative then -a else a

/-- The remainder of `x` by `y` with the sign of `y`: `x - y · ⌊x / y⌋`, computed
exactly and rounded once.  `y` is not zero. -/
def floorMod (x y : Float) : Float :=
  match Binary.ofFloat x, Binary.ofFloat y with
  | .finite nx mx ex, .finite ny my ey =>
    let e := min ex ey
    let a := mx * Nat.pow 2 (ex - e).toNat
    let b := my * Nat.pow 2 (ey - e).toNat
    let r := a % b
    if r == 0 then ofScaled ny 0 0
    else if nx == ny then ofScaled ny r e
    else
      -- the remainder of the magnitudes has the wrong sign: add the divisor
      ofScaled nx r e + y
  | .finite nx mx _, .infinite ny => if mx == 0 then ofScaled ny 0 0 else if nx == ny then x else y
  | _, _ => 0.0 / 0.0

end SheetPress.Decimal
