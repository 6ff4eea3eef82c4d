import SheetPress.Text.Basic
import SheetPress.Decimal.Binary

/-!
# Decimals with a fixed number of places or digits

All rounding goes through `roundDiv`, which rounds a quotient of whole numbers to
the nearest whole number.  `places` writes a double with so many digits after the
point, `significant` with so many digits in all, and `roundTo` gives the double
nearest to a value rounded at a decimal place.
-/

set_option autoImplicit false

namespace SheetPress.Decimal

inductive Tie where
  /-- To the neighbour further from zero. -/
  | away
  /-- To the even neighbour. -/
  | even
  deriving DecidableEq, Repr

/-- The whole number nearest to `num / den`. -/
def roundDiv (tie : Tie) (num den : Nat) : Nat :=
  let q := num / den
  let r := num % den
  if 2 * r < den then q
  else if den < 2 * r then q + 1
  else
    match tie with
    | .away => q + 1
    | .even => if q % 2 == 0 then q else q + 1

def signed (negative : Bool) (s : Text) : Text := if negative then '-' :: s else s

def pointed (scaled n : Nat) : Text :=
  let digits := Text.padLeft (n + 1) '0' (Text.ofNat scaled)
  let whole := digits.take (digits.length - n)
  if n == 0 then whole else whole ++ '.' :: digits.drop (digits.length - n)

/-- A double with `n` digits after the point, halves to the even digit. -/
def places (n : Nat) (x : Float) : Text :=
  match Binary.ofFloat x with
  | .nan => "nan"
  | .infinite negative => signed negative "inf"
  | .finite negative m e =>
    let (num, den) := fraction m e
    signed negative (pointed (roundDiv .even (num * Nat.pow 10 n) den) n)

/-- The double nearest to `x` rounded to `n` places after the point, halves away
from zero. -/
def roundTo (n : Nat) (x : Float) : Float :=
  match Binary.ofFloat x with
  | .finite negative m e =>
    let (num, den) := fraction m e
    let a := Float.ofScientific (roundDiv .away (num * Nat.pow 10 n) den) true n
    if negative then -a else a
  | _ => x

/-- Trailing zeros after a point, and a point with nothing after it, are dropped. -/
def trimZeros (s : Text) : Text :=
  Text.dropEndWhile (· == '.') (Text.dropEndWhile (· == '0') s)

/-- How a stylesheet shows a number: at most three places, halves away from zero,
no trailing zeros. -/
def shown (x : Float) : Text := trimZeros (places 3 (roundTo 3 x))

/-- The exponent of the leading decimal digit of `num / den`, both positive. -/
def leadingExponent (num den : Nat) : Int :=
  if den ≤ num then ((Text.ofNat (num / den)).length : Int) - 1
  else
    let d := (Text.ofNat (den / num)).length
    if den ≤ num * Nat.pow 10 (d - 1) then -((d : Int) - 1) else -(d : Int)

def shiftDown (num den : Nat) (k : Int) : Nat × Nat :=
  if 0 ≤ k then (num, den * Nat.pow 10 k.toNat) else (num * Nat.pow 10 (-k).toNat, den)

/-- `num / den` rounded to `n` digits, with the exponent of the first of them. -/
def roundDigits (n num den : Nat) : Nat × Int :=
  let x := leadingExponent num den
  let (a, b) := shiftDown num den (x - ((n : Int) - 1))
  let d := roundDiv .even a b
  if d == Nat.pow 10 n then (Nat.pow 10 (n - 1), x + 1) else (d, x)

/-- An exponent mark with a sign and at least two digits. -/
def exponentMark (x : Int) : Text :=
  'e' :: (if x < 0 then '-' else '+') :: Text.padLeft 2 '0' (Text.ofNat x.natAbs)

/-- Decimal digits with the exponent `x` of the first, written out where `x` lies from
-4 up to `limit` and with an exponent mark elsewhere; trailing zeros are dropped. -/
def positional (digits : Text) (x limit : Int) : Text :=
  let digits := Text.dropEndWhile (· == '0') digits
  let digits := if digits.isEmpty then ['0'] else digits
  if x < -4 || limit ≤ x then
    let head := digits.take 1
    let rest := digits.drop 1
    (if rest.isEmpty then head else head ++ '.' :: rest) ++ exponentMark x
  else if x < 0 then
    '0' :: '.' :: List.replicate ((-x).toNat - 1) '0' ++ digits
  else
    let whole := x.toNat + 1
    if digits.length ≤ whole then digits ++ List.replicate (whole - digits.length) '0'
    else digits.take whole ++ '.' :: digits.drop whole

def significant (n : Nat) (x : Float) : Text :=
  match Binary.ofFloat x with
  | .nan => "nan"
  | .infinite negative => signed negative "inf"
  | .finite negative m e =>
    if m == 0 then signed negative "0"
    else
      let (num, den) := fraction m e
      let (d, k) := roundDigits n num den
      signed negative (positional (Text.ofNat d) k n)

def withPoint (s : Text) : Text :=
  if s.all fun c => c.isDigit || c == '-' then s ++ ".0".toList else s

/-- A bare fraction inside a text: at most twelve digits, and a point or an exponent
mark in any case. -/
def plain (x : Float) : Text := withPoint (significant 12 x)

def sixPlaces (x : Float) : Text := places 6 x

end SheetPress.Decimal
