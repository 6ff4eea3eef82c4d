import SheetPress.Text.Basic
import SheetPress.Decimal.Binary

/-!
# Reading numerals

`readFloat?` reads a decimal numeral with an optional sign, point and exponent, or
one of the words for infinity and no number; blanks around it are allowed.
`readInt?` reads a signed row of digits.
-/

set_option autoImplicit false

namespace SheetPress.Decimal

def takeSign : Text → Bool × Text
  | '-' :: r => (true, r)
  | '+' :: r => (false, r)
  | r => (false, r)

def takeDigits (s : Text) : Text × Text := (s.takeWhile Text.isDigit, s.dropWhile Text.isDigit)

/-- An exponent: a mark, an optional sign and digits; nothing counts as zero. -/
def readExponent? : Text → Option Int
  | [] => some 0
  | c :: r =>
    if c == 'e' || c == 'E' then
      let (negative, r) := takeSign r
      let (digits, rest) := takeDigits r
      if digits.isEmpty || !rest.isEmpty then none
      else
        let n : Int := Text.digitsValue digits
        some (if negative then -n else n)
    else none

/-- `d · 10 ^ k` as a double.  Beyond the range of doubles the answer no longer
depends on the digits, so that huge exponents are not expanded. -/
def scaled (d : Nat) (k : Int) (width : Nat) : Float :=
  if d == 0 then 0.0
  else if 400 < k then 1.0 / 0.0
  else if k + width < -400 then 0.0
  else if 0 ≤ k then Float.ofScientific d false k.toNat
  else Float.ofScientific d true (-k).toNat

def readUnsigned? (s : Text) : Option Float :=
  let word := Text.lower s
  if word == "inf".toList || word == "infinity".toList then some (1.0 / 0.0)
  else if word == "nan".toList then some (0.0 / 0.0)
  else
    let (whole, rest) := takeDigits s
    let (part, rest) :=
      match rest with
      | '.' :: r => takeDigits r
      | r => ([], r)
    if whole.isEmpty && part.isEmpty then none
    else
      (readExponent? rest).map fun k =>
        scaled (Text.digitsValue (whole ++ part)) (k - part.length) (whole.length + part.length)

def readFloat? (s : Text) : Option Float :=
  let (negative, r) := takeSign (Text.trim s)
  (readUnsigned? r).map fun x => if negative then -x else x

/-- A signed row of decimal digits with blanks around it. -/
def readInt? (s : Text) : Option Int :=
  let (negative, r) := takeSign (Text.trim s)
  if r.isEmpty || !r.all Text.isDigit then none
  else
    let n : Int := Text.digitsValue r
    some (if negative then -n else n)

/-- A signed row of hexadecimal digits with blanks around it. -/
def readHex? (s : Text) : Option Int :=
  let (negative, r) := takeSign (Text.trim s)
  if r.isEmpty || !r.all Text.isHex then none
  else
    let n : Int := (r.foldl (fun n c => 16 * n + Text.hexValue c) 0 : Nat)
    some (if negative then -n else n)

end SheetPress.Decimal
