import SheetPress.Decimal.Fixed

/-!
# The shortest decimal that reads back

`shortest` writes the decimal with the fewest digits that reads back as the same
double, and of those the nearest.  For each number of digits the two neighbours of
the value on that decimal grid are tried, in exact arithmetic.
-/

set_option autoImplicit false

namespace SheetPress.Decimal

/-- The double that the decimal `d · 10 ^ k` reads as. -/
def readScaled (d : Nat) (k : Int) : Float :=
  if 0 ≤ k then Float.ofScientific (d * Nat.pow 10 k.toNat) false 0
  else Float.ofScientific d true (-k).toNat

/-- The nearer neighbour of `num / den` on the grid of `n` digits that reads back as
`x`, with the exponent of the grid's last digit. -/
def neighbour? (x : Float) (num den n : Nat) : Option (Nat × Int) :=
  let k := leadingExponent num den - ((n : Int) - 1)
  let (a, b) := shiftDown num den k
  let below := a / b
  let above := below + 1
  let back (d : Nat) : Bool := (readScaled d k).toBits == x.toBits
  let nearBelow := 2 * (a % b) < b || (2 * (a % b) == b && below % 2 == 0)
  let first := if nearBelow then below else above
  let second := if nearBelow then above else below
  if back first then some (first, k) else if back second then some (second, k) else none

def firstGrid (x : Float) (num den : Nat) : (n left : Nat) → Nat × Int
  | n, 0 => (neighbour? x num den n).getD (0, 0)
  | n, left + 1 =>
    match neighbour? x num den n with
    | some p => p
    | none => firstGrid x num den (n + 1) left

/-- The fewest digits that read back; positional below `10 ^ 16`. -/
def shortest (x : Float) : Text :=
  match Binary.ofFloat x with
  | .nan => "nan"
  | .infinite negative => signed negative "inf"
  | .finite negative m e =>
    if m == 0 then signed negative "0.0"
    else
      let (num, den) := fraction m e
      let size : Float := if negative then -x else x
      let (d, k) := firstGrid size num den 1 16
      let digits := Text.ofNat d
      signed negative (withPoint (positional digits (k + digits.length - 1) 16))

end SheetPress.Decimal
