import SheetPress.Fault
import SheetPress.Decimal.Fixed
import SheetPress.Decimal.Reading

/-!
# Scalars

A scalar is a truth value, a whole number or a fraction.  Truth values count as 0
and 1.  Two whole numbers divide to the floor; as soon as a fraction takes part the
result is a fraction.
-/

set_option autoImplicit false

namespace SheetPress

inductive Scalar where
  | truth (b : Bool)
  | whole (i : Int)
  | real (x : Float)

inductive Operation where
  | add
  | sub
  | mul
  | div
  deriving DecidableEq, Repr

inductive Comparison where
  | lt
  | le
  | eq
  | ne
  | gt
  | ge
  deriving DecidableEq, Repr

namespace Comparison

def flip : Comparison → Comparison
  | .lt => .gt
  | .le => .ge
  | .eq => .eq
  | .ne => .ne
  | .gt => .lt
  | .ge => .le

/-- The comparison holds for two things in the given order; things without an order
are only different. -/
def holds : Comparison → Option Ordering → Bool
  | .ne, none => true
  | _, none => false
  | .lt, some o => o == .lt
  | .le, some o => o != .gt
  | .eq, some o => o == .eq
  | .ne, some o => o != .eq
  | .gt, some o => o == .gt
  | .ge, some o => o != .lt

end Comparison

namespace Scalar

/-- Zero as a fraction. -/
def zero : Scalar := .real 0.0

def toFloat : Scalar → Float
  | .truth b => if b then 1.0 else 0.0
  | .whole i => Decimal.ofInt i
  | .real x => x

/-- The scalar as a whole number, if it is one. -/
def whole? : Scalar → Option Int
  | .truth b => some (if b then 1 else 0)
  | .whole i => some i
  | .real _ => none

/-- Everything but zero counts as true. -/
def isTrue : Scalar → Bool
  | .truth b => b
  | .whole i => i != 0
  | .real x => x != 0.0

def truncate : Scalar → Except Fault Int
  | .truth b => .ok (if b then 1 else 0)
  | .whole i => .ok i
  | .real x =>
    match Decimal.truncate? x with
    | some i => .ok i
    | none => if Decimal.isNaN x then .error .wrongValue else .error .overflow

/-- The order of two doubles; no number has no order. -/
def orderFloat (x y : Float) : Option Ordering :=
  if x < y then some .lt else if y < x then some .gt else if x == y then some .eq else none

def order (a b : Scalar) : Option Ordering :=
  match a.whole?, b.whole? with
  | some i, some j => some (compare i j)
  | _, _ => orderFloat a.toFloat b.toFloat

def compare (c : Comparison) (a b : Scalar) : Bool := c.holds (a.order b)

def operateWhole : Operation → Int → Int → Except Fault Scalar
  | .add, i, j => .ok (.whole (i + j))
  | .sub, i, j => .ok (.whole (i - j))
  | .mul, i, j => .ok (.whole (i * j))
  | .div, i, j => if j == 0 then .error .divisionByZero else .ok (.whole (Int.fdiv i j))

def operateReal : Operation → Float → Float → Except Fault Scalar
  | .add, x, y => .ok (.real (x + y))
  | .sub, x, y => .ok (.real (x - y))
  | .mul, x, y => .ok (.real (x * y))
  | .div, x, y => if y == 0.0 then .error .divisionByZero else .ok (.real (x / y))

def operate (op : Operation) (a b : Scalar) : Except Fault Scalar :=
  match a.whole?, b.whole? with
  | some i, some j => operateWhole op i j
  | _, _ => operateReal op a.toFloat b.toFloat

def plus (a b : Scalar) : Scalar :=
  match a.whole?, b.whole? with
  | some i, some j => .whole (i + j)
  | _, _ => .real (a.toFloat + b.toFloat)

def minus (a b : Scalar) : Scalar :=
  match a.whole?, b.whole? with
  | some i, some j => .whole (i - j)
  | _, _ => .real (a.toFloat - b.toFloat)

def product (a b : Scalar) : Scalar :=
  match a.whole?, b.whole? with
  | some i, some j => .whole (i * j)
  | _, _ => .real (a.toFloat * b.toFloat)

/-- `0` below zero, `top` above it, and the scalar itself between them. -/
def clamp (top : Float) (a : Scalar) : Scalar :=
  if a.compare .lt (.whole 0) then .real 0.0
  else if a.compare .gt (.real top) then .real top
  else a

def shown : Scalar → Text
  | .truth b => if b then "true" else "false"
  | .whole i => Text.ofInt i
  | .real x => Decimal.shown x

def round (a : Scalar) : Float := Decimal.roundTo 0 a.toFloat

def rounded (a : Scalar) : Except Fault Int := truncate (.real a.round)

end Scalar

end SheetPress
