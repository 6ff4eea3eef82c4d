import SheetPress.Value.Scalar
import SheetPress.Value.Unit

/-!
# Quantities: numbers with units

A quantity is a size in base units together with the units that took part in
computing it.  Each unit has a weight that grows with every operand carrying it; the
`lead` is the unit that came last among the heaviest.  The unit shown is the one of
greatest weight, the lead counted once more.

`Quantity.operate` computes the four operations.  A bare number next to a percentage
is itself taken for a percentage, and this changes the bare operand: the operation
answers with the operands as they are afterwards.
-/

set_option autoImplicit false

namespace SheetPress

structure Units where
  /-- The units that took part, with their summed weights. -/
  weights : List (Text × Nat) := []
  /-- The unit set last; the empty text stands for a bare number. -/
  lead : Option Text := none
  /-- A unit that is no text was set; such a quantity cannot be shown. -/
  foreign : Bool := false
  deriving DecidableEq, Repr

namespace Units

def none : Units := {}

def only (u : Text) : Units := { weights := [(u, Unit.weight u)], lead := some u }

/-- Nothing was ever set. -/
def isEmpty (u : Units) : Bool := u.weights.isEmpty && u.lead.isNone && !u.foreign

def bump (u : Text) (w : Nat) : List (Text × Nat) → List (Text × Nat)
  | [] => [(u, w)]
  | (v, n) :: rest => if v = u then (v, n + w) :: rest else (v, n) :: bump u w rest

/-- The weights with the lead counted once more. -/
def ranked (u : Units) : List (Text × Nat) :=
  match u.lead with
  | .none => u.weights
  | some l => bump l (Unit.weight l) u.weights

/-- Of two ranked units the heavier; the empty unit gives way to every other.  Of equals the
later is taken, but this means nothing: a table of units has no order of its own. -/
def heavier (best : Option (Text × Nat)) (next : Text × Nat) : Option (Text × Nat) :=
  if next.1.isEmpty then best
  else
    match best with
    | .none => some next
    | some b => if b.2 ≤ next.2 then some next else some b

def shown (u : Units) : Text :=
  match u.ranked.foldl heavier .none with
  | .none => []
  | some (t, _) => t

/-- Take in the units of an operand. -/
def merge (u v : Units) : Units :=
  let weights := v.weights.foldl (fun ws p => bump p.1 p.2 ws) u.weights
  let unit := v.shown
  let leadWeight := (u.lead.map Unit.weight).getD 1
  { weights
    lead := if leadWeight ≤ Unit.weight unit then some unit else u.lead
    foreign := u.foreign || v.foreign }

end Units

structure Quantity where
  size : Scalar
  units : Units := {}

namespace Quantity

def bare (x : Float) : Quantity := { size := .real x }

def unit (q : Quantity) : Text := q.units.shown

def percent (s : Scalar) : Quantity := { size := s, units := .only ['%'] }

/-- Base units over the factor of the unit, then the unit. -/
def text (q : Quantity) : Except Fault Text :=
  if q.units.foreign then .error .wrongKind
  else .ok (Decimal.shown (q.size.toFloat / Unit.factor q.unit) ++ q.unit)

/-- The quantity read in another unit: a bare number is multiplied, a number with a
unit only changes its name.  Angles are reduced to one turn. -/
def convertTo (u : Text) (q : Quantity) : Quantity :=
  let size : Float :=
    if q.unit.isEmpty then q.size.toFloat * Unit.factor u else q.size.toFloat
  let size := if u == "deg".toList then Decimal.floorMod size 360.0 else size
  { size := .real size, units := .only u }

def combine (op : Operation) (a b : Quantity) : Except Fault Quantity :=
  (a.size.operate op b.size).map fun s =>
    { size := s, units := (Units.none.merge a.units).merge b.units }

def asPercent (q : Quantity) : Quantity := percent (.real (q.size.toFloat / 100.0))

/-- The share `part` of `q`. -/
def share (q : Quantity) (part : Scalar) : Except Fault Quantity :=
  combine .mul q { size := part }

structure Outcome where
  result : Quantity
  left : Quantity
  right : Quantity

/-- Arithmetic on two quantities.  In sums and differences a bare number next to a
percentage becomes a percentage, and a percentage next to another unit becomes a share
of the other operand. -/
def operate (op : Operation) (a b : Quantity) : Except Fault Outcome :=
  let additive := op == .add || op == .sub
  let ua := a.unit
  let ub := b.unit
  let percentA := ua == ['%']
  let percentB := ub == ['%']
  if additive && percentA && ub.isEmpty then
    let b' := b.asPercent
    (combine op a b').map fun r => ⟨r, a, b'⟩
  else if additive && percentA && !percentB then
    (b.share a.size).bind fun a' => (combine op a' b).map fun r => ⟨r, a, b⟩
  else if additive && percentB && ua.isEmpty then
    let a' := a.asPercent
    (combine op a' b).map fun r => ⟨r, a', b⟩
  else if additive && percentB && !percentA then
    (a.share b.size).bind fun b' => (combine op a b').map fun r => ⟨r, a, b⟩
  else (combine op a b).map fun r => ⟨r, a, b⟩

/-- Two quantities compare by size if either is bare or both measure the same kind,
and by the names of their kinds otherwise. -/
def compare (c : Comparison) (a b : Quantity) : Bool :=
  match Unit.kind? a.unit, Unit.kind? b.unit with
  | some k, some l => if k == l then a.size.compare c b.size else c.holds (some (Text.order k l))
  | _, _ => a.size.compare c b.size

end Quantity

end SheetPress
