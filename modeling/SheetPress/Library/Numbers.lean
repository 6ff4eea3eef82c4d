import SheetPress.Library.Routine

/-!
# Functions of numbers, strings and kinds

Mathematical functions, units and their conversion, quoting, and questions about the kind
of a value.
-/

set_option autoImplicit false

namespace SheetPress.Library

/-! ## Mathematics -/

/-- Apply a function to the content of a number or a truth value. -/
def ofScalars (f : Scalar → Except Fault Scalar) (v : Value) : Calc Value := do
  match v with
  | .number slot =>
    let q ← Calc.quantity slot
    Calc.newNumber
      { size := ← Calc.ofExcept (f q.size), units := Units.none.merge q.units }
  | .boolean s => return .boolean (← Calc.ofExcept (f s))
  | .nothing | .word _ | .scalar (.truth _) => throw .missingPart
  | _ => throw .wrongKind

/-- A function of doubles that is not defined for infinite ones. -/
def analytic (f : Float → Float) (s : Scalar) : Except Fault Scalar :=
  let x := s.toFloat
  if Decimal.isInfinite x then .error .wrongValue else .ok (.real (f x))

def absolute : Scalar → Except Fault Scalar
  | .truth b => .ok (.whole (if b then 1 else 0))
  | .whole i => .ok (.whole i.natAbs)
  | .real x => .ok (.real x.abs)

/-- Rounded to a whole number, which is held as a fraction. -/
def roundWith (f : Float → Option Int) (s : Scalar) : Except Fault Scalar :=
  let x := s.toFloat
  match f x with
  | some i => .ok (.real (Decimal.ofInt i))
  | none => if Decimal.isNaN x then .error .wrongValue else .error .overflow

def ofMathematics (f : Scalar → Except Fault Scalar) : Routine := .ofAny fun
  | [v] => ofScalars f v
  | _ => throw .wrongKind

/-- The ratio of a circle's circumference to its diameter. -/
def circleRatio : Float := 3.141592653589793

/-! ## Units -/

def percentage (v : Value) : Calc Value := do
  Calc.newNumber { (← v.quantity) with units := .only ['%'] }

/-- The unit that a value names; other values than words name none. -/
def convert (v unit : Value) : Calc Value := do
  match v with
  | .number slot =>
    let q ← Calc.quantity slot
    match unit with
    | .word u => Calc.newNumber (q.convertTo u)
    | .nothing => Calc.newNumber { (q.convertTo []) with units := { foreign := true } }
    | .table _ _ => throw .wrongKind
    | u =>
      let isDegree ← u.isWord "deg".toList
      let size := q.size.toFloat
      let size := if isDegree then Decimal.floorMod size 360.0 else size
      Calc.newNumber { size := .real size, units := { foreign := true } }
  | .colour c =>
    let channels ← Calc.channels c.source
    match unit with
    | .word u => return .colour { source := .own channels.clamp, notations := [(u, 1)] }
    | u => return .colour { source := .own channels.clamp, notations := [(← u.text, 1)] }
  | .string t | .gradient _ t _ _ | .quoted t =>
    return .quoted (← (← Value.operate .add (.word t) unit).text)
  | _ => throw .missingPart

def comparable (a b : Value) : Calc Value := do
  let p ← a.quantity
  let q ← b.quantity
  return .boolean (.truth (Unit.kind? p.unit == Unit.kind? q.unit))

/-! ## Strings and kinds -/

def joinedTexts : List Value → Calc Text
  | [] => return []
  | [v] => v.text
  | v :: rest => do
    let t ← v.text
    return t ++ ' ' :: (← joinedTexts rest)

def isVariableName (t : Text) : Bool :=
  match t with
  | '$' :: r =>
    let r := if r.getLast? == some '\n' then r.dropLast else r
    !r.isEmpty && r.all Text.isName
  | _ => false

def isUnknown : Value → Bool
  | .word t => isVariableName t
  | _ => false

/-- Whether a condition holds: the words `0` and `false` and names of variables do not. -/
def holds (v : Value) : Calc Bool := do
  if !(← v.isTrue) then return false
  if ← v.isWord "0".toList then return false
  if ← v.isWord "false".toList then return false
  return !isUnknown v

def typeOf (v : Value) : Text :=
  match v with
  | .boolean _ => "bool"
  | .number _ => "number"
  | .colour _ => "color"
  | .list _ _ => "list"
  | v => if isUnknown v then "undefined" else "string"

/-- One of two values by a condition, both in the kind of the first. -/
def choose (condition yes : Value) (no : Option Value) : Calc Value := do
  if ← holds condition then yes.copied else yes.like (no.getD (.word []))

def numbers : List (String × Routine) :=
  let unquote := Routine.ofAny fun args => do return .string (← joinedTexts args)
  let quote := Routine.ofAny fun args => do return .quoted (← joinedTexts args)
  let choice := Routine.ofTwoOrThree "condition" "if_true" "if_false" choose
  [ ("percentage:1", .ofOne "value" percentage),
    ("unitless:1", .ofOne "value" fun v => do
      return .boolean (.truth (← v.quantity).unit.isEmpty)),
    ("unit:1", .ofOne "number" fun v => do return .string (← v.quantity).unit),
    ("if:2", choice), ("if:3", choice),
    ("type-of:1", .ofOne "obj" fun v => return .string (typeOf v)),
    ("comparable:2", .ofTwo "number1" "number2" comparable),
    ("quote:n", quote), ("unquote:n", unquote), ("escape:1", unquote), ("e:1", unquote),
    ("sin:1", ofMathematics (analytic Float.sin)),
    ("cos:1", ofMathematics (analytic Float.cos)),
    ("tan:1", ofMathematics (analytic Float.tan)),
    ("abs:1", ofMathematics absolute),
    ("round:1", ofMathematics fun s => .ok (.real s.round)),
    ("ceil:1", ofMathematics (roundWith Decimal.ceiling?)),
    ("floor:1", ofMathematics (roundWith Decimal.floor?)),
    ("pi:0", .ofNone (Calc.newNumber (.bare circleRatio))) ] ++
  Unit.all.map fun u => (String.ofList u ++ ":2", .ofTwo "value" "type" convert)

end SheetPress.Library
