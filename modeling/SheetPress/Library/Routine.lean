import SheetPress.Value.Compare
import SheetPress.Value.Operate

/-!
# Routines

A routine is a function of the library: the names of its parameters, and what it does
with its arguments.  Arguments are given in order or by name; `Routine.apply` fits them to
the parameters and fails if they do not fit.
-/

set_option autoImplicit false

namespace SheetPress

structure Routine where
  required : List Text := []
  optional : List Text := []
  /-- Any number of further arguments may follow. -/
  variadic : Bool := false
  /-- Arguments may have any name. -/
  anyName : Bool := false
  body : List (Option Value) → List Value → Calc Value

namespace Routine

def parameters (r : Routine) : List Text := r.required ++ r.optional

/-- Give an argument to the parameter of its name, which must not have one yet. -/
def fillNamed (name : Text) (v : Value) :
    List (Text × Option Value) → Option (List (Text × Option Value))
  | [] => none
  | (p, w) :: rest =>
    if p = name then
      match w with
      | none => some ((p, some v) :: rest)
      | some _ => none
    else (fillNamed name v rest).map ((p, w) :: ·)

def fillAllNamed (anyName : Bool) (slots : List (Text × Option Value)) :
    List (Text × Value) → Option (List (Text × Option Value))
  | [] => some slots
  | (name, v) :: rest =>
    match fillNamed name v slots with
    | some slots => fillAllNamed anyName slots rest
    | none => if anyName && !slots.any (·.1 == name) then fillAllNamed anyName slots rest else none

def fillOrdered : List Text → List Value → List (Text × Option Value)
  | [], _ => []
  | p :: ps, [] => (p, none) :: fillOrdered ps []
  | p :: ps, v :: vs => (p, some v) :: fillOrdered ps vs

def apply (r : Routine) (ordered : List Value) (named : List (Text × Value)) : Calc Value := do
  let n := r.parameters.length
  if n < ordered.length && !r.variadic then throw .wrongKind
  match fillAllNamed r.anyName (fillOrdered r.parameters ordered) named with
  | none => throw .wrongKind
  | some slots =>
    if (slots.take r.required.length).any (·.2.isNone) then throw .wrongKind
    r.body (slots.map Prod.snd) (ordered.drop n)

def ofNone (f : Calc Value) : Routine := { body := fun _ _ => f }

def ofOne (p : String) (f : Value → Calc Value) : Routine where
  required := [p.toList]
  body
    | [some a], _ => f a
    | _, _ => throw .wrongKind

def ofTwo (p q : String) (f : Value → Value → Calc Value) : Routine where
  required := [p.toList, q.toList]
  body
    | [some a, some b], _ => f a b
    | _, _ => throw .wrongKind

def ofOneOrTwo (p q : String) (f : Value → Option Value → Calc Value) : Routine where
  required := [p.toList]
  optional := [q.toList]
  body
    | [some a, b], _ => f a b
    | _, _ => throw .wrongKind

def ofTwoOrThree (p q r : String) (f : Value → Value → Option Value → Calc Value) : Routine where
  required := [p.toList, q.toList]
  optional := [r.toList]
  body
    | [some a, some b, c], _ => f a b c
    | _, _ => throw .wrongKind

def ofAny (f : List Value → Calc Value) : Routine := { variadic := true, body := fun _ vs => f vs }

def ofOneAndAny (p : String) (f : Value → List Value → Calc Value) : Routine where
  required := [p.toList]
  variadic := true
  body
    | [some a], vs => f a vs
    | _, _ => throw .wrongKind

end Routine

end SheetPress
