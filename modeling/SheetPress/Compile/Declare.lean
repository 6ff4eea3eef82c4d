import SheetPress.Compile.Interpolate
import SheetPress.Selector.Basic

/-!
# Declarations and nested rules

A declaration sets a variable of the rule or adds a property to it.  A nested rule becomes
a rule of its own: its selectors are combined with those around it, and it starts with
copies of the variables and settings that are known at its place.
-/

set_option autoImplicit false

namespace SheetPress.Compile

/-! ## Declarations -/

def readDeclaration (t : Text) : Text × Bool × Option Text :=
  match Text.cutAt? (fun c => c == ':' || c == '=') t with
  | none => (Text.trim t, false, none)
  | some (name, sign, v) => (Text.trim name, sign == '=', some v)

def findDefault : List (Key × Value) → Calc (Option Key)
  | [] => return none
  | (k, v) :: rest => do
    if ← v.isWord Sheet.defaultMark then return some k else findDefault rest

/-- The value to set for a variable.  A value marked as a default is nothing if the
variable has a value already, and loses its mark otherwise. -/
def settleDefault (isSet : Bool) (v : Value) : Calc Value := do
  match v with
  | .word t =>
    if !Text.contains t Sheet.defaultMark then return v
    else if isSet then return .nothing
    else return .word (Sheet.dropDefault t)
  | .list slot items =>
    match ← findDefault items with
    | none => v.copied
    | some k =>
      if isSet then return .nothing
      else
        let rest := items.filter (·.1 != k)
        match rest with
        | [(_, v)] => return v
        | _ => Calc.newList (← Calc.separator slot) rest
  | v => return v

def declaredValue (inner : Compiler) (r : Nat) : Option Text → Run (Option Value)
  | none => return none
  | some [] => return some (.word [])
  | some t => do return some (← calculate inner r (← Run.contextOf r) (Text.trim t))

def declare (inner : Compiler) (f : Frame) (line : Int) (t : Text) : Run Unit := do
  let (name, isVariable, given) := readDeclaration t
  let name ← interpolate inner f.rule true name
  if name.isEmpty then return
  let v ← declaredValue inner f.rule given
  let full := f.scope.getD [] ++ name
  match isVariable || name.head? == some '$', v with
  | true, some v =>
    let isSet := ((← Run.contextOf f.rule).get? full).isSome
    match ← settleDefault isSet v with
    | .nothing => return
    | v => Run.setVariable f.rule (.name full) v
  | _, v =>
    let full ← substitute inner f.rule (← Run.contextOf f.rule) true full
    if (← Run.rule f.rule).sink.isNone then throw .missingPart
    let text ←
      match v with
      | none => pure none
      | some v => do pure (some (← v.shown))
    Run.addProperty f.rule ⟨line, full, text⟩

def runVariables (inner : Compiler) (f : Frame) (code : Text) : Run Unit := do
  let rule ← Run.newRule { ← Run.rule f.rule with sink := none }
  inner.work { f with rule } code

/-! ## Nested rules -/

def selfWord : Text := "self".toList

def nestedSelector (outer inner : Text) : Text :=
  if inner == selfWord then outer
  else if inner.any (· == '&') then Text.replace ['&'] outer inner
  else if outer.isEmpty then inner
  else outer ++ ' ' :: inner

def nestedSelectors (outer : List Text) (head : Text) : Text :=
  let (selectors, parents) := Selector.cutExtends (Selector.normalize head [] [])
  let combined :=
    (Text.splitOn ',' selectors).flatMap fun s => outer.map fun o => nestedSelector o s
  let parents := Text.sortedSet (Selector.filled (Text.splitOn '&' parents))
  let joined := Text.joinWith [','] (Text.sortedSet combined)
  if parents.isEmpty then joined
  else joined ++ Selector.extendsMark ++ Text.joinWith ['&'] parents

/-- A nested rule; the block of the rule itself is worked on at once. -/
def nestRule (inner : Compiler) (f : Frame) (line : Int) (head code : Text) : Run Unit := do
  let rule ← Run.rule f.rule
  if head == selfWord && rule.media == f.media then
    inner.work f code
    return
  let head ← substitute inner f.rule (← Run.contextOf f.rule) true head
  let selectors := nestedSelectors (← Run.owner f.owner).selectors head
  let nested ← Run.newRule
    { rule with
      code
      deps := []
      context := ← Run.newContext (← Run.contextOf f.rule)
      settings := ← Run.newSettings (← Run.settingsOf f.rule)
      selectors
      sink := some (← Run.newSink)
      media := f.media
      line }
  Run.modifyOwner f.owner fun o => { o with children := o.children ++ [nested] }

end SheetPress.Compile
