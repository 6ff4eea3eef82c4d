import SheetPress.Compile.Interpolate

/-!
# Conditions and loops

Whether the last condition held is a setting of the rule, so that a later `@else` can see
it.  Loop variables are variables of the rule and keep their last value.
-/

set_option autoImplicit false

namespace SheetPress.Compile

def conditionKey : Text := "@if".toList

def checkCondition (r : Nat) (tail : Text) : Run Unit := do
  if !(← Run.settingsOf r).has conditionKey then
    let place ← Run.placeOf r
    Run.logLine .error ("@else with no @if (".toList ++ place ++ tail)

def lastCondition (r : Nat) : Run Bool := do
  match (← Run.settingsOf r).get? conditionKey with
  | some s => s.isTrue
  | none => return true

def test (inner : Compiler) (f : Frame) (condition : Text) : Run Bool := do
  let v ← calculate inner f.rule (← Run.contextOf f.rule) condition
  Library.holds v

def runIf (inner : Compiler) (f : Frame) (condition code : Text) : Run Unit := do
  let holds ← test inner f condition
  if holds then inner.work f code
  Run.setSetting f.rule conditionKey (.flag holds)

def runElseIf (inner : Compiler) (f : Frame) (condition code : Text) : Run Unit := do
  checkCondition f.rule [')']
  if !(← lastCondition f.rule) then runIf inner f condition code

def runElse (inner : Compiler) (f : Frame) (code : Text) : Run Unit := do
  checkCondition f.rule []
  let held ← lastCondition f.rule
  Run.modifySettings f.rule fun s => s.erase conditionKey
  if !held then inner.work f code

/-! ## Loops -/

def readCount (head : Text) : Text × Text × Text :=
  let (var, range) := Text.cut "from".toList head
  let (first, last) := Text.cut "through".toList range
  if last.isEmpty then (var, Text.cut "to".toList first) else (var, first, last)

def boundOf (v : Value) : Calc Int := do Calc.ofExcept (← v.plainNumber).truncate

def steps (a b : Int) : List Int :=
  if b < a then (Library.between b a).reverse else Library.between a b

def countThrough (inner : Compiler) (f : Frame) (var code : Text) : List Int → Run Unit
  | [] => return
  | i :: rest => do
    Run.setVariable f.rule (.name var) (.word (Text.ofInt i))
    inner.work f code
    countThrough inner f var code rest

/-- The variable of a counting loop and its values.  Bounds that are no numbers have none
between them. -/
def countOf (inner : Compiler) (f : Frame) (head : Text) : Run (Text × List Int) := do
  let (var, first, last) := readCount head
  let first ← calculate inner f.rule (← Run.contextOf f.rule) first
  let last ← calculate inner f.rule (← Run.contextOf f.rule) last
  let bounds : Run (Int × Int) := do
    let a ← boundOf first
    let b ← boundOf last
    return (a, b)
  match ← Run.attempt bounds with
  | .error .wrongValue => return ([], [])
  | .error e => throw e
  | .ok (a, b) =>
    let var ← interpolate inner f.rule true (Text.trim var)
    return (var, steps a b)

def runCount (inner : Compiler) (f : Frame) (head code : Text) : Run Unit := do
  let (var, values) ← countOf inner f head
  countThrough inner f var code values

/-- Let the variable hold the text of an item, and the variable that the item has as its
name as well. -/
def bindItem (r : Nat) (var : Text) (item : Key × Value) : Run Unit := do
  let t ← item.2.shown
  Run.setVariable r (.name var) (.word t)
  match item.1 with
  | .index _ => pure ()
  | .name _ => Run.setVariable r item.1 (.word t)

def eachItem (inner : Compiler) (f : Frame) (var code : Text) : List (Key × Value) → Run Unit
  | [] => return
  | item :: rest => do
    bindItem f.rule var item
    inner.work f code
    eachItem inner f var code rest

def eachOf (inner : Compiler) (f : Frame) (head : Text) : Run (Text × List (Key × Value)) := do
  let (var, items) := Text.cut "in".toList head
  let v ← calculate inner f.rule (← Run.contextOf f.rule) items
  if ← v.isTrue then
    let l ← v.listing
    let var ← interpolate inner f.rule true (Text.trim var)
    return (var, l.items)
  else return ([], [])

def runEach (inner : Compiler) (f : Frame) (head code : Text) : Run Unit := do
  let (var, items) ← eachOf inner f head
  eachItem inner f var code items

end SheetPress.Compile
