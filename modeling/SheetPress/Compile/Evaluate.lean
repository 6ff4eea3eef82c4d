import SheetPress.Expr.Eval

/-!
# Expressions of a rule

In a rule, a variable stands for what the rule's context holds; a word found there is
read as an expression again.  A call goes to a function that the stylesheet defines, or
else to the library, or else stands for itself.

A function of a stylesheet runs code, and code evaluates expressions: the two are tied
together by a `Compiler`.
-/

set_option autoImplicit false

namespace SheetPress

/-- Where code is worked on: the rule it belongs to, the rule that owns the nested rules,
the start of property names if the code stands in a property, and the media. -/
structure Frame where
  rule : Nat
  owner : Nat
  scope : Option Text
  media : Option (List Text)

/-- The two operations that need each other. -/
structure Compiler where
  /-- The value of an expression in a rule; nothing if it has none. -/
  value : (expression : Text) → (rule : Nat) → Run Value
  work : Frame → (code : Text) → Run Unit

namespace Compile

def variableValue (inner : Compiler) (r : Nat) (name : Text) : Run Value := do
  match (← Run.contextOf r).get? name with
  | none => return .word name
  | some (.word t) =>
    if t == name then return .word t
    match ← inner.value t r with
    | .nothing => return .word t
    | v => return v
  | some v => return v

def argumentsOf : Option Value → Run Listing
  | some (.list slot items) => do return ⟨← Calc.separator slot, items⟩
  | _ => return ⟨none, []⟩

def namedArguments (items : List (Key × Value)) : List (Text × Value) :=
  items.filterMap fun p =>
    match p.1 with
    | .index _ => none
    | .name t => some ((t.drop 1).map fun c => if c == '-' then '_' else c, p.2)

def orderedArguments (items : List (Key × Value)) : List Value :=
  (items.filter fun p => p.1.isIndex).map Prod.snd

/-- Run a function of the stylesheet.  Its code sees the variables of the rule that
defines it, and the arguments; its value is what it returns. -/
def runFunction (inner : Compiler) (r : Nat) (f : FunctionDef) (ordered : List Value)
    (named : List (Text × Value)) : Run Value := do
  if named.any (·.1 == ['R']) then throw .wrongKind
  let context := (← Run.contextOf f.rule).update (f.mixin.defaults.map fun p => (.name p.1, p.2))
  if f.mixin.parameters.length < ordered.length then throw .outOfRange
  let context := context.update ((f.mixin.parameters.zip ordered).map fun p => (.name p.1, p.2))
  let context := context.update (named.map fun p => (.name p.1, p.2))
  let caller ← Run.rule r
  let rule ← Run.newRule
    { caller with
      context := ← Run.newContext context
      settings := ← Run.newSettings (← Run.settingsOf f.rule)
      deps := []
      sink := some (← Run.newSink)
      line := f.line }
  match f.mixin.body with
  | .word code =>
    inner.work ⟨rule, f.owner, some (f.scope.getD []), caller.media⟩ code
    let result := (← Run.settingsOf rule).get? "@return".toList
    return (result.map Setting.toValue).getD (.word [])
  | _ => throw .wrongKind

def definitionKey (kind name : Text) (count : Nat) : Text :=
  kind ++ ' ' :: (name ++ ':' :: Text.ofNat count)

def applyFunction (inner : Compiler) (r : Nat) (name : Text) (ordered : List Value)
    (named : List (Text × Value)) : Run Value := do
  let library : Run Value :=
    match Library.find? name ordered.length with
    | some f => f.apply ordered named
    | none => throw .missingKey
  match (← Run.settingsOf r).get? (definitionKey "@function".toList name ordered.length) with
  | some (.function f) => runFunction inner r f ordered named
  | some s => if ← s.isTrue then throw .wrongKind else library
  | none => library

def namedTexts : List (Key × Value) → Calc (List Text)
  | [] => return []
  | (.index _, _) :: rest => namedTexts rest
  | (.name n, v) :: rest => do
    let t ← v.shown
    return (n ++ ": ".toList ++ t) :: (← namedTexts rest)

/-- The text of an argument list: arguments without a name, then the others.  The two parts
are divided only if neither is empty. -/
def argumentText (between : Text) (items : List (Key × Value)) : Calc Text := do
  let ordered := Text.joinWith between (← Library.shownAll (orderedArguments items))
  let named := Text.joinWith between (← namedTexts items)
  if ordered.isEmpty || named.isEmpty then return ordered ++ named
  else return ordered ++ between ++ named

def unknownCall (r : Nat) (name : Text) (arguments : Listing) : Run Value := do
  let known := name.map fun c => if c == '_' then '-' else c
  if !Library.isForeign known then
    let count := (orderedArguments arguments.items).length
    let place ← Run.placeOf r
    Run.logLine .error ("Required function not found: ".toList ++ known ++
      ':' :: Text.ofNat count ++ " (".toList ++ place ++ [')'])
  let between := arguments.separator.getD [] ++ [' ']
  return .string (name ++ '(' :: ((← argumentText between arguments.items) ++ [')']))

/-- The value of a call; `otherwise` is its value if there is no such function.  A list
takes over the separator of the arguments. -/
def callWith (inner : Compiler) (r : Nat) (name : Text) (arguments : Listing)
    (otherwise : Run Value) : Run Value := do
  let known := name.map fun c => if c == '_' then '-' else c
  let apply : Run Value := do
    let v ← applyFunction inner r known (orderedArguments arguments.items)
      (namedArguments arguments.items)
    match v, arguments.separator with
    | .list slot _, some s =>
      if !arguments.items.isEmpty then
        Calc.setSeparator slot (if s.isEmpty then none else some s)
    | _, _ => pure ()
    return v
  match ← Run.attempt apply with
  | .ok v => return v
  | .error .missingKey => otherwise
  | .error f => throw f

def callValue (inner : Compiler) (r : Nat) (name : Text) (arguments : Option Value) :
    Run Value := do
  let arguments ← argumentsOf arguments
  callWith inner r name arguments (unknownCall r name arguments)

def measuredValue (inner : Compiler) (r : Nat) (v : Value) (unit : Text) : Run Value := do
  let arguments := [v, .word unit]
  callWith inner r unit ⟨none, Items.ofList arguments⟩ do
    return .string (Text.joinWith [' '] (← Library.mapAll Value.spelled arguments))

def meaning (inner : Compiler) (r : Nat) : Expr.Meaning where
  named := variableValue inner r
  call := callValue inner r
  measure := measuredValue inner r

/-- Run a computation for an expression.  A fault leaves a note and no value; a mistake in
the grammar does not even leave a note.  While debugging, the fault goes on. -/
def guarded (r : Nat) (expression : Text) (x : Run Value) : Run Value := do
  match ← Run.attempt x with
  | .ok v => return v
  | .error f =>
    let isMistake :=
      match f with
      | .unexpected _ => true
      | _ => false
    if !isMistake then
      let place ← Run.placeOf r
      Run.ofCalc (Calc.note (.failed f expression place))
    if (← get).debug then throw f
    return .nothing

def value (inner : Compiler) (expression : Text) (r : Nat) : Run Value :=
  guarded r expression (Expr.eval (meaning inner r) (Expr.parse expression))

def valueText (inner : Compiler) (expression : Text) (r : Nat) : Run (Option Text) := do
  let v ← guarded r expression do
    match ← Expr.eval (meaning inner r) (Expr.parse expression) with
    | .nothing => return .nothing
    | v => return .word (← v.shown)
  match v with
  | .word t => return some t
  | _ => return none

end Compile

end SheetPress
