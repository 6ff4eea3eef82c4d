import SheetPress.Compile.Interpolate

/-!
# Mixins and functions

A definition gives a name to code with parameters.  It is known under its name for every
number of arguments that it can do with: all of its parameters, or fewer as long as the
missing ones at the end have defaults.
-/

set_option autoImplicit false

namespace SheetPress.Compile

def readHead (t : Text) : Text × List Text :=
  match Text.cut? ['('] t with
  | some (name, rest) => (Text.trim name, Text.splitArguments (Text.unwrap ('(' :: rest)))
  | none => (Text.trim t, Text.splitArguments [])

def readParameter (t : Text) : Text × Text :=
  let (name, usual) := Text.cut [':'] t
  (Text.trim name, Text.trim usual)

/-- The numbers of arguments that a definition is known for, from its parameters, last one
first. -/
def aritiesFrom (hasDefault : Text → Bool) : (parameters : List Text) → List Nat
  | [] => [0]
  | p :: rest =>
    (rest.length + 1) ::
      (if hasDefault p then aritiesFrom hasDefault rest else if rest.isEmpty then [0] else [])

def arities (parameters : List Text) (hasDefault : Text → Bool) : List Nat :=
  aritiesFrom hasDefault parameters.reverse

def defaultsOf (c : Context) : List (Text × Text) → Calc (List (Text × Value))
  | [] => return []
  | (name, usual) :: rest => do
    if usual.isEmpty then defaultsOf c rest
    else
      let v ← substituteValue c false usual
      let others ← defaultsOf c rest
      if others.any (·.1 == name) then return others else return (name, v) :: others

def readMixin (c : Context) (parameters : List Text) (code : Text) : Calc Mixin := do
  let read := (parameters.map readParameter).filter fun p => !p.1.isEmpty
  let names := read.map Prod.fst
  let defaults ← defaultsOf c read
  return ⟨names, defaults, ← substituteValue (c.without names) false code⟩

def define (f : Frame) (line : Int) (kind head code : Text) : Run Unit := do
  if head.isEmpty then return
  let (name, parameters) := readHead head
  let mixin ← readMixin (← Run.contextOf f.rule) parameters code
  let setting : Setting :=
    if kind == "@function".toList then .function ⟨mixin, f.rule, f.owner, f.scope, line⟩
    else .mixin mixin
  let counts := arities mixin.parameters fun p => mixin.defaults.any (·.1 == p)
  Run.modifySettings f.rule fun s =>
    counts.foldl (fun s n => s.set (definitionKey kind name n) setting) s

/-! ## Inclusion -/

def readArguments : (count : Nat) → List Text → List (Key × Text) × Nat
  | n, [] => ([], n)
  | n, t :: rest =>
    let (name, given) := Text.cut [':'] t
    if given.isEmpty then
      let t := Text.trim name
      if t.isEmpty then readArguments n rest
      else
        let (args, total) := readArguments (n + 1) rest
        ((.index n, t) :: args, total)
    else
      let t := Text.trim given
      let (args, total) := readArguments n rest
      let key := Key.name (Text.trim name)
      if t.isEmpty then (args, total)
      else if args.any (·.1 == key) then
        ((key, (args.lookup key).getD t) :: args.filter (·.1 != key), total)
      else ((key, t) :: args, total)

def positionsFirst (args : List (Key × Text)) : List (Key × Text) :=
  args.filter (·.1.isIndex) ++ args.filter fun p => !p.1.isIndex

/-- Find the mixin for an inclusion.  One with a single parameter takes all arguments
together. -/
def findMixin (s : Settings) (name : Text) (args : List (Key × Text)) (count : Nat) :
    Option (Mixin × List (Key × Text)) :=
  match s.get? (definitionKey "@mixin".toList name count) with
  | some (.mixin m) => some (m, args)
  | _ =>
    match s.get? (definitionKey "@mixin".toList name 1) with
    | some (.mixin m) =>
      if args.all (·.1.isIndex) then
        some (m, [(.index 0, Text.joinWith ", ".toList (args.map Prod.snd))])
      else some (m, args)
    | _ => none

def bindArguments (inner : Compiler) (r : Nat) (parameters : List Text) :
    (bound : Context) → List (Key × Text) → Run Context
  | bound, [] => return bound
  | bound, (key, t) :: rest => do
    let target :=
      match key with
      | .index (.ofNat i) => ((parameters[i]?).map Key.name).getD key
      | key => key
    let v ← calculate inner r (← Run.contextOf r) t
    bindArguments inner r parameters (Context.set target v bound) rest

/-- Evaluate words among the bound values once more, now that all are bound.  Arguments
that were given by name are left alone. -/
def settleArguments (inner : Compiler) (r : Nat) (args : List (Key × Text)) :
    (bound : Context) → List Key → Run Context
  | bound, [] => return bound
  | bound, k :: rest => do
    match bound.lookup k with
    | some (.word t) =>
      if args.any (·.1 == k) then settleArguments inner r args bound rest
      else
        let v ← calculate inner r bound t
        settleArguments inner r args (Context.set k v bound) rest
    | _ => settleArguments inner r args bound rest

/-- Find the mixin that is included, and make a rule for its code, with the arguments among its
variables. -/
def enterMixin (inner : Compiler) (f : Frame) (line : Int) (head : Text) :
    Run (Option (Nat × Text)) := do
  let (name, texts) := readHead head
  let name ← interpolate inner f.rule true name
  let (args, count) := readArguments 0 texts
  match findMixin (← Run.settingsOf f.rule) name (positionsFirst args) count with
  | none =>
    let place ← Run.placeOf f.rule
    Run.logLine .error ("Required mixin not found: ".toList ++ name ++ ':' :: Text.ofNat count ++
      " (".toList ++ place ++ [')'])
    return none
  | some (mixin, args) =>
    let start : Context := mixin.defaults.map fun p => (.name p.1, p.2)
    let bound ← bindArguments inner f.rule mixin.parameters start args
    let bound ← settleArguments inner f.rule args bound (bound.map Prod.fst)
    let context := (← Run.contextOf f.rule).update bound
    let rule ← Run.newRule
      { ← Run.rule f.rule with context := ← Run.newContext context, line }
    match mixin.body with
    | .word code => return some (rule, code)
    | _ => throw .wrongKind

def runInclude (inner : Compiler) (f : Frame) (line : Int) (head : Text) : Run Unit := do
  match ← enterMixin inner f line head with
  | none => return
  | some (rule, code) => inner.work { f with rule } code

end SheetPress.Compile
