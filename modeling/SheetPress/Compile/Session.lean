import SheetPress.Library.Table
import SheetPress.Source.Block
import SheetPress.Sheet.Print

/-!
# The state of a compilation

A compilation turns sources into rules.  Rules share things: rules that were included or
imported share the settings and the properties of the rule they stand in, and what one of
them changes, all of them see.  Shared things are kept in tables of the `Session`, and a
rule names its entries.

`Run` is the type of computations on a session.
-/

set_option autoImplicit false

namespace SheetPress

/-- Variables by name; an argument that no parameter takes has a position instead. -/
abbrev Context := List (Key × Value)

namespace Context

def get? (c : Context) (name : Text) : Option Value := c.lookup (.name name)

def set (k : Key) (v : Value) : Context → Context
  | [] => [(k, v)]
  | (l, w) :: rest => if l = k then (k, v) :: rest else (l, w) :: set k v rest

def update (c d : Context) : Context := d.foldl (fun c p => set p.1 p.2 c) c

def without (c : Context) (names : List Text) : Context :=
  c.filter fun p =>
    match p.1 with
    | .name t => !names.contains t
    | .index _ => true

end Context

structure Mixin where
  parameters : List Text
  /-- The values of parameters that can do without an argument. -/
  defaults : List (Text × Value)
  /-- The code; it has to be a word. -/
  body : Value

/-- A function that a stylesheet defines: its code, and where it was defined. -/
structure FunctionDef where
  mixin : Mixin
  rule : Nat
  /-- The rule whose parents the code can change. -/
  owner : Nat
  scope : Option Text
  line : Int

inductive Setting where
  | whole (i : Int)
  | flag (b : Bool)
  | text (t : Text)
  | result (v : Value)
  | mixin (m : Mixin)
  | function (f : FunctionDef)

namespace Setting

def isTrue : Setting → Calc Bool
  | .whole i => return i != 0
  | .flag b => return b
  | .text t => return !t.isEmpty
  | .result v => v.isTrue
  | .mixin _ | .function _ => return true

def toValue : Setting → Value
  | .whole i => .scalar (.whole i)
  | .flag b => .scalar (.truth b)
  | .text t => .word t
  | .result v => v
  | .mixin _ | .function _ => .nothing

def exceeds (n : Int) : Setting → Bool
  | .whole i => n < i
  | .flag b => n < (if b then 1 else 0)
  | _ => true

end Setting

abbrev Settings := List (Text × Setting)

namespace Settings

def get? (s : Settings) (name : Text) : Option Setting := s.lookup name

def set (name : Text) (v : Setting) : Settings → Settings
  | [] => [(name, v)]
  | (n, w) :: rest => if n = name then (n, v) :: rest else (n, w) :: set name v rest

def update (s t : Settings) : Settings := t.foldl (fun s p => set p.1 p.2 s) s

def erase (s : Settings) (name : Text) : Settings := s.filter fun p => p.1 != name

def has (s : Settings) (name : Text) : Bool := (s.get? name).isSome

end Settings

structure Rule where
  file : Option Text := none
  position : Option Nat := none
  /-- The code that is worked on when the rule's turn comes. -/
  code : Text := []
  /-- Positions of rules that have to come after this one. -/
  deps : List Nat := []
  context : Nat := 0
  settings : Nat := 0
  selectors : Text := []
  /-- Where its properties go; a rule for variables has no place for them. -/
  sink : Option Nat := none
  path : Text := ['.', '/']
  /-- The rule knows the places of its lines. -/
  indexed : Bool := false
  line : Int := 0
  media : Option (List Text) := none

/-- A rule while its code is worked on: what nested rules need from it, and what they give
back. -/
structure Owner where
  selectors : List Text
  parents : List Text := []
  children : List Nat := []

structure Session where
  pool : Pool := {}
  /-- Faults in expressions end the compilation. -/
  debug : Bool := false
  /-- Where imported files are looked for. -/
  loadPaths : List Text := []
  /-- The order in which sets of texts are gone through. -/
  sets : SetOrder := .inserted
  contexts : Array Context := #[]
  settings : Array Settings := #[]
  /-- Properties, latest first. -/
  sinks : Array (List Sheet.Property) := #[]
  owners : Array Owner := #[]
  rules : Array Rule := #[]
  queue : List Nat := []
  order : List Nat := []
  /-- Finished rules by their selectors. -/
  parts : List (Text × List Nat) := []
  /-- Where the numbered lines are. -/
  places : Array Text := #[]
  results : List (Text × Value) := []
  context : Nat := 0
  options : Nat := 0
  /-- The files that rules with properties belong to, in order. -/
  sheets : List (Option Text) := []
  filled : List Nat := []

abbrev Run := ExceptT Fault (StateM Session)

namespace Run

def ofCalc {α : Type} (x : Calc α) : Run α := fun s =>
  let p := s.pool
  let s := { s with pool := {} }
  let (r, p) := x.run p
  (r, { s with pool := p })

instance : MonadLiftT Calc Run := ⟨ofCalc⟩

/-- Keep a fault as a result; what has no end has none to keep. -/
def kept {α : Type} : Except Fault α → Except Fault (Except Fault α)
  | .error .endless => .error .endless
  | result => .ok result

/-- Run a computation and keep its fault, if it has one, as a result. -/
def attempt {α : Type} (x : Run α) : Run (Except Fault α) := fun s =>
  let (r, s) := x.run s
  (kept r, s)

def logLine (level : Level) (text : Text) : Run Unit := ofCalc (Calc.logLine level text)

/-! ## Entries -/

def rule (r : Nat) : Run Rule := do return (← get).rules.getD r {}

def modifyRule (r : Nat) (f : Rule → Rule) : Run Unit :=
  modify fun s => { s with rules := s.rules.modify r f }

def newRule (r : Rule) : Run Nat := do
  let s ← get
  set { s with rules := s.rules.push r }
  return s.rules.size

def contextOf (r : Nat) : Run Context := do
  let s ← get
  return s.contexts.getD (s.rules.getD r {}).context []

def newContext (c : Context) : Run Nat := do
  let s ← get
  set { s with contexts := s.contexts.push c }
  return s.contexts.size

/-- Set a variable of a rule, and of all that share its variables. -/
def setVariable (r : Nat) (k : Key) (v : Value) : Run Unit :=
  modify fun s =>
    let i := (s.rules.getD r {}).context
    { s with contexts := s.contexts.modify i (Context.set k v) }

def settingsOf (r : Nat) : Run Settings := do
  let s ← get
  return s.settings.getD (s.rules.getD r {}).settings []

def newSettings (t : Settings) : Run Nat := do
  let s ← get
  set { s with settings := s.settings.push t }
  return s.settings.size

/-- Change the settings of a rule, and of all that share them. -/
def modifySettings (r : Nat) (f : Settings → Settings) : Run Unit :=
  modify fun s =>
    let i := (s.rules.getD r {}).settings
    { s with settings := s.settings.modify i f }

def setSetting (r : Nat) (name : Text) (v : Setting) : Run Unit :=
  modifySettings r (Settings.set name v)

def newSink : Run Nat := do
  let s ← get
  set { s with sinks := s.sinks.push [] }
  return s.sinks.size

def addProperty (r : Nat) (p : Sheet.Property) : Run Unit := do
  match (← rule r).sink with
  | none => throw .missingPart
  | some i => modify fun s => { s with sinks := s.sinks.modify i (p :: ·) }

def propertiesOf (r : Nat) : Run (List Sheet.Property) := do
  let s ← get
  match (s.rules.getD r {}).sink with
  | none => return []
  | some i => return (s.sinks.getD i []).reverse

def owner (o : Nat) : Run Owner := do return (← get).owners.getD o ⟨[], [], []⟩

def modifyOwner (o : Nat) (f : Owner → Owner) : Run Unit :=
  modify fun s => { s with owners := s.owners.modify o f }

def newOwner (o : Owner) : Run Nat := do
  let s ← get
  set { s with owners := s.owners.push o }
  return s.owners.size

def placeOf (r : Nat) : Run Text := do
  let s ← get
  let rule := s.rules.getD r {}
  match rule.line with
  | .ofNat n =>
    match s.places[n]? with
    | some t => if rule.indexed then return t else throw .missingKey
    | none => throw .missingKey
  | .negSucc _ => throw .missingKey

def load (file : Option Text) (code : Text) : Run Text := do
  let s ← get
  let l := Source.load s.places.size file code
  set { s with places := s.places ++ l.places.toArray }
  return l.code

end Run

end SheetPress
