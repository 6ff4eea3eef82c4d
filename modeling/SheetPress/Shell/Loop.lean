import SheetPress.Shell.Options
import SheetPress.Shell.Listing
import SheetPress.Package.Release
import SheetPress.Compile.Stylesheet

/-!
# The shell

The shell reads a line, evaluates the expressions in it, which semicolons divide, and prints
their values.  Assignments to variables are kept for the lines that follow.
-/

set_option autoImplicit false

namespace SheetPress.Shell

/-- What the program prints between reads, the fault that ended it, and the journal, latest
note first. -/
structure Transcript where
  printed : List Text
  fault : Option Fault := none
  journal : List Note := []

namespace Transcript

def last (t : Text) : Transcript := { printed := [t] }

def after (t : Text) (rest : Transcript) : Transcript :=
  { rest with printed := t :: rest.printed }

end Transcript

def assignment? (t : Text) : Option (Text × Text) :=
  match t with
  | '$' :: _ =>
    match Text.cutAt? (fun c => c == ':' || c == '=') t with
    | some (name, _, v) => some (Text.trim name, Text.trim v)
    | none => none
  | _ => none

def refused : List Text := ["@option", "@import", "@include"].map String.toList

/-- Evaluate an expression in the rule of the shell and print its value. -/
def evaluate (r : Nat) (t : Text) : Run Text := do
  let inner := Compile.compiler Compile.depthLimit
  let context ← Run.contextOf r
  let v ← Compile.calculate inner r context t
  return (← Compile.compress (← v.shown)) ++ ['\n']

def assign (r : Nat) (name value : Text) : Run Unit := do
  let inner := Compile.compiler Compile.depthLimit
  let name ← Compile.interpolate inner r true name
  let context ← Run.contextOf r
  let v ← Compile.calculate inner r context value
  Run.setVariable r (.name name) v

def runPart (r : Nat) (part : Text) : Run Text := do
  let t ← Run.load none (Text.trim part)
  if t.isEmpty then return []
  if Text.startsWith t ['@'] then
    if refused.contains (t.takeWhile fun c => !Text.isSpace c) then throw .wrongKind
    evaluate r t
  else
    match Query.of? t with
    | some q => q.answer (← Run.contextOf r) (← Run.settingsOf r)
    | none =>
      match assignment? t with
      | some (name, value) => do
        assign r name value
        return []
      | none => evaluate r t

def runParts (r : Nat) : Session → List Text → Text × Option Fault × Session
  | s, [] => ([], none, s)
  | s, part :: rest =>
    match (runPart r part).run s with
    | (.error f, s) => ([], some f, s)
    | (.ok t, s) =>
      let (u, f, s) := runParts r s rest
      (t ++ u, f, s)

def farewell : Text := "Bye!\n".toList

/-- How the shell goes on after a line. -/
inductive Outcome where
  | running (s : Session)
  | closed (s : Session)
  | failed (f : Fault) (s : Session)

def runLine (r : Nat) (s : Session) : Option Text → Text × Outcome
  | none => ('\n' :: farewell, .closed s)
  | some line =>
    let t := Text.trim line
    if t = "exit".toList || t = "quit".toList then (farewell, .closed s)
    else
      match runParts r s (Text.splitOn ';' t) with
      | (printed, some f, s) => (printed, .failed f s)
      | (printed, none, s) => (printed, .running s)

def runLines (r : Nat) : Session → List (Option Text) → Transcript
  | s, [] => { printed := [(runLine r s none).1], journal := s.pool.journal }
  | s, line :: rest =>
    match runLine r s line with
    | (printed, .running s) => .after printed (runLines r s rest)
    | (printed, .closed s) => { printed := [printed], journal := s.pool.journal }
    | (printed, .failed f s) => { printed := [printed], fault := some f, journal := s.pool.journal }

/-- The rule that expressions are evaluated in.  It has no place in a source. -/
def shellRule : Run Nat := do
  let r ← Compile.topRule none []
  modify fun s => { s with rules := s.rules.modify r fun rule => { rule with indexed := false } }
  return r

def welcome : Text :=
  "Welcome to ".toList ++ Package.Release.compiler.build ++ " interactive shell\n".toList

def start (s : Session) : Except Fault Nat × Session := shellRule.run (s.restart [] [])

def interact (s : Session) (lines : List (Option Text)) : Transcript :=
  match start s with
  | (.error f, _) => { printed := [[]], fault := some f }
  | (.ok r, s) => .after welcome (runLines r s lines)

/-! ## The program -/

/-- The load paths with those of an option, each once. -/
def addLoadPaths (paths : List Text) (option : Text) : List Text :=
  let parts := (Text.splitOn ',' (option.map fun c => if c == ';' then ',' else c)).map Text.trim
  parts.foldl (fun ps p => if p.isEmpty || ps.contains p then ps else ps ++ [p])
    (paths.map Text.trim)

/-- The session with the paths that options name. -/
def configure (g : Given) (s : Session) : Session :=
  let s :=
    match g.value? .loadPath with
    | some t => { s with loadPaths := addLoadPaths s.loadPaths t }
    | none => s
  match g.value? .staticRoot with
  | some t =>
    { s with pool :=
      { s.pool with assets := { s.pool.assets with staticRoot := t, store := none } } }
  | none => s

/-- Compiling files is left to other programs: once the output is open, this one stops. -/
def compileFiles (g : Given) (fs : Files) : Transcript :=
  let isOpen :=
    match g.value? .output with
    | none => true
    | some p => !fs.isDirectory p && (fs.resolve p).isSome
  { printed := [[]], fault := some (if isOpen then .wrongKind else .unreadable) }

inductive Task where
  /-- Print something and end, maybe with a fault. -/
  | finish (t : Transcript)
  | shell (s : Session)

def Task.ofArguments (s : Session) (args : List Text) : Task :=
  match Request.ofArguments args with
  | .wrong => .finish { printed := [[]], fault := some (.leave 2) }
  | .help => .finish { printed := [helpText "scss".toList], fault := some (.leave 0) }
  | .run g =>
    if g.has .test then .finish (.last [])
    else if g.has .version then .finish (.last (Package.Release.compiler.build ++ ['\n']))
    else if g.has .interactive then .shell (configure g s)
    else if g.has .watch then .finish { printed := [[]], fault := some (.leave 1) }
    else .finish (compileFiles g s.pool.assets.files)

def run (s : Session) (args : List Text) (lines : List (Option Text)) : Transcript :=
  match Task.ofArguments s args with
  | .finish t => t
  | .shell s => interact s lines

end SheetPress.Shell
