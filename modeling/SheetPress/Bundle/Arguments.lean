import SheetPress.Bundle.Workspace

/-!
# Arguments and configurations

Packing takes named arguments.  Those that are not given can come from configuration
files: lines `name = value` or `name : value` in sections.  A comment line starts with `#`
or `;`, and a semicolon behind a blank starts a comment too.  A line that stands further in
than the entry before it goes on with its value.
-/

set_option autoImplicit false

namespace SheetPress.Bundle

inductive Argument where
  | nothing
  | flag (b : Bool)
  | whole (i : Int)
  | text (t : Text)
  deriving DecidableEq, Repr

namespace Argument

def isTrue : Argument → Bool
  | .nothing => false
  | .flag b => b
  | .whole i => i != 0
  | .text t => !t.isEmpty

def asText : Argument → Work Text
  | .text t => return t
  | _ => throw .wrongKind

end Argument

abbrev Arguments := List (Text × Argument)

namespace Arguments

def value (a : Arguments) (name : String) : Argument := (a.lookup name.toList).getD .nothing

def setDefault (name : Text) (v : Argument) : Arguments → Arguments
  | [] => [(name, v)]
  | (n, w) :: rest =>
    if n = name then (n, if w = .nothing then v else w) :: rest
    else (n, w) :: setDefault name v rest

end Arguments

/-! ## Configurations -/

namespace Config

def sectionName : Text := "Zeta".toList

abbrev Entries := List (Text × List Text)

def set (name : Text) (lines : List Text) : Entries → Entries
  | [] => [(name, lines)]
  | (n, ls) :: rest => if n = name then (n, lines) :: rest else (n, ls) :: set name lines rest

def append (name line : Text) (es : Entries) : Entries :=
  set name ((es.lookup name).getD [] ++ [line]) es

structure State where
  entries : Entries
  /-- The section, once there is one. -/
  current : Option Text := none
  name : Option Text := none
  /-- How far in the last entry stands; nothing stands further in than no entry. -/
  indent : Option Nat := none
  faulty : Bool := false

/-- The text before a semicolon that starts a comment. -/
def beforeComment : (previous : Option Char) → Text → Text
  | _, [] => []
  | previous, c :: rest =>
    if c == ';' && previous.all Text.isSpace then [] else c :: beforeComment (some c) rest

def header? (t : Text) : Option Text :=
  match t with
  | '[' :: rest =>
    let tail := rest.reverse.dropWhile (· != ']')
    match tail.drop 1 with
    | [] => none
    | name => some name.reverse
  | _ => none

def entry? (t : Text) : Option (Text × Text) :=
  match Text.cutAt? (fun c => c == '=' || c == ':') t with
  | none => none
  | some (name, _, v) =>
    let name := Text.lower (Text.trimRight name)
    if name.isEmpty then none else some (name, Text.trim v)

def State.isOpen (s : State) : Bool := s.current == some sectionName

def State.addLine (s : State) (line : Text) : State :=
  match s.name with
  | some n => if s.isOpen then { s with entries := append n line s.entries } else s
  | none => s

/-- A line that opens a section or holds an entry. -/
def State.addEntry (s : State) (indent : Nat) (t : Text) : Except Fault State :=
  let s := { s with indent := some indent }
  match header? t with
  | some name => .ok { s with current := some name, name := none }
  | none =>
    if s.current.isNone then .error .headless
    else
      match entry? t with
      | none => .ok { s with faulty := true }
      | some (name, v) =>
        let entries := if s.isOpen then set name [v] s.entries else s.entries
        .ok { s with name := some name, entries }

def State.readLine (s : State) (line : Text) : Except Fault State :=
  let start := Text.trim line
  let isComment := start.head?.any fun c => c == '#' || c == ';'
  let kept := if isComment then [] else beforeComment none line
  let t := Text.trim kept
  if t.isEmpty then .ok (if kept.length = line.length then s.addLine [] else s)
  else
    let indent := (line.takeWhile Text.isSpace).length
    let goesOn := s.name.isSome && (s.indent.all fun n => n < indent)
    if goesOn then .ok (s.addLine t) else s.addEntry indent t

def readLines : State → List Text → Except Fault State
  | s, [] => if s.faulty then .error .noEntry else .ok s
  | s, l :: rest =>
    match s.readLine l with
    | .error f => .error f
    | .ok s => readLines s rest

def fileLines (content : Text) : List Text :=
  let lines := Text.splitOn '\n' content
  if lines.getLast? == some [] then lines.dropLast else lines

def joinLines (es : Entries) : Entries :=
  es.map fun p => (p.1, [Text.trimRight (Text.joinWith ['\n'] p.2)])

def readFiles (fs : Files) : Entries → List Text → Except Fault Entries
  | es, [] => .ok es
  | es, p :: rest =>
    match fs.read? p with
    | none => readFiles fs es rest
    | some content =>
      match readLines { entries := es } (fileLines content) with
      | .error f => .error f
      | .ok s => readFiles fs (joinLines s.entries) rest

end Config

def Arguments.configure (a : Arguments) : Work Arguments := do
  let w ← get
  let last :=
    match a.value "setup_file" with
    | .text t => t
    | _ => []
  match Config.readFiles w.files [] (w.configs ++ [last]) with
  | .error f => throw f
  | .ok entries =>
    return entries.foldl
      (fun a p => a.setDefault p.1 (.text (Text.joinWith ['\n'] p.2))) a

end SheetPress.Bundle
