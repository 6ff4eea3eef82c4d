import SheetPress.Bundle.Workspace

/-!
# Gathering sources

To pack a source, all sources that it needs are gathered, and those that they need.  A
source comes behind the ones that it needs.  What a source needs is settled when it is
looked at: sources that were looked at before are left out then, and only then.
-/

set_option autoImplicit false

namespace SheetPress.Bundle

structure Entry where
  path : Text
  /-- The source that needs it. -/
  parent : Option Text
  language : Language
  source : Text

inductive Found where
  /-- A file of no known language. -/
  | foreign
  | unreadable (reason : Text)
  /-- A source without its imports, and the paths that it needs. -/
  | source (l : Language) (text : Text) (needed : List Text)

structure Gathering where
  visited : List Text := []
  entries : List Entry := []
  messages : List Message := []
  fault : Option Fault := none

namespace Gathering

def visit (g : Gathering) (p : Text) : Gathering :=
  if g.visited.contains p then g else { g with visited := p :: g.visited }

def say (g : Gathering) (isError : Bool) (t : Text) : Gathering :=
  { g with messages := ⟨isError, t⟩ :: g.messages }

def add (g : Gathering) (e : Entry) : Gathering := { g with entries := g.entries ++ [e] }

def finish (g : Gathering) (p : Text) : Gathering := g.say false (" * ".toList ++ p)

end Gathering

def gatherAll (gatherOne : Gathering → Text → Gathering) : Gathering → List Text → Gathering
  | g, [] => g
  | g, p :: rest =>
    match g.fault with
    | some _ => g
    | none => gatherAll gatherOne (gatherOne g p) rest

/-- Gather a source and what it needs, at most `n` sources above each other. -/
def gather (look : Text → Found) : (n : Nat) → (parent : Option Text) → Gathering → Text →
    Gathering
  | 0, _, g, _ => { g with fault := some .tooDeep }
  | n + 1, parent, g, p =>
    let g := g.visit p
    match look p with
    | .foreign => { g with fault := some .missingPart }
    | .unreadable reason => (g.say true reason).finish p
    | .source l text needed =>
      let g := gatherAll (gather look n (some p)) g (needed.filter fun q => !g.visited.contains q)
      match g.fault with
      | some _ => g
      | none => (g.add ⟨p, parent, l, text⟩).finish p

/-! ## Looking at files -/

/-- A path in an error message: in quotes, with everything unprintable escaped. -/
def quotedPath (p : Text) : Text :=
  let quote := if p.any (· == '\'') && !p.any (· == '"') then '"' else '\''
  let isPlain (c : Char) : Bool := 0xA1 ≤ c.toNat && c.toNat != 0xAD
  quote :: (p.flatMap (fun c => if isPlain c then [c] else inspectByte quote c) ++ [quote])

/-- A part of the path before the last one is a file. -/
def passesFile (fs : Files) (p : Text) : Bool :=
  let parts := Path.parts p
  (List.range parts.length).any fun n => fs.isFile (Files.pathOf (parts.take n))

def unreadableReason (fs : Files) (p : Text) : Text :=
  let start :=
    if fs.isDirectory p then "[Errno 21] Is a directory: "
    else if passesFile fs p then "[Errno 20] Not a directory: "
    else "[Errno 2] No such file or directory: "
  start.toList ++ quotedPath p

/-- Where paths of the library and of the user's own directory lead. -/
structure Places where
  here : Text
  library : Text
  directory : Option Text

def libraryMark : Text := "zeta://".toList

def Places.resolve (places : Places) (fs : Files) (start name : Text) : Text :=
  if Text.startsWith name "http://".toList then name
  else
    match Text.after? libraryMark name with
    | none => Path.absolute places.here (Path.normal (Path.join start name))
    | some rest =>
      let p := Path.join places.library rest
      match places.directory with
      | some d => if fs.exists? p then p else Path.join d rest
      | none => p

def Places.needed (places : Places) (fs : Files) (p : Text) (names : List Text) : List Text :=
  let start := Path.parent p
  names.map fun n =>
    let q := Path.join start (places.resolve fs start n)
    Path.absolute places.here (Path.relative places.here q places.here)

def look (fs : Files) (places : Places) (p : Text) : Found :=
  match Language.ofPath? p with
  | none => .foreign
  | some l =>
    match fs.read? p with
    | none => .unreadable (unreadableReason fs p)
    | some content =>
      let (text, names) := l.splitImports content
      .source l text (places.needed fs p names)

/-- Gather all that a source needs.  No way through the sources is longer than there are
files. -/
def gatherFrom (fs : Files) (places : Places) (p : Text) : Gathering :=
  gather (look fs places) (fs.entries.length + 2) none {} p

end SheetPress.Bundle
