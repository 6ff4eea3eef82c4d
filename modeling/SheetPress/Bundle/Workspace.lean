import SheetPress.Bundle.Language
import SheetPress.Compile.Stylesheet

/-!
# The workspace

What packing works with: files, addresses that can be fetched, messages for the user, and a
session for stylesheets that have to be compiled.
-/

set_option autoImplicit false

namespace SheetPress.Bundle

/-- A message for the user. -/
structure Message where
  isError : Bool
  text : Text
  deriving DecidableEq, Repr

/-- Programs of others that make prepared sources short, one for each kind of source.  They may
be any functions of the text. -/
structure Minifiers where
  sheet : Text → Text := id
  script : Text → Text := id

/-- What packing works with. -/
structure Workspace where
  files : Files
  web : List (Text × Text) := []
  library : Text
  /-- The configuration files, those that count more last. -/
  configs : List Text := []
  messages : List Message := []
  session : Session := {}
  minifiers : Minifiers := {}

/-- Work on the workspace that can fail. -/
abbrev Work := ExceptT Fault (StateM Workspace)

namespace Work

/-- Leave a message. -/
def say (m : Message) : Work Unit := modify fun w => { w with messages := m :: w.messages }

/-- The files as they are now. -/
def files : Work Files := do return (← get).files

/-- The directory that paths start from. -/
def home : Work Text := do return (← files).home

/-- Work of the compiler on these files. -/
def ofRun {α : Type} (x : Run α) : Work α := fun w =>
  let s := w.session
  let s := { s with pool := { s.pool with assets := { s.pool.assets with files := w.files } } }
  let (r, s) := x.run s
  (r, { w with session := s })

/-- Forget what earlier stylesheets defined. -/
def newSession (compress : Bool) : Work Unit :=
  modify fun w =>
    { w with session := w.session.restart [] [("compress".toList, .flag compress)] }

/-- Write a file, or fail with `otherwise`. -/
def write (p content : Text) (otherwise : Fault) : Work Unit := do
  let w ← get
  match w.files.resolve p with
  | none => throw otherwise
  | some q =>
    if w.files.isDirectory q then throw otherwise
    set { w with files := w.files.write q content }

/-- The source at a path.  A remote one is fetched once and kept in the directory
`store`, if it can be. -/
def read (p store : Text) : Work Text := do
  let w ← get
  let path := if Text.startsWith p "http://".toList then Path.join store (Path.base p) else p
  if path == p || w.files.exists? path then
    match w.files.read? path with
    | some t => return t
    | none => throw .unreadable
  else
    match w.web.lookup p with
    | none => throw .unreadable
    | some page =>
      tryCatch (write path page .unreadable) fun _ => pure ()
      return page

end Work

/-- How sources are prepared: the directory that links are seen from, whether the result is to
be short, and what makes it short. -/
structure Preparation where
  base : Text
  compress : Bool
  minifiers : Minifiers := {}

namespace Preparation

/-- A source without what packing does not need. -/
def trim (p : Preparation) (source : Text) : Text :=
  Text.trim (if p.compress then dropComments source else source)

/-- A text made short by a minifier, where the result is to be short. -/
def shorten (p : Preparation) (minifier : Text → Text) (t : Text) : Text :=
  if p.compress then minifier t else t

/-- A stylesheet with its links as they are seen from the base. -/
def sheet (p : Preparation) (here : Text) (path : Option Text) (source : Text) : Text :=
  p.shorten p.minifiers.sheet (relinkAll here p.base path (p.trim source))

/-- A script, of which nothing but its length changes. -/
def script (p : Preparation) (source : Text) : Text :=
  p.shorten p.minifiers.script (p.trim source)

/-- Compile a stylesheet.  Variables, mixins and rules of earlier ones are still known, and
its rules may extend theirs. -/
def compiled (path : Option Text) (source : Text) : Run Text := do
  let code ← Run.load path (Text.trim source)
  Compile.enqueue (← Compile.topRule path code)
  Compile.finishRules
  return Text.trim (← Compile.compress (← Compile.printFile path))

/-- Make a source of a language ready for the packed file. -/
def prepare (p : Preparation) (l : Language) (path : Option Text) (source : Text) : Work Text := do
  let here ← Work.home
  match l with
  | .js => return p.script source
  | .css => return p.sheet here path source
  | .scss => Work.ofRun (compiled path (p.sheet here path source))

/-- A source, and the paths that it needs. -/
def readSource (p : Preparation) (l : Language) (path : Text) (parent : Option Text) :
    Work (Text × List Text) := do
  let store :=
    match parent with
    | none | some [] => p.base
    | some q => Path.parent q
  return l.splitImports (← Work.read path store)

end Preparation

end SheetPress.Bundle
