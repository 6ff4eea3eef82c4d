import SheetPress.Path

/-!
# Files

A tree of files is a table from absolute paths to contents.  Directories exist where a
file needs them; the home directory always exists.
-/

set_option autoImplicit false

namespace SheetPress

/-- Files by their absolute paths, and the directory that relative paths start from. -/
structure Files where
  home : Text
  entries : List (Text × Text)

namespace Files

def empty (home : Text) : Files := ⟨home, []⟩

def pathOf (parts : List Text) : Text := '/' :: Text.joinWith ['/'] parts

def isBelow (start p : List Text) : Bool := start.length < p.length && p.take start.length == start

/-- A directory: the home directory, one above it, or one that holds a file. -/
def isDirectoryAt (fs : Files) (parts : List Text) : Bool :=
  let home := Path.parts fs.home
  home == parts || isBelow parts home || fs.entries.any fun e => isBelow parts (Path.parts e.1)

/-- Follow the parts of a path; each but the last has to lead into a directory. -/
def follow (fs : Files) : (done : List Text) → List Text → Option (List Text)
  | done, [] => some done
  | done, part :: rest =>
    if part.isEmpty || part == ['.'] then
      if fs.isDirectoryAt done then follow fs done rest else none
    else if !fs.isDirectoryAt done then none
    else if part == ['.', '.'] then follow fs done.dropLast rest
    else follow fs (done ++ [part]) rest

def resolve (fs : Files) (p : Text) : Option Text :=
  if p.isEmpty then none
  else (fs.follow [] (Text.splitOn '/' (Path.join fs.home p)).tail).map pathOf

def read? (fs : Files) (p : Text) : Option Text :=
  match fs.resolve p with
  | some q => fs.entries.lookup q
  | none => none

def isDirectory (fs : Files) (p : Text) : Bool :=
  match fs.resolve p with
  | some q => fs.isDirectoryAt (Path.parts q)
  | none => false

def isFile (fs : Files) (p : Text) : Bool := (fs.read? p).isSome

def exists? (fs : Files) (p : Text) : Bool := fs.isFile p || fs.isDirectory p

def names (fs : Files) (p : Text) : List Text :=
  match fs.resolve p with
  | none => []
  | some q =>
    let here := Path.parts q
    Text.sortedSet (fs.entries.filterMap fun e =>
      let ps := Path.parts e.1
      if isBelow here ps then (ps.drop here.length).head? else none)

def write (fs : Files) (p content : Text) : Files :=
  if fs.entries.any (·.1 == p) then
    { fs with entries := fs.entries.map fun e => if e.1 == p then (p, content) else e }
  else { fs with entries := fs.entries ++ [(p, content)] }

end Files

end SheetPress
