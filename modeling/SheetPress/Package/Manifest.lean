import SheetPress.Files

/-!
# Manifests

What has to be found out to build a package of a directory: the texts that describe it, and
the directories and files that belong to it.
-/

set_option autoImplicit false

namespace SheetPress.Package

/-- What the manifest says about the directory it is made of. -/
structure Manifest where
  description : Text
  guide : Text
  modules : List Text
  files : List Text
  deriving DecidableEq, Repr

/-- The directory of the package below the home directory. -/
def packageName : Text := "zetalibrary".toList

/-- The file that makes a directory a module. -/
def moduleMark : Text := "__init__.py".toList

def textOf (fs : Files) (p : Text) : Text := (fs.read? p).getD []

/-- The parts of the path from the directory `p` down to a file in it. -/
def partsBelow (fs : Files) (p : Text) (file : Text) : Option (List Text) :=
  let top := Path.parts (Path.absolute fs.home p)
  let parts := Path.parts file
  if parts.take top.length = top then some (parts.drop top.length) else none

/-- The directory with these parts below the home is a module, and so are all that it is
in. -/
def isModule (fs : Files) (parts : List Text) : Bool :=
  (List.range parts.length).all fun n =>
    fs.isFile (Path.joinAll fs.home (parts.take (n + 1) ++ [moduleMark])) &&
      !((parts.drop n).headD []).any (· == '.')

def modulesOf (fs : Files) : List Text :=
  let found := fs.entries.filterMap fun e =>
    match partsBelow fs fs.home e.1 with
    | none => none
    | some parts =>
      let directory := parts.dropLast
      if parts.getLast? = some moduleMark && !directory.isEmpty && isModule fs directory then
        some (Text.joinWith ['.'] directory)
      else none
  Text.sortedSet found

def dataFiles (fs : Files) : List Text :=
  let library := "libs".toList
  let found := fs.entries.filterMap fun e =>
    match partsBelow fs (Path.join packageName library) e.1 with
    | none | some [] => none
    | some parts => some (Text.joinWith ['/'] (library :: parts))
  Text.sortedSet ("shell.sh".toList :: found)

/-- The manifest of the package in the home directory.  The texts that describe it stand
beside the file `script`. -/
def manifestOf (fs : Files) (script : Text) : Manifest :=
  let beside (name : String) : Text := textOf fs (Path.join (Path.parent script) name.toList)
  { description := beside "DESCRIPTION"
    guide := beside "README.rst"
    modules := modulesOf fs
    files := dataFiles fs }

end SheetPress.Package
