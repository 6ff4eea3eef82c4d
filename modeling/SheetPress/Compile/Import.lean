import SheetPress.Compile.Interpolate
import SheetPress.Glob

/-!
# Imports

An imported file is looked for under its name, with and without a leading underscore and
an ending, in the directories of the load paths and beside the importing file.  Addresses
and names that lead upwards are not imported: such a line is kept as it is.

A name that fits image files of the site asks for a sprite map of them.
-/

set_option autoImplicit false

namespace SheetPress.Compile

def sheetEnding : Text := ".scss".toList

def importNames (base : Text) : List Text :=
  ['_' :: (base ++ sheetEnding), base ++ sheetEnding, '_' :: base, base]

def importDirectories (home : Text) (loadPaths : List Text) (importer name : Text) : List Text :=
  let starts := ("./".toList :: loadPaths).flatMap fun p =>
    [Path.join p "./".toList, Path.join p (Path.parent importer)]
  (starts.map fun s =>
    Files.pathOf (Path.parts (Path.absolute home (Path.join s (Path.parent name))))).eraseDups

def importPaths (directories : List Text) (base : Text) : List Text :=
  directories.flatMap fun d => (importNames base).map (Path.join d)

def findImport (fs : Files) (directories : List Text) (base : Text) : Option (Text × Text) :=
  (importPaths directories base).findSome? fun p =>
    (fs.read? p).map fun content => (p, content)

def siteFiles (a : Assets) (name : Text) : List Text :=
  match a.store with
  | some times => if times.any (·.1 == name) then [name] else []
  | none =>
    ((Glob.expand a.files (Path.join a.staticRoot name)).map fun p =>
      p.drop a.staticRoot.length).mergeSort Text.le

/-- A variable of a sprite map keeps the value it has, or else gets its default. -/
def setMapVariable (inner : Compiler) (r : Nat) (map name : Text) (usual : Value) : Run Value := do
  let var := '$' :: (map ++ '-' :: name)
  match (← Run.contextOf r).get? var with
  | some v =>
    match v with
    | .word t => let _ ← variableValue inner r t
    | _ => pure ()
    return v
  | none =>
    Run.setVariable r (.name var) usual
    return usual

def setSpriteVariables (inner : Compiler) (r : Nat) (map : Text)
    (defaults : List (Text × Value)) : List Text → Run Unit
  | [] => return
  | image :: rest => do
    for (name, v) in defaults do
      let _ ← setMapVariable inner r map (image ++ '-' :: name) v
    setSpriteVariables inner r map defaults rest

/-- Make a sprite map, if the name asks for one.  Its variables are set, but images cannot
be opened. -/
def importSprites (inner : Compiler) (r : Nat) (name : Text) : Run Unit := do
  let files := siteFiles (← Calc.assets) name
  if files.isEmpty then return
  let map := (Path.normal (Path.parent name)).map fun c => if c == '/' || c == '\\' then '_' else c
  let set := setMapVariable inner r map
  let _ ← set "sprite-base-class".toList (.string ('.' :: (map ++ "-sprite".toList)))
  let _ ← set "sprite-dimensions".toList (.boolean (.truth false))
  let position ← set "position".toList (← Calc.newNumber (.percent (.real 0.0)))
  let spacing ← set "spacing".toList (← Calc.newNumber (.bare 0.0))
  let repeating ← set "repeat".toList (.string "no-repeat".toList)
  setSpriteVariables inner r map
    [("position".toList, position), ("spacing".toList, spacing), ("repeat".toList, repeating)]
    (files.map fun p => (Path.cutExtension (Path.base p)).1)
  throw .noImages

def importFile (inner : Compiler) (f : Frame) (line : Int) (name : Text) : Run Unit := do
  let key := "@import ".toList ++ name
  if (← Run.settingsOf f.rule).has key then return
  let files := (← Calc.assets).files
  let directories :=
    importDirectories files.home (← get).loadPaths (← Run.rule f.rule).path name
  match findImport files directories (Path.base name) with
  | none =>
    importSprites inner f.rule name
    Run.logLine .warning ("File to import not found or unreadable: '".toList ++ Path.base name ++
      "'\nLoad paths:\n\t".toList ++ Text.joinWith "\n\t".toList directories)
  | some (path, content) =>
    let code ← if content.isEmpty then pure [] else Run.load (some path) content
    let rule ← Run.newRule { ← Run.rule f.rule with path, line }
    inner.work { f with rule } code
    Run.setSetting f.rule key (.flag true)

def importFiles (inner : Compiler) (f : Frame) (line : Int) : List Text → Run Unit
  | [] => return
  | t :: rest => do
    importFile inner f line (Text.dequote (Text.trim t))
    importFiles inner f line rest

def isPlainImport (names : Text) : Bool :=
  (["..", "://", "url("].map String.toList).any fun t => Text.contains names t

def runImport (inner : Compiler) (f : Frame) (line : Int) (whole names : Text) : Run Unit := do
  if isPlainImport names then Run.addProperty f.rule ⟨line, whole, none⟩
  else importFiles inner f line (Text.splitOn ',' names)

end SheetPress.Compile
