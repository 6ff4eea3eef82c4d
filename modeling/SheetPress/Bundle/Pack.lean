import SheetPress.Bundle.Gather
import SheetPress.Bundle.Arguments

/-!
# Packing

A packed file holds a source and all that it needs, each prepared for the place of the
packed file.  Unless the result is to be short, comments tell where each part comes from.
-/

set_option autoImplicit false

namespace SheetPress.Bundle

/-- A source that is packed, with what packing needs to know. -/
structure Job where
  path : Text
  preparation : Preparation
  places : Places

namespace Job

def start (path : Text) (a : Arguments) : Work Job := do
  let w ← get
  let directory :=
    match a.value "directory" with
    | .text [] => none
    | .text t => some t
    | _ => none
  return {
    path := Text.dropEndWhile (· == '/') path
    preparation :=
      { base := Path.absolute w.files.home (Path.parent path)
        compress := (a.value "compress").isTrue
        minifiers := w.minifiers }
    places := { here := w.files.home, library := w.library, directory } }

/-- A path as comments show it: paths of the library by their mark, others as seen from the
packed source. -/
def shownPath (j : Job) (p : Text) : Text :=
  if Text.startsWith p j.places.library then
    Text.replace j.places.library "zeta:/".toList p
  else Path.relative j.places.here p j.path

def heading (j : Job) (e : Entry) : Text :=
  let origin :=
    match e.parent with
    | none => []
    | some p => e.language.comment ("From: '".toList ++ j.shownPath p ++ ['\''])
  e.language.comment (List.replicate 10 '=') ++ origin ++
    e.language.comment ("Zeta import: '".toList ++ j.shownPath e.path ++ ['\''])

def merge (j : Job) : List Entry → Work Text
  | [] => return ['\n']
  | e :: rest => do
    let t ← j.preparation.prepare e.language (some e.path) e.source
    let part :=
      if t.isEmpty then []
      else if j.preparation.compress then t
      else j.heading e ++ t ++ "\n\n".toList
    return part ++ (← j.merge rest)

end Job

def tell (t : Text) : Work Unit := Work.say ⟨false, t⟩

/-- Pack a source into a file beside it or in the output directory. -/
def packFile (a : Arguments) (path : Text) : Work Unit := do
  let j ← Job.start path a
  Work.newSession j.preparation.compress
  let name := (← (a.value "prefix").asText) ++ Path.base j.path
  let directory ←
    if (a.value "output").isTrue then (a.value "output").asText else pure j.preparation.base
  let target := Path.join directory name
  tell ("Packing: ".toList ++ j.path)
  tell ("Output: ".toList ++ target)
  if (a.value "format").isTrue then throw .missingPart
  let g := gatherFrom (← Work.files) j.places j.path
  for m in g.messages.reverse do
    Work.say m
  match g.fault with
  | some f => throw f
  | none =>
    let t ← j.merge g.entries
    Work.write target t .unwritable
    tell ("Linked file saved as: '".toList ++ target ++ "'.".toList)

/-! ## Choosing sources -/

def isSource (fs : Files) (mark p : Text) : Bool :=
  let name := (Path.cutExtension (Path.base p)).1
  fs.isFile p && !Text.startsWith name mark && (Language.ofPath? p).isSome

def usualMark : Text := ['_']

def sourcesAt (fs : Files) (p : Text) : List Text :=
  let found :=
    if fs.isDirectory p then (fs.names p).map (Path.join p) else [p]
  (found.filter (isSource fs usualMark)).map (Path.absolute fs.home)

def packFiles (a : Arguments) : List Text → Work Unit
  | [] => return
  | p :: rest => do
    packFile a p
    packFiles a rest

def pack (a : Arguments) : Work Unit := do
  let a ← a.configure
  let p ← (a.value "source").asText
  packFiles a (sourcesAt (← Work.files) p)

def packChecked (a : Arguments) : Work Unit := do
  let p ← (a.value "source").asText
  if !(← Work.files).exists? p then throw (.missingSource p)
  pack a

/-! ## Watching -/

def checkWatched (a : Arguments) : Work Unit := do
  let p ← (a.value "source").asText
  if !(← Work.files).isDirectory p then throw .notDirectory

/-- A change of the file at a path starts packing: it is a source or of the format asked
for, and not a file that packing made. -/
def startsPack (a : Arguments) (p : Text) (isDirectory : Bool) : Work Bool := do
  let name := Path.base p
  let mark ← (a.value "prefix").asText
  let formats := Language.all.map Prod.fst ++
    (match a.value "format" with
      | .text t => [t]
      | _ => [])
  return !Text.startsWith name mark && !isDirectory && formats.contains (extensionOf name)

def noticeChange (a : Arguments) (p : Text) (isDirectory : Bool) : Work Bool := do
  let starts ← startsPack a p isDirectory
  if starts then tell ("\nChanges found: ".toList ++ p)
  return starts

/-! ## Messages and the library -/

def colourCodes : List (Text × Text) :=
  [ ("okgreen".toList, "\x1b[92m".toList), ("warning".toList, "\x1b[93m".toList),
    ("fail".toList, "\x1b[91m".toList) ]

def colourEnd : Text := "\x1b[0m".toList

def coloured (colour t : Text) : Text :=
  (colourCodes.lookup colour).getD colourEnd ++ t ++ colourEnd

def Message.printed (m : Message) : Text :=
  (if m.isError then coloured "warning".toList m.text else m.text) ++ ['\n']

/-- A line of a library file without the marks of a comment. -/
def bareLine (t : Text) : Text :=
  Text.trimBy (fun c => c == '/' || c == '*' || c == '\n' || c == ' ') t

/-- What a library file says about itself: its first three lines are a description, an
address and a version. -/
def frameworkText (name content : Text) : Except Fault Text :=
  match Config.fileLines content with
  | description :: address :: version :: _ =>
    .ok (Text.joinWith ['\n']
      [name, List.replicate name.length '-', bareLine description, bareLine version,
        bareLine address, [], []])
  | _ => .error .wrongValue

def isFramework (fs : Files) (library name : Text) : Bool :=
  let (start, extension) := Path.cutExtension name
  let extension := Text.trimBy (· == '.') extension
  !Text.startsWith start usualMark && fs.isFile (Path.join library name) &&
    Language.all.any (·.1 == extension)

def shellLines (directory : Text) : Text :=
  "\n# Zeta integration \n# ==================== \nsource ".toList ++
    Path.join directory "shell.sh".toList ++ "\n\n".toList

def frameworks : Work Text := do
  let w ← get
  if !w.files.isDirectory w.library then throw .unreadable
  let names := (w.files.names w.library).filter (isFramework w.files w.library)
  let texts := names.map fun n =>
    frameworkText n ((w.files.read? (Path.join w.library n)).getD [])
  match texts.mapM id with
  | .ok ts => return ts.flatten
  | .error f => throw f

end SheetPress.Bundle
