import SheetPress.Text.Basic

/-!
# Options

The options of the command line.  A short option is a dash and a character; several can
share a dash, and what follows one that takes a value is its value.  A long option is two
dashes and a name, which may be cut as long as only one option fits; its value follows `=`.
Otherwise the next argument is the value.  Two dashes alone end the options.
-/

set_option autoImplicit false

namespace SheetPress.Shell

inductive Name where
  | interactive
  | watch
  | recursive
  | output
  | time
  | test
  | long
  | help
  | version
  | loadPath
  | staticRoot
  | assetsRoot
  deriving DecidableEq, Repr

structure Spec where
  name : Name
  short : Option Char
  /-- The long name, with its dashes. -/
  full : Option Text
  /-- What the value is called, for options that take one. -/
  value : Option Text := none
  /-- The description; options without one are not shown. -/
  help : Option Text := none

def Spec.switch (name : Name) (short : Option Char) (full help : Option String) : Spec :=
  { name, short, full := full.map String.toList, help := help.map String.toList }

def Spec.setting (name : Name) (short : Char) (full value help : String) : Spec :=
  { name, short := some short, full := some full.toList, value := some value.toList
    help := some help.toList }

def generalSpecs : List Spec :=
  [ .switch .interactive (some 'i') (some "--interactive") (some "Run an interactive Scss shell"),
    .setting .watch 'w' "--watch" "DIR" "Watch the files in DIR, and recompile when they change",
    .switch .recursive (some 'r') (some "--recursive")
      (some "Also watch directories inside of the watch directory"),
    .setting .output 'o' "--output" "PATH"
      "Write output to PATH (a directory if using watch, a file otherwise)",
    .switch .time none (some "--time") (some "Display compliation times"),
    .switch .test (some 't') (some "--test") none,
    .switch .long (some 'C') (some "--no-compress") (some "Don't minify outputted CSS"),
    .switch .help (some '?') none none,
    .switch .help (some 'h') (some "--help") (some "Show this message and exit"),
    .switch .version (some 'v') (some "--version") (some "Print version and exit") ]

def pathSpecs : List Spec :=
  [ .setting .loadPath 'I' "--load-path" "PATH" "Add a scss import path",
    .setting .staticRoot 'S' "--static-root" "PATH"
      "Static root path (Where images and static resources are located)",
    .setting .assetsRoot 'A' "--assets-root" "PATH"
      "Assets root path (Sprite images will be created here)" ]

def specs : List Spec := generalSpecs ++ pathSpecs

/-! ## Help -/

/-- Fill lines with words. -/
def fillWords (width : Nat) : (line : Text) → List Text → List Text
  | line, [] => [line]
  | line, w :: rest =>
    if line.isEmpty then fillWords width w rest
    else if line.length + 1 + w.length ≤ width then fillWords width (line ++ ' ' :: w) rest
    else line :: fillWords width w rest

def helpColumn : Nat := 24

def helpWidth : Nat := 54

def Spec.written (s : Spec) : Text :=
  let short := s.short.toList.map fun c =>
    ['-', c] ++ (match s.value with
      | some v => ' ' :: v
      | none => [])
  let full := s.full.toList.map fun t =>
    t ++ (match s.value with
      | some v => '=' :: v
      | none => [])
  Text.joinWith ", ".toList (short ++ full)

def Spec.described (s : Spec) (indent : Nat) : Text :=
  match s.help with
  | none => []
  | some help =>
    let margin := List.replicate helpColumn ' '
    let written := List.replicate indent ' ' ++ s.written
    let lines := fillWords helpWidth [] (Text.splitOn ' ' help)
    let body := Text.joinWith ('\n' :: margin) lines ++ ['\n']
    if written.length + 2 ≤ helpColumn then
      written ++ List.replicate (helpColumn - written.length) ' ' ++ body
    else written ++ '\n' :: margin ++ body

def helpText (program : Text) : Text :=
  "Usage: ".toList ++ program ++ " [options] [file]\n\n".toList ++
    "Converts Scss files to CSS.\n\nOptions:\n".toList ++
    generalSpecs.flatMap (·.described 2) ++ "\n  Resource Paths:\n".toList ++
    pathSpecs.flatMap (·.described 4)

/-! ## Reading -/

structure Given where
  options : List (Name × Text) := []
  arguments : List Text := []
  deriving DecidableEq, Repr

namespace Given

def set (g : Given) (n : Name) (v : Text) : Given := { g with options := (n, v) :: g.options }

def has (g : Given) (n : Name) : Bool := (g.options.lookup n).isSome

def value? (g : Given) (n : Name) : Option Text := g.options.lookup n

end Given

/-- What an argument comes to. -/
inductive Step where
  | done (g : Given)
  | waiting (n : Name) (g : Given)
  | help
  | wrong

def readShort : Given → Text → Step
  | g, [] => .done g
  | g, c :: rest =>
    match specs.find? fun s => s.short == some c with
    | none => .wrong
    | some s =>
      if s.value.isSome then
        if rest.isEmpty then .waiting s.name g else .done (g.set s.name rest)
      else if s.name = .help then .help
      else readShort (g.set s.name []) rest

/-- The option with a long name, or the only one whose name starts so. -/
def findLong (name : Text) : Option Spec :=
  match specs.find? fun s => s.full == some name with
  | some s => some s
  | none =>
    match specs.filter fun s => s.full.any fun f => Text.startsWith f name with
    | [s] => some s
    | _ => none

def readLong (g : Given) (t : Text) : Step :=
  let (name, value) :=
    match Text.cut? ['='] t with
    | some (name, v) => (name, some v)
    | none => (t, none)
  match findLong name with
  | none => .wrong
  | some s =>
    match s.value, value with
    | some _, some v => .done (g.set s.name v)
    | some _, none => .waiting s.name g
    | none, some _ => .wrong
    | none, none => if s.name = .help then .help else .done (g.set s.name [])

inductive Request where
  | run (g : Given)
  | help
  | wrong
  deriving DecidableEq, Repr

/-- Read arguments; `pending` is an option that waits for its value. -/
def readArguments : (pending : Option Name) → Given → List Text → Request
  | none, g, [] => .run g
  | some _, _, [] => .wrong
  | some n, g, v :: rest => readArguments none (g.set n v) rest
  | none, g, a :: rest =>
    if a = ['-', '-'] then .run { g with arguments := g.arguments ++ rest }
    else
      let step :=
        match a with
        | '-' :: '-' :: _ => readLong g a
        | '-' :: c :: cs => readShort g (c :: cs)
        | _ => .done { g with arguments := g.arguments ++ [a] }
      match step with
      | .done g => readArguments none g rest
      | .waiting n g => readArguments (some n) g rest
      | .help => .help
      | .wrong => .wrong

def Request.ofArguments (args : List Text) : Request := readArguments none {} args

end SheetPress.Shell
