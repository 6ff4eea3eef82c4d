import SheetPress.Compile.Define
import SheetPress.Compile.Import
import SheetPress.Compile.Control
import SheetPress.Compile.Declare

/-!
# Work on code

Code is worked on item by item: directives, declarations, groups of properties that share
the start of their names, and nested rules.  Once a function has returned, the rest of the
code is passed over.
-/

set_option autoImplicit false

namespace SheetPress.Compile

/-! ## Items -/

def yesWords : List Text := ["1", "true", "t", "yes", "y", "on"].map String.toList

def noWords : List Text := ["0", "false", "f", "no", "n", "off"].map String.toList

def readSetting (t : Text) : Setting :=
  if yesWords.contains (Text.lower t) then .whole 1
  else if noWords.contains (Text.lower t) then .whole 0
  else .text t

def readOption (t : Text) : Option (Text × Setting) :=
  let (name, v) := Text.cut [':'] t
  let name := Text.lower (Text.trim name)
  if name.isEmpty then none else some (name, readSetting (Text.trim v))

def expandHead (t : Text) : Text :=
  match t with
  | '+' :: rest =>
    let t := "@include ".toList ++ rest
    let colon := (Text.cut? [':'] t).map fun p => p.1.length
    let opening := (Text.cut? ['('] t).map fun p => p.1.length
    let isShort :=
      match opening, colon with
      | none, _ => true
      | some _, none => false
      | some o, some c => c < o
    if !isShort then t
    else
      let t := Text.replaceFirst [':'] ['('] t
      if t.any (· == '(') then t ++ [')'] else t
  | '=' :: rest => "@mixin".toList ++ rest
  | t => t

def readParents (t : Text) : List Text :=
  Selector.filled (Text.splitOn '&' (Text.replace [','] ['&'] t))

def messageText (inner : Compiler) (r : Nat) (t : Text) : Run Text := do
  let v ← calculate inner r (← Run.contextOf r) t
  return Text.dequote (← v.shown)

def runDebug (t : Text) : Run Unit := do
  let on ← (readSetting (Text.trim t)).isTrue
  modify fun s => { s with debug := on }
  Run.logLine .info ("Debug mode is ".toList ++ (if on then "On".toList else "Off".toList))

/-- A directive that needs no block; `none` if it is not one of them. -/
def runLine? (inner : Compiler) (f : Frame) (line : Int) (head kind t : Text) :
    Option (Run Unit) :=
  match String.ofList kind with
  | "@warn" => some do Run.logLine .warning (← messageText inner f.rule t)
  | "@print" => some do Run.logLine .info (← messageText inner f.rule t)
  | "@raw" => some do
    let v ← calculate inner f.rule (← Run.contextOf f.rule) t
    Run.logLine .info (← v.inspect)
  | "@debug" => some (runDebug t)
  | "@option" => some do
    let options := (Text.splitOn ',' t).filterMap readOption
    Run.modifySettings f.rule fun s => options.foldl (fun s o => s.set o.1 o.2) s
  | "@import" => some (runImport inner f line head t)
  | "@extend" => some do
    let parents := readParents (← substitute inner f.rule (← Run.contextOf f.rule) false t)
    Run.modifyOwner f.owner fun o => { o with parents := (o.parents ++ parents).eraseDups }
  | "@return" => some do
    let v ← calculate inner f.rule (← Run.contextOf f.rule) t
    Run.setSetting f.rule "@return".toList (.result v)
  | "@include" => some (runInclude inner f line t)
  | _ => none

/-- A directive with a block; `none` if it is not one of them. -/
def runBlock? (inner : Compiler) (f : Frame) (line : Int) (head kind t code : Text) :
    Option (Run Unit) :=
  match String.ofList kind with
  | "@mixin" | "@function" => some (define f line kind t code)
  | "@if" => some (runIf inner f t code)
  | "@else" =>
    some (match Text.after? "@else if ".toList head with
      | some condition => runElseIf inner f (Text.trim condition) code
      | none => runElse inner f code)
  | "@for" => some (runCount inner f t code)
  | "@each" => some (runEach inner f t code)
  | "@variables" | "@vars" => some (runVariables inner f code)
  | "@media" =>
    some (inner.work { f with media := some (f.media.getD [] ++ [t]) }
      (selfWord ++ [' ', '{'] ++ code ++ ['}']))
  | _ => none

def nestUnscoped (inner : Compiler) (f : Frame) (line : Int) (head code : Text) : Run Unit :=
  if f.scope.isNone then nestRule inner f line head code else pure ()

def runDirective (inner : Compiler) (f : Frame) (line : Int) (head : Text) (code : Option Text) :
    Run Unit :=
  let (kind, t) := Text.firstWord head
  let kind := Text.lower kind
  match runLine? inner f line head kind t with
  | some x => x
  | none =>
    match code with
    | none => Run.addProperty f.rule ⟨line, head, none⟩
    | some code =>
      (runBlock? inner f line head kind t code).getD (nestUnscoped inner f line head code)

def runItem (inner : Compiler) (f : Frame) (i : Source.Item) : Run Unit :=
  let head := expandHead i.head
  if head.head? == some '@' then runDirective inner f i.line head i.code
  else
    match i.code with
    | none => declare inner f i.line head
    | some code =>
      if head.getLast? == some ':' then
        inner.work { f with scope := some (f.scope.getD [] ++ head.dropLast ++ ['-']) } code
      else nestUnscoped inner f i.line head code

def runItems (inner : Compiler) (f : Frame) (fault : Option Fault) : List Source.Item → Run Unit
  | [] =>
    match fault with
    | none => pure ()
    | some e => throw e
  | i :: rest => do
    if (← Run.settingsOf f.rule).has "@return".toList then return
    runItem inner f i
    runItems inner f fault rest

def work (inner : Compiler) (f : Frame) (code : Text) : Run Unit :=
  let s := Source.items code
  runItems inner f s.fault s.items

def compiler : (n : Nat) → Compiler
  | 0 => ⟨fun _ _ => throw .tooDeep, fun _ _ => throw .tooDeep⟩
  | n + 1 => ⟨fun e r => value (compiler n) e r, fun f code => work (compiler n) f code⟩

/-- How deep mixins and functions may nest. -/
def depthLimit : Nat := 1000

/-- How deep the work on a source may go.  The blocks in it nest less deep than it is long,
and what they call may go on from there. -/
def depthFor (length : Nat) : Nat := depthLimit + length

end SheetPress.Compile
