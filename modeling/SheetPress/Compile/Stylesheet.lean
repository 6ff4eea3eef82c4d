import SheetPress.Compile.Work
import SheetPress.Compile.Extend
import SheetPress.Sheet.Compress

/-!
# Stylesheets

A stylesheet is compiled in steps: its source is loaded as one rule, all rules are worked
on until no nested ones are left, extending rules are linked, the rules are ordered, and
those that have properties are printed and compressed.
-/

set_option autoImplicit false

namespace SheetPress

namespace Session

/-- The variables that every stylesheet starts with: stand-ins for what has to be hidden
in strings, and short names of properties. -/
def usualVariables : Context :=
  [ ("$__doubleslash", "//"), ("$__bigcopen", "/*"), ("$__bigcclose", "*/"),
    ("$__doubledot", ":"), ("$__semicolon", ";"), ("$__curlybracketopen", "\x7b"),
    ("$__curlybracketclosed", "\x7d"), ("bg:", "background:"),
    ("bgc:", "background-color:") ].map fun p => (.name p.1.toList, .word p.2.toList)

def usualSettings : Settings :=
  [ ("verbosity", 1), ("compress", 1), ("compress_short_colors", 1),
    ("compress_reverse_colors", 1), ("short_colors", 0), ("reverse_colors", 0) ].map
      fun (p : String × Int) => (p.1.toList, .whole p.2)

/-- Start again with the given variables and settings beside the usual ones.  Values, the
journal and the assets are kept. -/
def restart (s : Session) (vars : Context) (opts : Settings) : Session :=
  { pool := s.pool
    debug := s.debug
    loadPaths := s.loadPaths
    sets := s.sets
    contexts := #[usualVariables.update vars]
    settings := #[usualSettings.update opts]
    places := #["<unknown>:0".toList] }

end Session

namespace Compile

/-! ## Rules -/

def topRule (file : Option Text) (code : Text) : Run Nat := do
  let s ← get
  Run.newRule
    { file, code, context := s.context, settings := s.options
      sink := some (← Run.newSink), indexed := true }

def enqueue (r : Nat) : Run Unit := modify fun s => { s with queue := s.queue ++ [r] }

/-- Work on the code of a rule and put it at a position.  The rules nested in it come next
in the queue.  The selectors that it extends are a set, written in the order of sets. -/
def runRule (depth position r : Nat) : Run Unit := do
  let sets := (← get).sets
  let rule ← Run.rule r
  let (selectors, parents) := Selector.cutExtends rule.selectors
  let parents := ((Text.splitOn '&' parents).filter (!·.isEmpty)).eraseDups
  let o ← Run.newOwner ⟨Text.splitOn ',' selectors, parents, []⟩
  (compiler depth).work ⟨r, o, none, rule.media⟩ rule.code
  let owner ← Run.owner o
  modify fun s => { s with queue := owner.children ++ s.queue }
  let selectors :=
    if owner.parents.isEmpty then rule.selectors
    else selectors ++ Selector.extendsMark ++ Text.joinWith ['&'] (sets.list owner.parents)
  Run.modifyRule r fun rule => { rule with selectors, position := some position }
  modify fun s => { s with parts := Parts.add selectors [r] s.parts, order := s.order ++ [r] }

/-- Do the same `count` times, each time from the position that the last time ended with. -/
def repeatFrom (once : (position : Nat) → Run Nat) : (count position : Nat) → Run Nat
  | 0, position => return position
  | count + 1, position => do repeatFrom once count (← once position)

/-- Work on the first waiting rule and on all rules nested in it, at most `n` levels of them.
The answer is the next position. -/
def runFirst (depth : Nat) : (n position : Nat) → Run Nat
  | 0, _ => throw .tooDeep
  | n + 1, position => do
    match (← get).queue with
    | [] => return position
    | r :: rest =>
      modify fun s => { s with queue := rest }
      runRule depth position r
      let nested := (← get).queue.length - rest.length
      repeatFrom (runFirst depth n) nested (position + 1)

/-- How deep rules may nest that come out of code of a length.  Blocks are fewer than characters,
and so are the inclusions of a mixin around a rule, unless it includes itself. -/
def ruleLimit (length : Nat) : Nat := (1000 + length) * (1000 + length)

def runRules : Run Unit := do
  let s ← get
  let length := (s.queue.flatMap fun r => (s.rules.getD r {}).code).length
  let _ ← repeatFrom (runFirst (depthFor length) (ruleLimit length)) s.queue.length 0
  return

/-! ## Order -/

def least (n : Nat) (ns : List Nat) : Nat := ns.foldl min n

def place (rule : Rule) : Rule :=
  match rule.position with
  | none => rule
  | some p =>
    let deps := if rule.deps.contains (p + 1) then rule.deps else rule.deps ++ [p + 1]
    { rule with deps, position := some (least (p + 1) deps) }

def comesBefore (a b : Option Nat) : Bool :=
  match a, b with
  | none, _ => true
  | some _, none => false
  | some m, some n => m ≤ n

def orderRules : Run Unit := do
  let order := (← get).order
  for r in order do
    Run.modifyRule r place
  let s ← get
  let positionOf (r : Nat) : Option Nat := (s.rules.getD r {}).position
  set { s with order := order.mergeSort fun a b => comesBefore (positionOf a) (positionOf b) }

def isPrinted (s : Session) (r : Nat) : Bool :=
  let rule := s.rules.getD r {}
  let hasProperties :=
    match rule.sink with
    | none => false
    | some i => !(s.sinks.getD i []).isEmpty
  rule.position.isSome && hasProperties

/-- Find the rules to be printed and the files they belong to.  Rules without a file count
only behind rules that have one. -/
def collectRules : Run Unit :=
  modify fun s =>
    let filled := s.order.filter (isPrinted s)
    let files := filled.map fun r => (s.rules.getD r {}).file
    { s with filled, sheets := (files.dropWhile (·.isNone)).eraseDups }

/-! ## Printing -/

def isOn (name : String) (usual : Bool) : Run Bool := do
  let s ← get
  match (s.settings.getD s.options []).get? name.toList with
  | some v => v.isTrue
  | none => return usual

def debugLine (place : Text) : Text :=
  let tail := place.reverse.takeWhile (· != ':')
  let file := place.take (place.length - tail.length - 1)
  let escaped := file.flatMap fun c => if Text.isName c then [c] else ['\\', c]
  "@media -sass-debug-info\x7bfilename\x7bfont-family:file\\:\\/\\/".toList ++ escaped ++
    "\x7dline\x7bfont-family:\\00003".toList ++ tail.reverse ++ "\x7d\x7d".toList

def variableLines (indent : Text) : Context → Run (List Text)
  | [] => return []
  | (.name n, .word t) :: rest => do
    return (indent ++ n ++ " = ".toList ++ t ++ [';']) :: (← variableLines indent rest)
  | _ => throw .wrongKind

def remarksOf (layout : Sheet.Layout) (r : Nat) : Run (List Text) := do
  match (← Run.settingsOf r).get? "verbosity".toList with
  | none => return []
  | some s =>
    if !s.exceeds 1 then return []
    let rule ← Run.rule r
    match rule.file with
    | none => throw .wrongKind
    | some file =>
      let outer := if rule.media.any (!·.isEmpty) then layout.tab else []
      let indent := if rule.selectors.isEmpty then outer else outer ++ layout.tab
      let lines ← variableLines indent (← Run.contextOf r)
      return ("/* file: ".toList ++ file ++ " */".toList) ::
        (if lines.isEmpty then [] else "/* vars:".toList :: (lines ++ ["*/".toList]))

def blockOf (layout : Sheet.Layout) (debug : Bool) (r : Nat) : Run Sheet.Block := do
  let rule ← Run.rule r
  let debugLine ←
    if debug && !rule.selectors.isEmpty then do pure (some (debugLine (← Run.placeOf r)))
    else pure none
  let remarks ← remarksOf layout r
  return { selectors := rule.selectors, media := rule.media
           properties := ← Run.propertiesOf r, remarks, debugLine }

def printFile (file : Option Text) : Run Text := do
  let s ← get
  let rules :=
    match file with
    | none | some [] => s.order.filter (isPrinted s)
    | some _ => s.filled.filter fun r => (s.rules.getD r {}).file == file
  let compact ← isOn "compress" true
  let layout : Sheet.Layout := if compact then .compact else .spacious
  let debug ← if compact then pure false else isOn "debug_info" false
  return Sheet.print s.sets layout (← rules.mapM (blockOf layout debug))

def compress (t : Text) : Run Text := do
  let compact ← isOn "compress" true
  let shortColours ← isOn (if compact then "compress_short_colors" else "short_colors") true
  let colourNames ← isOn (if compact then "compress_reverse_colors" else "reverse_colors") true
  return Sheet.compress { shortColours, colourNames, zeros := compact } t

/-! ## The whole way -/

def printSheets : List (Option Text) → Run Text
  | [] => return []
  | file :: rest => do
    let head ←
      match file with
      | none => throw .wrongKind
      | some name =>
        if name == "<string>".toList then pure []
        else pure ("/* Generated from: ".toList ++ name ++ " */\n".toList)
    let t ← printFile file
    return head ++ t ++ (← printSheets rest)

def finishRules : Run Unit := do
  runRules
  extendAll
  orderRules
  collectRules

def compile (vars : Context) (opts : Settings) (source : Text) : Run Text := do
  modify fun s => s.restart vars opts
  let file := some "<string>".toList
  enqueue (← topRule file (← Run.load file source))
  finishRules
  compress (← printSheets (← get).sheets)

end Compile

end SheetPress
