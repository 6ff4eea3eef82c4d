import SheetPress.Path
import SheetPress.Text.Quote

/-!
# Languages of sources

Sources of three languages can be packed.  The extension of a file tells its language.
A source names other sources that it needs: stylesheets with `@import url(…)`, scripts with
`require(…)` or `include(…)`, each on a line of its own.
-/

set_option autoImplicit false

namespace SheetPress.Bundle

inductive Language where
  | css
  | scss
  | js
  deriving DecidableEq, Repr

def extensionOf (p : Text) : Text := Text.lower ((Path.cutExtension p).2.dropWhile (· == '.'))

namespace Language

def all : List (Text × Language) :=
  [("css".toList, .css), ("scss".toList, .scss), ("js".toList, .js)]

def ofPath? (p : Text) : Option Language := all.lookup (extensionOf p)

def comment : Language → Text → Text
  | .js, t => "// ".toList ++ t ++ ['\n']
  | _, t => "/* ".toList ++ t ++ " */\n".toList

end Language

/-! ## Line ends -/

def lastBreak (t : Text) : Option Nat :=
  let tail := t.reverse.takeWhile (· != '\n')
  if tail.length < t.length then some (t.length - tail.length - 1) else none

/-- How many blanks of the text can be taken so that a line ends behind them: all if
nothing else is left, or else those before the last line break among them. -/
def toLineEnd (t : Text) : Option Nat :=
  let blanks := t.takeWhile Text.isSpace
  if blanks.length = t.length then some t.length else lastBreak blanks

/-- The same, with one semicolon allowed among the blanks. -/
def toStatementEnd (t : Text) : Option Nat :=
  let blanks := t.takeWhile Text.isSpace
  match t.drop blanks.length with
  | ';' :: rest =>
    match toLineEnd rest with
    | some n => some (blanks.length + 1 + n)
    | none => lastBreak blanks
  | _ => toLineEnd t

def startsLine (before : Text) : Bool :=
  match before with
  | [] => true
  | c :: _ => c == '\n'

/-! ## Addresses -/

def skipQuote (t : Text) : Text :=
  match t with
  | c :: rest => if Text.isQuote c then rest else t
  | [] => []

def inAddress (c : Char) : Bool := c != ')' && !Text.isQuote c

def closing? (blanksAllowed : Bool) (t : Text) : Option Text :=
  let t := skipQuote t
  match if blanksAllowed then Text.trimLeft t else t with
  | ')' :: rest => some rest
  | _ => none

/-- The address at the start of a text, up to its closing parenthesis, and what follows.
Blanks before the address do not count, unless there is nothing else: then the last of them
is the address. -/
def address? (blanksAllowed : Bool) (t : Text) : Option (Text × Text) :=
  let blanks := t.takeWhile Text.isSpace
  let t := t.drop blanks.length
  let start := skipQuote t
  let address := start.takeWhile inAddress
  if address.isEmpty then
    match blanks.getLast? with
    | none => none
    | some c => (closing? blanksAllowed t).map fun rest => ([c], rest)
  else (closing? blanksAllowed (start.drop address.length)).map fun rest => (address, rest)

/-! ## Imports -/

def urlMark : Text := "url(".toList

def findSheetImport (before rest : Text) : Option (Nat × Text) := do
  if !startsLine before then none
  let t ← Text.after? "@import".toList (Text.trimLeft rest)
  let blanks := t.takeWhile (· == ' ')
  if blanks.isEmpty then none
  let t ← Text.after? urlMark (t.drop blanks.length)
  let (address, t) ← address? true t
  let n ← toStatementEnd t
  return (rest.length - t.length + n, address)

def findScriptImport (before rest : Text) : Option (Nat × Text) := do
  if !startsLine before then none
  let t ←
    match Text.after? "require(".toList rest with
    | some t => some t
    | none => Text.after? "include(".toList rest
  match Text.trimLeft t with
  | q :: t =>
    let name := t.takeWhile fun c => !Text.isQuote c
    if !Text.isQuote q || name.isEmpty then none
    match t.drop name.length with
    | _ :: t =>
      match Text.trimLeft t with
      | ')' :: t =>
        let n ← toStatementEnd t
        return (rest.length - t.length + n, name)
      | _ => none
    | [] => none
  | [] => none

namespace Language

def findImport : Language → (before rest : Text) → Option (Nat × Text)
  | .js => findScriptImport
  | _ => findSheetImport

def splitImports (l : Language) (source : Text) : Text × List Text :=
  (Text.substitute (fun b r => (l.findImport b r).map fun p => (p.1, [])) source,
    Text.finds l.findImport source)

end Language

/-! ## Comments and links -/

def findComment (_before rest : Text) : Option (Nat × Text) := do
  let t ← Text.after? ['/', '*'] rest
  let (body, _) ← Text.cut? ['*', '/'] t
  return (body.length + 4, [])

def dropComments (source : Text) : Text := Text.substitute findComment source

def isRemote (link : Text) : Bool :=
  (["data:image", "http://", "https://"].map String.toList).any fun s => Text.startsWith link s

/-- A link of a source, as it is to be seen from the directory `base`.  `here` is the
directory that relative paths start from. -/
def relink (here base : Text) (path : Option Text) (link : Text) : Text :=
  match path with
  | none => link
  | some path =>
    if isRemote link then link
    else
      let way := Path.relative here (Path.join (Path.parent path) link) base
      way.map fun c => if c == '\\' then '/' else c

def findLink (change : Text → Text) (_before rest : Text) : Option (Nat × Text) := do
  let t ← Text.after? urlMark rest
  let (link, t) ← address? false t
  return (rest.length - t.length, urlMark ++ change link ++ [')'])

def relinkAll (here base : Text) (path : Option Text) (source : Text) : Text :=
  Text.substitute (findLink (relink here base path)) source

end SheetPress.Bundle
