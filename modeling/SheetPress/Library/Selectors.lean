import SheetPress.Library.Routine

/-!
# Selector functions

Functions that compute rows of selectors and rows of numbered names.
-/

set_option autoImplicit false

namespace SheetPress.Library

def wordTable (ws : List Text) : Value := .table (some [',']) (Items.ofList (ws.map .word))

def plainWords : List Value → Calc (List Text)
  | [] => return []
  | .word t :: rest => do return t :: (← plainWords rest)
  | _ :: _ => throw .missingPart

/-- The selectors that a value gives: the items of a list, or the parts of a text between
commas. -/
def selectorsOf (v : Value) : Calc (List Text) :=
  match v with
  | .list _ [] => throw .outOfRange
  | .list _ items => plainWords (Items.values items)
  | v => do return Text.splitOn ',' (← v.text)

def trimmed (ts : List Text) : List Text := (ts.map Text.trim).filter fun t => !t.isEmpty

/-- Every selector of the second row below every one of the first. -/
def nested (outer inner : List Text) : List Text :=
  inner.flatMap fun s => outer.map fun r => r ++ ' ' :: s

def nest (args : List Value) : Calc Value := do
  match args with
  | [] => throw .outOfRange
  | first :: rest =>
    let start := trimmed (← selectorsOf first)
    let all ← rest.foldlM (fun outer v => do return nested outer (trimmed (← selectorsOf v))) start
    return wordTable (Text.sortedSet all)

def appendSelector (selector tail : Value) : Calc Value := do
  let selectors ← selectorsOf selector
  let tail := Text.trim (← tail.text)
  return wordTable (Text.sortedSet ((trimmed selectors).map (· ++ tail)))

/-- A whole number from a value; a text that is none counts as `usual`. -/
def wholeOr (usual : Int) (v : Value) : Calc Int := do
  let ofText (t : Text) : Int := (Decimal.readInt? t).getD usual
  let ofScalar (s : Scalar) : Calc Int :=
    match s.truncate with
    | .ok i => return i
    | .error .wrongValue => return usual
    | .error f => throw f
  match v with
  | .scalar s | .boolean s => ofScalar s
  | .number slot => do ofScalar (← Calc.quantity slot).size
  | .word t | .string t | .gradient _ t _ _ | .quoted t => return ofText t
  | _ => throw .wrongKind

def between (a b : Int) : List Int := (List.range (b - a + 1).toNat).map fun (i : Nat) => a + i

/-- The headings of some levels.  One argument means all levels if it is the string `all`,
and else the first level only. -/
def headers (first last : Option Value) : Calc Value := do
  let levels (a b : Int) : Value := wordTable ((between a b).map fun i => 'h' :: Text.ofInt i)
  let isSet ←
    match first with
    | none => pure false
    | some v => v.isTrue
  if isSet && last.isNone then
    match first with
    | some (.string t) | some (.gradient _ t _ _) =>
      return if Text.lower t == "all".toList then levels 1 6 else levels 1 1
    | _ => return levels 1 1
  else
    let a ←
      match first with
      | none => pure 1
      | some v => wholeOr 1 v
    let b ←
      match last with
      | none => pure 6
      | some v => wholeOr 6 v
    return levels a b

/-- Numbered names, or numbers if there is no name. -/
def enumeration (name separator : Text) (first last : Value) : Calc Value := do
  let a ← wholeOr 1 first
  let b ← wholeOr a last
  let row := if b < a then (between b a).reverse else between a b
  if name.isEmpty then
    let numbers ← row.mapM fun i => Calc.newNumber (.bare (Decimal.ofInt i))
    return .table (some [',']) (Items.ofList numbers)
  else return wordTable (row.map fun i => name ++ separator ++ Text.ofInt i)

def elementKinds : List (String × List String) :=
  [ ("block",
      ["address", "article", "aside", "blockquote", "center", "dd", "dialog", "dir", "div", "dl",
        "dt", "fieldset", "figure", "footer", "form", "frameset", "h1", "h2", "h3", "h4", "h5",
        "h6", "header", "hgroup", "hr", "isindex", "menu", "nav", "noframes", "noscript", "ol",
        "p", "pre", "section", "ul"]),
    ("inline",
      ["a", "abbr", "acronym", "b", "basefont", "bdo", "big", "br", "cite", "code", "dfn", "em",
        "font", "i", "img", "input", "kbd", "label", "q", "s", "samp", "select", "small", "span",
        "strike", "strong", "sub", "sup", "textarea", "tt", "u", "var"]),
    ("table", ["table"]),
    ("list-item", ["li"]),
    ("table-row-group", ["tbody"]),
    ("table-header-group", ["thead"]),
    ("table-footer-group", ["tfoot"]),
    ("table-row", ["tr"]),
    ("table-cell", ["td", "th"]),
    ("html5",
      ["article", "aside", "dialog", "figure", "footer", "header", "hgroup", "nav", "section"]) ]

def elementsOfType (display : Value) : Calc Value := do
  let t ← display.text
  match elementKinds.find? fun p => p.1.toList == t with
  | some (_, names) => (Listing.ofValues (some [',']) (names.map fun n => .word n.toList)).toValue
  | none => throw .wrongKind

def selectors : List (String × Routine) :=
  let heading : Routine :=
    { optional := ["frm", "to"].map String.toList
      body := fun
        | [a, b], _ => headers a b
        | _, _ => throw .wrongKind }
  let numbering : Routine :=
    { required := ["prefix", "frm", "through"].map String.toList
      optional := ["separator".toList]
      body := fun
        | [some name, some a, some b, s], _ => do
          let name ← name.text
          let separator ←
            match s with
            | none => pure ['-']
            | some s => s.text
          enumeration name separator a b
        | _, _ => throw .wrongKind }
  let range := Routine.ofOneOrTwo "frm" "through" fun a b =>
    match b with
    | none => enumeration [] ['-'] (.scalar (.whole 1)) a
    | some b => enumeration [] ['-'] a b
  [ ("nest:n", .ofAny nest),
    ("append-selector:2", .ofTwo "selector" "to_append" appendSelector),
    ("headers:0", heading), ("headers:1", heading), ("headers:2", heading),
    ("enumerate:3", numbering), ("enumerate:4", numbering),
    ("range:1", range), ("range:2", range),
    ("elements-of-type:1", .ofOne "display" elementsOfType) ]

end SheetPress.Library
