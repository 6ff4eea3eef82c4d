import SheetPress.Library.Positions
import SheetPress.Text.Base64

/-!
# Gradients

A gradient is made of colours and their stops.  `colourStops` reads them from the
arguments of a function: the first stop is 0, missing stops are spread evenly between
their neighbours.  A gradient value remembers its stops, so that it can be written again
in the notations of various browsers.
-/

set_option autoImplicit false

namespace SheetPress.Library

/-! ## Stops -/

abbrev Stop := Value × Value

def readStop (piece : Text) : Calc Stop := do
  let piece := Text.trim piece
  let head := "color-stop(".toList
  match Text.after? head piece with
  | some rest =>
    match Text.splitArguments (Text.dropEndWhile (· == ')') rest) with
    | [s, c] =>
      match readAmount? (Text.trim s) with
      | some x => return (.scalar (.real x), .word (Text.trim c))
      | none => throw .wrongValue
    | _ => throw .wrongValue
  | none =>
    match Text.words piece with
    | [c, s] =>
      match readAmount? s with
      | some x => return (.scalar (.real x), .word c)
      | none => throw .wrongValue
    | _ => throw .wrongValue

def readStops : List Text → Calc (List Stop)
  | [] => return []
  | piece :: rest => do
    let s ← readStop piece
    return s :: (← readStops rest)

structure Collected where
  colours : List Value := []
  stops : List (Option Value) := []
  /-- The last colour has no stop yet. -/
  pending : Bool := false

namespace Collected

def add (c : Collected) (v : Value) : Collected :=
  match v with
  | .colour _ =>
    { colours := v :: c.colours
      stops := if c.pending then none :: c.stops else c.stops
      pending := true }
  | .number _ => { c with stops := some v :: c.stops, pending := false }
  | _ => c

def addArgument (c : Collected) (v : Value) : Calc Collected :=
  match v with
  | .list _ items => return (Items.values items).foldl add c
  | .number _ => do return c.add (← v.copied)
  | v => return c.add v

def finish (c : Collected) : List Value × List (Option Value) :=
  let stops := if c.pending then none :: c.stops else c.stops
  (c.colours.reverse, stops.reverse.take c.colours.length)

end Collected

/-- The stop as a measure for the others: only lengths other than zero count.  In
percentages it is a plain number. -/
def measureOf (percentages : Bool) (s : Option Value) : Calc Value := do
  match s with
  | some (.number slot) =>
    let q ← Calc.quantity slot
    if q.size.isTrue && q.unit != ['%'] then
      return if percentages then .scalar q.size else .number slot
    else return .nothing
  | _ => return .nothing

/-- A stop as a part of the greatest one; percentages and zeros stay as they are. -/
def relativeStop (greatest : Value) (s : Option Value) : Calc (Option Value) := do
  match s with
  | some (.number slot) =>
    let q ← Calc.quantity slot
    if !q.size.isTrue then return s
    else if q.unit == ['%'] then return some (.scalar q.size)
    else return some (← Value.operate .div (.scalar q.size) greatest)
  | _ => return s

def mapAll {α β : Type} (f : α → Calc β) : List α → Calc (List β)
  | [] => return []
  | a :: rest => do
    let b ← f a
    return b :: (← mapAll f rest)

/-- Stops evenly spread from `init` in steps of `stride`. -/
def spread (init stride : Value) : (count next : Nat) → Calc (List Value)
  | 0, _ => return []
  | count + 1, next => do
    let step ← Value.operate .mul stride (.scalar (.whole next))
    let v ← Value.operate .add init step
    return v :: (← spread init stride count (next + 1))

/-- Fill the gaps between stops.  `missing` stops are open behind `init`; a gap at the end
reaches up to 1. -/
def fillGaps : (init : Value) → (missing : Nat) → List (Option Value) → Calc (List Value)
  | init, missing, [] =>
    if missing = 0 then return []
    else do
      let way ← Value.operate .sub (.scalar (.real 1.0)) init
      let stride ← Value.operate .div way (.scalar (.whole missing))
      spread init stride missing 1
  | init, missing, none :: rest => fillGaps init (missing + 1) rest
  | init, missing, some s :: rest =>
    if missing = 0 then do
      let more ← fillGaps s 0 rest
      return s :: more
    else do
      let way ← Value.operate .sub s init
      let stride ← Value.operate .div way (.scalar (.whole (missing + 1)))
      let filled ← spread init stride missing 1
      let more ← fillGaps s 0 rest
      return filled ++ s :: more

/-- The stops of colours, in percent or in the unit of the greatest one. -/
def settleStops (percentages : Bool) (colours : List Value) (stops : List (Option Value)) :
    Calc (List Stop) := do
  let greatest ← Value.greatest (← mapAll (measureOf percentages) stops)
  let relative ← mapAll (relativeStop greatest) stops
  let zero : Value := .scalar (.whole 0)
  let filled ← fillGaps zero 0 (some zero :: relative.tail)
  let final ←
    if percentages || !(← greatest.isTrue) then
      mapAll (fun s => do Calc.newNumber (← s.quantityIn ['%'])) filled
    else mapAll (fun s => Value.operate .mul s greatest) filled
  return final.zip colours

def colourStops (percentages : Bool) (args : List Value) : Calc (List Stop) := do
  match args with
  | [.string t] | [.gradient _ t _ _] => readStops (Text.splitArguments t)
  | _ =>
    let c ← args.foldlM Collected.addArgument {}
    let (colours, stops) := c.finish
    settleStops percentages colours stops

/-! ## Texts of stops -/

def stopTexts (write : (stop colour : Text) → Text) : List Stop → Calc (List Text)
  | [] => return []
  | (s, c) :: rest => do
    let stop ← s.shown
    let colour ← c.spelled
    return write stop colour :: (← stopTexts write rest)

def colourFirst (stop colour : Text) : Text := colour ++ ' ' :: stop

def stopCall (stop colour : Text) : Text :=
  "color-stop(".toList ++ stop ++ ", ".toList ++ colour ++ [')']

def commaList (parts : List Text) : Text := Text.joinWith ", ".toList parts

def stopList (percentages : Bool) (write : (stop colour : Text) → Text) (args : List Value) :
    Calc Value := do
  return .string (commaList (← stopTexts write (← colourStops percentages args)))

/-- The last stop; a radial gradient wants it in pixels. -/
def endPosition (radial : Bool) (stops : List Stop) : Calc Value := do
  match stops.getLast? with
  | none => Calc.newNumber (.bare 100.0)
  | some (s, _) =>
    let q ← s.quantity
    if radial && q.unit != "px".toList then
      let got ← Calc.ofExcept q.text
      Calc.logLine .warning
        ("Webkit only supports pixels for the start and end stops for radial gradients. Got ".toList
          ++ got)
    Calc.newNumber q

/-! ## Gradients -/

def namesPosition : Value → Bool
  | .string _ | .gradient _ _ _ _ | .number _ | .word _ => true
  | _ => false

def shownAll : List Value → Calc (List Text) := mapAll Value.shown

def linearGradient (args : List Value) : Calc Value := do
  match args with
  | [] => throw .outOfRange
  | first :: rest =>
    let start := if namesPosition first then some first else none
    let stops ← colourStops false (if start.isSome then rest else args)
    let place ← mapAll (fun v => position false [v]) start.toList
    let texts ← stopTexts colourFirst stops
    let shown ← shownAll place
    let t := "linear-gradient(".toList ++ commaList (shown ++ texts) ++ [')']
    return .gradient .linear t start stops

def radialGradient (args : List Value) : Calc Value := do
  match args with
  | [] => throw .outOfRange
  | first :: rest =>
    if namesPosition first then
      match rest with
      | [] => throw .outOfRange
      | second :: others =>
        let shape := if namesPosition second then [second] else []
        let stops ← colourStops false (if shape.isEmpty then rest else others)
        finish (some first) (first :: shape) stops
    else finish none [] (← colourStops false args)
where
  finish (place : Option Value) (leading : List Value) (stops : List Stop) : Calc Value := do
    let texts ← stopTexts colourFirst stops
    let shown ← shownAll leading
    let t := "radial-gradient(".toList ++ commaList (shown ++ texts) ++ [')']
    return .gradient .radial t place stops

/-! ## Gradients as images -/

def imageOf (gradient : Text) : Text :=
  "<?xml version=\"1.0\" encoding=\"utf-8\"?>".toList ++
  "<svg version=\"1.1\" xmlns=\"http://www.w3.org/2000/svg\">".toList ++
  "<defs>".toList ++ gradient ++ "</defs>".toList ++
  "<rect x=\"0\" y=\"0\" width=\"100%\" height=\"100%\" fill=\"url(#grad)\" />".toList ++
  "</svg>".toList

def quotedPart (name : String) (value : Text) : Text :=
  name.toList ++ '=' :: '"' :: (value ++ ['"'])

def stopElement (stop colour : Text) : Text :=
  "<stop ".toList ++ quotedPart "offset" stop ++ ' ' :: quotedPart "stop-color" colour ++
    "/>".toList

def numberText (v : Value) : Calc Text := do Calc.ofExcept (← v.quantity).text

/-- The address of an image that is given by its content. -/
def imageUrl (content : Text) : Value :=
  let url := "data:image/svg+xml;base64,".toList ++ Text.base64 content
  .string ("url(\"".toList ++ Text.escape url ++ "\")".toList)

def splitPlace (args : List Value) : Calc (List Value × Value) := do
  match args.getLast? with
  | none => throw .outOfRange
  | some v =>
    match v with
    | .string _ | .gradient _ _ _ _ | .number _ => return (args.dropLast, v)
    | _ => return (args, .nothing)

def linearImage (args : List Value) : Calc Value := do
  let (rest, start) ← splitPlace args
  let stops ← colourStops false rest
  let (x₁, y₁) ← gradientPoint [start]
  let (x₂, y₂) ← gradientPoint [← position true [start]]
  let x₁ ← numberText x₁
  let y₁ ← numberText y₁
  let x₂ ← numberText x₂
  let y₂ ← numberText y₂
  let texts ← stopTexts stopElement stops
  let attributes := Text.joinWith [' ']
    [quotedPart "id" "grad".toList, quotedPart "x1" x₁, quotedPart "y1" y₁, quotedPart "x2" x₂,
      quotedPart "y2" y₂]
  return imageUrl (imageOf
    ("<linearGradient ".toList ++ attributes ++ '>' :: texts.flatten ++ "</linearGradient>".toList))

def radialImage (args : List Value) : Calc Value := do
  let (rest, centre) ← splitPlace args
  let stops ← colourStops false rest
  let (x, y) ← gradientPoint [centre]
  let r ← endPosition true stops
  let x ← numberText x
  let y ← numberText y
  let r ← numberText r
  let texts ← stopTexts stopElement stops
  let attributes := Text.joinWith [' ']
    [quotedPart "id" "grad".toList, quotedPart "gradientUnits" "userSpaceOnUse".toList,
      quotedPart "cx" x, quotedPart "cy" y, quotedPart "r" r]
  return imageUrl (imageOf
    ("<radialGradient ".toList ++ attributes ++ '>' :: texts.flatten ++ "</radialGradient>".toList))

/-! ## Notations of browsers -/

def placeOr (place : Option Value) (usual : String) : Calc Value := do
  match place with
  | some v => if ← v.isTrue then return v else return .word usual.toList
  | none => return .word usual.toList

def oldLinear (place : Option Value) (stops : List Stop) : Calc Value := do
  let p ← position false [← placeOr place "center top"]
  let o ← position true [← placeOr place "center top"]
  let texts ← stopTexts stopCall stops
  let shown ← shownAll [p, o]
  return .string ("-webkit-gradient(".toList ++ commaList ("linear".toList :: shown ++ texts) ++
    [')'])

def oldRadial (place : Option Value) (stops : List Stop) : Calc Value := do
  let point : Calc Value :=
    match place with
    | some v => gradientPointList [v]
    | none => return .word "center".toList
  let p ← point
  let q ← point
  let e ← endPosition true stops
  let texts ← stopTexts stopCall stops
  let p ← p.shown
  let q ← q.shown
  let e ← e.shown
  return .string ("-webkit-gradient(".toList ++
    commaList ("radial".toList :: p :: ['0'] :: q :: e :: texts) ++ [')'])

/-- The notation of a gradient for the browser that a prefix names, if it has one.  A
gradient cannot be turned into an image after it was made. -/
def forBrowser? (name : Text) : Value → Option (Calc Value)
  | .gradient shape t place stops =>
    let prefixed : List Text :=
      match shape with
      | .linear => ["-moz", "-pie", "-ms", "-o", "-webkit"].map String.toList
      | .radial => ["-moz", "-webkit"].map String.toList
    if prefixed.contains name then some (return .string (name ++ '-' :: t))
    else if name == "-css2".toList then some (return .string [])
    else if name == "-svg".toList then some (throw .wrongValue)
    else if name == "-owg".toList then
      match shape with
      | .linear => some (oldLinear place stops)
      | .radial => some (oldRadial place stops)
    else if name == "-pie".toList then
      some do
        Calc.logLine .warning "PIE does not support radial-gradient.".toList
        return .string "-pie-radial-gradient(unsupported)".toList
    else none
  | _ => none

/-- The values that a browser's notation is looked for in: the items of a list, or the
value itself. -/
def candidatesOf : Value → List Value
  | .list _ items => Items.values items
  | v => [v]

def browserName (prefixText : Text) : Text := prefixText.map fun c => if c == '_' then '-' else c

def isPrefixed (browser : Value) (args : List Value) : Calc Value := do
  let name := browserName (← browser.shown)
  let found := args.any fun a => (candidatesOf a).any fun v => (forBrowser? name v).isSome
  return .boolean (.truth found)

def valueForBrowser (name : Text) (v : Value) : Calc Value := (forBrowser? name v).getD (return v)

def argumentForBrowser (name : Text) (v : Value) : Calc Value :=
  match v with
  | .list slot items => do
    let items ← Value.mapItems (fun _ w => valueForBrowser name w) items
    Calc.newList (← Calc.separator slot) (Items.renumber items)
  | v => valueForBrowser name v

def inNotation (name : Text) (args : List Value) : Calc Value := do
  match ← mapAll (argumentForBrowser name) args with
  | [v] => return v
  | vs => (Listing.ofValues (some [',']) vs).toValue

def gradients : List (String × Routine) :=
  let browser (name : String) : String × Routine :=
    (name ++ ":n", .ofAny (inNotation name.toList))
  [ ("grad-end-position:n", .ofAny fun args => do endPosition false (← colourStops false args)),
    ("color-stops:n", .ofAny (stopList false colourFirst)),
    ("color-stops-in-percentages:n", .ofAny (stopList true colourFirst)),
    ("grad-color-stops:n", .ofAny (stopList true stopCall)),
    ("radial-gradient:n", .ofAny radialGradient),
    ("linear-gradient:n", .ofAny linearGradient),
    ("radial-svg-gradient:n", .ofAny radialImage),
    ("linear-svg-gradient:n", .ofAny linearImage),
    ("prefixed:n", .ofOneAndAny "prefix" isPrefixed),
    ("prefix:n", .ofOneAndAny "prefix" fun p args => do
      inNotation (browserName (← p.shown)) args) ] ++
  ["-moz", "-svg", "-css2", "-pie", "-webkit", "-owg", "-ms", "-o"].map browser

end SheetPress.Library
