import SheetPress.Value.Basic
import SheetPress.Decimal.Shortest
import SheetPress.Colour.Space

/-!
# How values are written

`Value.shown` is the text of a value in a stylesheet, `Value.inspect` its unambiguous
form for the journal and the interactive shell, and `Value.spelled` the text that a
value gives when it is put into another text as it is.
-/

set_option autoImplicit false

namespace SheetPress

/-! ## Colours -/

def hexPair (upper : Bool) (i : Int) : Text :=
  let digits := Text.hexDigits i.natAbs
  let digits := if upper then digits.map Char.toUpper else digits
  if i < 0 then '-' :: Text.padLeft 1 '0' digits else Text.padLeft 2 '0' digits

namespace ColourValue

/-- The notation with the greatest count, the last of equals; empty if there is none. -/
def notationName (c : ColourValue) : Text :=
  let best := c.notations.foldl
    (fun (best : Option (Text × Nat)) (next : Text × Nat) =>
      if next.1.isEmpty then best
      else
        match best with
        | none => some next
        | some b => if b.2 ≤ next.2 then some next else some b)
    none
  (best.map Prod.fst).getD []

def addNotations (a b : List (Text × Nat)) : List (Text × Nat) :=
  b.foldl (fun ws p => Units.bump p.1 p.2 ws) a

end ColourValue

namespace Channels

def fractionDigits (s : Scalar) : Text := (Text.cut ['.'] s.shown).2

def isFine (c : Channels) : Bool :=
  [c.red, c.green, c.blue].any fun s => 2 < (fractionDigits s).length

def percentText (s : Scalar) : Text := Decimal.shown (s.toFloat * 100.0 / 255.0) ++ ['%']

def toHls (c : Channels) : Except Fault Colour.Hls :=
  Colour.Hls.ofRgb (c.red.toFloat / 255.0) (c.green.toFloat / 255.0) (c.blue.toFloat / 255.0)

def isOpaque (c : Channels) : Bool := c.alpha.compare .eq (.whole 1)

def callText (name : Text) (parts : List Text) : Text :=
  name ++ '(' :: Text.joinWith ", ".toList parts ++ [')']

def hslParts (c : Channels) : Except Fault (List Text) :=
  (toHls c).map fun h =>
    [ Decimal.shown (h.hue * 360.0),
      Decimal.shown (h.saturation * 100.0) ++ ['%'],
      Decimal.shown (h.lightness * 100.0) ++ ['%'] ]

/-- Channels in the named notation: hue, saturation and lightness where it asks for them;
else percentages where a channel needs three places; else whole channels. -/
def text (notationName : Text) (c : Channels) : Except Fault Text := do
  let opaqueHsl := notationName == "hsla".toList && c.isOpaque
  if notationName == "hsl".toList || opaqueHsl then
    return callText "hsl".toList (← c.hslParts)
  if notationName == "hsla".toList then
    return callText "hsla".toList ((← c.hslParts) ++ [c.alpha.shown])
  if c.isFine then
    let parts := [c.red, c.green, c.blue].map percentText
    if c.isOpaque then return callText "rgb".toList parts
    return callText "rgba".toList (parts ++ [c.alpha.shown])
  let r ← c.red.rounded
  let g ← c.green.rounded
  let b ← c.blue.rounded
  if c.isOpaque then return '#' :: (hexPair false r ++ hexPair false g ++ hexPair false b)
  return callText "rgba".toList ([r, g, b].map Text.ofInt ++ [c.alpha.shown])

end Channels

/-! ## The text in a stylesheet -/

mutual

def Value.shown : Value → Calc Text
  | .nothing => return []
  | .scalar s => return s.shown
  | .word t => return t
  | .boolean s => return if s.isTrue then "true" else "false"
  | .number slot => do Calc.ofExcept (← Calc.quantity slot).text
  | .colour c => do Calc.ofExcept ((← Calc.channels c.source).text c.notationName)
  | .string t => return t
  | .gradient _ t _ _ => return t
  | .quoted t => return '"' :: (Text.escape t ++ ['"'])
  | .list slot items => do
    let s ← Calc.separator slot
    return Text.joinWith (s.getD [] ++ [' ']) (← shownItems items)
  | .table s items => do return Text.joinWith (s.getD [] ++ [' ']) (← shownItems items)

def shownItems : List (Key × Value) → Calc (List Text)
  | [] => return []
  | (_, v) :: rest => do
    let t ← v.shown
    return t :: (← shownItems rest)

end

/-! ## Inspection -/

def inspectByte (quote : Char) (c : Char) : Text :=
  if c == '\\' then "\\\\"
  else if c == quote then ['\\', c]
  else if c == '\n' then "\\n"
  else if c == '\r' then "\\r"
  else if c == '\t' then "\\t"
  else if c.toNat < 32 || 127 ≤ c.toNat then
    '\\' :: 'x' :: Text.padLeft 2 '0' (Text.hexDigits c.toNat)
  else [c]

/-- A text in single quotes, or in double quotes if it holds single ones only. -/
def inspectText (t : Text) : Text :=
  let quote := if t.any (· == '\'') && !t.any (· == '"') then '"' else '\''
  quote :: (t.flatMap (inspectByte quote) ++ [quote])

def inspectScalar : Scalar → Text
  | .truth b => if b then "True" else "False"
  | .whole i => Text.ofInt i
  | .real x => Decimal.shortest x

def inspectRow (opening closing : Char) (parts : List Text) : Text :=
  opening :: (Text.joinWith ", ".toList parts ++ [closing])

def inspectCounts (counts : List (Text × Nat)) (lead : Option Text) : Text :=
  inspectRow '{' '}' (counts.map (fun p => inspectText p.1 ++ ": ".toList ++ Text.ofNat p.2) ++
    lead.toList.map (fun u => "'_': ".toList ++ inspectText u))

def inspectTyped (name : Text) (parts : List Text) : Text :=
  '<' :: (name ++ ": ".toList ++ Text.joinWith ", ".toList parts ++ ['>'])

def inspectKey : Key → Text
  | .index i => Text.ofInt i
  | .name t => inspectText t

def inspectSeparator (s : Option Text) : List Text :=
  s.toList.map fun t => "'_': ".toList ++ inspectText t

mutual

def Value.inspect : Value → Calc Text
  | .nothing => return "None"
  | .scalar s => return inspectScalar s
  | .word t => return inspectText t
  | .boolean s => return inspectTyped "BooleanValue".toList [inspectScalar s]
  | .number slot => do
    let q ← Calc.quantity slot
    return inspectTyped "NumberValue".toList
      [inspectScalar q.size, inspectCounts q.units.weights q.units.lead]
  | .colour c => do
    let parts := ((← Calc.channels c.source).toList).map inspectScalar
    let row :=
      match c.source with
      | .own _ => inspectRow '(' ')' parts
      | .shared _ => inspectRow '[' ']' parts
    return inspectTyped "ColorValue".toList [row, inspectCounts c.notations none]
  | .string t => return inspectTyped "StringValue".toList [inspectText t]
  | .gradient _ t _ _ => return inspectTyped "StringValue".toList [inspectText t]
  | .quoted t => return inspectTyped "QuotedStringValue".toList [inspectText t]
  | .list slot items => do
    let s ← Calc.separator slot
    let row := inspectRow '{' '}' ((← inspectItems items) ++ inspectSeparator s)
    return inspectTyped "ListValue".toList [row]
  | .table s items => do
    return inspectRow '{' '}' ((← inspectItems items) ++ inspectSeparator s)

def inspectItems : List (Key × Value) → Calc (List Text)
  | [] => return []
  | (k, v) :: rest => do
    let t ← v.inspect
    return (inspectKey k ++ ": ".toList ++ t) :: (← inspectItems rest)

end

/-- The text that a value gives when it is put into another text as it is: plain scalars
are spelled in full, all other values are shown. -/
def Value.spelled (v : Value) : Calc Text :=
  match v with
  | .nothing => return "None"
  | .scalar (.truth b) => return if b then "True" else "False"
  | .scalar (.real x) => return Decimal.plain x
  | .table s items => (Value.table s items).inspect
  | v => v.shown

end SheetPress
