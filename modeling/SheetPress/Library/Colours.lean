import SheetPress.Library.Routine

/-!
# Colour functions

Making colours from channels, changing their channels in either colour space, mixing
them, and asking for their channels.
-/

set_option autoImplicit false

namespace SheetPress.Library

/-- A colour from channels, which are cut to their ranges, in a notation. -/
def colourOf (c : Channels) (notationName : Text) : Value :=
  let known := ["rgb", "rgba", "hsl", "hsla"].map String.toList
  .colour
    { source := .own c.clamp
      notations := if known.contains notationName then [(notationName, 1)] else [] }

def isShare (s : Scalar) : Bool := s.compare .gt (.whole 0) && s.compare .le (.whole 1)

/-- The quantity of an argument of a colour function. -/
def isPercent (q : Quantity) : Bool := q.unit == ['%']

def channelOf (q : Quantity) : Scalar :=
  if isPercent q || isShare q.size then q.size.product (.real 255.0)
  else q.size.clamp 255.0

def notationOf (v : Option Value) (usual : String) : Calc Text :=
  match v with
  | none => return usual.toList
  | some v => v.text

def rgba (r g b a : Value) (notationName : Text) : Calc Value := do
  let r ← r.quantity
  let g ← g.quantity
  let b ← b.quantity
  let a ← a.quantity
  return colourOf ⟨channelOf r, channelOf g, channelOf b, a.size.clamp 1.0⟩ notationName

def retyped (notationName : String) (v : Value) (opacity : Option Value) : Calc Value := do
  let c ← v.channels
  let a ←
    match opacity with
    | none => pure c.alpha
    | some a => a.size
  return colourOf { c with alpha := a.clamp 1.0 } notationName.toList

/-- The hue of a number as a part of one turn; a percentage is no hue. -/
def hueOf (q : Quantity) : Option Float :=
  if isPercent q && isShare q.size then none
  else some (Decimal.floorMod q.size.toFloat 360.0 / 360.0)

/-- A share between 0 and 1 from a number: percentages and shares count as they are, other
numbers of 100. -/
def shareOf (q : Quantity) : Scalar :=
  let s := if isPercent q || isShare q.size then q.size else .real (q.size.toFloat / 100.0)
  if s.compare .le (.whole 0) then .real 0.0
  else if s.compare .ge (.real 1.0) then .real 1.0
  else s

def channelsOfHls (h : Colour.Hls) (alpha : Scalar) : Channels :=
  let (r, g, b) := h.toRgb
  ⟨.real (r * 255.0), .real (g * 255.0), .real (b * 255.0), alpha⟩

def hsla (h s l a : Value) (notationName : Text) : Calc Value := do
  let h ← h.quantity
  let s := shareOf (← s.quantity)
  let l := shareOf (← l.quantity)
  let a := shareOf (← a.quantity)
  let saturation := Colour.belowOne s.toFloat
  let lightness := Colour.belowOne l.toFloat
  match hueOf h with
  | some hue => return colourOf (channelsOfHls ⟨hue, lightness, saturation⟩ a) notationName
  | none =>
    if saturation == 0.0 then
      return colourOf (channelsOfHls ⟨0.0, lightness, saturation⟩ a) notationName
    else throw .wrongKind

/-- How a change of a channel combines it with its argument; without an operation the
argument takes its place. -/
abbrev Change := Option Operation

def changed (op : Change) (c : Scalar) (a : Option Scalar) : Calc Scalar :=
  match op, a with
  | _, none => return c
  | none, some a => return a
  | some op, some a => Calc.ofExcept (c.operate op a)

def sizeOf? (v : Option Value) : Calc (Option Scalar) :=
  match v with
  | none => return none
  | some v => do return some (← v.size)

def changeRgba (op : Change) (colour : Value) (r g b a : Option Value) : Calc Value := do
  let v ← colour.asColour
  let c ← Calc.channels v.source
  let r ← sizeOf? r
  let g ← sizeOf? g
  let b ← sizeOf? b
  let a ← sizeOf? a
  let c : Channels :=
    ⟨← changed op c.red r, ← changed op c.green g, ← changed op c.blue b,
      ← changed op c.alpha a⟩
  return .colour { v with source := .own c.clamp }

/-- A bare whole number as an argument. -/
def whole (i : Int) : Option Value := some (.scalar (.whole i))

/-- The share that an argument for saturation or lightness stands for. -/
def shareArgument (q : Quantity) : Scalar :=
  if !isPercent q && q.size.compare .ge (.whole 1) then .real (q.size.toFloat / 100.0)
  else q.size

def quantityOf? (v : Option Value) : Calc (Option Quantity) :=
  match v with
  | none => return none
  | some v => do return some (← v.quantity)

/-- A coordinate after a change; one that is out of range is only cut. -/
def changedShare (op : Change) (x : Float) (a : Option Scalar) : Calc Scalar :=
  if x < 0.0 then return .real 0.0
  else if x > 1.0 then return .real 1.0
  else changed op (.real x) a

def changeHsl (op : Change) (colour : Value) (h s l : Option Value) : Calc Value := do
  let v ← colour.asColour
  let c ← Calc.channels v.source
  let h ← quantityOf? h
  let s ← quantityOf? s
  let l ← quantityOf? l
  let hls ← Calc.ofExcept c.toHls
  let hue ← changedShare op hls.hue (h.map fun q => .real (q.size.toFloat / 360.0))
  let saturation ← changedShare op hls.saturation (s.map shareArgument)
  let lightness ← changedShare op hls.lightness (l.map shareArgument)
  let hue := Decimal.floorMod (hue.toFloat * 360.0) 360.0
  let hue := (Scalar.real hue).clamp 360.0
  let saturation := saturation.clamp 1.0
  let lightness := lightness.clamp 1.0
  let hls : Colour.Hls :=
    ⟨hue.toFloat / 360.0, Colour.belowOne lightness.toFloat, Colour.belowOne saturation.toFloat⟩
  return .colour { v with source := .own (channelsOfHls hls c.alpha) }

def isSet (v : Option Value) : Calc Bool :=
  match v with
  | none => return false
  | some v => v.isTrue

def anySet : List (Option Value) → Calc Bool
  | [] => return false
  | v :: rest => do
    if ← isSet v then return true else anySet rest

def changeColour (op : Change) (colour : Value) (s l r g b a : Option Value) : Calc Value := do
  let colour ← if ← anySet [l, s] then changeHsl op colour (whole 0) s l else pure colour
  if ← anySet [r, g, b, a] then changeRgba op colour r g b a else return colour

def changing (op : Change) : Routine where
  required := ["color".toList]
  optional := ["saturation", "lightness", "red", "green", "blue", "alpha"].map String.toList
  body
    | [some colour, s, l, r, g, b, a], _ => changeColour op colour s l r g b a
    | _, _ => throw .wrongKind

/-- Mix two colours: `weight` is the part of the first one, opacities count too. -/
def mix (a b : Value) (weight : Option Value) : Calc Value := do
  let c ← a.channels
  let d ← b.channels
  let p ←
    match weight with
    | none => pure (Scalar.real 0.5)
    | some w => w.size
  let p := p.clamp 1.0
  let one := Scalar.whole 1
  let w := (p.product (.whole 2)).minus one
  let difference := c.alpha.minus d.alpha
  let product := w.product difference
  let balance ←
    if product.compare .eq (.whole (-1)) then pure w
    else Calc.ofExcept ((w.plus difference).operate .div (one.plus product))
  let w₁ := Scalar.real ((balance.plus one).toFloat / 2.0)
  let w₂ := one.minus w₁
  let blend (x y : Scalar) : Scalar := (x.product w₁).plus (y.product w₂)
  let alpha := (c.alpha.product p).plus (d.alpha.product (one.minus p))
  let source ←
    Calc.newMixture ⟨blend c.red d.red, blend c.green d.green, blend c.blue d.blue, alpha⟩
  return .colour { source }

/-- The negative of a mixed colour, which changes for all who hold it. -/
def invert (v : Value) : Calc Value := do
  let c ← v.asColour
  match c.source with
  | .own _ => throw .wrongKind
  | .shared slot =>
    let ch ← Calc.channels c.source
    let negative (s : Scalar) : Scalar := .real (255.0 - s.toFloat)
    Calc.setMixture slot
      { ch with red := negative ch.red, green := negative ch.green, blue := negative ch.blue }
    return .colour c

def channelNumber (f : Channels → Scalar) (v : Value) : Calc Value := do
  Calc.newNumber (.bare (f (← v.channels)).toFloat)

def coordinate (f : Colour.Hls → Float) (unit : String) (v : Value) : Calc Value := do
  let h ← Calc.ofExcept (← v.channels).toHls
  Calc.newNumber { size := .real (f h), units := .only unit.toList }

def filterDigits (v : Value) : Calc Value := do
  let c ← v.channels
  let pair (s : Scalar) : Calc Text := do return hexPair true (← Calc.ofExcept s.rounded)
  let a ← pair (c.alpha.product (.whole 255))
  let r ← pair c.red
  let g ← pair c.green
  let b ← pair c.blue
  return .string ('#' :: (a ++ r ++ g ++ b))

/-- A colour function with four channels, or three and full opacity. -/
def fromChannels (make : Value → Value → Value → Value → Text → Calc Value)
    (names : List String) (usual : String) : Routine where
  required := names.map String.toList
  optional := ["type".toList]
  body
    | [some x, some y, some z, some a, t], _ => do make x y z a (← notationOf t usual)
    | [some x, some y, some z, t], _ => do
      make x y z (.scalar (.real 1.0)) (← notationOf t usual)
    | _, _ => throw .wrongKind

/-- A routine that changes one coordinate by an amount. -/
def byAmount (f : Value → Option Value → Calc Value) : Routine :=
  .ofTwo "color" "amount" fun c a => f c (some a)

def colours : List (String × Routine) :=
  let add : Change := some .add
  let sub : Change := some .sub
  let mul : Change := some .mul
  let zero := whole 0
  let opacify := byAmount fun c a => changeRgba add c zero zero zero a
  let transparentize := byAmount fun c a => changeRgba sub c zero zero zero a
  let lighten (op : Change) := byAmount fun c a => changeHsl op c zero zero a
  let saturate (op : Change) := byAmount fun c a => changeHsl op c zero a zero
  let hundred : Option Value := some (.scalar (.real 100.0))
  let greyscale := Routine.ofOne "color" fun c => changeHsl sub c zero hundred zero
  let turn := Routine.ofTwo "color" "degrees" fun c d => changeHsl add c (some d) zero zero
  let half : Option Value := some (.scalar (.real 180.0))
  [ ("opacify:2", opacify), ("fadein:2", opacify), ("fade-in:2", opacify),
    ("transparentize:2", transparentize), ("fadeout:2", transparentize),
    ("fade-out:2", transparentize),
    ("lighten:2", lighten add), ("darken:2", lighten sub),
    ("saturate:2", saturate add), ("desaturate:2", saturate sub),
    ("grayscale:1", greyscale), ("greyscale:1", greyscale),
    ("adjust-hue:2", turn), ("spin:2", turn),
    ("adjust-lightness:2", lighten add), ("adjust-saturation:2", saturate add),
    ("scale-lightness:2", lighten mul), ("scale-saturation:2", saturate mul),
    ("adjust-color:n", changing add), ("scale-color:n", changing mul),
    ("change-color:n", changing none),
    ("complement:1", .ofOne "color" fun c => changeHsl add c half zero zero),
    ("invert:1", .ofOne "color" invert),
    ("mix:2", .ofTwoOrThree "color1" "color2" "weight" mix),
    ("mix:3", .ofTwoOrThree "color1" "color2" "weight" mix),
    ("hsl:3", fromChannels hsla ["h", "s", "l"] "hsl"),
    ("hsla:4", fromChannels hsla ["h", "s", "l", "a"] "hsla"),
    ("rgb:3", fromChannels rgba ["r", "g", "b"] "rgb"),
    ("rgba:4", fromChannels rgba ["r", "g", "b", "a"] "rgba"),
    ("hsl:1", .ofOne "color" fun c => retyped "hsl" c (some (.scalar (.real 1.0)))),
    ("rgb:1", .ofOne "color" fun c => retyped "rgb" c (some (.scalar (.real 1.0)))),
    ("hsla:1", .ofOneOrTwo "color" "a" (retyped "hsla")),
    ("hsla:2", .ofOneOrTwo "color" "a" (retyped "hsla")),
    ("rgba:1", .ofOneOrTwo "color" "a" (retyped "rgba")),
    ("rgba:2", .ofOneOrTwo "color" "a" (retyped "rgba")),
    ("ie-hex-str:1", .ofOne "color" filterDigits),
    ("red:1", .ofOne "color" (channelNumber Channels.red)),
    ("green:1", .ofOne "color" (channelNumber Channels.green)),
    ("blue:1", .ofOne "color" (channelNumber Channels.blue)),
    ("alpha:1", .ofOne "color" (channelNumber Channels.alpha)),
    ("opacity:1", .ofOne "color" (channelNumber Channels.alpha)),
    ("hue:1", .ofOne "color" (coordinate (fun h => h.hue * 360.0) "deg")),
    ("saturation:1", .ofOne "color" (coordinate Colour.Hls.saturation "%")),
    ("lightness:1", .ofOne "color" (coordinate Colour.Hls.lightness "%")) ]

end SheetPress.Library
