import SheetPress.Value.Shown

/-!
# Reading a value as another kind

Functions and operators take values of any kind and read them as the kind they work
on: as a text, a quantity, a colour, a truth value or a list.  Only numbers and colours
can refuse.
-/

set_option autoImplicit false

namespace SheetPress

/-! ## Texts and numbers -/

/-- The content of a string, and what is shown of any other value. -/
def Value.text : Value → Calc Text
  | .string t => return t
  | .gradient _ t _ _ => return t
  | .quoted t => return t
  | v => v.shown

def readAmount? (s : Text) : Option Float :=
  if s.getLast? == some '%' then (Decimal.readFloat? s.dropLast).map (· / 100.0)
  else Decimal.readFloat? s

def Quantity.ofText (s : Text) : Except Fault Quantity :=
  let fault := Fault.notNumber (some s)
  if s.getLast? == some '%' then
    match readAmount? s.dropLast with
    | some x => .ok (.percent (.real (x / 100.0)))
    | none => .error fault
  else
    match readAmount? s with
    | some x => .ok (.bare x)
    | none => .error fault

/-- Why a list is no number: its single item is named, several cannot be. -/
def listIsNoNumber (items : List (Key × Value)) : Calc Quantity := do
  match items with
  | [] => throw .outOfRange
  | [(_, v)] =>
    match v with
    | .nothing | .scalar _ | .word _ | .table _ _ => throw (.notNumber (some (← v.inspect)))
    | _ => throw (.notNumber none)
  | _ => throw .wrongKind

def Value.quantity : Value → Calc Quantity
  | .nothing => return .bare 0.0
  | .scalar s => return .bare s.toFloat
  | .word t => Calc.ofExcept (Quantity.ofText t)
  | .string t => Calc.ofExcept (Quantity.ofText t)
  | .gradient _ t _ _ => Calc.ofExcept (Quantity.ofText t)
  | .number slot => Calc.quantity slot
  | .list _ items => listIsNoNumber items
  | .table _ _ => throw (.notNumber none)
  | v => do throw (.notNumber (some (← v.shown)))

def Value.quantityIn (unit : Text) (v : Value) : Calc Quantity := do
  let q ← v.quantity
  match v with
  | .number _ => return if q.units.isEmpty then { q with units := .only unit } else q
  | _ => return { q with units := .only unit }

def Value.size (v : Value) : Calc Scalar := do return (← v.quantity).size

/-! ## Colours -/

def shortChannel? (c : Char) : Option Scalar :=
  if Text.isHex c then some (.whole (17 * Text.hexValue c)) else none

def longChannel? (s : Text) : Option Scalar := (Decimal.readHex? s).map .whole

/-- Channels from three, four, six or eight digits behind one leading character. -/
def Channels.ofDigits? : Text → Option Channels
  | [_, r, g, b] => do
    return ⟨← shortChannel? r, ← shortChannel? g, ← shortChannel? b, .real 1.0⟩
  | [_, r, g, b, a] => do
    return ⟨← shortChannel? r, ← shortChannel? g, ← shortChannel? b, ← shortChannel? a⟩
  | [_, r, r', g, g', b, b'] => do
    return ⟨← longChannel? [r, r'], ← longChannel? [g, g'], ← longChannel? [b, b'], .real 1.0⟩
  | [_, r, r', g, g', b, b', a, a'] => do
    return ⟨← longChannel? [r, r'], ← longChannel? [g, g'], ← longChannel? [b, b'],
      ← longChannel? [a, a']⟩
  | _ => none

def Channels.ofParts? (s : Text) : Option Channels :=
  match (Text.splitOn ',' s).take 4 with
  | [r, g, b, a] => do
    let r ← readAmount? r
    let g ← readAmount? g
    let b ← readAmount? b
    let a ← readAmount? a
    return (Channels.mk (.real r) (.real g) (.real b) (.real a)).clamp
  | _ => none

/-- A text as a colour.  Digits are read behind any leading character; a colour function
needs its four parts; every other text is black. -/
def ColourValue.ofText (s : Text) : Except Fault ColourValue :=
  match Channels.ofDigits? s with
  | some c => .ok { source := .own c }
  | none =>
    let (name, parts) := Text.cut ['('] s
    if (readAmount? s).isSome then .ok { source := .own .black }
    else if name == "rgb".toList || name == "rgba".toList then
      match Channels.ofParts? (Text.dropEndWhile (· == ')') parts) with
      | some c => .ok { source := .own c, notations := [(name, 1)] }
      | none => .error .notColour
    else if name == "hsl".toList || name == "hsla".toList then .error .notColour
    else .ok { source := .own .black }

def ColourValue.grey (s : Scalar) : ColourValue := { source := .own ⟨s, s, s, .whole 1⟩ }

def Value.asColour : Value → Calc ColourValue
  | .nothing => return { source := .own .black }
  | .colour c => return c
  | .number slot => do return .grey (← Calc.quantity slot).size
  | .scalar s => return .grey (.real s.toFloat)
  | v => do Calc.ofExcept (ColourValue.ofText (← v.shown))

def Value.channels (v : Value) : Calc Channels := do Calc.channels (← v.asColour).source

/-! ## Truth -/

/-- Whether a value counts as true: numbers but zero, texts but the empty one, lists with
items, and all colours. -/
def Value.isTrue : Value → Calc Bool
  | .nothing => return false
  | .scalar s => return s.isTrue
  | .word t => return !t.isEmpty
  | .boolean s => return s.isTrue
  | .number slot => do return (← Calc.quantity slot).size.isTrue
  | .colour _ => return true
  | .string t => return !t.isEmpty
  | .gradient _ t _ _ => return !t.isEmpty
  | .quoted t => return !t.isEmpty
  | .list _ items => return !items.isEmpty
  | .table s items => return s.isSome || !items.isEmpty

def trueWords : List Text := ["true", "1", "on", "yes", "t", "y"].map String.toList

def falseWords : List Text := ["false", "0", "off", "no", "f", "n"].map String.toList

/-- The content of a value read as a typed truth value. -/
def Value.asBoolean : Value → Calc Scalar
  | .nothing => return .truth false
  | .boolean s => return s
  | .number slot => do return .truth (← Calc.quantity slot).size.isTrue
  | .scalar s => return .truth s.isTrue
  | v => do
    let t ← v.shown
    return .truth (trueWords.contains (Text.lower t) || (← v.isTrue))

/-! ## Lists -/

structure Listing where
  separator : Option Text
  items : List (Key × Value)

def Listing.ofText (whole : Value) (t : Text) : Listing :=
  match Text.words t with
  | [w] =>
    let parts := ((Text.splitOn ',' w).map Text.trim).filter fun p => !p.isEmpty
    if 1 < parts.length then ⟨some [','], Items.ofList (parts.map .word)⟩
    else ⟨none, Items.ofList [whole]⟩
  | ws => ⟨none, Items.ofList (ws.map .word)⟩

def Value.listing : Value → Calc Listing
  | .nothing => return ⟨none, []⟩
  | .list slot items => do return ⟨← Calc.separator slot, items⟩
  | .table s items => return ⟨s, Items.renumber items⟩
  | .word t => return .ofText (.word t) t
  | .scalar s => return .ofText (.scalar s) s.shown
  | v => return ⟨none, Items.ofList [v]⟩

def Listing.toValue (l : Listing) : Calc Value := Calc.newList l.separator l.items

def Listing.ofValues (separator : Option Text) (vs : List Value) : Listing :=
  ⟨separator, Items.ofList vs⟩

/-! ## Copies -/

/-- A copy that shares nothing but mixed channels. -/
def Value.copied : Value → Calc Value
  | .nothing => throw .wrongKind
  | .number slot => do Calc.newNumber (← Calc.quantity slot)
  | .gradient _ t _ _ => return .string t
  | .list slot items => do Calc.newList (← Calc.separator slot) items
  | v => return v

/-- A plain scalar from a value that is or spells a number. -/
def Value.plainNumber (v : Value) : Calc Scalar :=
  match v with
  | .scalar s => return s
  | .number slot => do return (← Calc.quantity slot).size
  | .word t =>
    match Decimal.readFloat? t with
    | some x => return .real x
    | none => throw .wrongValue
  | _ => throw .wrongKind

/-- A value turned into the kind of `model`. -/
def Value.like (model v : Value) : Calc Value :=
  match model with
  | .nothing => throw .wrongKind
  | .scalar (.truth _) => do return .scalar (.truth (← v.isTrue))
  | .scalar (.whole _) =>
    match v with
    | .word t =>
      match Decimal.readInt? t with
      | some i => return .scalar (.whole i)
      | none => throw .wrongValue
    | _ => do return .scalar (.whole (← Calc.ofExcept (← v.plainNumber).truncate))
  | .scalar (.real _) => do return .scalar (.real (← v.plainNumber).toFloat)
  | .word _ => do return .word (← v.spelled)
  | .boolean _ => do return .boolean (← v.asBoolean)
  | .number _ => do Calc.newNumber (← v.quantity)
  | .colour _ => do return .colour (← v.asColour)
  | .string _ | .gradient _ _ _ _ => do return .string (← v.text)
  | .quoted _ => do return .quoted (← v.text)
  | .list _ _ => do (← v.listing).toValue
  | .table _ _ =>
    match v with
    | .table s items => return .table s items
    | .word [] => return .table none []
    | .word _ => throw .wrongValue
    | .list _ [] => throw .outOfRange
    | _ => throw .wrongKind

end SheetPress
