import SheetPress.Value.Reading

/-!
# Arithmetic on values

A list combines item by item.  Otherwise the left operand's kind decides how two values
are combined, and the right operand's kind if the left one is plain: truth values count
as numbers, quantities keep their units, colours combine channel by channel, strings are
joined by `+` and repeated by `*`.

Two operations change an operand itself.  A bare number that is added to a percentage
becomes a percentage, and a number that repeats a string loses its fraction.
-/

set_option autoImplicit false

namespace SheetPress

namespace Value

def operateBoolean (op : Operation) (a b : Value) : Calc Value := do
  let x ← a.asBoolean
  let y ← b.asBoolean
  return .boolean (← Calc.ofExcept (x.operate op y))

/-- An operation of colours: channel by channel, and the mean of the opacities. -/
def operateColour (op : Operation) (a b : Value) : Calc Value := do
  let p ← a.asColour
  let q ← b.asColour
  let c ← Calc.channels p.source
  let d ← Calc.channels q.source
  let red ← Calc.ofExcept (c.red.operate op d.red)
  let green ← Calc.ofExcept (c.green.operate op d.green)
  let blue ← Calc.ofExcept (c.blue.operate op d.blue)
  let _ ← Calc.ofExcept (c.alpha.operate op d.alpha)
  let sum ← Calc.ofExcept (c.alpha.operate .add d.alpha)
  let alpha ← Calc.ofExcept (sum.operate .div (.whole 2))
  return .colour
    { source := .own (Channels.mk red green blue alpha).clamp
      notations := ColourValue.addNotations p.notations q.notations }

/-- A text as often as a whole number says. -/
def repeated (t : Text) (n : Int) : Text := t.times n.toNat

def operateQuoted (op : Operation) (a b : Value) : Calc Value := do
  let t ← a.text
  match op with
  | .mul => do
    let n ← Calc.ofExcept (← b.size).truncate
    return .quoted (repeated t n)
  | .add => do return .quoted (t ++ (← b.text))
  | .sub | .div => do
    let _ ← b.text
    throw .wrongKind

def isQuoted : Value → Bool
  | .quoted _ => true
  | _ => false

def joinStrings (a b : Value) : Calc Value := do
  let s ← a.text
  let t ← b.text
  return if a.isQuoted || b.isQuoted then .quoted (s ++ t) else .string (s ++ t)

def operateString (op : Operation) (a b : Value) : Calc Value :=
  match op with
  | .add => joinStrings a b
  | op => operateQuoted op a b

def operatePlain (op : Operation) : Value → Value → Calc Value
  | .scalar s, .scalar t => do return .scalar (← Calc.ofExcept (s.operate op t))
  | .word s, .word t =>
    match op with
    | .add => return .word (s ++ t)
    | _ => throw .wrongKind
  | .word t, .scalar s | .scalar s, .word t =>
    match op, s.whole? with
    | .mul, some n => return .word (repeated t n)
    | _, _ => throw .wrongKind
  | _, _ => throw .wrongKind

def operateOther (op : Operation) (a b : Value) : Calc Value :=
  match a, b with
  | .boolean _, _ => operateBoolean op a b
  | .colour _, _ => operateColour op a b
  | .string _, _ | .gradient _ _ _ _, _ => operateString op a b
  | .quoted _, _ => operateQuoted op a b
  | _, .boolean _ => operateBoolean op a b
  | _, .colour _ => operateColour op a b
  | _, .string _ | _, .gradient _ _ _ _ => operateString op a b
  | _, .quoted _ => operateQuoted op a b
  | _, _ => operatePlain op a b

/-- An operand of a quantity: words are strings and scalars are quantities. -/
def operand : Value → Calc Value
  | .word t => return .string t
  | .scalar s => Calc.newNumber (.bare s.toFloat)
  | v => return v

/-- In differences and quotients strings are read as quantities. -/
def asDifference (op : Operation) (v : Value) : Calc Value := do
  match op, v with
  | .sub, .string _ | .sub, .gradient _ _ _ _ | .sub, .quoted _
  | .div, .string _ | .div, .gradient _ _ _ _ | .div, .quoted _ => Calc.newNumber (← v.quantity)
  | _, v => return v

/-- A number that repeats a string loses its fraction. -/
def repeatBy (slot : Nat) (t : Text) : Calc Text := do
  let q ← Calc.quantity slot
  let n ← Calc.ofExcept q.size.truncate
  Calc.setQuantity slot { q with size := .whole n }
  return repeated t n

def withoutUnits : Value → Calc Value
  | .number slot => do return .scalar (← Calc.quantity slot).size
  | v => return v

def operateNumber (op : Operation) (a b : Value) : Calc Value := do
  let a ← asDifference op (← a.operand)
  let b ← asDifference op (← b.operand)
  match op, a, b with
  | .mul, .number slot, .string t | .mul, .string t, .number slot
  | .mul, .number slot, .gradient _ t _ _ | .mul, .gradient _ t _ _, .number slot =>
    return .string (← repeatBy slot t)
  | .mul, .number slot, .quoted t | .mul, .quoted t, .number slot =>
    return .quoted (← repeatBy slot t)
  | _, .number l, .number r =>
    let outcome ← Calc.ofExcept (Quantity.operate op (← Calc.quantity l) (← Calc.quantity r))
    Calc.setQuantity l outcome.left
    Calc.setQuantity r outcome.right
    Calc.newNumber outcome.result
  | _, _, _ => do operateOther op (← withoutUnits a) (← withoutUnits b)

def operateSingle (op : Operation) (a b : Value) : Calc Value :=
  match a, b with
  | .number _, _ => operateNumber op a b
  | .boolean _, _ | .colour _, _ | .string _, _ | .gradient _ _ _ _, _ | .quoted _, _ =>
    operateOther op a b
  | _, .number _ => operateNumber op a b
  | _, _ => operateOther op a b

def mapItems (f : Key → Value → Calc Value) : List (Key × Value) → Calc (List (Key × Value))
  | [] => return []
  | (k, v) :: rest => do
    let w ← f k v
    return (k, w) :: (← mapItems f rest)

/-- An operation of two values nested at most `n` deep. -/
def operateWithin : (n : Nat) → Operation → Value → Value → Calc Value
  | 0, _, _, _ => throw .tooDeep
  | n + 1, op, a, b =>
    match a, b with
    | .list l items, .list _ others => do
      let items ← mapItems (fun k v =>
        match Items.get? others k with
        | some w => operateWithin n op v w
        | none => pure v) items
      Calc.newList (← Calc.separator l) items
    | .list l items, b => do
      let items ← mapItems (fun _ v => operateWithin n op v b) items
      Calc.newList (← Calc.separator l) items
    | a, .list l items => do
      let items ← mapItems (fun _ v => operateWithin n op a v) items
      Calc.newList (← Calc.separator l) items
    | a, b => operateSingle op a b

mutual

def depth : Value → Nat
  | .list _ items => depthItems items + 1
  | _ => 1

/-- How deep lists are nested in items. -/
def depthItems : List (Key × Value) → Nat
  | [] => 0
  | (_, v) :: rest => max (depth v) (depthItems rest)

end

def operate (op : Operation) (a b : Value) : Calc Value :=
  operateWithin (a.depth + b.depth) op a b

end Value

end SheetPress
