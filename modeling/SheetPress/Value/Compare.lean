import SheetPress.Value.Reading

/-!
# Comparing values

The left operand's kind decides how two values are compared; if it is plain, the right
operand's kind does, with the sides exchanged.  Numbers read the other side as a number,
colours as a colour, lists as a list, strings as a text, and truth values take the usual
words for true and false.  What cannot be read is compared by content, where contents of
different kinds stand in the order nothing, numbers, tables, mixed channels, texts,
channels.
-/

set_option autoImplicit false

namespace SheetPress

inductive Content where
  | nothing
  | scalar (s : Scalar)
  | table (items : List (Key × Value))
  | mixture (c : Channels)
  | text (t : Text)
  | channels (c : Channels)

namespace Content

/-- The items of a list together with its separator, which counts as the item `_`. -/
def withSeparator (s : Option Text) (items : List (Key × Value)) : List (Key × Value) :=
  match s with
  | none => items
  | some t => Items.insert (.name ['_']) (.word t) items

def ofValue : Value → Calc Content
  | .nothing => return .nothing
  | .scalar s => return .scalar s
  | .word t => return .text t
  | .boolean s => return .scalar s
  | .number slot => do return .scalar (← Calc.quantity slot).size
  | .colour c => do
    let ch ← Calc.channels c.source
    match c.source with
    | .own _ => return .channels ch
    | .shared _ => return .mixture ch
  | .string t => return .text t
  | .gradient _ t _ _ => return .text t
  | .quoted t => return .text t
  | .list slot items => do return .table (withSeparator (← Calc.separator slot) items)
  | .table s items => return .table (withSeparator s items)

def rank : Content → Nat
  | .nothing => 0
  | .scalar _ => 1
  | .table _ => 2
  | .mixture _ => 3
  | .text _ => 4
  | .channels _ => 5

/-- The first channels that differ decide. -/
def orderChannels : List Scalar → List Scalar → Option Ordering
  | a :: as, b :: bs =>
    match a.order b with
    | some .eq => orderChannels as bs
    | o => o
  | _, _ => some .eq

variable (compareValues : Comparison → Value → Value → Calc Bool)

/-- The least key whose item is missing on the other side or differs from it there. -/
def firstDifference (others : List (Key × Value)) :
    List (Key × Value) → Calc (Option (Key × Value))
  | [] => return none
  | (k, v) :: rest =>
    match Items.get? others k with
    | none => return some (k, v)
    | some w => do
      if ← compareValues .eq v w then firstDifference others rest else return some (k, v)

/-- The order of two values by two comparisons. -/
def orderValues (a b : Value) : Calc Ordering := do
  if ← compareValues .eq a b then return .eq
  if ← compareValues .lt a b then return .lt
  return .gt

/-- Tables by size, then by the least key whose items differ, then by those items. -/
def orderTables (a b : List (Key × Value)) : Calc Ordering := do
  match compare a.length b.length with
  | .eq =>
    match ← firstDifference compareValues b a, ← firstDifference compareValues a b with
    | some (k, v), some (l, w) =>
      match k.order l with
      | .eq => orderValues compareValues v w
      | o => return o
    | _, _ => return .eq
  | o => return o

def order : Content → Content → Calc (Option Ordering)
  | .nothing, .nothing => return some .eq
  | .scalar a, .scalar b => return a.order b
  | .table a, .table b => do return some (← orderTables compareValues a b)
  | .mixture a, .mixture b => return orderChannels a.toList b.toList
  | .text a, .text b => return some (Text.order a b)
  | .channels a, .channels b => return orderChannels a.toList b.toList
  | a, b => return some (compare a.rank b.rank)

def equalItems (others : List (Key × Value)) : List (Key × Value) → Calc Bool
  | [] => return true
  | (k, v) :: rest =>
    match Items.get? others k with
    | none => return false
    | some w => do
      if ← compareValues .eq v w then equalItems others rest else return false

def equal : Content → Content → Calc Bool
  | .table a, .table b =>
    if a.length == b.length then equalItems compareValues b a else return false
  | a, b => do return Comparison.eq.holds (← order compareValues a b)

def compare (c : Comparison) (a b : Content) : Calc Bool :=
  match c with
  | .eq => equal compareValues a b
  | .ne => do return !(← equal compareValues a b)
  | c => do return c.holds (← order compareValues a b)

def asTruth : Content → Content
  | .text t =>
    if trueWords.contains t then .scalar (.truth true)
    else if falseWords.contains t then .scalar (.truth false)
    else .text t
  | a => a

end Content

namespace Value

variable (compareValues : Comparison → Value → Value → Calc Bool)

def compareBoolean (c : Comparison) (a b : Value) : Calc Bool := do
  Content.compare compareValues c (Content.asTruth (← Content.ofValue a))
    (Content.asTruth (← Content.ofValue b))

/-- A fault that only means that a value is of another kind. -/
def isMisfit : Fault → Bool
  | .notNumber _ | .notColour | .wrongValue => true
  | _ => false

def compareNumber (c : Comparison) (a b : Value) : Calc Bool := do
  match ← Calc.attempt a.quantity with
  | .ok p =>
    match ← Calc.attempt b.quantity with
    | .ok q => return p.compare c q
    | .error f =>
      if isMisfit f then
        Content.compare compareValues c (.scalar p.size) (← Content.ofValue b)
      else throw f
  | .error f =>
    if isMisfit f then
      Content.compare compareValues c (← Content.ofValue a) (← Content.ofValue b)
    else throw f

def compareColour (c : Comparison) (a b : Value) : Calc Bool := do
  match ← Calc.attempt a.asColour with
  | .ok p =>
    match ← Calc.attempt b.asColour with
    | .ok q =>
      Content.compare compareValues c (← Content.ofValue (.colour p))
        (← Content.ofValue (.colour q))
    | .error f =>
      if isMisfit f then
        Content.compare compareValues c (← Content.ofValue (.colour p)) (← Content.ofValue b)
      else throw f
  | .error f =>
    if isMisfit f then
      Content.compare compareValues c (← Content.ofValue a) (← Content.ofValue b)
    else throw f

def compareList (c : Comparison) (a b : Value) : Calc Bool := do
  let l ← a.listing
  let m ← b.listing
  Content.compare compareValues c (.table (Content.withSeparator l.separator l.items))
    (.table (Content.withSeparator m.separator m.items))

def compareText (c : Comparison) (a b : Value) : Calc Bool := do
  return c.holds (some (Text.order (← a.text) (← b.text)))

def comparer : Value → Option (Comparison → Value → Value → Calc Bool)
  | .boolean _ => some (compareBoolean compareValues)
  | .number _ => some (compareNumber compareValues)
  | .colour _ => some (compareColour compareValues)
  | .list _ _ => some (compareList compareValues)
  | .string _ | .gradient _ _ _ _ | .quoted _ => some compareText
  | .nothing | .scalar _ | .word _ | .table _ _ => none

def compareStep (c : Comparison) (a b : Value) : Calc Bool := do
  match comparer compareValues a, comparer compareValues b with
  | some f, _ => f c a b
  | none, some f => f c.flip b a
  | none, none => Content.compare compareValues c (← Content.ofValue a) (← Content.ofValue b)

mutual

def nodes : Value → Nat
  | .list _ items => nodesItems items + 1
  | .table _ items => nodesItems items + 1
  | _ => 1

def nodesItems : List (Key × Value) → Nat
  | [] => 0
  | (_, v) :: rest => nodes v + nodesItems rest

end

def compareWithin : (n : Nat) → Comparison → Value → Value → Calc Bool
  | 0, _, _, _ => throw .tooDeep
  | n + 1, c, a, b => compareStep (compareWithin n) c a b

def compare (c : Comparison) (a b : Value) : Calc Bool :=
  compareWithin (2 * (nodes a + nodes b) + 2) c a b

def isWord (t : Text) (v : Value) : Calc Bool := compare .eq v (.word t)

/-- The greatest of some values: each is compared with the greatest before it. -/
def greatest : List Value → Calc Value
  | [] => throw .wrongValue
  | v :: rest => rest.foldlM (fun best next => do
      if ← compare .gt next best then return next else return best) v

end Value

end SheetPress
