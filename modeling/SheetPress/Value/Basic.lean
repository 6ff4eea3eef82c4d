import SheetPress.Value.Quantity
import SheetPress.Text.Quote
import SheetPress.Assets

/-!
# Values of expressions

A value is what an expression evaluates to: a plain word or scalar, or one of the
typed values (truth values, quantities, colours, strings and lists).

Three parts of a value are *shared*.  Whoever holds a quantity, the separator of a
list, or the channels of a mixed colour, holds the same one: when an operation changes
it, every variable that holds it changes too.  Such a part is a slot of the `Pool`, and
the value only names the slot.  Everything else in a value is fixed, so that a value is
a finite tree.

`Calc` is the type of computations on values: they read and write the pool, may add
notes to its journal, and may stop with a fault, which leaves what they did before.
-/

set_option autoImplicit false

namespace SheetPress

inductive Key where
  | index (i : Int)
  | name (t : Text)
  deriving DecidableEq, Repr

namespace Key

/-- Positions in order, then names in byte order. -/
def order : Key → Key → Ordering
  | .index i, .index j => compare i j
  | .index _, .name _ => .lt
  | .name _, .index _ => .gt
  | .name s, .name t => Text.order s t

def isIndex : Key → Bool
  | .index _ => true
  | .name _ => false

end Key

/-- Red, green, blue up to 255 and opacity up to 1. -/
structure Channels where
  red : Scalar
  green : Scalar
  blue : Scalar
  alpha : Scalar

namespace Channels

def toList (c : Channels) : List Scalar := [c.red, c.green, c.blue, c.alpha]

/-- Opaque black, the colour of everything that names no other. -/
def black : Channels := ⟨.whole 0, .whole 0, .whole 0, .whole 1⟩

def clamp (c : Channels) : Channels :=
  ⟨c.red.clamp 255.0, c.green.clamp 255.0, c.blue.clamp 255.0, c.alpha.clamp 1.0⟩

end Channels

inductive ChannelSource where
  | own (c : Channels)
  /-- The channels of a mixed colour, which all its copies share. -/
  | shared (slot : Nat)

/-- A colour, and the notations it was written in with how often each took part. -/
structure ColourValue where
  source : ChannelSource
  notations : List (Text × Nat) := []

inductive GradientShape where
  | linear
  | radial
  deriving DecidableEq, Repr

inductive Value where
  | nothing
  | scalar (s : Scalar)
  | word (t : Text)
  /-- A typed truth value; arithmetic may leave a number in it. -/
  | boolean (s : Scalar)
  | number (slot : Nat)
  | colour (c : ColourValue)
  /-- A string that is shown without quotes. -/
  | string (t : Text)
  /-- A string that was made by a gradient function and knows its ingredients. -/
  | gradient (shape : GradientShape) (t : Text) (position : Option Value)
      (stops : List (Value × Value))
  /-- A string that is shown in quotes. -/
  | quoted (t : Text)
  /-- A list; `slot` holds its separator. -/
  | list (slot : Nat) (items : List (Key × Value))
  /-- A plain table of items with a separator of its own. -/
  | table (separator : Option Text) (items : List (Key × Value))

/-- The shared parts of values, the journal, latest note first, and the assets that
functions can ask for. -/
structure Pool where
  quantities : Array Quantity := #[]
  separators : Array (Option Text) := #[]
  mixtures : Array Channels := #[]
  journal : List Note := []
  assets : Assets := {}

abbrev Calc := ExceptT Fault (StateM Pool)

namespace Calc

def fail {α : Type} (f : Fault) : Calc α := throw f

def ofExcept {α : Type} : Except Fault α → Calc α
  | .ok a => pure a
  | .error f => throw f

def attempt {α : Type} (x : Calc α) : Calc (Except Fault α) := fun p =>
  let (r, p) := x.run p
  (.ok r, p)

def note (n : Note) : Calc Unit := modify fun p => { p with journal := n :: p.journal }

def logLine (level : Level) (text : Text) : Calc Unit := note (.line level text)

def assets : Calc Assets := do return (← get).assets

def newNumber (q : Quantity) : Calc Value := do
  let p ← get
  set { p with quantities := p.quantities.push q }
  return .number p.quantities.size

def quantity (slot : Nat) : Calc Quantity := do
  return (← get).quantities.getD slot (.bare 0.0)

def setQuantity (slot : Nat) (q : Quantity) : Calc Unit :=
  modify fun p => { p with quantities := p.quantities.setIfInBounds slot q }

def newList (separator : Option Text) (items : List (Key × Value)) : Calc Value := do
  let p ← get
  set { p with separators := p.separators.push separator }
  return .list p.separators.size items

def separator (slot : Nat) : Calc (Option Text) := do
  return (← get).separators.getD slot none

def setSeparator (slot : Nat) (s : Option Text) : Calc Unit :=
  modify fun p => { p with separators := p.separators.setIfInBounds slot s }

def newMixture (c : Channels) : Calc ChannelSource := do
  let p ← get
  set { p with mixtures := p.mixtures.push c }
  return .shared p.mixtures.size

def channels : ChannelSource → Calc Channels
  | .own c => pure c
  | .shared slot => do return (← get).mixtures.getD slot .black

def setMixture (slot : Nat) (c : Channels) : Calc Unit :=
  modify fun p => { p with mixtures := p.mixtures.setIfInBounds slot c }

end Calc

/-! ## Items -/

namespace Items

/-- Items numbered from 0. -/
def ofList (vs : List Value) : List (Key × Value) :=
  vs.zipIdx.map fun p => (.index p.2, p.1)

def get? (items : List (Key × Value)) (k : Key) : Option Value := items.lookup k

/-- Set an item, keeping positions in order before names in order. -/
def insert (k : Key) (v : Value) : List (Key × Value) → List (Key × Value)
  | [] => [(k, v)]
  | (l, w) :: rest =>
    match k.order l with
    | .lt => (k, v) :: (l, w) :: rest
    | .eq => (k, v) :: rest
    | .gt => (l, w) :: insert k v rest

def renumber (items : List (Key × Value)) : List (Key × Value) :=
  items.zipIdx.map fun p =>
    match p.1.1 with
    | .index _ => (.index p.2, p.1.2)
    | .name t => (.name t, p.1.2)

def values (items : List (Key × Value)) : List Value := items.map Prod.snd

end Items

end SheetPress
