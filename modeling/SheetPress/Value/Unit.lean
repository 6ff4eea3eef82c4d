import SheetPress.Text.Basic

/-!
# Units of measure

The units a number may carry, what they measure, and how many base units one of
them is.  A unit's weight decides which of several units a computed number shows.
-/

set_option autoImplicit false

namespace SheetPress

namespace Unit

/-- The units that may follow a number, in the order in which they are tried. -/
def all : List Text :=
  ["em", "ex", "px", "cm", "mm", "in", "pt", "pc", "deg", "radgrad", "ms", "s", "hz", "khz", "%"]
    |>.map String.toList

/-- The units that zero can do without. -/
def droppable : List Text :=
  ["em", "ex", "px", "cm", "mm", "in", "pt", "pc"].map String.toList

structure Measure where
  kind : Text
  factor : Float

/-- Units that convert into each other share a kind. -/
def measures : List (Text × Measure) :=
  [ ("em".toList, ⟨"size".toList, 13.0⟩),
    ("px".toList, ⟨"size".toList, 1.0⟩),
    ("mm".toList, ⟨"length".toList, 1.0⟩),
    ("cm".toList, ⟨"length".toList, 10.0⟩),
    ("in".toList, ⟨"length".toList, 25.4⟩),
    ("pt".toList, ⟨"length".toList, 25.4 / 72.0⟩),
    ("pc".toList, ⟨"length".toList, 25.4 / 6.0⟩),
    ("ms".toList, ⟨"time".toList, 1.0⟩),
    ("s".toList, ⟨"time".toList, 1000.0⟩),
    ("hz".toList, ⟨"freq".toList, 1.0⟩),
    ("khz".toList, ⟨"freq".toList, 1000.0⟩),
    ("%".toList, ⟨"any".toList, 1.0 / 100.0⟩) ]

def kind? (u : Text) : Option Text := (measures.lookup u).map Measure.kind

def factor (u : Text) : Float := ((measures.lookup u).map Measure.factor).getD 1.0

/-- The weights of units that are not 1. -/
def weights : List (Text × Nat) :=
  [ ("em".toList, 10), ("mm".toList, 10), ("ms".toList, 10), ("hz".toList, 10),
    ("%".toList, 100) ]

def weight (u : Text) : Nat := (weights.lookup u).getD 1

end Unit

end SheetPress
