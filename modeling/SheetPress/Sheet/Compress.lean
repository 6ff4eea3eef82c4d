import SheetPress.Colour.Palette
import SheetPress.Value.Unit

/-!
# Compressing a printed stylesheet

The last steps on the text of a stylesheet: colours in short notations, and zeros
without what they can do without.
-/

set_option autoImplicit false

namespace SheetPress.Sheet

structure Compression where
  shortColours : Bool
  colourNames : Bool
  zeros : Bool

/-- A zero with a unit it can do without. -/
def findZeroUnit (before rest : Text) : Option (Nat × Text) :=
  match rest with
  | '0' :: r =>
    if before.head?.any Text.isWord then none
    else
      Unit.droppable.findSome? fun u =>
        match Text.afterLower? u r with
        | some r => if r.head?.any Text.isWord then none else some (u.length + 1, ['0'])
        | none => none
  | _ => none

def findZeroPoint (before rest : Text) : Option (Nat × Text) :=
  match rest with
  | '0' :: '.' :: d :: _ =>
    if !before.head?.any Text.isWord && Text.isDigit d then some (2, ['.']) else none
  | _ => none

/-- No units behind zero, and no zero before a point. -/
def dropZeros (s : Text) : Text :=
  Text.substitute findZeroPoint (Text.substitute findZeroUnit s)

def compress (c : Compression) (s : Text) : Text :=
  let s := if c.shortColours then Colour.shortenDigits s else s
  let s := if c.colourNames then Colour.useShortest s else s
  if c.zeros then dropZeros s else s

end SheetPress.Sheet
