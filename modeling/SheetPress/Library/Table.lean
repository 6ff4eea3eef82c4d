import SheetPress.Library.Colours
import SheetPress.Library.Gradients
import SheetPress.Library.Images
import SheetPress.Library.Lists
import SheetPress.Library.Selectors
import SheetPress.Library.Numbers

/-!
# The table of functions

All functions of the library by name and number of arguments.  An entry `name:n` takes
any number of them.
-/

set_option autoImplicit false

namespace SheetPress.Library

def table : List (Text × Routine) :=
  (images ++ positions ++ gradients ++ colours ++ lists ++ selectors ++ numbers).map fun p =>
    (p.1.toList, p.2)

def find? (name : Text) (count : Nat) : Option Routine :=
  match table.lookup (name ++ ':' :: Text.ofNat count) with
  | some r => some r
  | none => table.lookup (name ++ [':', 'n'])

/-- Functions of other programs that are written as they are. -/
def isForeign (name : Text) : Bool :=
  let known :=
    ["from", "to", "mask", "rotate", "format", "local", "url", "attr", "counter", "counters",
      "color-stop", "rect"].map String.toList
  let prefixes := ["-webkit-", "-moz-", "-pie-", "-ms-", "-o-"].map String.toList
  known.contains name || prefixes.any fun p => Text.startsWith name p

end SheetPress.Library
