import SheetPress.Text.Basic

/-!
# Faults and notes

A `Fault` is the cause for which an operation stops.  Its wording, where it has one
of its own, is in `Fault.message`.  A `Note` is a line of the journal that a compiler
keeps while it works; most faults inside an expression end there.
-/

set_option autoImplicit false

namespace SheetPress

/-- Why an operation stopped. -/
inductive Fault where
  /-- A value that cannot be read as a number; the text shown for it, if any. -/
  | notNumber (shown : Option Text)
  | notColour
  /-- An expression breaks off or goes wrong at a byte position. -/
  | unexpected (position : Nat)
  /-- A token was asked for after the end mark. -/
  | pastEnd
  /-- A token was looked at again under a wider set of allowed kinds. -/
  | widened
  | divisionByZero
  /-- An operation that the kind of its operand does not have. -/
  | wrongKind
  /-- An operand of the right kind with a value that cannot be used. -/
  | wrongValue
  | outOfRange
  | missingKey
  /-- A part that the value does not have. -/
  | missingPart
  /-- A number too large to be converted. -/
  | overflow
  | noImages
  /-- A parenthesis is left open in the block of a selector. -/
  | openParenthesis (selector : Text)
  /-- A quoted text is left open in the block of a selector. -/
  | openQuote (selector : Text)
  | openBlock (selector : Text)
  /-- A selector that cannot serve as a search pattern. -/
  | badPattern
  /-- A file or address that cannot be read or written. -/
  | unreadable
  | missingSource (path : Text)
  /-- Only a directory can be watched. -/
  | notDirectory
  | unwritable
  /-- An entry of a configuration stands before the first section. -/
  | headless
  /-- A line of a configuration is no entry. -/
  | noEntry
  /-- The program was asked to end with a code. -/
  | leave (code : Int)
  /-- Nesting went deeper than the given limit. -/
  | tooDeep
  /-- Variables that hold each other's names lead on without end. -/
  | endless
  deriving DecidableEq, Repr

namespace Fault

def message : Fault → Option Text
  | .notNumber (some s) => some ("Value is not a Number! (".toList ++ s ++ ")".toList)
  | .notNumber none => some "Value is not a Number!".toList
  | .notColour => some "Value is not a Color!".toList
  | .noImages => some "Images manipulation require PIL".toList
  | .openParenthesis s =>
    some ("Missing closing parenthesis somewhere in block: '".toList ++ s ++ "'".toList)
  | .openQuote s => some ("Missing closing string somewhere in block: '".toList ++ s ++ "'".toList)
  | .openBlock s => some ("Block never closed: '".toList ++ s ++ "'".toList)
  | .missingSource p => some ("Does not exists: ".toList ++ p)
  | .notDirectory => some "Watch mode allowed only for directories.".toList
  | _ => none

end Fault

inductive Level where
  | info
  | warning
  | error
  deriving DecidableEq, Repr

inductive Note where
  | line (level : Level) (text : Text)
  /-- An expression could not be evaluated. -/
  | failed (fault : Fault) (expression place : Text)
  deriving DecidableEq, Repr

namespace Note

def level : Note → Level
  | .line l _ => l
  | .failed _ _ _ => .error

def text (describe : Fault → Text) : Note → Text
  | .line _ t => t
  | .failed f e p =>
    "Exception rised: ".toList ++ describe f ++ " in `".toList ++ e ++ "' (".toList ++ p ++
      ")".toList

end Note

end SheetPress
