import SheetPress.Text.Basic

/-!
# Quoted texts and argument lists

`escape` puts a backslash before each quote and `unescape` takes it away again;
`dequote` reads a quoted literal.  `splitArguments` cuts an argument list at the
commas that stand outside parentheses, and `unwrap` takes off the parentheses
around a list.
-/

set_option autoImplicit false

namespace SheetPress

namespace Text

def isQuote (c : Char) : Bool := c == '"' || c == '\''

def escape (s : Text) : Text := s.flatMap fun c => if isQuote c then ['\\', c] else [c]

def unescape : Text → Text
  | [] => []
  | [c] => [c]
  | b :: c :: r => if b = '\\' ∧ isQuote c then c :: unescape r else b :: unescape (c :: r)

/-- The content of a literal whose first and last characters are one and the same
quote; any other text is left alone. -/
def dequote (s : Text) : Text :=
  match s with
  | [] => []
  | q :: r => if isQuote q ∧ s.getLast? = some q then unescape r.dropLast else s

def unwrap (s : Text) : Text :=
  match s with
  | [] => []
  | c :: r => if c = '(' ∧ r.getLast? = some ')' then unwrap r.dropLast else c :: r
termination_by s.length
decreasing_by simp only [List.length_cons, List.length_dropLast]; omega

def balanced (s : Text) : Bool := countOf '(' s == countOf ')' s

/-- Glue comma-separated pieces to `current` until its parentheses balance. -/
def gatherBalanced : (current : Text) → List Text → List Text
  | current, [] => [current]
  | current, piece :: rest =>
    if balanced current then current :: gatherBalanced piece rest
    else gatherBalanced (current ++ ',' :: piece) rest

/-- Cut at the commas that stand outside parentheses. -/
def splitArguments (s : Text) : List Text :=
  match splitOn ',' s with
  | [] => []
  | first :: rest => gatherBalanced first rest

end Text

end SheetPress
