import SheetPress.Colour.Palette

/-!
# Loading a source

Loading prepares a source text for compilation.  Each line is tagged with a number and
`mark`, so that a line is still known when its text has been moved; empty lines and
comments go; blanks before braces are made uniform; colour names become digits.  Inside
a string on one line, whatever would look like a comment or a part of a rule is hidden
while comments are removed.
-/

set_option autoImplicit false

namespace SheetPress.Source

/-- The character between a line's number and its text. -/
def mark : Char := Char.ofNat 0

/-! ## Line tags -/

/-- Tag every line break with the number of the line behind it, from `next` on. -/
def tagBreaks : (next : Nat) → Text → Text
  | _, [] => []
  | next, c :: r =>
    if c = '\n' then '\n' :: (Text.ofNat next ++ mark :: tagBreaks (next + 1) r)
    else c :: tagBreaks next r

/-- The code with all lines tagged, the first line by `first` like the second one. -/
def tagLines (first : Nat) (code : Text) : Text :=
  Text.ofNat first ++ mark :: tagBreaks first (code ++ ['\n'])

/-- The places of the lines of a file: its second line has the first tag, and so on. -/
def linePlaces (file : Text) (breaks : Nat) : List Text :=
  (List.range breaks).map fun i => file ++ ':' :: Text.ofNat (i + 2)

/-- The part of a line up to and with its last mark, which does not stand first. -/
def tagLength (line : Text) : Option Nat :=
  let tail := (line.reverse.takeWhile (· != mark)).length
  let n := line.length - tail
  if 2 ≤ n then some n else none

/-- How much of a text that starts with blanks is cut: up to and with its last line break. -/
def blankLines (s : Text) : Option Nat :=
  let blanks := s.takeWhile Text.isSpace
  let tail := (blanks.reverse.takeWhile (· != '\n')).length
  if tail < blanks.length then some (blanks.length - tail) else none

/-- A tagged line that holds only blanks, with the line break before it and the blank lines
behind it. -/
def findEmptyLine (_before rest : Text) : Option (Nat × Text) :=
  match rest with
  | '\n' :: r =>
    let line := r.takeWhile (· != '\n')
    match tagLength line with
    | some n => (blankLines (r.drop n)).map fun k => (1 + n + k, ['\n'])
    | none => none
  | _ => none

/-- Drop the lines that hold only blanks. -/
def dropEmptyLines (s : Text) : Text := Text.substitute findEmptyLine s

/-! ## Strings and comments -/

/-- What is hidden in strings, and what stands for it meanwhile. -/
def hidden : List (Text × Text) :=
  [("//", "^doubleslash^"), ("/*", "^bigcopen^"), ("*/", "^bigcclose^"), (":", "^doubledot^"),
    (";", "^semicolon^"), ("\x7b", "^curlybracketopen^"), ("\x7d", "^curlybracketclosed^")]
    |>.map fun p => (p.1.toList, p.2.toList)

/-- The first entry of a table that the text starts with. -/
def findEntry (table : List (Text × Text)) (_before rest : Text) : Option (Nat × Text) :=
  table.findSome? fun p =>
    if Text.startsWith rest p.1 then some (p.1.length, p.2) else none

/-- Hide what looks like code. -/
def hide (s : Text) : Text := Text.substitute (findEntry hidden) s

/-- Show again what was hidden. -/
def reveal (s : Text) : Text := Text.substitute (findEntry (hidden.map fun p => (p.2, p.1))) s

/-- The length of a string literal on one line, quotes included. -/
def literalLength : Text → Option Nat
  | q :: r =>
    if q == '"' || q == '\'' then
      match Text.cutAt? (fun c => c == q || c == '\n') r with
      | some (inside, c, _) => if c == q then some (inside.length + 2) else none
      | none => none
    else none
  | [] => none

/-- A string literal, with what is in it hidden. -/
def findLiteral (_before rest : Text) : Option (Nat × Text) :=
  (literalLength rest).map fun n => (n, hide (rest.take n))

/-- Hide what strings hold. -/
def hideStrings (s : Text) : Text := Text.substitute findLiteral s

/-- A comment that is closed. -/
def findBlockComment (_before rest : Text) : Option (Nat × Text) :=
  match rest with
  | '/' :: '*' :: r => (Text.cut? ['*', '/'] r).map fun p => (p.1.length + 4, [])
  | _ => none

/-- The point is directly behind the `xx:` of an address. -/
def followsScheme : (before : Text) → Bool
  | ':' :: a :: b :: _ => Text.isWord a && Text.isWord b
  | _ => false

/-- A comment up to the end of its line. -/
def findLineComment (before rest : Text) : Option (Nat × Text) :=
  match rest with
  | '/' :: '/' :: r =>
    if followsScheme before then none else some (2 + (r.takeWhile (· != '\n')).length, [])
  | _ => none

/-- Drop comments of both kinds. -/
def dropComments (s : Text) : Text :=
  Text.substitute findLineComment (Text.substitute findBlockComment s)

/-! ## Blanks before braces -/

/-- A brace with the blanks before it. -/
def findBrace (_before rest : Text) : Option (Nat × Text) :=
  let blanks := (rest.takeWhile Text.isSpace).length
  if (rest.drop blanks).head? == some '{' then some (blanks + 1, [' ', '{']) else none

/-- A brace behind a colon or a number sign, with the blanks between them. -/
def findBlockBrace (_before rest : Text) : Option (Nat × Text) :=
  match rest with
  | c :: r =>
    if c == ':' || c == '#' then
      let blanks := (r.takeWhile Text.isSpace).length
      if (r.drop blanks).head? == some '{' then some (blanks + 2, [c, '{']) else none
    else none
  | [] => none

/-- Make the blanks before braces uniform. -/
def spaceBraces (s : Text) : Text :=
  Text.substitute findBlockBrace (Text.substitute findBrace s)

/-! ## All of it -/

/-- All that loading does to a tagged text. -/
def prepare (code : Text) : Text :=
  let code := hideStrings (dropEmptyLines code)
  let code := reveal (dropComments code)
  Colour.expandNames (spaceBraces code)

/-- A source with the places of its lines. -/
structure Loaded where
  code : Text
  places : List Text

/-- Load the code of a file, its lines numbered from `first`; code without a file is not
numbered. -/
def load (first : Nat) (file : Option Text) (code : Text) : Loaded :=
  match file with
  | none => ⟨prepare code, []⟩
  | some f => ⟨prepare (tagLines first code), linePlaces f (Text.countOf '\n' code + 1)⟩

end SheetPress.Source
