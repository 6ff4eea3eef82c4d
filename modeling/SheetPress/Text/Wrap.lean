import SheetPress.Text.Basic

/-!
# Wrapping lists

A list that is too long for one line is broken behind commas.  A line is broken only
where blanks follow the comma; these blanks go.  A part that is too long for a line
stands on a line of its own.
-/

set_option autoImplicit false

namespace SheetPress.Text

def lineWidth : Nat := 70

/-- Every tab becomes blanks up to the next multiple of eight columns, counted from the
last line break, and every other blank becomes a space. -/
def flattenBlanks : (column : Nat) → Text → Text
  | _, [] => []
  | column, c :: r =>
    if c = '\t' then
      let n := 8 - column % 8
      List.replicate n ' ' ++ flattenBlanks (column + n) r
    else if c = '\n' ∨ c = '\r' then ' ' :: flattenBlanks 0 r
    else (if isSpace c then ' ' else c) :: flattenBlanks (column + 1) r

/-- The chunks of a line: blanks that follow a comma, and the stretches between them.
`chunk` holds the current chunk in reverse. -/
def chunksFrom : (inBlanks : Bool) → (chunk : Text) → Text → List Text
  | _, [], [] => []
  | _, chunk, [] => [chunk.reverse]
  | true, chunk, c :: r =>
    if c = ' ' then chunksFrom true (c :: chunk) r else chunk.reverse :: chunksFrom false [c] r
  | false, chunk, c :: r =>
    if c = ' ' ∧ chunk.head? = some ',' then chunk.reverse :: chunksFrom true [c] r
    else chunksFrom false (c :: chunk) r

def isBlank (s : Text) : Bool := s.all isSpace

def dropLastBlank (line : List Text) : List Text :=
  match line.getLast? with
  | some c => if isBlank c then line.dropLast else line
  | none => line

def finishLine (line : List Text) (others : List Text) : List Text :=
  match dropLastBlank line.reverse with
  | [] => others
  | chunks => chunks.flatten :: others

/-- Fill lines with chunks.  `line` holds the chunks of the current line in reverse and
`used` their length. -/
def fillLines (width : Nat) : (line : List Text) → (used : Nat) → List Text → List Text
  | line, _, [] => finishLine line []
  | line, used, c :: rest =>
    if used + c.length ≤ width || line.isEmpty then
      fillLines width (c :: line) (used + c.length) rest
    else
      finishLine line
        (if isBlank c then fillLines width [] 0 rest else fillLines width [c] c.length rest)

def wrap (s : Text) : List Text :=
  fillLines lineWidth [] 0 (chunksFrom false [] (flattenBlanks 0 s))

end SheetPress.Text
