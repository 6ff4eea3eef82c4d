import SheetPress.Files

/-!
# Patterns for file names

In a pattern `*` stands for any characters, `?` for one, and a set in brackets for one of
its members, or for one of all others behind `!`.  Names that start with a point have to
be asked for with a point.
-/

set_option autoImplicit false

namespace SheetPress.Glob

inductive Part where
  | any
  | one
  | literal (c : Char)
  /-- One character of some ranges, or of none of them. -/
  | oneOf (negated : Bool) (ranges : List (Char × Char))

def ranges : Text → List (Char × Char)
  | a :: '-' :: b :: rest => (a, b) :: ranges rest
  | a :: rest => (a, a) :: ranges rest
  | [] => []

/-- The text of a set up to its closing bracket, and what follows; a bracket that comes
first is a member. -/
def cutSet (t : Text) : Option (Text × Text) :=
  let n := if t.head? == some '!' then 1 else 0
  let n := if (t.drop n).head? == some ']' then n + 1 else n
  let more := ((t.drop n).takeWhile (· != ']')).length
  if n + more < t.length then some (t.take (n + more), t.drop (n + more + 1)) else none

def parse : (n : Nat) → Text → List Part
  | 0, _ => []
  | _, [] => []
  | n + 1, '*' :: rest => .any :: parse n rest
  | n + 1, '?' :: rest => .one :: parse n rest
  | n + 1, '[' :: rest =>
    match cutSet rest with
    | none => .literal '[' :: parse n rest
    | some ('!' :: members, rest) => .oneOf true (ranges members) :: parse n rest
    | some (members, rest) => .oneOf false (ranges members) :: parse n rest
  | n + 1, c :: rest => .literal c :: parse n rest

def fits : List Part → Text → Bool
  | [], t => t.isEmpty
  | .any :: ps, t => (List.range (t.length + 1)).any fun i => fits ps (t.drop i)
  | .one :: ps, t =>
    match t with
    | [] => false
    | _ :: r => fits ps r
  | .literal c :: ps, t =>
    match t with
    | [] => false
    | d :: r => c == d && fits ps r
  | .oneOf negated rs :: ps, t =>
    match t with
    | [] => false
    | d :: r => (rs.any fun p => p.1 ≤ d && d ≤ p.2) != negated && fits ps r

def nameFits (pattern name : Text) : Bool :=
  (pattern.head? == some '.' || name.head? != some '.') &&
    fits (parse (pattern.length + 1) pattern) name

def isPattern (t : Text) : Bool := t.any fun c => c == '*' || c == '?' || c == '['

def namesIn (fs : Files) (directory last : Text) : List Text :=
  if isPattern last then (fs.names directory).filter (nameFits last)
  else if last.isEmpty then if fs.isDirectory directory then [last] else []
  else if fs.exists? (Path.join directory last) then [last] else []

/-- The paths that fit a pattern.  Directories with a pattern in their names are expanded
first, at most `n` of them above each other. -/
def expandWithin (fs : Files) : (n : Nat) → (pattern : Text) → List Text
  | 0, _ => []
  | n + 1, pattern =>
    let directory := Path.parent pattern
    let last := Path.base pattern
    let directories :=
      if directory != pattern && isPattern directory then expandWithin fs n directory
      else [directory]
    directories.flatMap fun d => (namesIn fs d last).map (Path.join d)

def expand (fs : Files) (pattern : Text) : List Text := expandWithin fs (pattern.length + 1) pattern

end SheetPress.Glob
