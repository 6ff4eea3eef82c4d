
/-!
# Text: rows of bytes

Every length, cut and position in a stylesheet counts bytes, so a text is a row
of bytes.  A byte is held as the character of the same code, which keeps
patterns and literals readable: `'é'` stands in a text as the two characters
`Ã` and `©`.  Character classes and case maps know ASCII only; a byte from 128
upwards is no letter, no digit and no blank.

The central operation is `scan`, the leftmost, non-overlapping search that all
substitutions are built from.
-/

set_option autoImplicit false

namespace SheetPress

/-- A row of bytes, each held as the character of the same code. -/
abbrev Text := List Char

namespace Text

/-- A string literal as a text; used for ASCII literals only. -/
instance : Coe String Text := ⟨String.toList⟩

/-! ## Character classes -/

/-- Space, tab, line feed, vertical tab, form feed and carriage return. -/
def isSpace (c : Char) : Bool := c == ' ' || (9 ≤ c.toNat && c.toNat ≤ 13)

def isDigit (c : Char) : Bool := c.isDigit

def isLetter (c : Char) : Bool := c.isAlpha

/-- ASCII letters, digits and the underscore. -/
def isWord (c : Char) : Bool := c.isAlphanum || c == '_'

/-- Word characters and the hyphen: what names are made of. -/
def isName (c : Char) : Bool := isWord c || c == '-'

def isHex (c : Char) : Bool :=
  c.isDigit || ('a' ≤ c && c ≤ 'f') || ('A' ≤ c && c ≤ 'F')

def hexValue (c : Char) : Nat :=
  if c.isDigit then c.toNat - 48
  else if 'a' ≤ c && c ≤ 'f' then c.toNat - 87
  else c.toNat - 55

/-! ## Case -/

def lower (s : Text) : Text := s.map Char.toLower

/-! ## Trimming -/

/-- Drop the longest end whose characters all satisfy `p`. -/
def dropEndWhile (p : Char → Bool) (s : Text) : Text :=
  (s.reverse.dropWhile p).reverse

def trimLeft (s : Text) : Text := s.dropWhile isSpace

def trimRight (s : Text) : Text := dropEndWhile isSpace s

def trim (s : Text) : Text := trimRight (trimLeft s)

/-- Drop characters satisfying `p` on both sides. -/
def trimBy (p : Char → Bool) (s : Text) : Text := dropEndWhile p (s.dropWhile p)

/-! ## Parts -/

/-- What follows `start`, if the text begins with it. -/
def after? : (start s : Text) → Option Text
  | [], s => some s
  | _ :: _, [] => none
  | a :: start, c :: s => if a = c then after? start s else none

/-- What follows `start`, if the text in lower case begins with it. -/
def afterLower? : (start s : Text) → Option Text
  | [], s => some s
  | _ :: _, [] => none
  | a :: start, c :: s => if a = c.toLower then afterLower? start s else none

def startsWith (s start : Text) : Bool := (after? start s).isSome

def cut? (mark : Text) : Text → Option (Text × Text)
  | [] => if mark = [] then some ([], []) else none
  | c :: r =>
    match after? mark (c :: r) with
    | some rest => some ([], rest)
    | none => (cut? mark r).map fun p => (c :: p.1, p.2)

/-- The parts before and after the first `mark`; without one, all of the text
and nothing. -/
def cut (mark s : Text) : Text × Text := (cut? mark s).getD (s, [])

def contains (s sub : Text) : Bool := (cut? sub s).isSome

/-- The pieces between single characters `sep`, empty ones included. -/
def splitOn (sep : Char) : Text → List Text
  | [] => [[]]
  | c :: r =>
    if c = sep then [] :: splitOn sep r
    else
      match splitOn sep r with
      | [] => [[c]]
      | first :: rest => (c :: first) :: rest

def cutAt? (p : Char → Bool) : Text → Option (Text × Char × Text)
  | [] => none
  | c :: r =>
    if p c then some ([], c, r)
    else (cutAt? p r).map fun q => (c :: q.1, q.2)

def words (s : Text) : List Text :=
  go s []
where
  /-- Collect the current word in reverse. -/
  go : Text → Text → List Text
    | [], [] => []
    | [], w => [w.reverse]
    | c :: r, w =>
      if isSpace c then
        match w with
        | [] => go r []
        | _ => w.reverse :: go r []
      else go r (c :: w)

/-- The first non-blank run and what follows it, blanks between them left out. -/
def firstWord (s : Text) : Text × Text :=
  let s := trimLeft s
  let head := s.takeWhile fun c => !isSpace c
  (head, trimLeft (s.drop head.length))

def joinWith (sep : Text) (parts : List Text) : Text := List.intercalate sep parts

def countOf (c : Char) (s : Text) : Nat := s.countP (· == c)

def times (s : Text) (n : Nat) : Text := (List.replicate n s).flatten

/-! ## Searching -/

inductive Piece (α : Type) where
  /-- A character that belongs to no find. -/
  | plain (c : Char)
  /-- What was read off a matched stretch. -/
  | found (a : α)

/-- The scan below, at a point where `before` holds the passed characters,
nearest first, and the next `skip` characters belong to the last find. -/
def scanFrom {α : Type} (find : (before rest : Text) → Option (Nat × α)) :
    (before : Text) → (skip : Nat) → Text → List (Piece α)
  | _, _, [] => []
  | before, skip + 1, c :: r => scanFrom find (c :: before) skip r
  | before, 0, c :: r =>
    match find before (c :: r) with
    | some (n, a) => .found a :: scanFrom find (c :: before) (n - 1) r
    | none => .plain c :: scanFrom find (c :: before) 0 r

/-- Leftmost, non-overlapping search.  `find` sees what stands before a point,
nearest character first, and what follows it; it answers with the length of a
non-empty match and what was read off it. -/
def scan {α : Type} (find : (before rest : Text) → Option (Nat × α)) (s : Text) :
    List (Piece α) :=
  scanFrom find [] 0 s

/-- Replace every find by the text read off it. -/
def substitute (find : (before rest : Text) → Option (Nat × Text)) (s : Text) : Text :=
  (scan find s).flatMap fun
    | .plain c => [c]
    | .found t => t

def finds {α : Type} (find : (before rest : Text) → Option (Nat × α)) (s : Text) : List α :=
  (scan find s).filterMap fun
    | .plain _ => none
    | .found a => some a

def replace (old new s : Text) : Text :=
  substitute (fun _ rest => if startsWith rest old then some (old.length, new) else none) s

/-- Replace the first occurrence of `old` only. -/
def replaceFirst (old new s : Text) : Text :=
  match cut? old s with
  | some (a, b) => a ++ new ++ b
  | none => s

/-! ## Order -/

/-- Byte order. -/
def order : Text → Text → Ordering
  | [], [] => .eq
  | [], _ :: _ => .lt
  | _ :: _, [] => .gt
  | a :: s, b :: t =>
    match compare a.toNat b.toNat with
    | .eq => order s t
    | o => o

def le (s t : Text) : Bool := order s t != .gt

/-- Put a text into its place among distinct texts in byte order, unless it is there. -/
def insertSorted (s : Text) : List Text → List Text
  | [] => [s]
  | t :: ts =>
    match order s t with
    | .lt => s :: t :: ts
    | .eq => t :: ts
    | .gt => t :: insertSorted s ts

/-- The texts of a list in byte order, each once. -/
def sortedSet (xs : List Text) : List Text := xs.foldr insertSorted []

/-! ## Numerals -/

def ofNat (n : Nat) : Text := Nat.toDigits 10 n

/-- An integer in decimal digits, with a minus sign where it is negative. -/
def ofInt : Int → Text
  | .ofNat n => ofNat n
  | .negSucc n => '-' :: ofNat (n + 1)

/-- The value of a row of decimal digits. -/
def digitsValue (s : Text) : Nat := s.foldl (fun n c => 10 * n + (c.toNat - 48)) 0

/-- Two hexadecimal digits of a byte value, in lower case. -/
def hexDigits (n : Nat) : Text := Nat.toDigits 16 n

/-- A text with as many `c` before it as it takes to be `width` long. -/
def padLeft (width : Nat) (c : Char) (s : Text) : Text :=
  List.replicate (width - s.length) c ++ s

end Text

/-- In which order a set of texts is gone through.  A set has no order of its own, so this may be
any. -/
structure SetOrder where
  list : List Text → List Text
  /-- Every text of the set is listed once. -/
  perm : ∀ ts : List Text, (list ts).Perm ts

/-- The order in which the texts were added. -/
def SetOrder.inserted : SetOrder := ⟨id, .refl⟩

end SheetPress
