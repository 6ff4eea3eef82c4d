import SheetPress.Text.Basic

/-!
# Selector lists

A selector list is written with commas; behind ` extends ` stand the selectors that it
extends, with `&` between them.  `normalize` puts such a list into its one normal form:
selectors and parents trimmed, without empty ones and repetitions, in byte order.

`commonHead` and `commonTail` say how much two selectors share at their ends, cut where
a part of a selector starts.
-/

set_option autoImplicit false

namespace SheetPress.Selector

/-- The word between selectors and what they extend. -/
def extendsMark : Text := " extends ".toList

/-- Every run of blanks becomes one space. -/
def squeeze : Text → Text
  | [] => []
  | c :: r =>
    if Text.isSpace c then
      match r with
      | [] => [' ']
      | d :: _ => if Text.isSpace d then squeeze r else ' ' :: squeeze r
    else c :: squeeze r

/-- Texts trimmed and without empty ones. -/
def filled (ts : List Text) : List Text := (ts.map Text.trim).filter fun t => !t.isEmpty

/-- The parts of a list, trimmed and without empty ones. -/
def parts (sep : Char) (s : Text) : List Text := filled (Text.splitOn sep s)

/-- The selectors and the parents of a list in which each selector may extend others. -/
def readExtending (s : Text) : List Text × List Text :=
  let entries := (Text.splitOn ',' s).map (Text.cut extendsMark)
  (filled (entries.map Prod.fst), entries.flatMap fun e => parts '&' (Text.trim e.2))

def read (s : Text) : List Text × List Text :=
  if Text.contains s extendsMark then readExtending s else (parts ',' s, [])

def write (selectors parents : List Text) : Text :=
  let selectors := Text.sortedSet selectors
  let parents := Text.sortedSet parents
  if selectors.isEmpty then []
  else if parents.isEmpty then Text.joinWith [','] selectors
  else Text.joinWith [','] selectors ++ extendsMark ++ Text.joinWith ['&'] parents

/-- The normal form of a list with some more selectors and parents. -/
def normalize (s : Text) (moreSelectors moreParents : List Text) : Text :=
  let (selectors, parents) := read (squeeze s)
  write (selectors ++ filled moreSelectors) (parents ++ filled moreParents)

/-- The selectors before ` extends ` and the text behind it. -/
def cutExtends (s : Text) : Text × Text := Text.cut extendsMark s

/-! ## Common ends -/

/-- The characters that a part of a selector starts with. -/
def startsPart (c : Char) : Bool := c == '#' || c == ':' || c == '.'

/-- The common start of two texts, cut at the last place where a part starts.  `passed`
counts the characters passed, `common` is the last such place. -/
def commonFrom (atPart : Nat) : (passed common : Nat) → Text → Text → Nat
  | passed, common, a :: s, b :: t =>
    if a = b then
      let common :=
        if a == ' ' then passed + 1 else if startsPart a then passed + atPart else common
      commonFrom atPart (passed + 1) common s t
    else common
  | _, common, _, _ => common

/-- How much two selectors share at their start: up to a space, or up to the start of a
part. -/
def commonHead (s t : Text) : Nat := commonFrom 0 0 0 s t

/-- How much two selectors share at their end: from behind a space, or from the start of a
part. -/
def commonTail (s t : Text) : Nat := commonFrom 1 0 0 s.reverse t.reverse

end SheetPress.Selector
