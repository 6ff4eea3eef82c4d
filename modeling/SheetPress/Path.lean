import SheetPress.Text.Basic

/-!
# Paths

Paths are texts with `/` between their parts.  An absolute path starts with `/`; a path
that starts with exactly two of them keeps both.
-/

set_option autoImplicit false

namespace SheetPress.Path

def isAbsolute (p : Text) : Bool := p.head? == some '/'

/-- Two paths joined; an absolute second path stands alone. -/
def join (a b : Text) : Text :=
  if isAbsolute b then b
  else if a.isEmpty || a.getLast? == some '/' then a ++ b
  else a ++ '/' :: b

def joinAll (a : Text) (rest : List Text) : Text := rest.foldl join a

def base (p : Text) : Text := (p.reverse.takeWhile (· != '/')).reverse

/-- The part up to the last `/`, without trailing ones unless there is nothing else. -/
def parent (p : Text) : Text :=
  let head := p.take (p.length - (base p).length)
  let trimmed := Text.dropEndWhile (· == '/') head
  if trimmed.isEmpty then head else trimmed

/-- Take one part into account: `.` stays, `..` goes up.  `kept` holds the parts so far in
reverse. -/
def stepPart (absolute : Bool) (kept : List Text) (part : Text) : List Text :=
  if part.isEmpty || part == ['.'] then kept
  else if part == ['.', '.'] then
    match kept with
    | [] => if absolute then [] else [part]
    | k :: rest => if k == ['.', '.'] then part :: kept else rest
  else part :: kept

def leading (p : Text) : Text :=
  match p with
  | '/' :: '/' :: '/' :: _ => ['/']
  | '/' :: '/' :: _ => ['/', '/']
  | '/' :: _ => ['/']
  | _ => []

/-- The path without empty parts, `.` and `..` where they can be resolved. -/
def normal (p : Text) : Text :=
  if p.isEmpty then ['.']
  else
    let parts := ((Text.splitOn '/' p).foldl (stepPart (isAbsolute p)) []).reverse
    let s := leading p ++ Text.joinWith ['/'] parts
    if s.isEmpty then ['.'] else s

def absolute (here p : Text) : Text := normal (join here p)

def parts (p : Text) : List Text := (Text.splitOn '/' p).filter fun s => !s.isEmpty

def commonParts : List Text → List Text → Nat
  | a :: s, b :: t => if a = b then commonParts s t + 1 else 0
  | _, _ => 0

/-- The way from the directory `start` to `p`, both seen from `here`. -/
def relative (here p start : Text) : Text :=
  let target := parts (absolute here p)
  let source := parts (absolute here start)
  let n := commonParts source target
  let way := List.replicate (source.length - n) ['.', '.'] ++ target.drop n
  if way.isEmpty then ['.'] else Text.joinWith ['/'] way

/-- The path cut before its extension: the last point of its last part, if something other
than points stands before it. -/
def cutExtension (p : Text) : Text × Text :=
  let name := base p
  let tail := name.reverse.takeWhile (· != '.')
  let n := name.length - tail.length
  if n = 0 || (name.take (n - 1)).all (· == '.') then (p, [])
  else
    let k := p.length - tail.length - 1
    (p.take k, p.drop k)

end SheetPress.Path
