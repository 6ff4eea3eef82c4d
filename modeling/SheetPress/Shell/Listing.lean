import SheetPress.Compile.Session

/-!
# Listings

The shell lists variables and settings as tables, in one line if it is short enough, or
else with one entry a line.
-/

set_option autoImplicit false

namespace SheetPress.Shell

structure Query where
  kind : Text
  filter : Option Text
  deriving DecidableEq, Repr

namespace Query

def isMark (c : Char) : Bool := c == ',' || c == '/' || c == '\\' || c == ' '

def isPlain (c : Char) : Bool := !isMark c && c != ')'

/-- The last of the words that follow, each behind one mark, and what is left.  `n` bounds
how many there are. -/
def lastWord : (n : Nat) → (last : Option Text) → Text → Option Text × Text
  | 0, last, t => (last, t)
  | n + 1, last, t =>
    match t with
    | c :: rest =>
      let word := rest.takeWhile isPlain
      if isMark c && !word.isEmpty then lastWord n (some word) (rest.drop word.length)
      else (last, t)
    | [] => (last, [])

def words (t : Text) : Text × Option Text × Text :=
  let t := Text.trimLeft t
  let first := t.takeWhile isPlain
  let rest := t.drop first.length
  (first, lastWord rest.length none rest)

/-- The words in parentheses, or all words if no parenthesis closes. -/
def split (t : Text) : Text × Option Text :=
  let plain := let (first, last, _) := words t; (first, last)
  match t with
  | '(' :: inner =>
    match words inner with
    | (first, last, ')' :: _) => (first, last)
    | _ => plain
  | _ => plain

def ofText (t : Text) : Query :=
  let (first, last) := split t
  { kind := Text.dropEndWhile (· == 's') (Text.trim first), filter := last.map Text.trim }

def commands : List Text := ["show".toList, "ls".toList]

def of? (t : Text) : Option Query :=
  commands.findSome? fun c =>
    match Text.after? c t with
    | none => none
    | some rest =>
      match rest with
      | [] => if c = "ls".toList then some (ofText []) else none
      | d :: _ => if d == '(' || d == ' ' then some (ofText rest) else none

end Query

def screenWidth : Nat := 80

def laidOut (opening closing : Char) (parts : List Text) : Text :=
  let line := inspectRow opening closing parts
  if line.length ≤ screenWidth then line
  else opening :: (Text.joinWith ",\n ".toList parts ++ [closing])

def tableText (entries : List (Text × Text)) : Text :=
  let sorted := entries.mergeSort fun a b => Text.le a.1 b.1
  laidOut '{' '}' (sorted.map fun p => inspectText p.1 ++ ": ".toList ++ p.2) ++ ['\n']

def namesText (names : List Text) : Text :=
  laidOut '[' ']' ((Text.sortedSet names).map inspectText) ++ ['\n']

/-- The entries that a query wants; `usual` tells those that are listed without being asked
for. -/
def wanted (usual : Text → Bool) (filter : Option Text) (name : Text) : Bool :=
  match filter with
  | none | some [] => usual name
  | some ['*'] => true
  | some t => (Text.cut? t name).isSome

def variableEntries (filter : Option Text) (c : Context) : Calc (List (Text × Text)) := do
  let usual (t : Text) : Bool := Text.startsWith t ['$'] && !Text.startsWith t ['$', '_', '_']
  let found := c.filterMap fun p =>
    match p.1 with
    | .name t => if wanted usual filter t then some (t, p.2) else none
    | .index _ => none
  found.mapM fun p => do return (p.1, ← p.2.inspect)

def settingEntries (filter : Option Text) (s : Settings) : Calc (List (Text × Text)) := do
  let usual (t : Text) : Bool := !Text.startsWith t ['@']
  (s.filter fun p => wanted usual filter p.1).mapM fun p => do
    return (p.1, ← p.2.toValue.inspect)

def kinds : List Text := ["functions", "mixins", "options", "vars"].map String.toList

/-- The answer to a query.  The shell has no mixins and functions of its own. -/
def Query.answer (q : Query) (c : Context) (s : Settings) : Calc Text := do
  let isOneOf (names : List String) : Bool := names.any fun n => n.toList = q.kind
  if q.kind.isEmpty then return namesText kinds
  else if isOneOf ["v", "var", "variable"] then return tableText (← variableEntries q.filter c)
  else if isOneOf ["o", "opt", "option"] then return tableText (← settingEntries q.filter s)
  else if isOneOf ["m", "mix", "mixin", "f", "func", "funct", "function"] then
    match q.filter with
    | none | some [] | some ['*'] => return namesText []
    | some _ => return []
  else return []

end SheetPress.Shell
