import SheetPress.Fault
import SheetPress.Value.Unit

/-!
# Tokens of expressions

A token is a stretch of the source with a kind.  The scanner is asked for the next token
with a set of allowed kinds; kinds are tried in the order of `Kind.all`, and the first
one that matches wins, even if a later one would match more.  Blanks between tokens are
skipped.

`Reader` is the one-token lookahead that a grammar works with.  A token that was looked
at stays as it is, although a later look may allow other kinds.
-/

set_option autoImplicit false

namespace SheetPress

inductive Kind where
  | colon
  | comma
  | opening
  | closing
  | finish
  | times
  | over
  | plus
  | minus
  | sign
  | both
  | either
  | negation
  | differs
  | bang
  | equals
  | atMost
  | atLeast
  | below
  | above
  | single
  | double
  | unit
  | numeral
  | truth
  | colour
  | variable
  | call
  | name
  deriving DecidableEq, Repr

namespace Kind

/-- All kinds, in the order in which they are tried. -/
def all : List Kind :=
  [.colon, .comma, .opening, .closing, .finish, .times, .over, .plus, .minus, .sign, .both,
    .either, .negation, .differs, .bang, .equals, .atMost, .atLeast, .below, .above, .single,
    .double, .unit, .numeral, .truth, .colour, .variable, .call, .name]

def label : Kind → Text
  | .colon => "\":\""
  | .comma => "COMMA"
  | .opening => "LPAR"
  | .closing => "RPAR"
  | .finish => "END"
  | .times => "MUL"
  | .over => "DIV"
  | .plus => "ADD"
  | .minus => "SUB"
  | .sign => "SIGN"
  | .both => "AND"
  | .either => "OR"
  | .negation => "NOT"
  | .differs => "NE"
  | .bang => "INV"
  | .equals => "EQ"
  | .atMost => "LE"
  | .atLeast => "GE"
  | .below => "LT"
  | .above => "GT"
  | .single => "STR"
  | .double => "QSTR"
  | .unit => "UNITS"
  | .numeral => "NUM"
  | .truth => "BOOL"
  | .colour => "COLOR"
  | .variable => "VAR"
  | .call => "FNCT"
  | .name => "ID"

/-! ## Matching

Each matcher answers with the length of the match at the start of `rest`. -/

def oneOf (a b : Char) : Text → Option Nat
  | c :: _ => if c == a || c == b then some 1 else none
  | [] => none

def exactly (mark rest : Text) : Option Nat :=
  if Text.startsWith rest mark then some mark.length else none

/-- The rest does not go on with a name character. -/
def endsName : Text → Bool
  | [] => true
  | c :: _ => !Text.isName c

/-- A word that is not part of a longer name on either side. -/
def wholeWord (word : Text) (previous : Option Char) (rest : Text) : Option Nat :=
  match Text.after? word rest with
  | some r => if !previous.any Text.isName && endsName r then some word.length else none
  | none => none

def quotedBy (q : Char) : Text → Option Nat
  | c :: r => if c == q then (Text.cutAt? (· == q) r).map fun p => p.1.length + 2 else none
  | [] => none

/-- A unit that directly follows something and does not go on as a name. -/
def unitAt (previous : Option Char) (rest : Text) : Option Nat :=
  if previous.any Text.isSpace then none
  else
    Unit.all.findSome? fun u =>
      match Text.after? u rest with
      | some r => if endsName r then some u.length else none
      | none => none

/-- Digits with an optional fraction, or a fraction alone. -/
def numeralAt (rest : Text) : Option Nat :=
  let whole := (rest.takeWhile Text.isDigit).length
  match rest.drop whole with
  | '.' :: r =>
    let part := (r.takeWhile Text.isDigit).length
    if 0 < whole + part then some (whole + 1 + part) else none
  | _ => if 0 < whole then some whole else none

/-- Six or three hexadecimal digits behind `#`, and not one more. -/
def colourAt : Text → Option Nat
  | '#' :: r =>
    let digits := (r.takeWhile Text.isHex).length
    if digits == 6 || digits == 3 then some (digits + 1) else none
  | _ => none

def variableAt : Text → Option Nat
  | '$' :: r =>
    let n := (r.takeWhile Text.isName).length
    if 0 < n then some (n + 1) else none
  | _ => none

def nameAt (rest : Text) : Option Nat :=
  match rest with
  | [] => none
  | c :: r =>
    if Text.isName c && !Text.isDigit c then some ((r.takeWhile Text.isName).length + 1) else none

def callAt (rest : Text) : Option Nat :=
  match nameAt rest with
  | some n => if (rest.drop n).head? == some '(' then some n else none
  | none => none

/-- A hyphen before a blank, which is taken with it. -/
def minusAt : Text → Option Nat
  | '-' :: c :: _ => if Text.isSpace c then some 2 else none
  | _ => none

/-- A hyphen that no name goes on from. -/
def signAt : Text → Option Nat
  | ['-'] => some 1
  | '-' :: c :: _ => if Text.isLetter c || c == '_' then none else some 1
  | _ => none

def matchAt (k : Kind) (previous : Option Char) (rest : Text) : Option Nat :=
  match k with
  | .colon => oneOf ':' ':' rest
  | .comma => oneOf ',' ',' rest
  | .opening => oneOf '(' '[' rest
  | .closing => oneOf ')' ']' rest
  | .finish => if rest.isEmpty then some 0 else none
  | .times => oneOf '*' '*' rest
  | .over => oneOf '/' '/' rest
  | .plus => oneOf '+' '+' rest
  | .minus => minusAt rest
  | .sign => signAt rest
  | .both => wholeWord "and".toList previous rest
  | .either => wholeWord "or".toList previous rest
  | .negation => wholeWord "not".toList previous rest
  | .differs => exactly "!=".toList rest
  | .bang => oneOf '!' '!' rest
  | .equals => exactly "==".toList rest
  | .atMost => exactly "<=".toList rest
  | .atLeast => exactly ">=".toList rest
  | .below => oneOf '<' '<' rest
  | .above => oneOf '>' '>' rest
  | .single => quotedBy '\'' rest
  | .double => quotedBy '"' rest
  | .unit => unitAt previous rest
  | .numeral => numeralAt rest
  | .truth => (wholeWord "true".toList previous rest).or (wholeWord "false".toList previous rest)
  | .colour => colourAt rest
  | .variable => variableAt rest
  | .call => callAt rest
  | .name => nameAt rest

end Kind

structure Token where
  start : Nat
  stop : Nat
  kind : Kind
  text : Text
  deriving DecidableEq, Repr

/-- A place in the source: its position, the character before it and the text behind it. -/
structure Cursor where
  position : Nat
  previous : Option Char
  rest : Text

namespace Cursor

def start (source : Text) : Cursor := ⟨0, none, source⟩

def advance (c : Cursor) (n : Nat) : Cursor :=
  { position := c.position + n
    previous := ((c.rest.take n).getLast?).or c.previous
    rest := c.rest.drop n }

def isBlank (c : Char) : Bool := c == ' ' || c == '\r' || c == '\t' || c == '\n'

def skipBlanks (c : Cursor) : Cursor := c.advance (c.rest.takeWhile isBlank).length

def tokenOf (kinds : List Kind) (c : Cursor) : Option Token :=
  kinds.findSome? fun k =>
    (k.matchAt c.previous c.rest).map fun n =>
      { start := c.position, stop := c.position + n, kind := k, text := c.rest.take n }

/-- The kinds that may come next; without a restriction, all of them. -/
def candidates (allowed : Option (List Kind)) : List Kind :=
  match allowed with
  | none => Kind.all
  | some ks => Kind.all.filter fun k => ks.contains k

def next (allowed : Option (List Kind)) (c : Cursor) : Except Fault (Token × Cursor) :=
  let c := c.skipBlanks
  match c.tokenOf (candidates allowed) with
  | some t => .ok (t, c.advance (t.stop - t.start))
  | none => .error (.unexpected c.position)

end Cursor

/-- The tokens of a source up to its end, and the fault that ends them early. -/
def tokensFrom : (n : Nat) → Cursor → List Token × Option Fault
  | 0, _ => ([], some .tooDeep)
  | n + 1, c =>
    match c.next none with
    | .error f => ([], some f)
    | .ok (t, c) =>
      if t.kind == .finish then ([t], none)
      else
        let (ts, f) := tokensFrom n c
        (t :: ts, f)

def tokens (source : Text) : List Token × Option Fault :=
  tokensFrom (source.length + 1) (Cursor.start source)

/-! ## Lookahead -/

/-- A token that was looked at, with the kinds it was allowed to have and the place
behind it. -/
structure Ahead where
  token : Token
  allowed : Option (List Kind)
  behind : Cursor

/-- What a grammar reads from: the place behind the last taken token, the taken tokens
with the places before them, latest first, and the token ahead. -/
structure Reader where
  cursor : Cursor
  taken : List (Token × Cursor)
  ahead : Option Ahead

namespace Reader

def ofText (source : Text) : Reader := ⟨Cursor.start source, [], none⟩

def widens (wider allowed : List Kind) : Bool :=
  allowed.all (fun k => wider.contains k) && !wider.all (fun k => allowed.contains k)

def look (allowed : Option (List Kind)) (r : Reader) : Except Fault (Ahead × Reader) :=
  match r.ahead with
  | some a =>
    match allowed, a.allowed with
    | some wider, some narrow => if widens wider narrow then .error .widened else .ok (a, r)
    | _, _ => .ok (a, r)
  | none =>
    match r.cursor.next allowed with
    | .error f => .error f
    | .ok (t, behind) =>
      if r.taken.head?.any (fun p => p.1 == t) then .error .pastEnd
      else
        let a : Ahead := ⟨t, allowed, behind⟩
        .ok (a, { r with ahead := some a })

def peek (allowed : Option (List Kind)) (r : Reader) : Except Fault (Kind × Reader) :=
  match r.look allowed with
  | .error f => .error f
  | .ok (a, r) => .ok (a.token.kind, r)

def take (k : Kind) (r : Reader) : Except Fault (Text × Reader) :=
  match r.look (some [k]) with
  | .error f => .error f
  | .ok (a, r) =>
    if a.token.kind == k then
      .ok (a.token.text, ⟨a.behind, (a.token, r.cursor) :: r.taken, none⟩)
    else .error (.unexpected a.token.start)

/-- Give the last taken token back.  Before the first one, it is the token ahead that goes back. -/
def giveBack (r : Reader) : Except Fault Reader :=
  match r.taken, r.ahead with
  | (_, before) :: rest, _ => .ok ⟨before, rest, none⟩
  | [], some _ => .ok { r with ahead := none }
  | [], none => .error .outOfRange

end Reader

end SheetPress
