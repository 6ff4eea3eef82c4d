import SheetPress.Fault

/-!
# Search patterns

A selector that is extended serves as a search pattern in other selectors, and the
characters that patterns give a meaning keep it: a point stands for any character,
brackets for a set, a plus sign for repetition.  `Pattern.parse` reads a pattern.
-/

set_option autoImplicit false

namespace SheetPress

inductive CharClass where
  | digit
  | space
  | word
  deriving DecidableEq, Repr

namespace CharClass

def holds : CharClass → Char → Bool
  | .digit, c => Text.isDigit c
  | .space, c => Text.isSpace c
  | .word, c => Text.isWord c

end CharClass

inductive Member where
  | range (first last : Char)
  | kind (k : CharClass) (negated : Bool)
  deriving DecidableEq, Repr

namespace Member

def holds : Member → Char → Bool
  | .range a b, c => a ≤ c && c ≤ b
  | .kind k negated, c => k.holds c != negated

def single? : Member → Option Char
  | .range a b => if a = b then some a else none
  | .kind _ _ => none

end Member

inductive Edge where
  | start
  | stop
  | lastLine
  | word
  | noWord
  deriving DecidableEq, Repr

inductive Greed where
  | longest
  | shortest
  | possessive
  deriving DecidableEq, Repr

inductive Node where
  | literal (c : Char)
  | any
  | set (negated : Bool) (members : List Member)
  | edge (e : Edge)
  /-- Alternatives, remembered under a number if it has one. -/
  | group (index : Option Nat) (alternatives : List (List Node))
  /-- A part repeated. -/
  | many (least : Nat) (most : Option Nat) (greed : Greed) (body : Node)
  /-- What follows, or the `width` characters before, must or must not match. -/
  | look (ahead negated : Bool) (width : Nat) (alternatives : List (List Node))
  | same (index : Nat)

structure Pattern where
  alternatives : List (List Node)
  groups : Nat

namespace Pattern

/-! ## Widths -/

mutual

/-- The length of all matches of a part, if they have one length. -/
def width? : Node → Option Nat
  | .literal _ => some 1
  | .any => some 1
  | .set _ _ => some 1
  | .edge _ => some 0
  | .group _ alternatives => widthAny? alternatives
  | .many least most _ body =>
    match width? body, most with
    | some 0, _ => some 0
    | some w, some m => if least = m then some (w * least) else none
    | _, _ => none
  | .look _ _ _ _ => some 0
  | .same _ => none

def widthAny? : List (List Node) → Option Nat
  | [] => some 0
  | [nodes] => widthAll? nodes
  | nodes :: rest =>
    match widthAll? nodes, widthAny? rest with
    | some a, some b => if a = b then some a else none
    | _, _ => none

def widthAll? : List Node → Option Nat
  | [] => some 0
  | n :: rest =>
    match width? n, widthAll? rest with
    | some a, some b => some (a + b)
    | _, _ => none

end

/-! ## Reading -/

/-- What is left to read, and the groups so far. -/
structure Input where
  rest : Text
  groups : Nat := 0
  closed : List Nat := []

def hexChar? : Text → Option (Char × Text)
  | a :: b :: r =>
    if Text.isHex a && Text.isHex b then
      some (Char.ofNat (16 * Text.hexValue a + Text.hexValue b), r)
    else none
  | _ => none

/-- The control characters that are written with a letter. -/
def control? : Char → Option Char
  | 'a' => some (Char.ofNat 7)
  | 'b' => some (Char.ofNat 8)
  | 'f' => some (Char.ofNat 12)
  | 'n' => some '\n'
  | 'r' => some '\r'
  | 't' => some '\t'
  | 'v' => some (Char.ofNat 11)
  | _ => none

def class? : Char → Option Member
  | 'd' => some (.kind .digit false)
  | 'D' => some (.kind .digit true)
  | 's' => some (.kind .space false)
  | 'S' => some (.kind .space true)
  | 'w' => some (.kind .word false)
  | 'W' => some (.kind .word true)
  | _ => none

def edge? : Char → Option Edge
  | 'A' => some .start
  | 'Z' => some .stop
  | 'b' => some .word
  | 'B' => some .noWord
  | _ => none

/-- Up to `n` octal digits and what follows them. -/
def octal : (n value : Nat) → Text → Nat × Text
  | 0, value, s => (value, s)
  | n + 1, value, c :: r =>
    if '0' ≤ c && c ≤ '7' then octal n (8 * value + (c.toNat - 48)) r else (value, c :: r)
  | _ + 1, value, [] => (value, [])

def escapedChar (c : Char) (r : Text) : Except Fault (Char × Text) :=
  if c == 'x' then
    match hexChar? r with
    | some p => .ok p
    | none => .error .badPattern
  else if c == '0' then
    let (v, r) := octal 2 0 r
    .ok (Char.ofNat v, r)
  else
    match control? c with
    | some d => if c == 'b' then .error .badPattern else .ok (d, r)
    | none => if Text.isLetter c || Text.isDigit c then .error .badPattern else .ok (c, r)

def escaped (i : Input) (c : Char) (r : Text) : Except Fault (Node × Text) :=
  match class? c, edge? c with
  | some m, _ => .ok (.set false [m], r)
  | none, some e => .ok (.edge e, r)
  | none, none =>
    if '1' ≤ c && c ≤ '9' then
      let more := r.takeWhile Text.isDigit |>.take 1
      let n := Text.digitsValue (c :: more)
      if i.closed.contains n then .ok (.same n, r.drop more.length) else .error .badPattern
    else (escapedChar c r).map fun p => (.literal p.1, p.2)

def member : Text → Except Fault (Member × Text)
  | [] => .error .badPattern
  | ['\\'] => .error .badPattern
  | '\\' :: c :: r =>
    match class? c with
    | some m => .ok (m, r)
    | none =>
      if c == 'b' then .ok (.range (Char.ofNat 8) (Char.ofNat 8), r)
      else (escapedChar c r).map fun p => (.range p.1 p.1, p.2)
  | c :: r => .ok (.range c c, r)

def members : (n : Nat) → (done : List Member) → Text → Except Fault (List Member × Text)
  | 0, _, _ => .error .tooDeep
  | n + 1, done, s =>
    match s with
    | [] => .error .badPattern
    | c :: r =>
      if c == ']' && !done.isEmpty then .ok (done.reverse, r)
      else
        match member s with
        | .error f => .error f
        | .ok (m, '-' :: ']' :: r) => .ok ((.range '-' '-' :: m :: done).reverse, r)
        | .ok (m, '-' :: r) =>
          match member r with
          | .error f => .error f
          | .ok (l, r) =>
            match m.single?, l.single? with
            | some a, some b =>
              if a ≤ b then members n (.range a b :: done) r else .error .badPattern
            | _, _ => .error .badPattern
        | .ok (m, r) => members n (m :: done) r

def bounds? (s : Text) : Option (Nat × Option Nat × Text) :=
  let low := s.takeWhile Text.isDigit
  let value (d : Text) : Nat := Text.digitsValue d
  match s.drop low.length with
  | '}' :: r => if low.isEmpty then none else some (value low, some (value low), r)
  | ',' :: r =>
    let high := r.takeWhile Text.isDigit
    match r.drop high.length with
    | '}' :: r => some (value low, if high.isEmpty then none else some (value high), r)
    | _ => none
  | _ => none

/-- The bounds of the repetition at the start of a text. -/
def repetition? : Text → Option (Nat × Option Nat × Text)
  | '*' :: r => some (0, none, r)
  | '+' :: r => some (1, none, r)
  | '?' :: r => some (0, some 1, r)
  | '{' :: r => bounds? r
  | _ => none

/-- How a repetition chooses, and what follows. -/
def greedOf : Text → Greed × Text
  | '?' :: r => (.shortest, r)
  | '+' :: r => (.possessive, r)
  | r => (.longest, r)

/-- A part that cannot be repeated. -/
def isFixed : Node → Bool
  | .edge _ => true
  | .many _ _ _ _ => true
  | _ => false

def repeatLast (least : Nat) (most : Option Nat) (greed : Greed) :
    (done : List Node) → Except Fault (List Node)
  | [] => .error .badPattern
  | n :: done =>
    if isFixed n then .error .badPattern
    else if most.any (· < least) then .error .badPattern
    else .ok (.many least most greed n :: done)

inductive Opening where
  | remembered
  | plain
  | look (ahead negated : Bool)

def openingOf : Text → Except Fault (Opening × Text)
  | '?' :: ':' :: r => .ok (.plain, r)
  | '?' :: '=' :: r => .ok (.look true false, r)
  | '?' :: '!' :: r => .ok (.look true true, r)
  | '?' :: '<' :: '=' :: r => .ok (.look false false, r)
  | '?' :: '<' :: '!' :: r => .ok (.look false true, r)
  | '?' :: _ => .error .badPattern
  | r => .ok (.remembered, r)

def closeGroup (opening : Opening) (index : Nat) (alternatives : List (List Node)) :
    Except Fault Node :=
  match opening with
  | .remembered => .ok (.group (some index) alternatives)
  | .plain => .ok (.group none alternatives)
  | .look true negated => .ok (.look true negated 0 alternatives)
  | .look false negated =>
    match widthAny? alternatives with
    | some w => .ok (.look false negated w alternatives)
    | none => .error .badPattern

/-- Read alternatives up to a closing parenthesis or the end.  `done` holds the finished
alternatives and `nodes` the current one, both in reverse. -/
def readFrom : (n : Nat) → (done : List (List Node)) → (nodes : List Node) → Input →
    Except Fault (List (List Node) × Input)
  | 0, _, _, _ => .error .tooDeep
  | n + 1, done, nodes, i =>
    match i.rest with
    | [] => .ok ((nodes.reverse :: done).reverse, i)
    | ')' :: _ => .ok ((nodes.reverse :: done).reverse, i)
    | '|' :: r => readFrom n (nodes.reverse :: done) [] { i with rest := r }
    | '.' :: r => readFrom n done (.any :: nodes) { i with rest := r }
    | '^' :: r => readFrom n done (.edge .start :: nodes) { i with rest := r }
    | '$' :: r => readFrom n done (.edge .lastLine :: nodes) { i with rest := r }
    | ['\\'] => .error .badPattern
    | '\\' :: c :: r =>
      match escaped i c r with
      | .error f => .error f
      | .ok (node, r) => readFrom n done (node :: nodes) { i with rest := r }
    | '[' :: r =>
      let (negated, r) := match r with
        | '^' :: r => (true, r)
        | r => (false, r)
      match members (r.length + 1) [] r with
      | .error f => .error f
      | .ok (ms, r) => readFrom n done (.set negated ms :: nodes) { i with rest := r }
    | '(' :: r =>
      match openingOf r with
      | .error f => .error f
      | .ok (opening, r) =>
        let index := match opening with
          | .remembered => i.groups + 1
          | _ => i.groups
        match readFrom n [] [] { i with rest := r, groups := index } with
        | .error f => .error f
        | .ok (alternatives, j) =>
          match j.rest, closeGroup opening index alternatives with
          | ')' :: r, .ok node =>
            readFrom n done (node :: nodes) { j with rest := r, closed := index :: j.closed }
          | _, _ => .error .badPattern
    | c :: r =>
      match repetition? (c :: r) with
      | some (least, most, r) =>
        let (greed, r) := greedOf r
        match repeatLast least most greed nodes with
        | .error f => .error f
        | .ok nodes => readFrom n done nodes { i with rest := r }
      | none => readFrom n done (.literal c :: nodes) { i with rest := r }

def parse (s : Text) : Except Fault Pattern :=
  match readFrom (2 * s.length + 2) [] [] { rest := s } with
  | .error f => .error f
  | .ok (alternatives, i) =>
    if i.rest.isEmpty then .ok ⟨alternatives, i.groups⟩ else .error .badPattern

end Pattern

end SheetPress
