import SheetPress.Source.Load
import SheetPress.Decimal.Reading
import SheetPress.Fault

/-!
# Blocks

A source is a row of items: properties, which end at a semicolon, and blocks in braces
behind a selector.  A selector starts behind the last semicolon, block or line break; it
goes over line breaks only behind a comma or inside parentheses.  Braces, semicolons and
commas inside parentheses or quotes do not count.
-/

set_option autoImplicit false

namespace SheetPress.Source

/-- An item of a source: a property, or a selector with the code of its block. -/
structure Item where
  line : Int
  head : Text
  code : Option Text
  deriving DecidableEq, Repr

structure Items where
  items : List Item
  fault : Option Fault

def dropTag (line : Text) : Text :=
  match tagLength line with
  | some n => line.drop n
  | none => line

def dropTags (s : Text) : Text :=
  match Text.splitOn '\n' s with
  | [] => []
  | first :: rest => Text.joinWith ['\n'] (first :: rest.map dropTag)

/-- The number in a tag; an empty tag counts as 0. -/
def tagNumber? (tag : Text) : Option Int :=
  let tag := Text.trim tag
  if tag.isEmpty then some 0 else Decimal.readInt? tag

/-- The line and the plain text of a tagged head; without a tag the line stays `line`. -/
def readHead (line : Int) (s : Text) : Except Fault (Int × Text) :=
  match Text.cut? [mark] s with
  | none => .ok (line, Text.trim (dropTags s))
  | some (tag, s) =>
    match tagNumber? tag with
    | some n => .ok (n, Text.trim (dropTags s))
    | none => .error .wrongValue

def slice (s : Text) (a b : Nat) : Text := (s.drop a).take (b - a)

/-- The characters from `a` up to the last but one before `i`; before the first position
the text is taken as a ring. -/
def sliceShort (s : Text) (a i : Nat) : Text :=
  match i with
  | 0 => slice s a (s.length - 1)
  | i + 1 => slice s a i

/-- Where the search for blocks stands. -/
structure Scan where
  line : Int := 0
  parentheses : Int := 0
  quote : Option Char := none
  depth : Nat := 0
  /-- The outermost brace belongs to an interpolation. -/
  interpolating : Bool := false
  /-- Where a line starts that may turn out to be the beginning of a selector. -/
  thin : Option Nat := none
  /-- Where the next selector starts. -/
  init : Nat := 0
  /-- Where the text starts that decides whether a line break counts. -/
  safe : Nat := 0
  /-- Where the properties start that were not given out yet. -/
  loose : Nat := 0
  /-- The brace that opens the current block. -/
  start : Nat := 0

def looseItems : (line : Int) → List Text → List Item × Except Fault Int
  | line, [] => ([], .ok line)
  | line, piece :: rest =>
    match readHead line piece with
    | .error f => ([], .error f)
    | .ok (line, head) =>
      let (items, r) := looseItems line rest
      (if head.isEmpty then items else ⟨line, head, none⟩ :: items, r)

def isFilled (s : Text) : Except Fault Bool := (readHead 0 s).map fun p => !p.2.isEmpty

/-- Where the next selector starts: at the line start that was noted, if anything stands
between it and `i`. -/
def settledInit (s : Text) (i : Nat) (st : Scan) : Except Fault Nat :=
  match st.thin with
  | none => .ok st.init
  | some t => (isFilled (sliceShort s t i)).map fun filled => if filled then t else st.init

def atComma (s : Text) (i : Nat) (st : Scan) : Except Fault Scan :=
  (settledInit s i st).map fun init => { st with init, thin := none, safe := i + 1 }

def atBreak (s : Text) (i : Nat) (st : Scan) : Except Fault Scan :=
  match st.thin with
  | none =>
    (isFilled (sliceShort s st.safe i)).map fun filled =>
      if filled then { st with thin := some (i + 1) } else st
  | some t =>
    (isFilled (sliceShort s t i)).map fun filled =>
      if filled then { st with init := i + 1, thin := none } else st

/-- An opening brace, with the loose properties that it ends. -/
def atOpening (s : Text) (i : Nat) (previous : Option Char) (st : Scan) :
    List Item × Except Fault Scan :=
  if st.depth != 0 then ([], .ok { st with depth := st.depth + 1 })
  else if previous == some '#' then ([], .ok { st with interpolating := true, depth := 1 })
  else
    match settledInit s i st with
    | .error f => ([], .error f)
    | .ok init =>
      let st := { st with start := i, init, thin := none, depth := 1 }
      if st.loose < init then
        match looseItems st.line (Text.splitOn ';' (slice s st.loose init)) with
        | (items, .ok line) => (items, .ok { st with line, loose := init })
        | (items, .error f) => (items, .error f)
      else ([], .ok st)

/-- A closing brace, with the block that it ends. -/
def atClosing (s : Text) (i : Nat) (st : Scan) : List Item × Except Fault Scan :=
  match st.depth with
  | 0 => ([], .ok st)
  | depth + 1 =>
    if depth != 0 then ([], .ok { st with depth })
    else if st.interpolating then ([], .ok { st with depth, interpolating := false })
    else
      match readHead st.line (slice s st.init st.start) with
      | .error f => ([], .error f)
      | .ok (line, head) =>
        let code := Text.trim (slice s (st.start + 1) i)
        ( if head.isEmpty then [] else [⟨line, head, some code⟩],
          .ok { st with
            line, depth, init := i + 1, safe := i + 1, loose := i + 1, thin := none } )

def step (s : Text) (i : Nat) (previous : Option Char) (c : Char) (st : Scan) :
    List Item × Except Fault Scan :=
  match st.quote with
  | some q => ([], .ok (if c == q then { st with quote := none } else st))
  | none =>
    if c == '"' || c == '\'' then ([], .ok { st with quote := some c })
    else if c == '(' then
      ([], .ok { st with parentheses := st.parentheses + 1, thin := none, safe := i + 1 })
    else if c == ')' then ([], .ok { st with parentheses := st.parentheses - 1 })
    else if st.parentheses != 0 then ([], .ok st)
    else if c == '{' then atOpening s i previous st
    else if c == '}' then atClosing s i st
    else if st.depth != 0 then ([], .ok st)
    else if c == ';' then ([], .ok { st with init := i + 1, safe := i + 1, thin := none })
    else if c == ',' then ([], atComma s i st)
    else if c == '\n' then ([], atBreak s i st)
    else ([], .ok st)

/-- Whether a character can change where the search stands. -/
def isStructural (c : Char) : Bool :=
  c == '{' || c == '}' || c == ',' || c == ';' || c == '(' || c == ')' || c == '\''
    || c == '"' || c == '\n'

/-- The items that end before the end of the source. -/
def itemsFrom (s : Text) : (i : Nat) → (previous : Option Char) → Scan → Text →
    List Item × Except Fault Scan
  | _, _, st, [] => ([], .ok st)
  | i, previous, st, c :: r =>
    if isStructural c then
      match step s i previous c st with
      | (items, .error f) => (items, .error f)
      | (items, .ok st) =>
        let (more, result) := itemsFrom s (i + 1) (some c) st r
        (items ++ more, result)
    else itemsFrom s (i + 1) (some c) st r

/-- The block that the end of the source leaves open. -/
def openBlock (s : Text) (st : Scan) : Items :=
  match readHead st.line (slice s st.init st.start) with
  | .error f => ⟨[], some f⟩
  | .ok (line, head) =>
    let code := Text.trim (s.drop (st.start + 1))
    let fault :=
      if st.parentheses != 0 then Fault.openParenthesis head
      else if st.quote.isSome then Fault.openQuote head
      else Fault.openBlock head
    ⟨if head.isEmpty then [] else [⟨line, head, some code⟩], some fault⟩

def lastItems (s : Text) (st : Scan) : Items :=
  match looseItems st.line (Text.splitOn ';' (s.drop st.loose)) with
  | (items, .ok _) => ⟨items, none⟩
  | (items, .error f) => ⟨items, some f⟩

def items (s : Text) : Items :=
  match itemsFrom s 0 none {} s with
  | (first, .error f) => ⟨first, some f⟩
  | (first, .ok st) =>
    let last :=
      if st.depth != 0 && !st.interpolating then openBlock s st else lastItems s st
    ⟨first ++ last.items, last.fault⟩

end SheetPress.Source
