import SheetPress.Expr.Token
import SheetPress.Value.Scalar

/-!
# The grammar of expressions

From loosest to tightest: commas, blanks between items, `or`, `and`, `not` and `!`,
comparisons, sums, products, signs, and units behind an atom.  All binary operators lean
to the left.

An expression is evaluated while it is read, so what stands before a mistake has its
effects, and a fault among them comes first.  The tree keeps this: where reading went
wrong, it ends in a `broken` or `halted` node that raises the fault in its turn.
-/

set_option autoImplicit false

namespace SheetPress

/-- Expressions as they were read. -/
inductive Expr where
  | word (t : Text)
  | numeral (t : Text)
  | string (literal : Text)
  | quoted (literal : Text)
  | truth (t : Text)
  | colour (digits : Text)
  | variable (name : Text)
  /-- A function applied to an argument list, or to nothing at all. -/
  | call (name : Text) (arguments : Option (List (Option Text × Expr)))
  /-- A unit behind an atom. -/
  | measured (e : Expr) (unit : Text)
  | negative (e : Expr)
  | bang (e : Expr)
  | negation (e : Expr)
  | operation (op : Operation) (a b : Expr)
  | comparison (c : Comparison) (a b : Expr)
  | both (a b : Expr)
  | either (a b : Expr)
  /-- The first expression is evaluated, but only the second counts. -/
  | instead (dropped kept : Expr)
  /-- Items between blanks. -/
  | row (items : List (Option Text × Expr))
  /-- Items between commas, some of them named; a single item stands for itself. -/
  | list (items : List (Option Text × Expr))
  /-- Reading went wrong here. -/
  | broken (f : Fault)
  /-- Reading went wrong behind these items. -/
  | halted (items : List (Option Text × Expr)) (f : Fault)

/-- What was read, and the reader behind it if nothing went wrong. -/
abbrev Parsed := Expr × Option Reader

namespace Grammar

/-! ## What may come next -/

def atoms : List Kind :=
  [.opening, .colour, .double, .numeral, .truth, .call, .single, .variable, .name]

def operands : List Kind := .sign :: .plus :: atoms

def items : List Kind := .bang :: .negation :: operands

def rowEnds : List Kind := [.finish, .comma, .closing]

/-- What may follow an item of a row. -/
def afterItem : List Kind := items ++ rowEnds

def afterEither : List Kind := .either :: afterItem

def afterBoth : List Kind := .both :: afterEither

def comparisons : List Kind := [.above, .atLeast, .differs, .below, .atMost, .equals]

def afterComparison : List Kind := comparisons ++ afterBoth

def afterSum : List Kind := .minus :: afterComparison

def afterProduct : List Kind := .times :: .over :: afterSum

def afterAtom : List Kind := .unit :: afterProduct

def arguments : List Kind := .closing :: items

/-! ## Reading -/

/-- Reading went wrong behind an expression. -/
def haltedAfter (e : Expr) (f : Fault) : Parsed := (.halted [(none, e)] f, none)

/-- Look once more at the token ahead, as one of the operators, where they are given. -/
def lookAgain (operators : Option (List Kind)) (k : Kind) (r : Reader) :
    Except Fault (Kind × Reader) :=
  match operators with
  | none => .ok (k, r)
  | some ks => r.peek (some ks)

/-- Read operands joined by operators that lean to the left.  `join` gives the operators,
`after` what may follow an operand.  Where there are several operators, the one that was found is
looked at again among `operators` before it is taken. -/
def chain (operand : Reader → Parsed) (after : List Kind) (operators : Option (List Kind))
    (join : Kind → Option (Expr → Expr → Expr)) : (n : Nat) → Expr → Reader → Parsed
  | 0, _, _ => (.broken .tooDeep, none)
  | n + 1, e, r =>
    match r.peek (some after) with
    | .error f => haltedAfter e f
    | .ok (k, r) =>
      match join k with
      | none => (e, some r)
      | some both =>
        match lookAgain operators k r with
        | .error f => haltedAfter e f
        | .ok (k, r) =>
          match r.take k with
          | .error f => haltedAfter e f
          | .ok (_, r) =>
            match operand r with
            | (b, none) => (both e b, none)
            | (b, some r) => chain operand after operators join n (both e b) r

/-- A first operand, and then a chain of them. -/
def chained (operand : Reader → Parsed) (after : List Kind) (operators : Option (List Kind))
    (join : Kind → Option (Expr → Expr → Expr)) (n : Nat) (r : Reader) : Parsed :=
  match operand r with
  | (e, none) => (e, none)
  | (e, some r) => chain operand after operators join n e r

def productOf : Kind → Option (Expr → Expr → Expr)
  | .times => some (.operation .mul)
  | .over => some (.operation .div)
  | _ => none

def sumOf : Kind → Option (Expr → Expr → Expr)
  | .plus => some (.operation .add)
  | .minus => some (.operation .sub)
  | _ => none

def comparisonOf : Kind → Option (Expr → Expr → Expr)
  | .below => some (.comparison .lt)
  | .above => some (.comparison .gt)
  | .atMost => some (.comparison .le)
  | .atLeast => some (.comparison .ge)
  | .equals => some (.comparison .eq)
  | .differs => some (.comparison .ne)
  | _ => none

def bothOf : Kind → Option (Expr → Expr → Expr)
  | .both => some .both
  | _ => none

def eitherOf : Kind → Option (Expr → Expr → Expr)
  | .either => some .either
  | _ => none

def literal (k : Kind) (make : Text → Expr) (r : Reader) : Parsed :=
  match r.take k with
  | .error f => (.broken f, none)
  | .ok (t, r) => (make t, some r)

def closed (e : Expr) (r : Reader) : Parsed :=
  match r.take .closing with
  | .error f => haltedAfter e f
  | .ok (_, r) => (e, some r)

def group (listOf : Reader → Parsed) (r : Reader) : Parsed :=
  match r.take .opening with
  | .error f => (.broken f, none)
  | .ok (_, r) =>
    match listOf r with
    | (e, none) => (e, none)
    | (e, some r) => closed e r

def itemsOf : Expr → List (Option Text × Expr)
  | .list items => items
  | e => [(none, e)]

def application (listOf : Reader → Parsed) (r : Reader) : Parsed :=
  match r.take .call with
  | .error f => (.broken f, none)
  | .ok (name, r) =>
    match r.take .opening with
    | .error f => (.broken f, none)
    | .ok (_, r) =>
      match r.peek (some arguments) with
      | .error f => (.broken f, none)
      | .ok (.closing, r) => closed (.call name none) r
      | .ok (_, r) =>
        match listOf r with
        | (e, none) => (e, none)
        | (e, some r) =>
          match r.take .closing with
          | .error f => haltedAfter e f
          | .ok (_, r) => (.call name (some (itemsOf e)), some r)

def atom (listOf : Reader → Parsed) (r : Reader) : Parsed :=
  match r.peek (some atoms) with
  | .error f => (.broken f, none)
  | .ok (k, r) =>
    match k with
    | .opening => group listOf r
    | .name => literal .name .word r
    | .call => application listOf r
    | .numeral => literal .numeral .numeral r
    | .single => literal .single .string r
    | .double => literal .double .quoted r
    | .truth => literal .truth .truth r
    | .colour => literal .colour .colour r
    | _ => literal .variable .variable r

/-- An atom, and a unit behind it. -/
def measured (listOf : Reader → Parsed) (r : Reader) : Parsed :=
  match atom listOf r with
  | (e, none) => (e, none)
  | (e, some r) =>
    match r.peek (some afterAtom) with
    | .error f => haltedAfter e f
    | .ok (.unit, r) =>
      match r.take .unit with
      | .error f => haltedAfter e f
      | .ok (u, r) => (.measured e u, some r)
    | .ok (_, r) => (e, some r)

/-- A measured atom behind signs. -/
def signed (listOf : Reader → Parsed) : (n : Nat) → Reader → Parsed
  | 0, _ => (.broken .tooDeep, none)
  | n + 1, r =>
    match r.peek (some operands) with
    | .error f => (.broken f, none)
    | .ok (.sign, r) =>
      match r.take .sign with
      | .error f => (.broken f, none)
      | .ok (_, r) =>
        match signed listOf n r with
        | (e, none) => (e, none)
        | (e, some r) => (.negative e, some r)
    | .ok (.plus, r) =>
      match r.take .plus with
      | .error f => (.broken f, none)
      | .ok (_, r) => signed listOf n r
    | .ok (_, r) => measured listOf r

/-- Operands joined by signs of multiplication and division. -/
def product (listOf : Reader → Parsed) (n : Nat) : Reader → Parsed :=
  chained (signed listOf n) afterProduct (some [.times, .over]) productOf n

/-- Products joined by signs of addition and subtraction. -/
def sum (listOf : Reader → Parsed) (n : Nat) : Reader → Parsed :=
  chained (product listOf n) afterSum (some [.plus, .minus]) sumOf n

/-- Sums joined by comparisons. -/
def compared (listOf : Reader → Parsed) (n : Nat) : Reader → Parsed :=
  chained (sum listOf n) afterComparison (some comparisons) comparisonOf n

def negated (operand : Reader → Parsed) (r : Reader) : Parsed :=
  match r.peek (some [.negation, .bang]) with
  | .error f => (.broken f, none)
  | .ok (.negation, r) =>
    match r.take .negation with
    | .error f => (.broken f, none)
    | .ok (_, r) =>
      match operand r with
      | (e, none) => (e, none)
      | (e, some r) => (.negation e, some r)
  | .ok (_, r) =>
    match r.take .bang with
    | .error f => (.broken f, none)
    | .ok (_, r) =>
      match operand r with
      | (e, none) => (e, none)
      | (e, some r) => (.bang e, some r)

def negations (operand : Reader → Parsed) : (n : Nat) → Reader → Parsed
  | 0, _ => (.broken .tooDeep, none)
  | n + 1, r =>
    match negated operand r with
    | (e, none) => (e, none)
    | (e, some r) =>
      match r.peek (some afterBoth) with
      | .error f => haltedAfter e f
      | .ok (k, r) =>
        if k == .negation || k == .bang then
          match negations operand n r with
          | (e', r) => (.instead e e', r)
        else (e, some r)

/-- A comparison, or what is negated. -/
def condition (listOf : Reader → Parsed) (loops : Nat) : (n : Nat) → Reader → Parsed
  | 0, _ => (.broken .tooDeep, none)
  | n + 1, r =>
    match r.peek (some items) with
    | .error f => (.broken f, none)
    | .ok (k, r) =>
      if k == .negation || k == .bang then negations (condition listOf loops n) loops r
      else compared listOf loops r

/-- Conditions joined by `and`. -/
def conjunction (listOf : Reader → Parsed) (n : Nat) : Reader → Parsed :=
  chained (condition listOf n n) afterBoth none bothOf n

/-- Conjunctions joined by `or`. -/
def item (listOf : Reader → Parsed) (n : Nat) : Reader → Parsed :=
  chained (conjunction listOf n) afterEither none eitherOf n

/-- A row behind the items `done`. -/
def rowFrom (itemOf : Reader → Parsed) : (n : Nat) → List Expr → Reader → Parsed
  | 0, _, _ => (.broken .tooDeep, none)
  | n + 1, done, r =>
    let soFar := done.reverse.map fun e => ((none : Option Text), e)
    match r.peek (some afterItem) with
    | .error f => (.halted soFar f, none)
    | .ok (k, r) =>
      if rowEnds.contains k then
        match done with
        | [e] => (e, some r)
        | _ => (.row soFar, some r)
      else
        match itemOf r with
        | (e, none) => (.row (soFar ++ [(none, e)]), none)
        | (e, some r) => rowFrom itemOf n (e :: done) r

def row (itemOf : Reader → Parsed) (n : Nat) (r : Reader) : Parsed :=
  match itemOf r with
  | (e, none) => (e, none)
  | (e, some r) => rowFrom itemOf n [e] r

/-- The name before an item, if it has one. -/
def itemName (r : Reader) : Except Fault (Option Text × Reader) :=
  match r.peek (some items) with
  | .error f => .error f
  | .ok (.variable, r) =>
    match r.take .variable with
    | .error f => .error f
    | .ok (name, r) =>
      match r.peek none with
      | .error f => .error f
      | .ok (.colon, r) =>
        match r.take .colon with
        | .error f => .error f
        | .ok (_, r) => .ok (some name, r)
      | .ok (_, r) =>
        match r.giveBack with
        | .error f => .error f
        | .ok r => .ok (none, r)
  | .ok (_, r) => .ok (none, r)

/-- A list behind the items `done`. -/
def listFrom (rowOf : Reader → Parsed) :
    (n : Nat) → List (Option Text × Expr) → Reader → Parsed
  | 0, _, _ => (.broken .tooDeep, none)
  | n + 1, done, r =>
    match itemName r with
    | .error f => (.halted done.reverse f, none)
    | .ok (name, r) =>
      match rowOf r with
      | (e, none) => (.list ((name, e) :: done).reverse, none)
      | (e, some r) =>
        let done := (name, e) :: done
        match r.peek (some rowEnds) with
        | .error f => (.halted done.reverse f, none)
        | .ok (.comma, r) =>
          match r.take .comma with
          | .error f => (.halted done.reverse f, none)
          | .ok (_, r) => listFrom rowOf n done r
        | .ok (_, r) => (.list done.reverse, some r)

/-- Items between commas, nested at most `depth` deep. -/
def listOf (loops : Nat) : (depth : Nat) → Reader → Parsed
  | 0, _ => (.broken .tooDeep, none)
  | depth + 1, r => listFrom (row (item (listOf loops depth) loops) loops) loops [] r

end Grammar

/-- Read all of a text. -/
def Expr.parse (source : Text) : Expr :=
  let n := source.length + 2
  match Grammar.listOf n n (Reader.ofText source) with
  | (e, none) => e
  | (e, some r) =>
    match r.take .finish with
    | .error f => .halted [(none, e)] f
    | .ok _ => e

end SheetPress
