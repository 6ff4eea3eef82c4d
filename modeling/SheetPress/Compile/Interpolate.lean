import SheetPress.Compile.Evaluate

/-!
# Texts with variables and expressions in them

A text of a stylesheet may name variables, and may hold expressions between `#{` and
`}`.  `substitute` puts the values of variables into a text, `interpolate` the values of the
expressions, and `calculate` reads the whole text as one expression.

Results of expressions without variables are kept and used again.  Texts that are plain
words are never evaluated.
-/

set_option autoImplicit false

namespace SheetPress

namespace Context

/-- Follow a word that names a variable to the value behind it, at most `n` steps.  A
variable that holds its own name ends the way. -/
def follow (c : Context) : (n : Nat) → Value → Calc Value
  | n + 1, .word t =>
    match c.get? t with
    | none => return .word t
    | some (.word u) => if u == t then return .word t else follow c n (.word u)
    | some v => do if ← v.isWord t then return .word t else return v
  | 0, .word _ => throw .endless
  | _, v => return v

/-- The value behind a word; a way longer than the context has no end. -/
def settle (c : Context) (v : Value) : Calc Value := c.follow (c.length + 1) v

/-- Some entries with the values behind theirs. -/
def settleAll (c : Context) : Context → Calc Context
  | [] => return []
  | (k, v) :: rest => do
    let v ← c.settle v
    return (k, v) :: (← c.settleAll rest)

/-- The context with no variable that holds the name of another one.  All variables are
followed, so one whose way has no end keeps every text from being read. -/
def flatten (c : Context) : Calc Context := c.settleAll c

end Context

namespace Compile

/-! ## Plain texts -/

def isPlainChar (c : Char) : Bool :=
  Text.isWord c || c == '#' || c == '.' || c == ',' || c == ':' || c == '%'

/-- The text has only plain characters and hyphens up to its first line break. -/
def isPlainWord (t : Text) : Bool :=
  let rest := t.dropWhile fun c => isPlainChar c || c == '-'
  rest.isEmpty || rest.head? == some '\n'

/-- The text has only plain characters and blanks behind an optional sign, or does up to a
line break. -/
def isPlainRow (t : Text) : Bool :=
  let t := if t.head? == some '-' then t.drop 1 else t
  let inRow := fun c => isPlainChar c || Text.isSpace c
  (t.dropWhile inRow).isEmpty || (t.takeWhile inRow).any (· == '\n')

def operatorWords : List Text := ["- ", " and ", " or ", "not "].map String.toList

def isPlain (t : Text) : Bool :=
  (isPlainRow t || isPlainWord t) && !operatorWords.any fun w => Text.contains t w

/-- Plain words with blanks between them; the row may end at any line break behind a
word. -/
def isWordRow : (n : Nat) → Text → Bool
  | 0, _ => false
  | n + 1, t =>
    let inWord := fun c => isPlainChar c || c == '-'
    let rest := t.dropWhile inWord
    if rest.length = t.length then false
    else
      match rest with
      | [] => true
      | c :: _ => c == '\n' || (Text.isSpace c && isWordRow n (Text.trimLeft rest))

/-- The text is the call of a function whose argument is no expression. -/
def isOpaqueCall (t : Text) : Bool :=
  (["url(", "alpha("].map String.toList).any fun start =>
    match Text.afterLower? start t with
    | none => false
    | some rest =>
      match rest.dropWhile (· != ')') with
      | ')' :: rest => rest.isEmpty || rest.head? == some '\n'
      | _ => false

def isPlainPart (t : Text) : Bool :=
  (isOpaqueCall t || isWordRow (t.length + 1) t) && !Text.contains t "- ".toList

/-! ## Kept results -/

def keptResult (expression : Text) : Run (Option Value) := do
  return (← get).results.lookup expression

def keepResult (expression : Text) (v : Value) : Run Unit :=
  modify fun s => { s with results := (expression, v) :: s.results }

/-! ## Expressions in texts -/

/-- An expression between `#{` and the next `}` of its line. -/
def findBraced (_before rest : Text) : Option (Nat × Text) :=
  match rest with
  | '#' :: '{' :: rest =>
    let inner := rest.takeWhile fun c => c != '}' && c != '\n'
    if (rest.drop inner.length).head? == some '}' then some (inner.length + 3, inner) else none
  | _ => none

def partValue (inner : Compiler) (r : Nat) (unquote : Bool) (expression : Text) : Run Value := do
  match ← keptResult expression with
  | some v => return v
  | none =>
    if isPlainPart expression then
      keepResult expression (.word expression)
      return .word expression
    let t ← valueText inner expression r
    let t := (t.map fun t => if unquote then Text.dequote t else t).getD expression
    if !expression.any (· == '$') then keepResult expression (.word t)
    return .word t

def partValues (inner : Compiler) (r : Nat) (unquote : Bool) :
    List (Text.Piece Text) → Run (List Value)
  | [] => return []
  | .plain c :: rest => do
    return .word [c] :: (← partValues inner r unquote rest)
  | .found e :: rest => do
    let v ← partValue inner r unquote e
    return v :: (← partValues inner r unquote rest)

def joinWords : List Value → Run Text
  | [] => return []
  | .word t :: rest => do return t ++ (← joinWords rest)
  | .nothing :: rest => joinWords rest
  | _ => throw .wrongKind

def interpolate (inner : Compiler) (r : Nat) (unquote : Bool) (t : Text) : Run Text := do
  if !Text.contains t ['#', '{'] then return t
  joinWords (← partValues inner r unquote (Text.scan findBraced t))

/-! ## Variables in texts -/

/-- A variable in a text, alone or between `#{` and `}`: the stretch, whether it has
braces, and the name. -/
def findVariable (_before rest : Text) : Option (Nat × Text × Bool × Text) :=
  let nameAt (t : Text) : Option Text :=
    match t with
    | '$' :: t =>
      let name := t.takeWhile Text.isName
      if name.isEmpty then none else some ('$' :: name)
    | _ => none
  match rest with
  | '#' :: '{' :: inner =>
    let blanks := (inner.takeWhile Text.isSpace).length
    match nameAt (inner.drop blanks) with
    | none => none
    | some name =>
      let tail := inner.drop (blanks + name.length)
      let more := (tail.takeWhile Text.isSpace).length
      if (tail.drop more).head? == some '}' then
        let n := 2 + blanks + name.length + more + 1
        some (n, rest.take n, true, name)
      else none
  | rest => (nameAt rest).map fun name => (name.length, name, false, name)

/-- What stands for a variable of a flat context; one that has no value stays as it is. -/
def variableText (c : Context) (unquote : Bool) (stretch : Text) (braced : Bool) (name : Text) :
    Calc Text := do
  match c.get? name with
  | none | some .nothing => return stretch
  | some v =>
    let t ← v.shown
    if (← v.isTrue) && unquote && braced then return Text.dequote t else return t

/-- A text in which variables of a flat context were found, with their values. -/
def variableTexts (c : Context) (unquote : Bool) :
    List (Text.Piece (Text × Bool × Text)) → Calc Text
  | [] => return []
  | .plain ch :: rest => do return ch :: (← variableTexts c unquote rest)
  | .found (stretch, braced, name) :: rest => do
    let t ← variableText c unquote stretch braced name
    return t ++ (← variableTexts c unquote rest)

/-- A text with the values of its variables.  A text that is one variable gives its value
as it is; for any other one the whole context is made flat first. -/
def substituteValue (c : Context) (unquote : Bool) (t : Text) : Calc Value := do
  if !t.any (· == '$') then return .word t
  if (c.get? t).isSome then c.settle (.word t)
  else return .word (← variableTexts (← c.flatten) unquote (Text.scan findVariable t))

def substitute (inner : Compiler) (r : Nat) (c : Context) (unquote : Bool) (t : Text) :
    Run Text := do
  let v ← substituteValue c unquote t
  interpolate inner r unquote (← v.spelled)

/-- The value of a text that is an expression.  Where it has none, its variables and inner
expressions are replaced. -/
def calculate (inner : Compiler) (r : Nat) (c : Context) (t : Text) : Run Value := do
  match ← keptResult t with
  | some v => return v
  | none =>
    if isPlain t then
      keepResult t (.word t)
      return .word t
    let expression ← interpolate inner r false t
    let v ← value inner expression r
    let v ←
      match v with
      | .nothing => do pure (Value.word (← substitute inner r c false t))
      | v => pure v
    if !t.any (· == '$') then keepResult t v
    return v

end Compile

end SheetPress
