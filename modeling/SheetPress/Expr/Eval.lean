import SheetPress.Expr.Grammar
import SheetPress.Compile.Session

/-!
# Evaluating expressions

`Expr.eval` gives the value of an expression.  What a variable stands for and what a call
does is not its business: both are parameters.
-/

set_option autoImplicit false

namespace SheetPress

/-- A sign before a value: numbers are negated, truth values turned round, and everything
else becomes a string with the sign in front. -/
def Value.signed (sign : Char) (v : Value) : Calc Value := do
  match v with
  | .number _ => Value.operate .mul v (.scalar (.whole (-1)))
  | .boolean s => return .scalar (.truth (!s.isTrue))
  | v => return .string (sign :: (← v.text))

/-- The items of a list that was written with names before some of them: positions count
anew, names keep their order, and a name that is given twice counts once. -/
def itemsOfNamed (vs : List (Option Text × Value)) : List (Key × Value) :=
  vs.foldl
    (fun items p =>
      match p.1 with
      | some t => Items.insert (.name t) p.2 items
      | none => Items.insert (.index (items.countP fun q => q.1.isIndex)) p.2 items)
    []

def listOfNamed (vs : List (Option Text × Value)) : Calc Value :=
  Calc.newList (if vs.length < 2 then none else some [',']) (itemsOfNamed vs)

namespace Expr

/-- What expressions need to know. -/
structure Meaning where
  named : Text → Run Value
  call : Text → Option Value → Run Value
  measure : Value → Text → Run Value

variable (m : Meaning)

mutual

def eval : Expr → Run Value
  | .word t => return .word t
  | .numeral t => Calc.newNumber (.bare ((Decimal.readFloat? t).getD 0.0))
  | .string t => return .string (Text.dequote t)
  | .quoted t => return .quoted (Text.dequote t)
  | .truth t => return .boolean (.truth (Text.lower t == "true".toList))
  | .colour t =>
    match Channels.ofDigits? t with
    | some c => return .colour { source := .own c, notations := [("rgba".toList, 1)] }
    | none => throw .missingKey
  | .variable name => m.named name
  | .call name none => m.call name none
  | .call name (some items) => do
    let vs ← evalItems items
    m.call name (some (← listOfNamed vs))
  | .measured e u => do m.measure (← eval e) u
  | .negative e => do
    let v ← eval e
    v.signed '-'
  | .bang e => do
    let v ← eval e
    v.signed '!'
  | .negation e => do
    let v ← eval e
    return .scalar (.truth (!(← v.isTrue)))
  | .operation op a b => do
    let v ← eval a
    let w ← eval b
    Value.operate op v w
  | .comparison c a b => do
    let v ← eval a
    let w ← eval b
    return .scalar (.truth (← Value.compare c v w))
  | .both a b => do
    let v ← eval a
    let w ← eval b
    if ← v.isTrue then return w else return v
  | .either a b => do
    let v ← eval a
    let w ← eval b
    if ← v.isTrue then return v else return w
  | .instead a b => do
    let _ ← eval a
    eval b
  | .row items => do
    let vs ← evalItems items
    Calc.newList none (Items.ofList (vs.map Prod.snd))
  | .list items => do
    let vs ← evalItems items
    match itemsOfNamed vs with
    | [(_, v)] => return v
    | _ => listOfNamed vs
  | .broken f => throw f
  | .halted items f => do
    let _ ← evalItems items
    throw f

def evalItems : List (Option Text × Expr) → Run (List (Option Text × Value))
  | [] => return []
  | (name, e) :: rest => do
    let v ← eval e
    return (name, v) :: (← evalItems rest)

end

end Expr

end SheetPress
