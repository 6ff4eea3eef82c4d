import SheetPress.Compile.Session
import SheetPress.Selector.Basic
import SheetPress.Pattern.Replace

/-!
# Extending rules

A rule may extend other selectors.  Then wherever such a selector is found in the
selectors of a rule, the same selector with the extending one in its place is added, and
that rule is to be printed before the extending one.

The rules are kept by their selectors.  A node that extends several selectors is split
first, so that each node extends one; nodes are then linked one after the other, in at most
ten rounds, because a link may find further nodes.

The nodes are a table without an order of its own.  An `Enumeration` says in which order
they are gone through; a stylesheet takes them in the order in which they were added.
-/

set_option autoImplicit false

namespace SheetPress

abbrev Parts := List (Text × List Nat)

namespace Parts

def rulesOf (ps : Parts) (selectors : Text) : List Nat := (ps.lookup selectors).getD []

def without (ps : Parts) (selectors : Text) : Parts := ps.filter fun p => p.1 != selectors

def add (selectors : Text) (rules : List Nat) : Parts → Parts
  | [] => [(selectors, rules)]
  | (s, rs) :: rest =>
    if s = selectors then (s, rs ++ rules) :: rest else (s, rs) :: add selectors rules rest

end Parts

/-- In which order the nodes are gone through.  The order may be another one each time: it
is given for every turn of every round. -/
structure Enumeration where
  order : (round turn : Nat) → List Text → List Text
  /-- Every node is gone through once. -/
  perm : ∀ (round turn : Nat) (nodes : List Text), (order round turn nodes).Perm nodes

/-- The order in which the nodes were added. -/
def Enumeration.inserted : Enumeration := ⟨fun _ _ nodes => nodes, fun _ _ _ => .refl _⟩

namespace Compile

/-! ## One extension -/

/-- Cut from two selectors what they have in common at both ends. -/
def cutCommon (c p : Text) : Text × Text :=
  let n := Selector.commonHead c p
  let c := c.drop n
  let p := p.drop n
  let m := Selector.commonTail c p
  (c.take (c.length - m), p.take (p.length - m))

def wholePattern (parent : Text) : Text :=
  let before :=
    match parent with
    | c :: _ => if Selector.startsPart c then "(?<![#.:])".toList else "(?<![-\\w#.:])".toList
    | [] => "(?<![-\\w#.:])".toList
  before ++ parent ++ "(?![-\\w])".toList

/-- The selector with `child` in the place of `parent`, if that makes another one. -/
def extended? (parent child selector : Text) : Except Fault (Option Text) :=
  match cutCommon child parent with
  | ([], _) | (_, []) => .ok none
  | (c, p) => do
    let new ← Pattern.replaceAll (wholePattern p) c selector
    return if new == selector then none else some new

def extensions (parent : Text) (children : List Text) : List Text → Except Fault (List Text)
  | [] => .ok []
  | s :: rest => do
    let here ←
      if Text.contains s parent then do
        let found ← children.mapM fun c => extended? parent c s
        pure (found.filterMap id)
      else pure []
    return here ++ (← extensions parent children rest)

/-! ## Linking -/

def setSelectors (rules : List Nat) (selectors : Text) : Run Unit := do
  for r in rules do
    Run.modifyRule r fun rule => { rule with selectors }

def addDeps (rules : List Nat) (deps : List Nat) : Run Unit := do
  for r in rules do
    Run.modifyRule r fun rule => { rule with deps := (rule.deps ++ deps).eraseDups }

/-- Extend the selectors of one node, if the parent is found in them.  The answer is the
rules of the node if it was. -/
def linkNode (parent children : Text) (childRules : List Nat) (node : Text) :
    Run (Option (List Nat)) := do
  let rules := Parts.rulesOf (← get).parts node
  let own := (Selector.cutExtends node).1
  match extensions parent (Text.splitOn ',' children) (Text.splitOn ',' own) with
  | .error f => throw f
  | .ok [] => return none
  | .ok new =>
    let selectors := Selector.normalize node new []
    if selectors != node then
      modify fun s => { s with parts := (Parts.without s.parts node).add selectors rules }
    setSelectors childRules children
    let positions ← childRules.mapM fun r => do return (← Run.rule r).position
    setSelectors rules selectors
    addDeps rules (positions.filterMap id)
    return some rules

/-- Extend the selectors of all nodes.  The answer is the rules of those in which the
parent was found, or nothing if it was found nowhere. -/
def linkNodes (parent children : Text) (childRules : List Nat) :
    (found : Option (List Nat)) → (nodes : List Text) → Run (Option (List Nat))
  | found, [] => return found
  | found, node :: rest => do
    match ← linkNode parent children childRules node with
    | none => linkNodes parent children childRules found rest
    | some rules => linkNodes parent children childRules (some (found.getD [] ++ rules)) rest

def inherit (context : Context) (settings : Settings) (r : Nat) : Run Unit := do
  let context ← Run.newContext (context.update (← Run.contextOf r))
  let settings ← Run.newSettings (settings.update (← Run.settingsOf r))
  Run.modifyRule r fun rule => { rule with context, settings }

/-- The variables and settings of several rules, later ones first. -/
def heritage : (context : Context) → (settings : Settings) → List Nat → Run (Context × Settings)
  | context, settings, [] => return (context, settings)
  | context, settings, r :: rest => do
    heritage (context.update (← Run.contextOf r)) (settings.update (← Run.settingsOf r)) rest

/-- Link a node that extends a selector, unless it has been linked already.  The other nodes
are gone through in the order that `arrange` gives them. -/
def extendNode (arrange : List Text → List Text) (node : Text) : Run Unit := do
  let (selectors, parent) := Selector.cutExtends node
  let parts := (← get).parts
  if !parts.any (·.1 == node) then return
  let rules := Parts.rulesOf parts node
  let rest := (Parts.without parts node).add selectors rules
  modify fun s => { s with parts := rest }
  match ← linkNodes parent selectors rules none (arrange (rest.map Prod.fst)) with
  | none => Run.logLine .warning ("Parent rule not found: ".toList ++ parent)
  | some parents =>
    let (context, settings) ← heritage [] [] parents
    for r in rules do
      inherit context settings r

/-! ## All extensions -/

def splitNode (ps : Parts) (node : Text) : Parts :=
  match Text.cut? Selector.extendsMark node with
  | none => ps
  | some (selectors, parents) =>
    let rules := ps.rulesOf node
    let names := (Text.splitOn '&' parents).map fun p => selectors ++ Selector.extendsMark ++ p
    match names with
    | [] => ps.without node
    | first :: others => others.foldl (fun ps n => ps.add n []) ((ps.without node).add first rules)

/-- Every node extends at most one selector. -/
def splitNodes (arrange : List Text → List Text) (ps : Parts) : Parts :=
  (arrange (ps.map Prod.fst)).foldl splitNode ps

def isExtending (node : Text) : Bool := !(Selector.cutExtends node).2.isEmpty

def extendNodes (e : Enumeration) (round : Nat) : (turn : Nat) → List Text → Run Unit
  | _, [] => return
  | turn, node :: rest => do
    extendNode (e.order round turn) node
    extendNodes e round (turn + 1) rest

/-- Link all extending nodes, again while there are any, at most `n` times. -/
def extendRounds (e : Enumeration) : (n : Nat) → Run Unit
  | 0 => return
  | n + 1 => do
    let nodes := (e.order (n + 1) 0 ((← get).parts.map Prod.fst)).filter isExtending
    if nodes.isEmpty then return
    extendNodes e (n + 1) 1 nodes
    extendRounds e n

/-- Link all rules with those that they extend, the nodes gone through in a given order. -/
def extendAllIn (e : Enumeration) : Run Unit := do
  modify fun s => { s with parts := splitNodes (e.order 0 0) s.parts }
  extendRounds e 10

def extendAll : Run Unit := extendAllIn .inserted

end Compile

end SheetPress
