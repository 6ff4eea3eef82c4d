import SheetPress.Pattern.Basic

/-!
# Matching and replacing

`Pattern.replaceAll` replaces all matches of a pattern by a template, in which a backslash
and a number stand for a remembered text.  Matches are found from left to right and do not
overlap; an empty match may follow directly on a match, but not on an empty one.
-/

set_option autoImplicit false

namespace SheetPress.Pattern

structure Place where
  position : Nat
  before : Text
  rest : Text
  groups : List (Nat × Text) := []

namespace Place

def start (s : Text) : Place := ⟨0, [], s, []⟩

def next (p : Place) (c : Char) (rest : Text) : Place :=
  { p with position := p.position + 1, before := c :: p.before, rest }

def back (n : Nat) (p : Place) : Place :=
  { p with
    position := p.position - n
    before := p.before.drop n
    rest := (p.before.take n).reverse ++ p.rest }

def atWordEdge (p : Place) : Bool :=
  p.before.head?.any Text.isWord != p.rest.head?.any Text.isWord

def isAt (e : Edge) (p : Place) : Bool :=
  match e with
  | .start => p.before.isEmpty
  | .stop => p.rest.isEmpty
  | .lastLine => p.rest.isEmpty || p.rest == ['\n']
  | .word => p.atWordEdge
  | .noWord => !p.atWordEdge

end Place

inductive Task where
  | node (n : Node)
  /-- A repetition that has run `count` times, the last time from position `last`. -/
  | again (least : Nat) (most : Option Nat) (greed : Greed) (body : Node) (count : Nat)
      (last : Option Nat)
  /-- The end of a remembered group that started at a place. -/
  | remember (index position : Nat) (rest : Text)
  /-- The match must not end at a position. -/
  | beyond (position : Nat)

/-- Match tasks one after the other, with at most `n` steps on any way. -/
def run : (n : Nat) → List Task → Place → Option Place
  | 0, _, _ => none
  | _ + 1, [], p => some p
  | n + 1, .beyond position :: tasks, p => if p.position = position then none else run n tasks p
  | n + 1, .remember index position rest :: tasks, p =>
    run n tasks { p with groups := (index, rest.take (p.position - position)) :: p.groups }
  | n + 1, .again least most greed body count last :: tasks, p =>
    let more := .node body :: .again least most greed body (count + 1) (some p.position) :: tasks
    if count < least then run n more p
    else
      let mayGo := most.all (count < ·) && last != some p.position
      match greed with
      | .longest =>
        match if mayGo then run n more p else none with
        | some q => some q
        | none => run n tasks p
      | .shortest =>
        match run n tasks p with
        | some q => some q
        | none => if mayGo then run n more p else none
      | .possessive =>
        let alone := [.node body, .again least most greed body (count + 1) (some p.position)]
        match if mayGo then run n alone p else none with
        | some q => run n tasks q
        | none => run n tasks p
  | n + 1, .node node :: tasks, p =>
    match node with
    | .literal c =>
      match p.rest with
      | d :: r => if c = d then run n tasks (p.next d r) else none
      | [] => none
    | .any =>
      match p.rest with
      | d :: r => if d = '\n' then none else run n tasks (p.next d r)
      | [] => none
    | .set negated ms =>
      match p.rest with
      | d :: r => if ms.any (·.holds d) != negated then run n tasks (p.next d r) else none
      | [] => none
    | .edge e => if p.isAt e then run n tasks p else none
    | .group none alternatives =>
      alternatives.findSome? fun nodes => run n (nodes.map .node ++ tasks) p
    | .group (some index) alternatives =>
      alternatives.findSome? fun nodes =>
        run n (nodes.map .node ++ .remember index p.position p.rest :: tasks) p
    | .many least most greed body => run n (.again least most greed body 0 none :: tasks) p
    | .look ahead negated width alternatives =>
      let found :=
        if !ahead && p.position < width then none
        else
          let q := if ahead then p else p.back width
          alternatives.findSome? fun nodes => run n (nodes.map .node) q
      match found with
      | some q => if negated then none else run n tasks { p with groups := q.groups }
      | none => if negated then run n tasks p else none
    | .same index =>
      match p.groups.lookup index with
      | none => none
      | some t =>
        match Text.after? t p.rest with
        | some r =>
          run n tasks
            { p with position := p.position + t.length, before := t.reverse ++ p.before, rest := r }
        | none => none

def matchAt (pattern : Pattern) (steps : Nat) (advance : Bool) (p : Place) : Option Place :=
  let last : List Task := if advance then [.beyond p.position] else []
  let p := { p with groups := [] }
  pattern.alternatives.findSome? fun nodes => run steps (nodes.map .node ++ last) p

/-! ## Templates -/

inductive Filling where
  | text (t : Text)
  | group (index : Nat)

def namedGroup? (s : Text) : Option (Nat × Text) :=
  match s with
  | '<' :: r =>
    let digits := r.takeWhile Text.isDigit
    match r.drop digits.length with
    | '>' :: r => if digits.isEmpty then none else some (Text.digitsValue digits, r)
    | _ => none
  | _ => none

def fillingOf (groups : Nat) (c : Char) (r : Text) : Except Fault (Filling × Text) :=
  let reference (n : Nat) (r : Text) : Except Fault (Filling × Text) :=
    if n ≤ groups then .ok (.group n, r) else .error .badPattern
  if c == 'g' then
    match namedGroup? r with
    | some (n, r) => reference n r
    | none => .error .badPattern
  else if c == '0' then
    let (v, r) := octal 2 0 r
    .ok (.text [Char.ofNat v], r)
  else if Text.isDigit c then
    let three := (c :: r).take 3
    if three.length == 3 && three.all (fun d => '0' ≤ d && d ≤ '7') then
      .ok (.text [Char.ofNat ((octal 3 0 three).1 % 256)], r.drop 2)
    else
      let more := (r.takeWhile Text.isDigit).take 1
      reference (Text.digitsValue (c :: more)) (r.drop more.length)
  else
    match control? c with
    | some d => .ok (.text [d], r)
    | none =>
      if c == '\\' then .ok (.text ['\\'], r)
      else if Text.isLetter c then .error .badPattern
      else .ok (.text ['\\', c], r)

def template (groups : Nat) : (n : Nat) → Text → Except Fault (List Filling)
  | 0, _ => .error .tooDeep
  | _ + 1, [] => .ok []
  | _ + 1, ['\\'] => .error .badPattern
  | n + 1, '\\' :: c :: r =>
    match fillingOf groups c r with
    | .error f => .error f
    | .ok (filling, r) => (template groups n r).map (filling :: ·)
  | n + 1, c :: r => (template groups n r).map (.text [c] :: ·)

def fill (whole : Text) (groups : List (Nat × Text)) (fillings : List Filling) : Text :=
  fillings.flatMap fun
    | .text t => t
    | .group 0 => whole
    | .group n => (groups.lookup n).getD []

def replaceFrom (pattern : Pattern) (fillings : List Filling) (steps : Nat) :
    (n : Nat) → (advance : Bool) → Place → Text
  | 0, _, p => p.rest
  | n + 1, advance, p =>
    match pattern.matchAt steps advance p with
    | some q =>
      fill (p.rest.take (q.position - p.position)) q.groups fillings ++
        replaceFrom pattern fillings steps n (q.position == p.position) q
    | none =>
      match p.rest with
      | [] => []
      | c :: r => c :: replaceFrom pattern fillings steps n false (p.next c r)

def replaceAll (pattern replacement s : Text) : Except Fault Text :=
  match parse pattern with
  | .error f => .error f
  | .ok p =>
    match template p.groups (replacement.length + 1) replacement with
    | .error f => .error f
    | .ok fillings =>
      let steps := 64 + 8 * (pattern.length + 1) * (s.length + 2)
      .ok (replaceFrom p fillings steps (2 * s.length + 2) false (Place.start s))

end SheetPress.Pattern
