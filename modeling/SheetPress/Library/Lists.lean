import SheetPress.Library.Routine

/-!
# List functions

Functions on lists.  A single argument that is a list stands for its items; otherwise the
arguments themselves are the items.  Where a function counts the entries of a list, its
separator counts as one.
-/

set_option autoImplicit false

namespace SheetPress.Library

def argumentList (args : List Value) : Calc Listing :=
  match args with
  | [.list slot items] => do return ⟨← Calc.separator slot, items⟩
  | vs => return .ofValues none vs

/-- The number of entries, the separator included. -/
def Listing.entries (l : Listing) : Nat := l.items.length + (if l.separator.isSome then 1 else 0)

def asList (args : List Value) : Calc Value := do (← argumentList args).toValue

def asRow (args : List Value) : Calc Value := do
  Listing.toValue ⟨none, (← argumentList args).items⟩

def allBlank : List Value → Calc Bool
  | [] => return true
  | v :: rest => do
    if ← v.isTrue then return false else allBlank rest

def trueItems : List (Key × Value) → Calc (List (Key × Value))
  | [] => return []
  | (k, v) :: rest => do
    let keep ← v.isTrue
    let more ← trueItems rest
    return if keep then (k, v) :: more else more

def compact (args : List Value) : Calc Value := do
  let l : Listing ←
    match args with
    | [.list slot items] => pure ⟨← Calc.separator slot, items⟩
    | [.table s items] => pure ⟨s, items⟩
    | vs => pure (.ofValues none vs)
  Listing.toValue ⟨l.separator, Items.renumber (← trueItems l.items)⟩

def slice (lst start stop : Value) : Calc Value := do
  let _ ← start.size
  let stop ← stop.size
  let l ← lst.listing
  let items := l.items.filter fun p =>
    match p.1 with
    | .index i => (Scalar.whole i).compare .le stop
    | .name _ => false
  Listing.toValue ⟨l.separator, Items.renumber items⟩

def firstValue (args : List Value) : Calc Value := do
  match (← argumentList args).items with
  | [] => throw .wrongKind
  | (_, v) :: _ => v.copied

/-- Which item `nth` is asked for. -/
inductive Wanted where
  /-- A position, which may count from the end. -/
  | position (i : Int)
  /-- A name. -/
  | name (t : Text)

def wantedItem (entries : Nat) (t : Text) : Calc Wanted := do
  let named : Wanted :=
    if Text.lower t == "first".toList then .position 0
    else if Text.lower t == "last".toList then .position (-1)
    else .name t
  match (Decimal.readFloat? t).bind Decimal.truncate? with
  | none => return named
  | some i =>
    if entries = 0 then throw .missingPart
    return .position (Int.fmod (i - 1) entries)

def numbered (items : List (Key × Value)) : List Value :=
  items.filterMap fun p => if p.1.isIndex then some p.2 else none

/-- The item at a position that may count from the end. -/
def itemAt? (vs : List Value) (i : Int) : Option Value :=
  if 0 ≤ i then vs[i.toNat]?
  else
    let j := (vs.length : Int) + i
    if 0 ≤ j then vs[j.toNat]? else none

def nth (lst n : Value) : Calc Value := do
  let t ← n.text
  let l ← lst.listing
  let found ←
    match ← wantedItem (Listing.entries l) t with
    | .position i => pure ((Items.get? l.items (.index i)).or (itemAt? (numbered l.items) i))
    | .name t =>
      if t == ['_'] then pure (l.separator.map .word) else pure (Items.get? l.items (.name t))
  (found.getD (.word [])).copied

/-- Two lists joined.  The positions of the second go on behind the entries of the first;
its separator counts if it has one, and a given separator counts most. -/
def join (a b : Value) (separator : Option Value) : Calc Value := do
  let l ← a.listing
  let m ← b.listing
  let n : Int := Listing.entries l
  let items := m.items.foldl
    (fun items p =>
      match p.1 with
      | .index i => Items.insert (.index (i + n)) p.2 items
      | k => Items.insert k p.2 items)
    l.items
  let given ←
    match separator with
    | none => pure []
    | some s => s.text
  let separator := if given.isEmpty then m.separator.or l.separator else some given
  Listing.toValue ⟨separator, items⟩

def length (args : List Value) : Calc Value := do
  Calc.newNumber (.bare (Float.ofNat (← argumentList args).items.length))

/-- The greatest entry, the separator included. -/
def greatestEntry (args : List Value) : Calc Value := do
  let l ← argumentList args
  Value.greatest (Items.values l.items ++ l.separator.toList.map .word)

def listingWith (v : Value) (given : Option Text) : Calc Listing := do
  let l ← v.listing
  match given with
  | none => return l
  | some [] =>
    match v with
    | .word _ | .scalar _ => return { l with separator := none }
    | _ => return l
  | some t => return { l with separator := some t }

def append (lst v : Value) (separator : Option Value) : Calc Value := do
  let given ←
    match separator with
    | none => pure none
    | some s => do
      if ← s.isTrue then pure (some (← s.text)) else pure (some [])
  let l ← listingWith lst given
  let more ← v.listing
  if more.items.isEmpty then throw .outOfRange
  let items := (Items.values more.items).foldl
    (fun (items : List (Key × Value)) v => Items.insert (.index items.length) v items) l.items
  Listing.toValue { l with items }

def lists : List (String × Routine) :=
  [ ("-compass-list:n", .ofAny asList),
    ("-compass-space-list:n", .ofAny asRow),
    ("blank:n", .ofAny fun args => do return .boolean (.truth (← allBlank args))),
    ("compact:n", .ofAny compact),
    ("-compass-slice:3",
      { required := ["lst", "start_index"].map String.toList
        optional := ["end_index".toList]
        body := fun
          | [some l, some a, some b], _ => slice l a b
          | _, _ => throw .wrongKind }),
    ("nth:2", .ofTwo "lst" "n" nth),
    ("-compass-nth:2", .ofTwo "lst" "n" nth),
    ("max:n", .ofAny greatestEntry),
    ("first-value-of:n", .ofAny firstValue),
    ("join:2", .ofTwoOrThree "lst1" "lst2" "separator" join),
    ("join:3", .ofTwoOrThree "lst1" "lst2" "separator" join),
    ("length:n", .ofAny length),
    ("-compass-list-size:n", .ofAny length),
    ("append:2", .ofTwoOrThree "lst" "val" "separator" append),
    ("append:3", .ofTwoOrThree "lst" "val" "separator" append) ]

end SheetPress.Library
