import SheetPress.Library.Routine

/-!
# Positions

The words `left`, `right`, `top` and `bottom` name a position in a box; what they do not
say is the centre.
-/

set_option autoImplicit false

namespace SheetPress.Library

def wordsOf : List Value → Calc (List Text)
  | [] => return []
  | v :: rest => do
    let ws := Text.words (← v.text)
    return ws ++ (← wordsOf rest)

/-- The first of two words that occurs, or a third one. -/
def chosen {α : Type} (ws : List Text) (first second : String) (a b c : α) : α :=
  if ws.contains first.toList then a else if ws.contains second.toList then b else c

/-- The position that some values name, or the one opposite to it. -/
def position (opposite : Bool) (vs : List Value) : Calc Value := do
  let ws ← wordsOf vs
  let pick (a b : String) : Text :=
    let x := if opposite then b else a
    let y := if opposite then a else b
    chosen ws a b x.toList y.toList "center".toList
  let horizontal := pick "left" "right"
  let vertical := pick "top" "bottom"
  let parts := if horizontal == vertical then [horizontal] else [horizontal, vertical]
  (Listing.ofValues none (parts.map .word)).toValue

def gradientPoint (vs : List Value) : Calc (Value × Value) := do
  let centre ← Calc.newNumber (.percent (.real 0.5))
  let ws ← wordsOf vs
  let start ← Calc.newNumber (.percent (.real 0.0))
  let finish ← Calc.newNumber (.percent (.real 1.0))
  let start' ← Calc.newNumber (.percent (.real 0.0))
  let finish' ← Calc.newNumber (.percent (.real 1.0))
  return (chosen ws "left" "right" start finish centre,
    chosen ws "top" "bottom" start' finish' centre)

def gradientPointList (vs : List Value) : Calc Value := do
  let (x, y) ← gradientPoint vs
  (Listing.ofValues none [x, y]).toValue

def positions : List (String × Routine) :=
  [ ("opposite-position:n", .ofAny (position true)),
    ("grad-point:n", .ofAny gradientPointList) ]

end SheetPress.Library
