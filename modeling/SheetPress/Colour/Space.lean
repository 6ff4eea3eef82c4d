import SheetPress.Fault
import SheetPress.Decimal.Binary

/-!
# Red, green and blue; hue, lightness and saturation

Conversion between the two colour spaces, all channels between 0 and 1.
-/

set_option autoImplicit false

namespace SheetPress.Colour

structure Hls where
  hue : Float
  lightness : Float
  saturation : Float

def larger (x y : Float) : Float := if y > x then y else x

def smaller (x y : Float) : Float := if y < x then y else x

def quotient (x y : Float) : Except Fault Float :=
  if y == 0.0 then .error .divisionByZero else .ok (x / y)

def Hls.ofRgb (r g b : Float) : Except Fault Hls := do
  let top := larger (larger r g) b
  let low := smaller (smaller r g) b
  let lightness := (top + low) / 2.0
  if low == top then return { hue := 0.0, lightness, saturation := 0.0 }
  let saturation ←
    if lightness ≤ 0.5 then quotient (top - low) (top + low)
    else quotient (top - low) (2.0 - top - low)
  let rc := (top - r) / (top - low)
  let gc := (top - g) / (top - low)
  let bc := (top - b) / (top - low)
  let hue :=
    if r == top then bc - gc
    else if g == top then 2.0 + rc - bc
    else 4.0 + gc - rc
  return { hue := Decimal.floorMod (hue / 6.0) 1.0, lightness, saturation }

def channel (m1 m2 hue : Float) : Float :=
  let hue := Decimal.floorMod hue 1.0
  if hue < 1.0 / 6.0 then m1 + (m2 - m1) * hue * 6.0
  else if hue < 0.5 then m2
  else if hue < 2.0 / 3.0 then m1 + (m2 - m1) * (2.0 / 3.0 - hue) * 6.0
  else m1

def Hls.toRgb (c : Hls) : Float × Float × Float :=
  let l := c.lightness
  let s := c.saturation
  if s == 0.0 then (l, l, l)
  else
    let m2 := if l ≤ 0.5 then l * (1.0 + s) else l + s - l * s
    let m1 := 2.0 * l - m2
    (channel m1 m2 (c.hue + 1.0 / 3.0), channel m1 m2 c.hue, channel m1 m2 (c.hue - 1.0 / 3.0))

/-- Full lightness and full saturation are drawn just below 1 before they are turned
into red, green and blue. -/
def belowOne (x : Float) : Float := if x == 1.0 then 0.999999 else x

end SheetPress.Colour
