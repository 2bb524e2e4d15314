import MapAlgebra.Raster

/-! Pictures: rectangles of colours, and their conversion to and from rasters. Samples that come
from a picture are channels of 16 bits.
-/

namespace MapAlgebra

inductive ColorModel where
  | gray
  | gray16
  /-- Only an opacity of 8 bits. -/
  | alpha
  /-- Four channels of 8 bits, the colours multiplied by the opacity. -/
  | rgba
  /-- Four channels of 16 bits, the colours multiplied by the opacity. -/
  | rgba64
  /-- Four channels of 8 bits, the colours not multiplied. -/
  | nrgba
  /-- Four channels of 16 bits, the colours not multiplied. -/
  | nrgba64
deriving DecidableEq

namespace ColorModel

def isGray : ColorModel → Bool
  | gray | gray16 => true
  | _ => false

def channels : ColorModel → Nat
  | gray | gray16 | alpha => 1
  | _ => 4

def channelLimit : ColorModel → Nat
  | gray | alpha | rgba | nrgba => 2 ^ 8
  | _ => 2 ^ 16

end ColorModel

def fullChannel : Nat := 65535

/-- A colour with channels of 16 bits, multiplied by its opacity. -/
structure Color where
  red : Nat
  green : Nat
  blue : Nat
  alpha : Nat
deriving DecidableEq

namespace Color

def ofGray (y : Nat) : Color := { red := y, green := y, blue := y, alpha := fullChannel }

def premultiply (red green blue alpha : Nat) : Color :=
  { red := red * alpha / fullChannel, green := green * alpha / fullChannel
    blue := blue * alpha / fullChannel, alpha }

def luma (c : Color) : Nat :=
  (19595 * c.red + 38470 * c.green + 7471 * c.blue + 32768) / 65536

def toList (c : Color) : List Nat := [c.red, c.green, c.blue, c.alpha]

end Color

/-- A rectangle of pixels, stored row by row with the channels of each. -/
structure Picture where
  model : ColorModel
  bounds : Rect
  pixels : Array (List Nat)
deriving DecidableEq

def ColorModel.color (model : ColorModel) (pixel : List Nat) : Color :=
  let wide (c : Nat) : Nat := c * 257
  match model, pixel with
  | .gray, [y] => .ofGray (wide y)
  | .gray16, [y] => .ofGray y
  | .alpha, [a] => { red := wide a, green := wide a, blue := wide a, alpha := wide a }
  | .rgba, [r, g, b, a] => { red := wide r, green := wide g, blue := wide b, alpha := wide a }
  | .rgba64, [r, g, b, a] => { red := r, green := g, blue := b, alpha := a }
  | .nrgba, [r, g, b, a] => .premultiply (wide r) (wide g) (wide b) (wide a)
  | .nrgba64, [r, g, b, a] => .premultiply r g b a
  | _, _ => { red := 0, green := 0, blue := 0, alpha := 0 }

namespace Picture

def ofColors (bounds : Rect) (colors : Array Color) : Picture :=
  { model := .rgba64, bounds, pixels := colors.map Color.toList }

def colors (p : Picture) : Array Color :=
  p.pixels.map p.model.color

def toGray (p : Picture) : Picture :=
  { model := .gray16, bounds := p.bounds, pixels := p.colors.map fun c => [c.luma] }

def isOpaque (p : Picture) : Bool :=
  p.colors.all (·.alpha == fullChannel)

def raster (p : Picture) : Raster :=
  let bands := if p.model.isGray then 1 else 4
  let channels (c : Color) : List Nat := if p.model.isGray then [c.luma] else c.toList
  { bounds := p.bounds
    bands
    samples := p.colors.flatMap fun c => ((channels c).map fun (n : Nat) => Sample.ofInt n).toArray
    tile := some .default }

end Picture

namespace Raster

/-- A sample as a channel of 16 bits: the nearest whole number in range, a half away from zero.
What is not a number becomes zero.
-/
def channel (v : Sample) : Nat :=
  if v.isNaN || v.le .zero then 0
  else if (Sample.ofInt fullChannel).le v then fullChannel
  else
    match v.shape with
    | .finite _ mantissa exponent =>
      let doubled := mantissa * 2 ^ (exponent + 1).toNat / 2 ^ (-(exponent + 1)).toNat
      (doubled + 1) / 2
    | _ => 0

/-- The samples of a raster at every pixel, row by row. Nothing where the store is too short. -/
def pixelSamples (r : Raster) (bands : List Int) : List (List Sample) :=
  r.bounds.pixels.map fun (x, y) => bands.map fun band => (r.get? x y band).getD .nan

def grayPicture (r : Raster) (band : Int) : Picture :=
  { model := .gray16, bounds := r.bounds
    pixels := ((r.pixelSamples [band]).map fun s => s.map channel).toArray }

/-- The picture of a raster: its first band in shades of gray, or its first three bands as
colours. A fourth band is the opacity.
-/
def picture (r : Raster) : Picture :=
  if r.bands < 3 then r.grayPicture 0
  else if r.bands = 3 then
    { model := .rgba64, bounds := r.bounds
      pixels :=
        ((r.pixelSamples [0, 1, 2]).map fun s => s.map channel ++ [fullChannel]).toArray }
  else
    { model := .rgba64, bounds := r.bounds
      pixels := ((r.pixelSamples [0, 1, 2, 3]).map fun s => s.map channel).toArray }

end Raster

end MapAlgebra
