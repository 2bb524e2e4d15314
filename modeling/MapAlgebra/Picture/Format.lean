import MapAlgebra.Codec.Cbor
import MapAlgebra.Files.Path
import MapAlgebra.Picture
import MapAlgebra.Text.Lower

/-! Image formats: which one a file has, what is left of a picture in it, and how that is stored. -/

namespace MapAlgebra

inductive ImageFormat where
  /-- The raster container, which keeps every sample. -/
  | raster
  | png
  | tiff
  | bmp
  | jpeg
deriving DecidableEq

namespace ImageFormat

def all : List ImageFormat := [raster, png, tiff, bmp, jpeg]

def name : ImageFormat → String
  | raster => "raster"
  | png => "png"
  | tiff => "tiff"
  | bmp => "bmp"
  | jpeg => "jpeg"

def nameOfNumber (n : Int) : String :=
  if n < 0 then s!"Format({n})" else ((all[n.toNat]?).map name).getD s!"Format({n})"

def ofPath? (path : String) : Option ImageFormat :=
  match Text.lower (Path.extension path) with
  | ".cbor" | ".rast" => some raster
  | ".png" => some png
  | ".tif" | ".tiff" => some tiff
  | ".bmp" => some bmp
  | ".jpg" | ".jpeg" => some jpeg
  | _ => none

def unknownPath (path : String) : String := "vm: unknown image format for " ++ path

end ImageFormat

/-- A colour without its opacity, in channels of 16 bits that may wrap around. -/
def Color.unmultiply (c : Color) : List Nat :=
  if c.alpha = 0 then [0, 0, 0, 0]
  else
    let channel (v : Nat) : Nat := v * fullChannel / c.alpha % (fullChannel + 1)
    [channel c.red, channel c.green, channel c.blue, c.alpha]

def Color.coarse (c : Color) : List Nat :=
  [c.red / 256, c.green / 256, c.blue / 256, 255]

namespace ImageFormat

/-- What is left of a picture in a format. Its corner goes to the origin. -/
def kept (format : ImageFormat) (p : Picture) : Picture :=
  let p := { p with bounds := .ofSize p.bounds.width p.bounds.height }
  match format with
  | raster | tiff => p
  | png =>
    if p.model.isGray || p.isOpaque then p
    else { p with model := .nrgba64, pixels := p.colors.map Color.unmultiply }
  | bmp | jpeg => { p with model := .rgba, pixels := p.colors.map Color.coarse }

def holdsEmpty : ImageFormat → Bool
  | png => false
  | _ => true

end ImageFormat

namespace Picture

def modelNumber : ColorModel → Nat
  | .gray => 0
  | .gray16 => 1
  | .alpha => 2
  | .rgba => 3
  | .rgba64 => 4
  | .nrgba => 5
  | .nrgba64 => 6

def modelOfNumber? (n : Int) : Option ColorModel :=
  [.gray, .gray16, .alpha, .rgba, .rgba64, .nrgba, .nrgba64].find? fun m =>
    (modelNumber m : Int) == n

/-- Stores a picture without loss: its format, colour model and size, and two bytes for each
channel.
-/
def store (format : ImageFormat) (p : Picture) : Bytes :=
  let field (number : Nat) (value : Cbor) : List Cbor := [.unsigned number, value]
  let channels := p.pixels.toList.flatMap fun pixel => pixel.flatMap (Cbor.bigEndian 2)
  (Cbor.map (field 1 (.ofText format.name)
    ++ field 2 (.unsigned (modelNumber p.model))
    ++ field 3 (.ofInt p.bounds.width)
    ++ field 4 (.ofInt p.bounds.height)
    ++ field 5 (.octets [channels]))).encode

def pixelsOf (channels : Nat) : (count : Nat) → Bytes → List (List Nat)
  | 0, _ => []
  | count + 1, bytes =>
    let pixel := (List.range channels).map fun i =>
      Cbor.ofBigEndian ((bytes.drop (2 * i)).take 2)
    pixel :: pixelsOf channels count (bytes.drop (2 * channels))

def restore? (format : ImageFormat) (bytes : Bytes) : Option Picture := do
  let fields ← (← Cbor.decode bytes).toRecord?
  let name ← (Cbor.field fields 1).toText?
  let model ← modelOfNumber? (← (Cbor.field fields 2).toInt?)
  let width ← (Cbor.field fields 3).toInt?
  let height ← (Cbor.field fields 4).toInt?
  let channels ← (Cbor.field fields 5).toBytes?
  let count := (width * height).toNat
  if name = format.name ∧ 0 ≤ width ∧ 0 ≤ height ∧ channels.length = 2 * model.channels * count then
    return { model, bounds := .ofSize width height
             pixels := (pixelsOf model.channels count channels).toArray }
  else none

end Picture

end MapAlgebra
