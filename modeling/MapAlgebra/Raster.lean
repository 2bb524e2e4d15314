import MapAlgebra.Raster.Rect
import MapAlgebra.Sample

/-! Rasters: rectangles of pixels with a sample for every band. -/

namespace MapAlgebra

structure TileSize where
  width : Int
  height : Int
deriving DecidableEq

namespace TileSize

def defaultSide : Int := 64

def default : TileSize := { width := defaultSide, height := defaultSide }

/-- Sides that are not positive become the default one. -/
def normalized (t : TileSize) : TileSize :=
  { width := if t.width ≤ 0 then defaultSide else t.width
    height := if t.height ≤ 0 then defaultSide else t.height }

end TileSize

/-- A raster. Samples are stored row by row, all bands of a pixel together. -/
structure Raster where
  bounds : Rect
  bands : Nat
  samples : Array Sample
  /-- How the raster prefers to be swept. -/
  tile : Option TileSize
deriving DecidableEq

inductive RasterError where
  | noBands (bands : Int)
  /-- The number of samples is negative or past the address space. -/
  | tooLarge
deriving DecidableEq

namespace Raster

def sampleCount (bounds : Rect) (bands : Int) : Int :=
  wrap (wrap (bounds.width * bounds.height) * bands)

def create (bounds : Rect) (bands : Int) : Except RasterError Raster :=
  if bands < 1 then .error (.noBands bands)
  else
    let bounds := bounds.canon
    let count := sampleCount bounds bands
    if count < 0 || count > 2 ^ 45 then .error .tooLarge
    else
      .ok { bounds, bands := bands.toNat, samples := Array.replicate count.toNat .zero
            tile := some .default }

def offset (r : Raster) (x y band : Int) : Int :=
  wrap ((wrap ((y - r.bounds.minY) * r.bounds.width) + (x - r.bounds.minX)) * r.bands + band)

def contains (r : Raster) (x y band : Int) : Bool :=
  r.bounds.contains x y && 0 ≤ band && band < r.bands

def stored? (r : Raster) (i : Int) : Option Sample :=
  if 0 ≤ i then r.samples[i.toNat]? else none

def store? (r : Raster) (i : Int) (v : Sample) : Option Raster :=
  if 0 ≤ i ∧ i.toNat < r.samples.size then
    some { r with samples := r.samples.setIfInBounds i.toNat v }
  else none

/-- The sample at a pixel and band, not a number where the raster has none. Nothing if the store is
shorter than the shape says.
-/
def get? (r : Raster) (x y band : Int) : Option Sample :=
  if r.contains x y band then r.stored? (r.offset x y band) else some .nan

/-- Replaces the sample at a pixel and band; a place that the raster does not have is left alone.
Nothing if the store is shorter than the shape says.
-/
def set? (r : Raster) (x y band : Int) (v : Sample) : Option Raster :=
  if r.contains x y band then r.store? (r.offset x y band) v else some r

def withTile (r : Raster) (tile : TileSize) : Raster :=
  { r with tile := some tile.normalized }

/-- The places from `band` on, in steps of the number of bands. -/
def bandPlaces (r : Raster) (band : Nat) : List Nat :=
  (List.range ((r.samples.size - band + r.bands - 1) / r.bands)).map (band + · * r.bands)

/-- The places of a band, one after the other. There is no place below zero, neither to start from nor
where a step wraps around.
-/
def bandPlaces? (r : Raster) (band : Int) : Option (List Nat) :=
  let places := r.bandPlaces band.toNat
  if band < 0 || places.any (2 ^ 63 ≤ · + r.bands) then none else some places

/-- Sets every sample from place `band` on, in steps of the number of bands. -/
def fill? (r : Raster) (band : Int) (v : Sample) : Option Raster := do
  let places ← r.bandPlaces? band
  return { r with
    samples := places.foldl (fun samples i => samples.setIfInBounds i v) r.samples }

/-- The samples from place `band` on, in steps of the number of bands. Nothing if the area is no length
of a list.
-/
def band? (r : Raster) (band : Int) : Option (List Sample) := do
  let area := wrap (r.bounds.width * r.bounds.height)
  guard (0 ≤ area ∧ area ≤ 2 ^ 45)
  return (← r.bandPlaces? band).filterMap (r.samples[·]?)

def places (r : Raster) : List (Int × Int × Int) :=
  r.bounds.pixels.flatMap fun (x, y) =>
    (List.range r.bands).map fun (band : Nat) => (x, y, (band : Int))

/-- A new raster with given samples. Nothing if one of them is missing. -/
def tabulate (bounds : Rect) (bands : Int) (sample : Int → Int → Int → Option Sample)
    : Option Raster := do
  let blank ← (create bounds bands).toOption
  blank.places.foldlM (fun (r : Raster) (x, y, band) => do
    let v ← sample x y band
    r.set? x y band v) blank

/-- A raster with the same samples and the tile size that nobody chose. -/
def copy (r : Raster) : Option Raster :=
  tabulate r.bounds r.bands r.get?

end Raster

end MapAlgebra
