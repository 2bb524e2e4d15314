import MapAlgebra.Scene
import MapAlgebra.Tile

/-! Sweeps: one pass over every destination of a scene. A pixel that an earlier destination
covers is only evaluated for the bands that one did not have, so that nothing is evaluated
twice.
-/

namespace MapAlgebra

structure Coverage where
  bounds : Rect
  bands : Nat
deriving DecidableEq

structure Pass where
  image : String
  bands : Nat
  grid : TileGrid
  covered : List Coverage
deriving DecidableEq

namespace Pass

/-- The first band at a pixel that no earlier pass has evaluated. -/
def firstBand (p : Pass) (x y : Int) : Nat :=
  p.covered.foldl (fun first c =>
    if c.bands > first ∧ c.bounds.contains x y then c.bands else first) 0

def visits (p : Pass) (x y : Int) : Bool :=
  p.firstBand x y < p.bands

def pixelsIn (p : Pass) (area : Rect) : List (Int × Int) :=
  area.pixels.filter fun (x, y) => p.visits x y

def bandsAt (p : Pass) (x y : Int) : List Int :=
  let first := p.firstBand x y
  (List.range (p.bands - first)).map fun (i : Nat) => ((first + i : Nat) : Int)

def placesIn (p : Pass) (area : Rect) : List (Int × Int × Int) :=
  (p.pixelsIn area).flatMap fun (x, y) => (p.bandsAt x y).map fun band => (x, y, band)

/-- How many pixels the pass evaluates. The first pass takes the area of its bounds, as a word. -/
def pixelCount (p : Pass) : Int :=
  match p.covered with
  | [] => wrap (p.grid.bounds.width * p.grid.bounds.height)
  | _ => (p.pixelsIn p.grid.bounds).length

end Pass

namespace Sweep

/-- The tile size of a pass: the forced one if it has both sides, else what the raster prefers. -/
def tileFor (forced : TileSize) (raster : Raster) : TileSize :=
  if forced.width > 0 ∧ forced.height > 0 then forced else raster.tile.getD forced

def planAfter (forced : TileSize) : (covered : List Coverage) → List (String × Raster) → List Pass
  | _, [] => []
  | covered, (image, raster) :: rest =>
    { image, bands := raster.bands, covered
      grid := TileGrid.create raster.bounds (tileFor forced raster) }
      :: planAfter forced (covered ++ [{ bounds := raster.bounds, bands := raster.bands }]) rest

def targets (scene : Scene) : List (String × Raster) :=
  scene.destinations.filterMap fun name =>
    (scene.destination? name).map fun raster => (name, raster)

def plan (scene : Scene) (forced : TileSize) : List Pass :=
  planAfter forced [] (targets scene)

def total (passes : List Pass) : Int :=
  wrap (passes.map Pass.pixelCount).sum

/-- The work between two reports of progress. -/
structure Stretch where
  places : List (Int × Int × Int)
  /-- How many pixels the places belong to. -/
  pixels : Nat
deriving DecidableEq

def stretches (passes : List Pass) : List Stretch :=
  passes.flatMap fun p => p.grid.tiles.map fun tile =>
    { places := p.placesIn tile, pixels := (p.pixelsIn tile).length }

def evaluateAll (program : Executable) (fuel : Nat) : List (Int × Int × Int) → EvalM Unit
  | [] => return
  | (x, y, band) :: rest => do
    program.evaluate fuel x y band
    evaluateAll program fuel rest

def fraction (done total : Int) : Sample :=
  if total > 0 then (Sample.ofInt done).div (.ofInt total) else .one

end Sweep

end MapAlgebra
