import MapAlgebra.Raster

/-! Tile grids: a rectangle cut into tiles, row by row. Tiles at the right and lower edges are
smaller when the sides do not divide evenly.
-/

namespace MapAlgebra

structure TileGrid where
  bounds : Rect
  tile : TileSize
  columns : Int
  rows : Int
deriving DecidableEq

namespace TileGrid

/-- How many pieces of a length cover an extent, as a word. -/
def pieces (extent length : Int) : Int :=
  wrap (Int.tdiv (wrap (extent + length - 1)) length)

def create (bounds : Rect) (tile : TileSize) : TileGrid :=
  let bounds := bounds.canon
  let tile := tile.normalized
  if bounds.isEmpty then { bounds, tile, columns := 0, rows := 0 }
  else
    { bounds, tile
      columns := pieces bounds.width tile.width
      rows := pieces bounds.height tile.height }

def count (g : TileGrid) : Int := wrap (g.columns * g.rows)

/-- The part of the tile at a column and row of the grid that lies inside the bounds. -/
def cell (g : TileGrid) (column row : Int) : Rect :=
  let minX := wrap (g.bounds.minX + column * g.tile.width)
  let minY := wrap (g.bounds.minY + row * g.tile.height)
  let whole : Rect :=
    { minX, minY, maxX := wrap (minX + g.tile.width), maxY := wrap (minY + g.tile.height) }
  whole.intersect g.bounds

def tile? (g : TileGrid) (i : Int) : Option Rect :=
  if g.columns = 0 then none
  else some (g.cell (Int.tmod i g.columns) (wrap (Int.tdiv i g.columns)))

def tiles (g : TileGrid) : List Rect :=
  (List.range g.count.toNat).filterMap fun (i : Nat) => g.tile? i

end TileGrid

end MapAlgebra
