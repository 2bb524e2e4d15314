import MapAlgebra.Word

/-! Rectangles of pixels. The lower bounds belong to a rectangle and the upper ones do not. -/

namespace MapAlgebra

structure Rect where
  minX : Int
  minY : Int
  maxX : Int
  maxY : Int
deriving DecidableEq

namespace Rect

/-- The rectangle with two corners, in whatever order they are given. -/
def ofCorners (x0 y0 x1 y1 : Int) : Rect :=
  { minX := min x0 x1, minY := min y0 y1, maxX := max x0 x1, maxY := max y0 y1 }

def ofSize (width height : Int) : Rect :=
  ofCorners 0 0 width height

def canon (r : Rect) : Rect :=
  ofCorners r.minX r.minY r.maxX r.maxY

def width (r : Rect) : Int := wrap (r.maxX - r.minX)

def height (r : Rect) : Int := wrap (r.maxY - r.minY)

def contains (r : Rect) (x y : Int) : Bool :=
  r.minX ≤ x && x < r.maxX && r.minY ≤ y && y < r.maxY

def isEmpty (r : Rect) : Bool :=
  r.minX ≥ r.maxX || r.minY ≥ r.maxY

/-- The pixels inside both; the empty rectangle at the origin if there are none. -/
def intersect (r s : Rect) : Rect :=
  let both : Rect :=
    { minX := max r.minX s.minX, minY := max r.minY s.minY
      maxX := min r.maxX s.maxX, maxY := min r.maxY s.maxY }
  if both.isEmpty then { minX := 0, minY := 0, maxX := 0, maxY := 0 } else both

def columns (r : Rect) : List Int :=
  (List.range (r.maxX - r.minX).toNat).map fun (i : Nat) => r.minX + i

def rows (r : Rect) : List Int :=
  (List.range (r.maxY - r.minY).toNat).map fun (i : Nat) => r.minY + i

def pixels (r : Rect) : List (Int × Int) :=
  r.rows.flatMap fun y => r.columns.map fun x => (x, y)

def render (r : Rect) : String :=
  s!"({r.minX},{r.minY})-({r.maxX},{r.maxY})"

end Rect

end MapAlgebra
