import MapAlgebra.Picture

/-! Resampling pictures with a bilinear kernel, first along the rows and then along the columns. -/

namespace MapAlgebra

namespace Scale

/-- What one place of the result takes from a line of pixels: the places with their weights, and the
inverse of the sum of the weights.
-/
structure Share where
  parts : List (Nat × Float)
  inverse : Float

/-- The shares of a line of `length` places that is made from a line of `sourceLength` places. -/
def shares (length sourceLength : Nat) : List Share :=
  let scale := sourceLength.toFloat / length.toFloat
  let (reach, narrow) := if scale > 1 then (scale, 1 / scale) else (1, 1)
  (List.range length).map fun x =>
    let center := (x.toFloat + 0.5) * scale - 0.5
    let low := (center - reach).floor
    let first := if low < 0 then 0 else low.toUInt64.toNat
    let high := (center + reach).ceil
    let last :=
      if high < first.toFloat then first else min sourceLength high.toUInt64.toNat
    let parts := (List.range (last - first)).filterMap fun i =>
      let place := first + i
      let distance := ((center - place.toFloat) * narrow).abs
      let weight := 1 - distance
      if distance ≥ 1 || weight == 0 then none else some (place, weight)
    let total := parts.foldl (fun sum (_, weight) => sum + weight) 0.0
    { parts, inverse := 1 / total }

def weigh (share : Share) (value : Nat → Float) : Float :=
  share.parts.foldl (fun sum (place, weight) => sum + value place * weight) 0

/-- A colour between rows and columns: channels from zero to one. -/
structure Blend where
  red : Float
  green : Float
  blue : Float
  alpha : Float

def blend (share : Share) (factor : Float) (value : Nat → Blend) : Blend :=
  { red := weigh share (fun i => (value i).red) * factor
    green := weigh share (fun i => (value i).green) * factor
    blue := weigh share (fun i => (value i).blue) * factor
    alpha := weigh share (fun i => (value i).alpha) * factor }

def Blend.ofColor (c : Color) : Blend :=
  { red := c.red.toFloat, green := c.green.toFloat, blue := c.blue.toFloat
    alpha := c.alpha.toFloat }

def toChannel (v : Float) : Nat :=
  let scaled := 65535 * v + 0.5
  if scaled < 0 then 0 else min fullChannel scaled.toUInt64.toNat

/-- The colour of weighted sums, none of which may be brighter than the opacity. -/
def Blend.color (b : Blend) (inverse : Float) : Color :=
  let limit (v : Float) : Float := if v > b.alpha then b.alpha else v
  { red := toChannel (limit b.red * inverse)
    green := toChannel (limit b.green * inverse)
    blue := toChannel (limit b.blue * inverse)
    alpha := toChannel (b.alpha * inverse) }

def alongRows (p : Picture) (width height : Nat) (columns : List Share) : Array (Array Blend) :=
  let colors := p.colors
  ((List.range height).map fun y =>
    (columns.map fun share =>
      let mixed := blend share (share.inverse / 65535) fun x =>
        match colors[y * width + x]? with
        | some c => .ofColor c
        | none => { red := 0, green := 0, blue := 0, alpha := 0 }
      -- Eight-bit grays are opaque as they stand.
      if p.model = .gray then { mixed with alpha := 1 } else mixed).toArray).toArray

def alongColumns (rows : Array (Array Blend)) (width : Nat) (shares : List Share) : List Color :=
  shares.flatMap fun share =>
    (List.range width).map fun x =>
      let mixed := blend share 1 fun y =>
        match rows[y]?.bind (·[x]?) with
        | some b => b
        | none => { red := 0, green := 0, blue := 0, alpha := 0 }
      mixed.color share.inverse

end Scale

namespace Picture

def resampled (p : Picture) (width height : Nat) : List Color :=
  let sourceWidth := p.bounds.width.toNat
  let sourceHeight := p.bounds.height.toNat
  let rows := Scale.alongRows p sourceWidth sourceHeight (Scale.shares width sourceWidth)
  Scale.alongColumns rows width (Scale.shares height sourceHeight)

/-- The picture resampled to a size. Nothing can be made from an empty picture, so the result is
then black and transparent.
-/
def scaled (p : Picture) (width height : Int) : Picture :=
  let bounds := Rect.ofSize width height
  let colors :=
    if bounds.isEmpty then []
    else if p.bounds.isEmpty then
      List.replicate (bounds.width * bounds.height).toNat
        { red := 0, green := 0, blue := 0, alpha := 0 }
    else p.resampled bounds.width.toNat bounds.height.toNat
  let result := ofColors bounds colors.toArray
  if p.model.isGray then result.toGray else result

end Picture

end MapAlgebra
