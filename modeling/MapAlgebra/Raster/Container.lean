import MapAlgebra.Codec.Cbor
import MapAlgebra.Raster

/-! The raster container: a record of the shape and the samples of a raster, which keeps every
bit.
-/

namespace MapAlgebra

inductive ContainerError where
  /-- The bytes are no record with the right fields. -/
  | malformed
  | newer (version : Int)
  | shape (width height bands : Int)
  | sampleCount (got want : Int)
  | unholdable
deriving DecidableEq

namespace Container

def currentVersion : Int := 1

def message : ContainerError → Option String
  | .malformed | .unholdable => none
  | .newer n => some s!"vm: raster version {n} is newer than supported version {currentVersion}"
  | .shape width height bands => some s!"vm: invalid raster shape {width}x{height}x{bands}"
  | .sampleCount got want => some s!"vm: raster has {got} samples, want {want}"

def record (r : Raster) : Cbor :=
  let field (number : Nat) (value : Cbor) : List Cbor := [.unsigned number, value]
  .map (field 1 (.ofInt currentVersion)
    ++ field 2 (.ofInt r.bounds.minX)
    ++ field 3 (.ofInt r.bounds.minY)
    ++ field 4 (.ofInt r.bounds.width)
    ++ field 5 (.ofInt r.bounds.height)
    ++ field 6 (.ofInt r.bands)
    ++ field 7 (.array (r.samples.toList.map Cbor.ofSample)))

def encode (r : Raster) : Bytes :=
  (record r).encode

structure Fields where
  version : Int
  minX : Int
  minY : Int
  width : Int
  height : Int
  bands : Int
  samples : List Sample
deriving DecidableEq

def Fields.ofItem? (item : Cbor) : Option Fields := do
  let fields ← item.toRecord?
  let int (number : Int) : Option Int := (Cbor.field fields number).toInt?
  return {
    version := ← int 1
    minX := ← int 2
    minY := ← int 3
    width := ← int 4
    height := ← int 5
    bands := ← int 6
    samples := ← (Cbor.field fields 7).toSamples? }

def Fields.raster (f : Fields) : Except ContainerError Raster := do
  if f.version > currentVersion then throw (.newer f.version)
  if f.width < 0 || f.height < 0 || f.bands < 1 then throw (.shape f.width f.height f.bands)
  let want := wrap (f.width * f.height * f.bands)
  if (f.samples.length : Int) ≠ want then throw (.sampleCount f.samples.length want)
  let bounds := Rect.ofCorners f.minX f.minY (wrap (f.minX + f.width)) (wrap (f.minY + f.height))
  match Raster.create bounds f.bands with
  | .error _ => throw .unholdable
  | .ok blank =>
    let given := f.samples.take blank.samples.size
    return { blank with
      samples := (given ++ List.replicate (blank.samples.size - given.length) Sample.zero).toArray }

def decode (bytes : Bytes) : Except ContainerError Raster :=
  match (Cbor.decode bytes).bind Fields.ofItem? with
  | none => .error .malformed
  | some fields => fields.raster

end Container

end MapAlgebra
