import MapAlgebra.Files
import MapAlgebra.Picture.Format
import MapAlgebra.Picture.Scale
import MapAlgebra.Raster.Container

/-! Rasters in image files. The format of a file follows from its name. -/

namespace MapAlgebra

inductive ImageFileError where
  | unknownFormat (path : String)
  | file (error : FileError)
  | unreadable (path : String) (error : FileError)
  | container (path : String) (error : ContainerError)
  /-- The format cannot hold the picture, or the file holds none. -/
  | picture (path : String)
deriving DecidableEq

namespace ImageFileError

def message : ImageFileError → Option String
  | unknownFormat path => some (ImageFormat.unknownPath path)
  | file error => some error.message
  | unreadable path error => some s!"{path}: {error.message}"
  | container path error => (Container.message error).map fun m => s!"{path}: {m}"
  | picture _ => none

end ImageFileError

section

variable {m : Type → Type} [Monad m] [FileSystem m]

/-- The raster of a picture, brought to a size if both sides of that are positive. -/
def Picture.rasterSized (p : Picture) (width height : Int) : Raster :=
  if 0 < width ∧ 0 < height ∧ ¬ (p.bounds.width = width ∧ p.bounds.height = height) then
    (p.scaled width height).raster
  else p.raster

def readImageFile (path : String) (width height : Int) : m (Except ImageFileError Raster) := do
  match ImageFormat.ofPath? path with
  | none => return .error (.unknownFormat path)
  | some .raster =>
    match ← readFile path with
    | .error e => return .error (.file e)
    | .ok bytes => return (Container.decode bytes).mapError (.container path)
  | some format =>
    match ← readFile path with
    | .error e =>
      return .error (if e.action = .reading then .unreadable path e else .file e)
    | .ok bytes =>
      match Picture.restore? format bytes with
      | none => return .error (.picture path)
      | some p => return .ok (p.rasterSized width height)

/-- Writes a raster to a file. The file is there, empty, even if its format cannot hold the
picture.
-/
def writeImageFile (path : String) (r : Raster) : m (Except ImageFileError Unit) := do
  match ImageFormat.ofPath? path with
  | none => return .error (.unknownFormat path)
  | some .raster => return (← writeFile path (Container.encode r)).mapError .file
  | some format =>
    let picture := format.kept r.picture
    if picture.pixels.isEmpty && !format.holdsEmpty then
      match ← writeFile path [] with
      | .error e => return .error (.file e)
      | .ok _ => return .error (.picture path)
    else return (← writeFile path (picture.store format)).mapError .file

end

end MapAlgebra
