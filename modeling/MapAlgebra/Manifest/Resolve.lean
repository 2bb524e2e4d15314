import MapAlgebra.Manifest.File

/-! The images of a manifest with the places of their files. -/

namespace MapAlgebra

structure ResolvedImage where
  name : String
  role : ImageRole
  /-- Where the image is read; nowhere if it is only written. -/
  input : String
  /-- Where the image is written; nowhere if it is only read. -/
  output : String
  entry : ImageEntry
deriving DecidableEq

inductive ResolveError where
  | fault (fault : ManifestFault)
  | source (name : String) (error : FileError)
  | noOutput (name : String)
deriving DecidableEq

def ResolveError.message : ResolveError → String
  | fault f => f.message
  | source name error => s!"source image {Text.quote name}: {error.message}"
  | noOutput name =>
    s!"image {Text.quote name} is read and written: set output to a different file"

namespace Manifest

/-- The places of an image in a role, once it was looked whether its source is there. -/
def placed (manifest : Manifest) (e : ImageEntry) (role : ImageRole)
    : Except FileError Unit → Except ResolveError ResolvedImage
  | .error error => .error (.source e.name error)
  | .ok _ =>
    let path := manifest.located e.path
    let image : ResolvedImage := { name := e.name, role, input := "", output := "", entry := e }
    if !role.isSource then .ok { image with output := path }
    else if !role.isDestination then .ok { image with input := path }
    else if e.output = "" then .error (.noOutput e.name)
    else .ok { image with input := path, output := manifest.located e.output }

section

variable {m : Type → Type} [Monad m] [FileSystem m]

def place (manifest : Manifest) (e : ImageEntry) : m (Except ResolveError ResolvedImage) := do
  match ImageRole.ofName? e.role with
  | none => return .error (.fault (.unknownRole e.name e.role))
  | some role =>
    let there ← if role.isSource then inspect (manifest.located e.path) else pure (.ok ())
    return manifest.placed e role there

def placeAll (manifest : Manifest) : List ImageEntry → m (Except ResolveError (List ResolvedImage))
  | [] => return .ok []
  | e :: rest => do
    match ← manifest.place e with
    | .error error => return .error error
    | .ok placed => return (← placeAll manifest rest).map (placed :: ·)

def resolve (manifest : Manifest) : m (Except ResolveError (List ResolvedImage)) :=
  manifest.placeAll manifest.images

end

end Manifest

end MapAlgebra
