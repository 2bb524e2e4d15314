import MapAlgebra.Files
import MapAlgebra.Manifest.Settings

/-! Manifest files: where they are looked for, and what can be wrong with them. -/

namespace MapAlgebra

inductive ManifestError where
  | absent (folder : String)
  | unreadable (path : String) (error : FileError)
  | malformed (path : String)
  | faulty (path : String) (fault : ManifestFault)
deriving DecidableEq

namespace ManifestError

def message : ManifestError → Option String
  | absent folder => some s!"no rastal.toml or rastal.yaml in {folder}: file does not exist"
  | unreadable path error => some s!"cannot read {path}: {error.message}"
  | malformed _ => none
  | faulty path fault => some s!"{path}: {fault.message}"

def isNotFound : ManifestError → Bool
  | absent _ => true
  | unreadable _ error => error.fault = .notFound
  | _ => false

end ManifestError

namespace Manifest

def fileNames : List String := ["rastal.toml", "rastal.yaml"]

def ofBytes? (path : String) (bytes : Bytes) : Option Manifest :=
  if [".yaml", ".yml"].contains (Path.extension path) then
    (Yaml.parse? bytes).bind Yaml.settings.manifest
  else (Toml.parse? bytes).bind fun fields => Toml.settings.manifest (.table fields)

def ofFile (workingFolder path : String) (bytes : Bytes) : Except ManifestError Manifest :=
  match ofBytes? path bytes with
  | none => .error (.malformed path)
  | some m =>
    let place := Path.absolute workingFolder path
    let m := { m.withDefaults with path := place, folder := Path.folder place }
    match m.fault? with
    | some fault => .error (.faulty path fault)
    | none => .ok m

section

variable {m : Type → Type} [Monad m] [FileSystem m]

def loadFile (path : String) : m (Except ManifestError Manifest) := do
  match ← readFile path with
  | .error e => return .error (.unreadable path e)
  | .ok bytes => return ofFile (← workingFolder) path bytes

def loadFirst (folder : String) : (names : List String) → m (Except ManifestError Manifest)
  | [] => return .error (.absent folder)
  | name :: rest => do
    let path := Path.join folder name
    match ← inspect path with
    | .ok _ => loadFile path
    | .error _ => loadFirst folder rest

def load (folder : String) : m (Except ManifestError Manifest) :=
  loadFirst folder fileNames

/-- Loads the manifest of a folder, or of the nearest one above it that has one. The fuel counts the
folders.
-/
def findFrom : (fuel : Nat) → (folder : String) → m (Except ManifestError (Option Manifest))
  | 0, _ => return .ok none
  | fuel + 1, folder => do
    match ← load folder with
    | .ok found => return .ok (some found)
    | .error e =>
      let above := Path.folder folder
      if !e.isNotFound then return .error e
      else if above = folder then return .ok none
      else findFrom fuel above

def find (folder : String) : m (Except ManifestError (Option Manifest)) := do
  let start := Path.absolute (← workingFolder) folder
  findFrom (start.length + 1) start

end

end Manifest

end MapAlgebra
