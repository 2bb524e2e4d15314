import MapAlgebra.Manifest
import MapAlgebra.Manifest.Toml
import MapAlgebra.Manifest.Yaml

/-! How a manifest is taken from settings in any of their notations. What is not asked for is not
looked at, and a value of the wrong kind makes all settings useless.
-/

namespace MapAlgebra

/-- How the values of a notation are taken apart. -/
structure SettingsReader (α : Type) where
  isAbsent : α → Bool
  /-- The field with a name, if the value has named fields. -/
  field? : (name : String) → α → Option (Option α)
  items? : α → Option (List α)
  text? : α → Option String
  whole? : α → Option Int
  sample? : α → Option Sample

namespace SettingsReader

variable {α : Type} (r : SettingsReader α)

def given? (name : String) (v : α) : Option (Option α) :=
  (r.field? name v).map fun found => found.filter (!r.isAbsent ·)

def take {β : Type} (kind : α → Option β) (otherwise : β) (name : String) (v : α) : Option β := do
  match ← r.given? name v with
  | some inside => kind inside
  | none => some otherwise

def textOf : String → α → Option String := r.take r.text? ""

def wholeOf : String → α → Option Int := r.take r.whole? 0

def project (v : α) : Option ProjectInfo := do
  return { name := ← r.textOf "name" v, version := ← r.textOf "version" v }

def script (v : α) : Option ScriptSettings := do
  return { path := ← r.textOf "path" v, strategy := ← r.textOf "strategy" v }

def run (v : α) : Option RunSettings := do
  return {
    tileWidth := ← r.wholeOf "tile-width" v
    tileHeight := ← r.wholeOf "tile-height" v
    outside := ← r.take (fun s => (r.sample? s).map some) none "outside" v
    loopLimit := ← r.wholeOf "max-loop-iterations" v
    journal := ← r.textOf "journal" v
    events := ← r.textOf "events" v }

def image (v : α) : Option ImageEntry := do
  return {
    name := ← r.textOf "name" v
    role := ← r.textOf "role" v
    path := ← r.textOf "path" v
    output := ← r.textOf "output" v
    width := ← r.wholeOf "width" v
    height := ← r.wholeOf "height" v
    bands := ← r.wholeOf "bands" v }

def images (v : α) : Option (List ImageEntry) := do
  ((← r.items? v).filter (!r.isAbsent ·)).mapM r.image

def manifest (v : α) : Option Manifest :=
  if r.isAbsent v then some {}
  else do
    return {
      project := ← r.take r.project {} "project" v
      script := ← r.take r.script {} "script" v
      run := ← r.take r.run {} "run" v
      images := ← r.take r.images [] "images" v }

end SettingsReader

namespace Toml

/-- Letters that differ only in case count as the same in the names of fields. -/
def foldCase (name : String) : String :=
  (Text.lower name).map fun c => if c.toNat = 0x17F then 's' else c

def fieldNamed? (name : String) (fields : Fields) : Option Toml :=
  (fields.lookup name).or ((fields.find? (foldCase ·.1 = foldCase name)).map (·.2))

def exactLimit : Int := 2 ^ 53 - 1

/-- Every value is of one kind. Whole numbers can be samples as long as they are exact. -/
def settings : SettingsReader Toml where
  isAbsent _ := false
  field? name
    | .table fields => some (fieldNamed? name fields)
    | _ => none
  items?
    | .array items => some items
    | .tables rows => some (rows.map .table)
    | _ => none
  text?
    | .text s => some s
    | _ => none
  whole?
    | .int n => some n
    | _ => none
  sample?
    | .float s => some s
    | .int n => if -exactLimit ≤ n ∧ n ≤ exactLimit then some (.ofInt n) else none
    | _ => none

end Toml

namespace Yaml

def keyTexts? (fields : List (Yaml × Yaml)) : Option (List String) :=
  fields.mapM fun (k, _) =>
    match k with
    | .scalar text _ => some text
    | _ => none

def isAbsent : Yaml → Bool
  | .scalar text plain => plain && meaning text == .nothing
  | _ => false

/-- A text without quotes is taken for what it is asked for; the keys of a mapping must differ. -/
def settings : SettingsReader Yaml where
  isAbsent := isAbsent
  field? name
    | .mapping fields => do
      let names ← keyTexts? fields
      if names.Nodup then
        some ((fields.find? fun (k, _) =>
          match k with
          | .scalar text _ => text = name
          | _ => false).map (·.2))
      else none
    | _ => none
  items?
    | .sequence items => some items
    | _ => none
  text?
    | .scalar text _ => some text
    | _ => none
  whole?
    | .scalar text true =>
      match meaning text with
      | .whole n => if n < 2 ^ 63 then some n else none
      | .number s => truncated? s
      | _ => none
    | _ => none
  sample?
    | .scalar text true =>
      match meaning text with
      | .whole n => some (.ofInt n)
      | .number s => some s
      | _ => none
    | _ => none

end Yaml

end MapAlgebra
