import MapAlgebra.Binding
import MapAlgebra.Files.Path
import MapAlgebra.Text.Lower

/-! Manifests: the settings of a project, which name its script, its images and the way to run
it.
-/

namespace MapAlgebra

namespace ImageRole

/-- The role that a word stands for, in capitals or not. No word at all means a source. -/
def ofName? (word : String) : Option ImageRole :=
  let word := Text.lower word
  if ["source", "src", ""].contains word then some source
  else if ["destination", "dest", "dst"].contains word then some destination
  else if ["both", "source+destination"].contains word then some both
  else none

def unknownName (word : String) : String := "unknown role " ++ Text.quote word

end ImageRole

structure ProjectInfo where
  name : String := ""
  version : String := ""
deriving DecidableEq

structure ScriptSettings where
  path : String := ""
  strategy : String := ""
deriving DecidableEq

/-- The settings of a run. A text that is empty and a number that is zero leave the choice open. -/
structure RunSettings where
  tileWidth : Int := 0
  tileHeight : Int := 0
  outside : Option Sample := none
  loopLimit : Int := 0
  journal : String := ""
  events : String := ""
deriving DecidableEq

/-- An image of a project. One that is read and written is read at its path and written at its
output.
-/
structure ImageEntry where
  name : String := ""
  role : String := ""
  path : String := ""
  output : String := ""
  width : Int := 0
  height : Int := 0
  bands : Int := 0
deriving DecidableEq

/-- The settings of a project, and the file that they come from with its folder. -/
structure Manifest where
  project : ProjectInfo := {}
  script : ScriptSettings := {}
  run : RunSettings := {}
  /-- The images in the order in which the script is bound to them. -/
  images : List ImageEntry := []
  folder : String := ""
  path : String := ""
deriving DecidableEq

inductive ManifestFault where
  /-- The image at a place, counted from one, has no name. -/
  | unnamed (place : Nat)
  | listedTwice (name : String)
  | unknownRole (name word : String)
  | noPath (name : String)
  | negativeShape (name : String)
  | negativeTile (width height : Int)
deriving DecidableEq

def ManifestFault.message : ManifestFault → String
  | unnamed place => s!"image {place} has no name"
  | listedTwice name => s!"image {Text.quote name} listed twice"
  | unknownRole name word => s!"image {Text.quote name}: {ImageRole.unknownName word}"
  | noPath name => s!"image {Text.quote name} has no path"
  | negativeShape name => s!"image {Text.quote name}: negative shape"
  | negativeTile width height => s!"negative tile size {width}x{height}"

namespace ImageEntry

def fault? (e : ImageEntry) (place : Nat) (seen : List String) : Option ManifestFault :=
  if e.name = "" then some (.unnamed place)
  else if seen.contains e.name then some (.listedTwice e.name)
  else if (ImageRole.ofName? e.role).isNone then some (.unknownRole e.name e.role)
  else if e.path = "" then some (.noPath e.name)
  else if e.width < 0 ∨ e.height < 0 ∨ e.bands < 0 then some (.negativeShape e.name)
  else none

def firstFault? : (seen : List String) → List ImageEntry → Option ManifestFault
  | _, [] => none
  | seen, e :: rest =>
    match e.fault? (seen.length + 1) seen with
    | some fault => some fault
    | none => firstFault? (e.name :: seen) rest

end ImageEntry

namespace Manifest

def fault? (m : Manifest) : Option ManifestFault :=
  match ImageEntry.firstFault? [] m.images with
  | some fault => some fault
  | none =>
    if m.run.tileWidth < 0 ∨ m.run.tileHeight < 0 then
      some (.negativeTile m.run.tileWidth m.run.tileHeight)
    else none

/-- The script is called main and runs as bytecode unless a manifest says otherwise. -/
def withDefaults (m : Manifest) : Manifest :=
  { m with script :=
    { path := if m.script.path = "" then "main.ras" else m.script.path
      strategy := if m.script.strategy = "" then "bytecode" else m.script.strategy } }

def located (m : Manifest) (path : String) : String :=
  if Path.isAbsolute path then path else Path.join m.folder path

def scriptPath (m : Manifest) : String := m.located m.script.path

def journalPath (m : Manifest) : String :=
  if m.run.journal = "" then "" else m.located m.run.journal

def eventsPath (m : Manifest) : String :=
  if m.run.events = "" then "" else m.located m.run.events

def bindings (m : Manifest) : Except ManifestFault Bindings :=
  m.images.mapM fun e =>
    match ImageRole.ofName? e.role with
    | some role => .ok { name := e.name, role }
    | none => .error (.unknownRole e.name e.role)

end Manifest

end MapAlgebra
