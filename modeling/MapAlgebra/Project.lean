import MapAlgebra.Function.Standard
import MapAlgebra.Journal.File
import MapAlgebra.Journal.Stream
import MapAlgebra.Manifest.Resolve
import MapAlgebra.Picture.File

/-! Projects: running the script of a manifest over its images. Sources are read before the job
starts and destinations are written once it has completed; on the way the journal and the event
stream are told what happens.
-/

namespace MapAlgebra

/-- What a caller wants, besides or instead of what the manifest says. -/
structure RunChoices where
  strategy : Option Strategy := none
  registry : Registry := .standard
  tile : Option TileSize := none
  outside : Option Sample := none
  loopLimit : Option Int := none
  calls : CallCounts := .empty

structure Occasion where
  id : JobId
  time : Int
  signal : Job.StopSignal
  fuel : Nat

inductive ProjectError where
  | unknownStrategy (path word : String)
  | script (error : FileError)
  | bindings (error : BindingError)
  | resolve (error : ResolveError)
  | source (name : String) (error : ImageFileError)
  /-- A destination has no size, and there is no source to take it from. -/
  | shapeless (name : String)
  | folder (error : FileError)
  | journal (error : JournalFileError)
  | stream (error : FileError)
  | job (ending : Job.Ending)
  | output (error : ImageFileError)
  /-- A raster is too large to be made. -/
  | crashed

structure ProjectRun where
  job : Job
  events : List Event
  /-- The files that were written, by the names of images. -/
  outputs : List (String × String)
  error : Option ProjectError

namespace Manifest

def request (m : Manifest) (choices : RunChoices) (strategy : Strategy) (source : Bytes)
    (bindings : Bindings) : ScriptRequest where
  source := source
  bindings := bindings
  registry := choices.registry
  strategy := choices.strategy.getD strategy
  sources := []
  destinations := []
  options := {
    outside := choices.outside <|> m.run.outside
    loopLimit := choices.loopLimit.getD m.run.loopLimit }
  calls := choices.calls

def tile (m : Manifest) (choices : RunChoices) : TileSize :=
  choices.tile.getD { width := m.run.tileWidth, height := m.run.tileHeight }

end Manifest

namespace ResolvedImage

/-- The raster that a destination starts as: a copy of its own source, or zeros in the shape
that the manifest gives or, if that lacks a side, in the size of the first source.
-/
def blank (image : ResolvedImage) (sources : List (String × Raster)) : Except ProjectError Raster :=
  match sources.lookup image.name with
  | some own => (own.copy.map Except.ok).getD (.error .crashed)
  | none =>
    let e := image.entry
    let (width, height) :=
      match sources with
      | (_, first) :: _ =>
        if e.width = 0 ∨ e.height = 0 then (first.bounds.width, first.bounds.height)
        else (e.width, e.height)
      | [] => (e.width, e.height)
    if width = 0 ∨ height = 0 then .error (.shapeless image.name)
    else
      (Raster.create (.ofSize width height) (if e.bands = 0 then 1 else e.bands)).mapError fun _ =>
        .crashed

def blanks (images : List ResolvedImage) (sources : List (String × Raster))
    : Except ProjectError (List (String × Raster)) :=
  (images.filter (·.output ≠ "")).mapM fun image => do return (image.name, ← image.blank sources)

end ResolvedImage

namespace Project

variable {m : Type → Type} [Monad m] [FileSystem m]

def attempt {α ε : Type} (meaning : ε → ProjectError) (step : m (Except ε α))
    : ExceptT ProjectError m α :=
  ExceptT.mk (do return (← step).mapError meaning)

def readSources : List ResolvedImage → ExceptT ProjectError m (List (String × Raster))
  | [] => return []
  | image :: rest => do
    if image.input = "" then readSources rest
    else
      let raster ← attempt (.source image.name)
        (readImageFile image.input image.entry.width image.entry.height)
      return (image.name, raster) :: (← readSources rest)

def writeOutputs (rasters : NamedRasters)
    : List ResolvedImage → m (List (String × String) × Option ProjectError)
  | [] => return ([], none)
  | image :: rest => do
    match if image.output = "" then none else (rasters.lookup image.name).join with
    | none => writeOutputs rasters rest
    | some raster =>
      match ← writeImageFile image.output raster with
      | .error e => return ([], some (.output e))
      | .ok _ =>
        let (written, error) ← writeOutputs rasters rest
        return ((image.name, image.output) :: written, error)

def openJournal (manifest : Manifest) : ExceptT ProjectError m (Option Journal) := do
  let path := manifest.journalPath
  if path = "" then return none
  attempt .folder (makeFolders (Path.folder path))
  return some (← attempt .journal (Journal.openFile path))

def openStream (manifest : Manifest) : ExceptT ProjectError m (Option StreamWriter) := do
  let path := manifest.eventsPath
  if path = "" then return none
  attempt .folder (makeFolders (Path.folder path))
  attempt .stream (writeFile path [])
  return some (.create none)

/-- Tells the events of a job to the journal and to the event stream, and keeps what they wrote.
What cannot be kept is lost, and nothing else.
-/
def tell (manifest : Manifest) (journal : Option Journal) (stream : Option StreamWriter)
    (occasion : Occasion) (events : List Event) : m Unit := do
  let notices := events.map (·.notice occasion.id)
  if let some journal := journal then
    discard (Journal.save manifest.journalPath
      (notices.foldl (fun j n => j.hear n occasion.time) journal))
  if let some stream := stream then
    discard (writeFile manifest.eventsPath
      (notices.foldl (fun w n => w.hear n occasion.time) stream).written)

def run (manifest : Manifest) (choices : RunChoices) (occasion : Occasion)
    : ExceptT ProjectError m ProjectRun := do
  let some strategy := Strategy.ofName? manifest.script.strategy
    | throw (.unknownStrategy manifest.path manifest.script.strategy)
  let source ← attempt .script (readFile manifest.scriptPath)
  let bindings ← attempt (fun fault => .resolve (.fault fault)) (pure manifest.bindings)
  if let some error := bindings.error? then throw (.bindings error)
  let images ← attempt .resolve manifest.resolve
  let sources ← readSources images
  let blanks ← attempt id (pure (ResolvedImage.blanks images sources))
  let journal ← openJournal manifest
  let stream ← openStream manifest
  let named (rasters : List (String × Raster)) : NamedRasters :=
    rasters.map fun (name, raster) => (name, some raster)
  let request := { manifest.request choices strategy source bindings with
    sources := named sources, destinations := named blanks }
  let e := (Job.ofScript occasion.id request).execute (manifest.tile choices) occasion.signal
    occasion.fuel
  ExceptT.lift (tell manifest journal stream occasion e.events)
  match e.ending with
  | .completed =>
    let (outputs, error) ←
      ExceptT.lift (writeOutputs (e.job.destinations (named blanks)) images)
    return { job := e.job, events := e.events, outputs, error }
  | ending =>
    return { job := e.job, events := e.events, outputs := [], error := some (.job ending) }

end Project

end MapAlgebra
