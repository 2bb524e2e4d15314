import MapAlgebra.Event
import MapAlgebra.Sweep

/-! Jobs: one run of a scene over its destinations, and what happens on the way. -/

namespace MapAlgebra

inductive JobState where
  | created
  | compiled
  | running
  | completed
  | failed
  | other (number : Int)
deriving DecidableEq

namespace JobState

def ofNumber : Int → JobState
  | 0 => created
  | 1 => compiled
  | 2 => running
  | 3 => completed
  | 4 => failed
  | n => other n

def name : JobState → String
  | created => "created"
  | compiled => "compiled"
  | running => "running"
  | completed => "completed"
  | failed => "failed"
  | other n => s!"State({n})"

def isTerminal : JobState → Bool
  | completed | failed => true
  | _ => false

end JobState

abbrev NamedRasters := List (String × Option Raster)

structure EvalOptions where
  outside : Option Sample
  loopLimit : Int

/-- A script that is still to be compiled and bound. -/
structure ScriptRequest where
  source : Bytes
  bindings : Bindings
  registry : Registry
  strategy : Strategy
  sources : NamedRasters
  destinations : NamedRasters
  options : EvalOptions
  calls : CallCounts

structure Job where
  id : JobId
  state : JobState
  progress : Sample
  failure : Option Failure
  scene : Option Scene
  claimed : Bool
  request : Option ScriptRequest
  /-- What compiling reported, if it got so far. -/
  problems : Option Problems

namespace Job

def ofScene (id : JobId) (scene : Option Scene) : Job :=
  { id, state := .compiled, progress := .zero, failure := none, scene, claimed := false
    request := none, problems := none }

def ofScript (id : JobId) (request : ScriptRequest) : Job :=
  { id, state := .created, progress := .zero, failure := none, scene := none, claimed := false
    request := some request, problems := none }

def startedMessage (job : Job) : String :=
  s!"job already started: job {job.id.render} is {job.state.name}"

def bindImage (request : ScriptRequest) (scene : Scene) (b : Binding)
    : Except ImageFault Scene := do
  let mut scene := scene
  if b.role.isSource then
    if let some raster := request.sources.lookup b.name then
      scene ← scene.bindSource b.name raster
  if b.role.isDestination then
    if let some raster := request.destinations.lookup b.name then
      scene ← scene.bindDestination b.name raster
  return scene

def ScriptRequest.scene (request : ScriptRequest) (program : Executable)
    : Except ImageFault Scene :=
  let scene := Scene.create program request.calls
  let scene :=
    match request.options.outside with
    | some v => scene.withOutside v
    | none => scene
  request.bindings.foldlM (bindImage request) (scene.withLoopLimit request.options.loopLimit)

/-- Compiles and binds a job that starts from a script. What was found out stays when that fails. -/
def prepare (job : Job) : Except Failure Unit × Job :=
  match job.state, job.request with
  | .created, some request =>
    match compile request.source request.bindings request.registry request.strategy with
    | .error error => (.error (.compile error), { job with problems := error.problems? })
    | .ok compiled =>
      let job := { job with problems := some compiled.problems }
      match ScriptRequest.scene request compiled.program with
      | .error fault => (.error (.images [fault]), job)
      | .ok scene => (.ok (), { job with scene := some scene, state := .compiled })
  | _, _ => (.ok (), job)

inductive Ending where
  | completed
  | failed (cause : Failure)
  /-- The code is broken, or there was no scene to run. -/
  | crashed
  /-- The fuel did not suffice. -/
  | unfinished

def Ending.ofStop : Stop → Ending
  | .error e => .failed (.evaluation e)
  | .crash => .crashed
  | .unfinished => .unfinished

/-- How a sweep went: the state it left, the last fraction, the events and the end. -/
structure Swept where
  env : Env
  progress : Sample
  events : List Event
  ending : Ending

abbrev StopSignal := Nat → Option Cancellation

/-- Goes through the stretches of a sweep, asking before each whether to stop and telling the
progress after it.
-/
def sweep (program : Executable) (fuel : Nat) (signal : StopSignal) (total : Int)
    : (asked : Nat) → (done : Int) → (progress : Sample) → Env → List Sweep.Stretch → Swept
  | _, _, progress, env, [] => { env, progress, events := [], ending := .completed }
  | asked, done, progress, env, stretch :: rest =>
    match signal asked with
    | some reason =>
      { env, progress, events := [], ending := .failed (.cancelled reason) }
    | none =>
      match (Sweep.evaluateAll program fuel stretch.places).run env with
      | .error stop env => { env, progress, events := [], ending := .ofStop stop }
      | .ok _ env =>
        let done := wrap (done + stretch.pixels)
        let fraction := Sweep.fraction done total
        let swept := sweep program fuel signal total (asked + 1) done fraction env rest
        { swept with events := .progress fraction :: swept.events }

structure Execution where
  job : Job
  events : List Event
  ending : Ending

def Execution.early (job : Job) (ending : Ending) : Execution :=
  { job, events := [], ending }

/-- Runs a scene: checks that everything is bound, runs the init block and sweeps over the
destinations.
-/
def process (job : Job) (tile : TileSize) (signal : StopSignal) (fuel : Nat) : Execution :=
  match job.scene with
  | none => .early job .crashed
  | some scene =>
    match scene.unbound with
    | fault :: more => .early job (.failed (.images (fault :: more)))
    | [] =>
      let (started, scene) := scene.start fuel
      let job := { job with scene := some scene }
      match started with
      | .error stop => .early job (.ofStop stop)
      | .ok _ =>
        let passes := Sweep.plan scene tile
        let total := Sweep.total passes
        let swept :=
          sweep scene.program fuel signal total 0 0 job.progress scene.env (Sweep.stretches passes)
        let job :=
          { job with progress := swept.progress, scene := some { scene with env := swept.env } }
        let last : List Event :=
          match swept.ending with
          | .completed => if total = 0 then [.progress .one] else []
          | _ => []
        { job, events := .progress .zero :: swept.events ++ last, ending := swept.ending }

def Execution.finish (e : Execution) : Execution :=
  match e.ending with
  | .completed =>
    { e with
      job := { e.job with state := .completed, progress := .one, failure := none }
      events := e.events ++ [.completion] }
  | .failed cause =>
    { e with
      job := { e.job with state := .failed, failure := some cause }
      events := e.events ++ [.failure cause] }
  | .crashed | .unfinished => e

def execute (job : Job) (tile : TileSize) (signal : StopSignal) (fuel : Nat) : Execution :=
  let (prepared, job) := prepare { job with claimed := true }
  match prepared with
  | .error cause => (Execution.early job (.failed cause)).finish
  | .ok _ => (process { job with state := .running } tile signal fuel).finish

def run (job : Job) (tile : TileSize) (signal : StopSignal) (fuel : Nat)
    : Except String Execution :=
  if job.claimed then .error job.startedMessage else .ok (job.execute tile signal fuel)

def destinations (job : Job) (given : NamedRasters) : NamedRasters :=
  given.map fun (name, raster) =>
    (name, (job.scene.bind (·.destination? name)) <|> raster)

end Job

/-- The bindings of rasters by name: the sources, then what is only a destination, each in the
order of the names. A name on both sides is bound both ways.
-/
def Bindings.ofRasters (sources destinations : NamedRasters) : Bindings :=
  let sorted (rasters : NamedRasters) : List String :=
    (rasters.map (·.1)).mergeSort fun a b => a ≤ b
  let has (rasters : NamedRasters) (name : String) : Bool := rasters.any (·.1 == name)
  ((sorted sources).map fun name =>
      { name, role := if has destinations name then .both else .source })
    ++ ((sorted destinations).filter fun name => !has sources name).map fun name =>
      { name, role := .destination }

end MapAlgebra
