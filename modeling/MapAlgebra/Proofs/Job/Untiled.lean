import MapAlgebra.Job
import MapAlgebra.Proofs.Sweep.Tiling

/-! Jobs without tile preferences. Whether a job can be prepared, and what it then runs, does not depend
on the tile sizes that its rasters prefer.
-/

namespace MapAlgebra

open List
open Option
open Scene

namespace Scene

/-- A scene whose rasters prefer no tile size. -/
def untiled (scene : Scene) : Scene :=
  { scene with env := { scene.env with images := scene.env.images.map ImageSlot.untiled } }

variable {scene scene' : Scene}

theorem slot?_untiled (scene : Scene) (name)
    : scene.untiled.slot? name = (scene.slot? name).map fun found => (found.1, found.2.untiled) := by
  simp only [slot?, untiled, Array.getElem?_map, bind_eq_bind]
  cases scene.program.imageIndex? name with
  | none => rfl
  | some i =>
    simp only [bind_some]
    cases scene.env.images[i]? <;> rfl

theorem leading?_untiled (scene : Scene)
    : scene.untiled.leading? = scene.leading?.map Raster.untiled := by
  simp only [leading?, untiled, Array.getElem?_map]
  split <;> simp [map_bind, bind_map, Function.comp_def, ImageSlot.untiled]

theorem untiled_measured (scene : Scene) : scene.measured.untiled = scene.untiled.measured := by
  simp only [measured, leading?_untiled]
  cases scene.leading? <;> rfl

/-- A scene in which a slot was filled is measured alike. -/
theorem measured_untiled (scene : Scene) (i : Nat) (slot : ImageSlot)
    (firstSource firstDestination : Option Nat)
    : { scene.untiled.withSlot i slot.untiled with firstSource, firstDestination : Scene }.measured
      = { scene.withSlot i slot with firstSource, firstDestination : Scene }.measured.untiled := by
  rw [untiled_measured]
  simp only [untiled, withSlot, Array.map_setIfInBounds]

theorem untiled_create (program calls) : (create program calls).untiled = create program calls := by
  simp [create, untiled, ImageSlot.untiled]

/-- Binding a raster to read from does not depend on what rasters prefer. -/
theorem bindSource_untiled (scene : Scene) (name : String) (raster : Option Raster)
    : scene.untiled.bindSource name (raster.map Raster.untiled)
      = (scene.bindSource name raster).map untiled := by
  simp only [bindSource, slot?_untiled]
  cases scene.slot? name with
  | none => rfl
  | some found =>
    obtain ⟨i, slot⟩ := found
    simp only [map_some, show slot.untiled.role = slot.role from rfl]
    split
    · rfl
    · cases raster with
      | none => rfl
      | some r =>
        exact congrArg Except.ok (measured_untiled scene i { slot with source := some r } _ _)

theorem bindDestination_untiled (scene : Scene) (name raster)
    : scene.untiled.bindDestination name (raster.map Raster.untiled)
      = (scene.bindDestination name raster).map untiled := by
  simp only [bindDestination, slot?_untiled]
  cases scene.slot? name with
  | none => rfl
  | some found =>
    obtain ⟨i, slot⟩ := found
    simp only [map_some, show slot.untiled.role = slot.role from rfl]
    split
    · rfl
    · cases raster with
      | none => rfl
      | some r =>
        exact congrArg Except.ok (measured_untiled scene i { slot with destination := some r } _ _)

theorem destination?_untiled (scene : Scene) (name)
    : scene.untiled.destination? name = (scene.destination? name).map Raster.untiled := by
  simp only [destination?, slot?_untiled, bind_eq_bind, map_bind, bind_map]
  rfl

theorem unbound_untiled (scene : Scene) : scene.untiled.unbound = scene.unbound := by
  have each (slot : ImageSlot) : missing slot.untiled = missing slot := by
    simp [missing, ImageSlot.untiled]
  simp only [unbound, untiled, Array.toList_map, flatMap_map, each]

end Scene

theorem Sweep.targets_untiled (scene : Scene)
    : targets scene.untiled = (targets scene).map fun (name, r) => (name, r.untiled) := by
  simp only [targets, destination?_untiled, map_filterMap, Option.map_map]
  rfl

/-- Named rasters that prefer no tile size. -/
def NamedRasters.untiled (rasters : NamedRasters) : NamedRasters :=
  rasters.map fun (name, raster) => (name, raster.map Raster.untiled)

theorem NamedRasters.lookup_untiled (rasters : NamedRasters) (name)
    : List.lookup name rasters.untiled = (List.lookup name rasters).map (·.map Raster.untiled) := by
  induction rasters with
  | nil => rfl
  | cons entry rest ih =>
    obtain ⟨name', raster⟩ := entry
    simp only [untiled, map_cons, lookup_cons]
    cases name == name' with
    | true => rfl
    | false => exact ih

/-- A request whose rasters prefer no tile size. -/
def ScriptRequest.untiled (request : ScriptRequest) : ScriptRequest :=
  { request with
    sources := request.sources.untiled
    destinations := request.destinations.untiled }

namespace Job

variable {request : ScriptRequest} {job : Job}

theorem bind_untiled {m} {next next' : Scene → Except ImageFault Scene}
    (continues : ∀ scene, next' scene.untiled = (next scene).map untiled)
    : (m.map untiled >>= next') = (m >>= next).map untiled := by
  cases m with
  | error fault => rfl
  | ok scene => exact continues scene

theorem bindIfWritten_untiled (request : ScriptRequest) (b : Binding) (scene)
    : (if b.role.isDestination = true then
        match (List.lookup b.name request.destinations).map (·.map Raster.untiled) with
        | some raster => scene.untiled.bindDestination b.name raster
        | _ => pure scene.untiled
      else pure scene.untiled)
      = Except.map untiled
        (if b.role.isDestination = true then
          match List.lookup b.name request.destinations with
          | some raster => scene.bindDestination b.name raster
          | _ => pure scene
        else pure scene) := by
  split
  · cases List.lookup b.name request.destinations with
    | none => rfl
    | some raster => exact bindDestination_untiled scene b.name raster
  · rfl

theorem bindImage_untiled (request : ScriptRequest) (scene : Scene) (b)
    : bindImage request.untiled scene.untiled b = (bindImage request scene b).map untiled := by
  simp only [bindImage, ScriptRequest.untiled, NamedRasters.lookup_untiled, bind_pure]
  have writes := bindIfWritten_untiled request b
  split
  · cases List.lookup b.name request.sources with
    | none => exact writes scene
    | some raster =>
      simp only [map_some, bindSource_untiled]
      exact bind_untiled writes
  · exact writes scene

theorem foldlM_bindImage_untiled (request) (bindings : Bindings) (scene)
    : bindings.foldlM (bindImage request.untiled) scene.untiled
      = (bindings.foldlM (bindImage request) scene).map untiled := by
  induction bindings generalizing scene with
  | nil => rfl
  | cons b rest ih =>
    simp only [foldlM_cons, bindImage_untiled]
    exact bind_untiled ih

theorem scene_untiled (request) (program : Executable)
    : ScriptRequest.scene request.untiled program
      = (ScriptRequest.scene request program).map untiled := by
  have bare (scene : Scene) (empty : scene.untiled = scene) (limit : Int)
      : (scene.withLoopLimit limit).untiled = scene.withLoopLimit limit :=
    congrArg (withLoopLimit · limit) empty
  have created := untiled_create program request.calls
  unfold ScriptRequest.scene
  rw [← foldlM_bindImage_untiled]
  refine congrArg (request.bindings.foldlM (bindImage request.untiled)) (bare _ ?_ _).symm
  rw [show request.untiled.options = request.options from rfl]
  cases request.options.outside with
  | none => exact created
  | some v => exact congrArg (withOutside · v) created

/-- A job whose rasters prefer no tile size. -/
def untiled (job : Job) : Job :=
  { job with
    scene := job.scene.map Scene.untiled
    request := job.request.map ScriptRequest.untiled }

/-- Whether a job can be prepared does not depend on what its rasters prefer. -/
theorem prepare_untiled (job : Job)
    : prepare job.untiled = ((prepare job).1, (prepare job).2.untiled) := by
  obtain ⟨id, state, progress, failure, scene, claimed, request, problems⟩ := job
  cases request with
  | none => cases state <;> rfl
  | some request =>
    cases state
    case created =>
      simp only [prepare, untiled, map_some, scene_untiled]
      simp only [ScriptRequest.untiled]
      cases compile request.source request.bindings request.registry request.strategy with
      | error error => rfl
      | ok compiled =>
        simp only
        cases ScriptRequest.scene request compiled.program with
        | error fault => rfl
        | ok scene => rfl
    all_goals rfl

end Job

end MapAlgebra
