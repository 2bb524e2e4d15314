import MapAlgebra.Job
import MapAlgebra.Proofs.Scene.Safety
import MapAlgebra.Proofs.Sweep.Passes

/-! A job evaluates everything that its destinations have exactly once, unless one of them is cut into
more tiles than a word counts.
-/

namespace MapAlgebra

open List
open Sweep

/-- A raster without its samples. -/
def Raster.blank (r : Raster) : Raster :=
  { r with samples := #[] }

theorem Raster.SameShape.blank_eq {r r' : Raster} (same : r.SameShape r') : r'.blank = r.blank := by
  simp only [blank, same.bounds, same.bands, same.tile]

theorem ImageSlot.SameShape.map_blank {slot slot' : ImageSlot} (same : slot.SameShape slot')
    : slot'.destination.map Raster.blank = slot.destination.map Raster.blank := by
  cases after : slot'.destination with
  | none =>
    have before : slot.destination = none := by
      have bound := same.bound
      rw [after] at bound
      exact Option.isNone_iff_eq_none.mp (Option.isSome_eq_false_iff.mp bound.symm)
    rw [before]
  | some r' =>
    obtain ⟨r, before, shape⟩ := same.destination r' after
    rw [before, Option.map_some, Option.map_some, shape.blank_eq]

theorem Scene.program_start (scene : Scene) (fuel)
    : (scene.start fuel).2.program = scene.program := by
  obtain ⟨env', left, -⟩ := scene.start_sameShape fuel
  rw [left]

namespace Sweep

variable {forced tile : TileSize} {covered : List Coverage} {scene : Scene}

/-- No plan depends on samples, by induction on the rasters. -/
theorem planAfter_blank (rasters : List (String × Raster))
    : planAfter forced covered (rasters.map fun (image, r) => (image, r.blank))
      = planAfter forced covered rasters := by
  induction rasters generalizing covered with
  | nil => rfl
  | cons t rasters ih => exact congrArg (List.cons _) ih

/-- States with the same shape have the same destinations apart from the samples. -/
theorem destination?_blank (scene : Scene) {env env' : Env} (same : env.SameShape env') (name : String)
    : (Scene.destination? { scene with env := env' } name).map Raster.blank
      = (Scene.destination? { scene with env } name).map Raster.blank := by
  simp only [Scene.destination?, Scene.slot?, Option.bind_eq_bind, Option.pure_def]
  cases scene.program.imageIndex? name with
  | none => rfl
  | some i =>
    rw [Option.bind_some, Option.bind_some]
    cases after : env'.images[i]? with
    | none =>
      have outside : env.images[i]? = none := by
        rw [Array.getElem?_eq_none_iff] at after ⊢
        exact same.count ▸ after
      rw [outside]
    | some slot' =>
      obtain ⟨slot, before, shape⟩ := same.images i slot' after
      rw [before]
      exact shape.map_blank

/-- The init block changes nothing that the plan depends on. -/
theorem plan_start (scene : Scene) (fuel : Nat) (forced : TileSize)
    : plan (scene.start fuel).2 forced = plan scene forced := by
  obtain ⟨env', left, same⟩ := scene.start_sameShape fuel
  have blanks : (targets { scene with env := env' }).map (fun (image, r) => (image, r.blank))
      = (targets scene).map fun (image, r) => (image, r.blank) := by
    simp only [targets, map_filterMap, Option.map_map]
    refine filterMap_congr fun name _ => ?_
    have blank := congrArg (Option.map fun r => (name, r)) (destination?_blank scene same name)
    rw [Option.map_map, Option.map_map] at blank
    exact blank
  rw [left, plan, plan, ← planAfter_blank, blanks, planAfter_blank]

/-- Places one after the other are evaluated in parts, by induction on the first part. -/
theorem evaluateAll_append (program : Executable) (fuel : Nat) (places more : List (Int × Int × Int))
    : evaluateAll program fuel (places ++ more)
      = (do evaluateAll program fuel places; evaluateAll program fuel more) := by
  induction places with
  | nil => rfl
  | cons place places ih =>
    obtain ⟨x, y, band⟩ := place
    simp only [cons_append, evaluateAll, ih, bind_assoc]

end Sweep

namespace Job

/-- How a run ends by what its evaluations came to. -/
def Ending.ofResult : EStateM.Result Stop Env Unit → Ending
  | .ok _ _ => .completed
  | .error stop _ => .ofStop stop

variable {signal : StopSignal}

/-- While nothing tells it to stop, a sweep evaluates the places of its stretches in order, by
induction on the stretches.
-/
theorem sweep_live (live : ∀ n, signal n = none) (program : Executable) (fuel : Nat) (total : Int)
    (asked : Nat) (done : Int) (progress : Sample) (env : Env) (stretches : List Stretch)
    : let swept := sweep program fuel signal total asked done progress env stretches
      let ran := (evaluateAll program fuel (stretches.flatMap (·.places))).run env
      swept.env = EvalM.left ran ∧ swept.ending = .ofResult ran := by
  induction stretches generalizing asked done progress env with
  | nil => exact ⟨rfl, rfl⟩
  | cons stretch stretches ih =>
    rw [flatMap_cons, evaluateAll_append, EStateM.run_bind, sweep, live]
    cases (evaluateAll program fuel stretch.places).run env with
    | error stop env' => exact ⟨rfl, rfl⟩
    | ok _ env' => exact ih (asked + 1) _ _ env'

/-- A job whose images are bound and whose init block succeeds evaluates the places of its plan in
order while nothing tells it to stop.
-/
theorem process_live (live : ∀ n, signal n = none) {job : Job} {scene fuel}
    (given : job.scene = some scene) (bound : scene.unbound = [])
    (started : (scene.start fuel).1 = .ok ()) (tile : TileSize)
    : let ran := (Sweep.evaluateAll scene.program fuel (Sweep.calls (Sweep.plan scene tile))).run
        (scene.start fuel).2.env
      (job.process tile signal fuel).ending = .ofResult ran
      ∧ (job.process tile signal fuel).job.scene
        = some { (scene.start fuel).2 with env := EvalM.left ran } := by
  have plan := Sweep.plan_start scene fuel tile
  have program := scene.program_start fuel
  simp only [process, given, bound]
  generalize scene.start fuel = outcome at *
  obtain ⟨result, after⟩ := outcome
  subst started
  rw [plan, program]
  obtain ⟨env, ending⟩ := sweep_live live scene.program fuel (Sweep.total (Sweep.plan scene tile)) 0 0
    job.progress after.env (Sweep.stretches (Sweep.plan scene tile))
  exact ⟨ending, by rw [env]; rfl⟩

end Job

/-- The grid of every pass covers its bounds, which are in order. -/
theorem Sweep.mem_plan {scene tile} (wellFormed : ∀ t ∈ targets scene, t.2.WellFormed)
    (small : ∀ p ∈ plan scene tile, p.grid.InWords) {p} (member : p ∈ plan scene tile)
    : p.grid.Covering ∧ p.grid.bounds.canon = p.grid.bounds ∧ 1 ≤ p.bands := by
  obtain ⟨t, there, bands, grid⟩ := mem_planAfter member
  have inWords := small p member
  rw [grid] at inWords ⊢
  refine ⟨TileGrid.covering_create inWords, ?_, bands ▸ (wellFormed t there).bands⟩
  rw [TileGrid.create_bounds, Rect.canon_canon]

theorem Sweep.missed_eq_nil {scene tile p} (member : p ∈ plan scene tile) (inWords : p.grid.InWords)
    (few : p.grid.columns * p.grid.rows < 2 ^ 63)
    : p.missed = [] := by
  refine Pass.missed_eq_nil_iff.mpr fun x y band taken => ?_
  have inside : p.grid.bounds.contains x y = true := by
    simp only [Pass.takes, Bool.and_eq_true] at taken
    exact taken.1.1
  obtain ⟨t, -, -, grid⟩ := mem_planAfter member
  rw [grid] at inWords few inside ⊢
  exact TileGrid.sweeps_create inWords few (by simpa using inside)

/-- A job evaluates everything that its destinations have exactly once, and the total it plans with is
the number of the pixels it comes to, if the number of tiles of each destination is a word. In general
it does so if its passes miss no pixel, and only then, but it never evaluates anything twice or anything
else; and the total also counts the pixels that are missed.
-/
theorem evaluates_exactlyOnce (scene : Scene) (tile : TileSize)
    (wellFormed : ∀ t ∈ targets scene, t.2.WellFormed)
    (small : ∀ p ∈ plan scene tile, p.grid.InWords)
    : ((∀ p ∈ plan scene tile, p.grid.columns * p.grid.rows < 2 ^ 63)
        → EvaluatesOnce (targets scene) (calls (plan scene tile))
          ∧ total (plan scene tile)
            = wrap (((stretches (plan scene tile)).map (·.pixels)).sum : Nat))
      ∧ (EvaluatesOnce (targets scene) (calls (plan scene tile))
        ↔ ∀ p ∈ plan scene tile, p.missed = [])
      ∧ (∀ x y band, (calls (plan scene tile)).count (x, y, band)
        ≤ if (targets scene).any (·.2.contains x y band) then 1 else 0)
      ∧ total (plan scene tile)
        = wrap (((stretches (plan scene tile)).map (·.pixels)).sum
          + ((plan scene tile).map (·.missed.length)).sum : Nat)
      ∧ ∀ (job : Job) (signal : Job.StopSignal) (fuel : Nat), job.scene = some scene
        → scene.unbound = [] → (scene.start fuel).1 = .ok () → (∀ n, signal n = none)
        → let ran := (evaluateAll scene.program fuel
              (calls (plan scene tile))).run (scene.start fuel).2.env
          (job.process tile signal fuel).ending = .ofResult ran
          ∧ (job.process tile signal fuel).job.scene
            = some { (scene.start fuel).2 with env := EvalM.left ran } := by
  have ordered := fun t there => (wellFormed t there).ordered
  have covering := fun p member => (mem_plan wellFormed small (p := p) member).1
  have once := evaluatesOnce_iff ordered covering
  have total := total_eq fun p => mem_plan wellFormed small (p := p)
  refine ⟨fun few => ?_, once, count_calls_le ordered covering, total, ?_⟩
  · have missed : ∀ p ∈ plan scene tile, p.missed = [] := fun p member =>
      missed_eq_nil member (small p member) (few p member)
    refine ⟨once.mpr missed, ?_⟩
    have lengths : (plan scene tile).map (·.missed.length)
        = (plan scene tile).map fun _ => 0 :=
      map_congr_left fun p member => congrArg List.length (missed p member)
    simpa [lengths] using total
  · intro job signal fuel given bound started live
    exact Job.process_live live given bound started tile

/-- A script that writes two images is compiled, and bound to rasters that overlap and have one band and
two.
-/
def painting.Staged (left right : Raster) (scene : Scene) : Prop :=
  ∃ compiled bound,
    compileScript { source := [], program := painting ["left", "right"] }
        [⟨"left", .destination⟩, ⟨"right", .destination⟩] .empty .bytecode
      = .ok compiled
    ∧ Raster.create (.ofSize 3 2) 1 = .ok left
    ∧ Raster.create (.ofCorners 1 1 4 3) 2 = .ok right
    ∧ (Scene.create compiled.program .empty).bindDestination "left" (some left) = .ok bound
    ∧ bound.bindDestination "right" (some right) = .ok scene

theorem evaluates_exactlyOnce_painting
    : ∃ left right scene, painting.Staged left right scene
      ∧ Sweep.targets scene = [("left", left), ("right", right)]
      ∧ Sweep.EvaluatesOnce (Sweep.targets scene) (Sweep.calls (Sweep.plan scene ⟨2, 2⟩))
      ∧ Sweep.total (Sweep.plan scene ⟨2, 2⟩)
        = wrap (((Sweep.stretches (Sweep.plan scene ⟨2, 2⟩)).map (·.pixels)).sum : Nat)
      ∧ (Job.process (.ofScene ⟨[]⟩ (some scene)) ⟨2, 2⟩ (fun _ => none) 9).ending
        = .ofResult ((Sweep.evaluateAll scene.program 9
            (Sweep.calls (Sweep.plan scene ⟨2, 2⟩))).run (scene.start 9).2.env) := by
  obtain ⟨left, right, scene, here, targets, bound, small, few, started⟩ : ∃ left right scene,
      painting.Staged left right scene
      ∧ Sweep.targets scene = [("left", left), ("right", right)] ∧ scene.unbound = []
      ∧ (∀ p ∈ Sweep.plan scene ⟨2, 2⟩, p.grid.InWords)
      ∧ (∀ p ∈ Sweep.plan scene ⟨2, 2⟩, p.grid.columns * p.grid.rows < 2 ^ 63)
      ∧ (scene.start 9).1 = .ok () :=
    ⟨_, _, _, ⟨_, _, rfl, rfl, rfl, rfl, rfl⟩, rfl, rfl, by decide +kernel, by decide +kernel, rfl⟩
  refine ⟨left, right, scene, here, targets, ?_⟩
  obtain ⟨compiled, first, -, one, two, -, -⟩ := here
  have wellFormed : ∀ t ∈ Sweep.targets scene, t.2.WellFormed := by
    rw [targets]
    simp [Raster.create_wellFormed one, Raster.create_wellFormed two]
  obtain ⟨whole, -, -, -, process⟩ := evaluates_exactlyOnce scene ⟨2, 2⟩ wellFormed small
  obtain ⟨once, total⟩ := whole few
  exact ⟨once, total, (process _ _ 9 rfl bound started fun _ => rfl).1⟩

/-- The number of tiles may be past the words. Then the tiles are swept up to what is left of it: here
none, and the job completes without evaluating anything.
-/
theorem painting_unswept
    : ∃ compiled raster scene,
        (painting ["out"]).OnRaster .bytecode (.ofSize (2 ^ 32) (2 ^ 32)) 1 compiled raster scene
        ∧ (∀ p ∈ plan scene ⟨1, 1⟩, p.grid.InWords)
        ∧ raster.contains 0 0 0 = true
        ∧ calls (plan scene ⟨1, 1⟩) = []
        ∧ ¬ EvaluatesOnce (targets scene) (calls (plan scene ⟨1, 1⟩))
        ∧ (Job.process (.ofScene ⟨[]⟩ (some scene)) ⟨1, 1⟩ (fun _ => none) 9).ending = .completed := by
  refine ⟨_, _, _, ⟨rfl, rfl, rfl⟩, by decide +kernel, rfl, rfl, fun once => ?_, rfl⟩
  exact absurd (once 0 0 0) (by decide +kernel)

end MapAlgebra
