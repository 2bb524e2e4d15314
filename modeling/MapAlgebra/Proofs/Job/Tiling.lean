import MapAlgebra.Proofs.Job.Protocol
import MapAlgebra.Proofs.Job.Untiled

/-! Tile sizes and results. A job over the same rasters completes with every tile size or with none, and
leaves the same samples, unless a number leaves the words or its evaluations depend on each other.
-/

namespace MapAlgebra

open List

/-- A raster whose number of samples is a word. -/
structure Raster.InWords (r : Raster) : Prop extends r.WellFormed where
  count : (r.bounds.maxY - r.bounds.minY) * (r.bounds.maxX - r.bounds.minX) * r.bands < 2 ^ 63

namespace Raster

variable {r r' : Raster}

instance (r : Raster) : Decidable r.InWords :=
  decidable_of_iff
    (r.bounds.canon = r.bounds ∧ 1 ≤ r.bands
      ∧ (r.bounds.maxY - r.bounds.minY) * (r.bounds.maxX - r.bounds.minX) * r.bands < 2 ^ 63)
    ⟨fun ⟨ordered, bands, count⟩ => ⟨⟨ordered, bands⟩, count⟩,
      fun small => ⟨small.ordered, small.bands, small.count⟩⟩

theorem InWords.apart (small : r.InWords) : r.Apart :=
  fun _ _ _ _ _ _ inside inside' same => offset_unique small.count inside inside' same

theorem SameShape.apart (shape : r.SameShape r') (apart : r.Apart) : r'.Apart := by
  intro x y band x' y' band' inside inside' same
  rw [shape.contains_eq] at inside inside'
  rw [shape.offset_eq, shape.offset_eq] at same
  exact apart x y band x' y' band' inside inside' same

/-- A grid has no more tiles than its bounds have pixels. -/
theorem InWords.few_tiles (small : r.InWords) {tile}
    (inWords : (TileGrid.create r.bounds tile).InWords)
    : (TileGrid.create r.bounds tile).columns * (TileGrid.create r.bounds tile).rows < 2 ^ 63 := by
  cases empty : r.bounds.canon.isEmpty with
  | true => simp [TileGrid.create, empty]
  | false =>
    have regular := TileGrid.create_regular inWords empty
    have columns := regular.columns ▸ regular.across.needed_bounds.2.1
    have rows := regular.rows ▸ regular.down.needed_bounds.2.1
    rw [TileGrid.create_bounds, small.ordered] at columns rows
    rw [small.ordered] at empty
    simp only [Rect.isEmpty, Bool.or_eq_false_iff, decide_eq_false_iff_not] at empty
    obtain ⟨w, width⟩ : ∃ w, w = r.bounds.maxX - r.bounds.minX := ⟨_, rfl⟩
    obtain ⟨h, height⟩ : ∃ h, h = r.bounds.maxY - r.bounds.minY := ⟨_, rfl⟩
    have bands := small.bands
    have count := small.count
    rw [← width, ← height] at count
    rw [← width] at columns
    rw [← height] at rows
    calc (TileGrid.create r.bounds tile).columns * (TileGrid.create r.bounds tile).rows
        ≤ w * h :=
          Int.mul_le_mul columns rows (Int.le_of_lt regular.rows_pos) (by omega)
      _ = h * w * 1 := by rw [Int.mul_one, Int.mul_comm]
      _ ≤ h * w * r.bands :=
          Int.mul_le_mul_of_nonneg_left (by omega) (Int.mul_nonneg (by omega) (by omega))
      _ < 2 ^ 63 := count

end Raster

/-- No number that a sweep of a scene comes to leaves the words: neither a number of samples nor a sum
of bounds and sides of tiles.
-/
structure Scene.InWords (scene : Scene) (tile : TileSize) : Prop where
  rasters : ∀ slot ∈ scene.env.images, ∀ r ∈ slot.destination, r.InWords
  grids : ∀ p ∈ Sweep.plan scene tile, p.grid.InWords

instance (scene : Scene) (tile : TileSize) : Decidable (scene.InWords tile) :=
  decidable_of_iff
    ((∀ slot ∈ scene.env.images, ∀ r ∈ slot.destination, r.InWords)
      ∧ ∀ p ∈ Sweep.plan scene tile, p.grid.InWords)
    ⟨fun ⟨rasters, grids⟩ => ⟨rasters, grids⟩, fun small => ⟨small.rasters, small.grids⟩⟩

namespace Sweep

variable {scene scene' : Scene} {tile tile' : TileSize} {t : String × Raster}

theorem exists_slot_of_mem_targets (member : t ∈ targets scene)
    : ∃ slot ∈ scene.env.images, slot.destination = some t.2 := by
  obtain ⟨name, -, found⟩ := mem_filterMap.mp member
  obtain ⟨r, bound, rfl⟩ := Option.map_eq_some_iff.mp found
  obtain ⟨⟨i, slot⟩, here, destination⟩ := Option.bind_eq_some_iff.mp bound
  obtain ⟨i, -, here⟩ := Option.bind_eq_some_iff.mp here
  obtain ⟨slot, found, same⟩ := Option.bind_eq_some_iff.mp here
  cases same
  exact ⟨slot, Array.mem_of_getElem? found, destination⟩

/-- A sweep comes to every place that one of its rasters has, each of them once, and to no other. -/
theorem calls_of_inWords (small : scene.InWords tile)
    : (calls (plan scene tile)).Nodup
      ∧ ∀ x y band, (x, y, band) ∈ calls (plan scene tile)
        ↔ (targets scene).any (·.2.contains x y band) = true := by
  have rasters : ∀ t ∈ targets scene, t.2.InWords := by
    intro t member
    obtain ⟨slot, here, bound⟩ := exists_slot_of_mem_targets member
    exact small.rasters slot here t.2 bound
  have wellFormed := fun t member => (rasters t member).toWellFormed
  have missed : ∀ p ∈ plan scene tile, p.missed = [] := by
    intro p member
    obtain ⟨t, there, -, grid⟩ := mem_planAfter member
    have inWords := small.grids p member
    refine missed_eq_nil member inWords ?_
    rw [grid] at inWords ⊢
    exact (rasters t there).few_tiles inWords
  have once := (evaluatesOnce_iff (fun t there => (wellFormed t there).ordered)
    fun p member => (mem_plan wellFormed small.grids (p := p) member).1).mpr missed
  constructor
  · refine nodup_iff_count_le_one.mpr fun (x, y, band) => ?_
    rw [plan, once x y band]
    split <;> omega
  · intro x y band
    rw [← count_pos_iff, plan, once x y band]
    cases (targets scene).any (·.2.contains x y band) <;> simp

/-- Which places a raster has does not depend on what it prefers. -/
theorem any_targets_of_untiled (same : scene'.untiled = scene.untiled) (x y band : Int)
    : (targets scene').any (·.2.contains x y band) = (targets scene).any (·.2.contains x y band) := by
  have plain (scene : Scene)
      : (targets scene).any (·.2.contains x y band)
        = (targets scene.untiled).any (·.2.contains x y band) := by
    rw [targets_untiled, any_map]
    rfl
  rw [plain scene', same, ← plain scene]

end Sweep

namespace Scene

variable {scene scene' : Scene} {tile tile' : TileSize} {fuel : Nat} {after after' : Env}

/-- A sweep of a scene with nothing left to bind succeeds and leaves a state. -/
structure Completes (scene : Scene) (tile : TileSize) (fuel : Nat) (after : Env) : Prop where
  bound : scene.unbound = []
  started : (scene.start fuel).1 = .ok ()
  swept : (Sweep.evaluateAll scene.program fuel (Sweep.calls (Sweep.plan scene tile))).run
    (scene.start fuel).2.env = .ok () after

theorem program_of_untiled (same : scene'.untiled = scene.untiled) : scene'.program = scene.program := by
  simp only [untiled, Scene.mk.injEq] at same
  exact same.1

theorem matches_of_untiled (same : scene'.untiled = scene.untiled) : scene.env.Matches scene'.env := by
  simp only [untiled, Scene.mk.injEq, Env.mk.injEq] at same
  obtain ⟨-, ⟨-, -, -, width, height, vars, images, outside, loopLimit, -, stack, -⟩, -⟩ := same
  refine ⟨width, height, outside, loopLimit, vars, congrArg Array.size stack, fun i => ?_⟩
  rw [← Array.getElem?_map, images, Array.getElem?_map]

theorem destination?_of_images (program : scene'.program = scene.program)
    (images : scene'.env.images.map ImageSlot.untiled = scene.env.images.map ImageSlot.untiled)
    (name)
    : (scene'.destination? name).map Raster.untiled = (scene.destination? name).map Raster.untiled := by
  rw [← destination?_untiled, ← destination?_untiled]
  simp only [destination?, slot?, untiled, program, images]

/-- The init block does not move samples. -/
theorem InWords.start_apart (small : scene.InWords tile) (fuel : Nat) : (scene.start fuel).2.env.Apart := by
  obtain ⟨env, left, shape⟩ := scene.start_sameShape fuel
  rw [left]
  intro i slot' there r' bound'
  obtain ⟨slot, here, slots⟩ := shape.images i slot' there
  obtain ⟨r, bound, rasters⟩ := slots.destination r' bound'
  exact rasters.apart (small.rasters slot (Array.mem_of_getElem? here) r bound).apart

/-- Init blocks of scenes over the same rasters end the same, and leave states that match. -/
theorem start_of_untiled (independent : scene.program.Independent)
    (same : scene'.untiled = scene.untiled) (started : (scene.start fuel).1 = .ok ())
    : (scene'.start fuel).1 = .ok () ∧ (scene.start fuel).2.env.Matches (scene'.start fuel).2.env := by
  have program := program_of_untiled same
  have agreed := start_matches independent (matches_of_untiled same) fuel
  simp only [start, run, program] at started ⊢
  generalize (scene.program.start fuel).run scene.env = result at agreed started ⊢
  generalize (scene.program.start fuel).run scene'.env = result' at agreed ⊢
  cases agreed with
  | error => exact nomatch started
  | ok matched => exact ⟨rfl, matched⟩

/-- Sweeps of scenes over the same rasters both succeed and leave the same samples, whatever the tiles. -/
theorem Completes.retiled (done : scene.Completes tile fuel after)
    (independent : scene.program.Independent) (same : scene'.untiled = scene.untiled)
    (small : scene.InWords tile) (small' : scene'.InWords tile')
    : ∃ after', scene'.Completes tile' fuel after'
      ∧ after'.images.map ImageSlot.untiled = after.images.map ImageSlot.untiled := by
  have program := program_of_untiled same
  obtain ⟨started', matched⟩ := start_of_untiled independent same done.started
  obtain ⟨different, members⟩ := Sweep.calls_of_inWords small
  obtain ⟨different', members'⟩ := Sweep.calls_of_inWords small'
  obtain ⟨after', swept', images⟩ := Sweep.evaluateAll_matches independent matched
    (small.start_apart fuel) (small'.start_apart fuel) different different'
    (fun (x, y, band) => by rw [members, members', Sweep.any_targets_of_untiled same]) done.swept
  refine ⟨after', ⟨?_, started', program ▸ swept'⟩, Array.ext_getElem? fun i => ?_⟩
  · rw [← unbound_untiled, same, unbound_untiled, done.bound]
  · simp only [Array.getElem?_map, images]

end Scene

namespace Job

variable {job job' : Job} {scene : Scene} {tile tile' : TileSize} {signal : StopSignal} {fuel : Nat}
variable {after : Env}

/-- The scene that a run of the job sweeps, if the job can be prepared. -/
def staged? (job : Job) : Option Scene :=
  match prepare { job with claimed := true } with
  | (.ok _, prepared) => prepared.scene
  | (.error _, _) => none

theorem staged?_untiled (job : Job) : job.untiled.staged? = job.staged?.map Scene.untiled := by
  unfold staged?
  rw [show { job.untiled with claimed := true } = untiled { job with claimed := true } from rfl,
    prepare_untiled]
  cases prepare { job with claimed := true } with
  | mk prepared after => cases prepared <;> rfl

theorem staged?_of_untiled (same : job'.untiled = job.untiled)
    : job'.staged?.map Scene.untiled = job.staged?.map Scene.untiled := by
  rw [← staged?_untiled, same, staged?_untiled]

/-- A job whose sweep succeeds completes, and has the scene that the sweep left. -/
theorem execute_of_completes (live : ∀ n, signal n = none) (staged : job.staged? = some scene)
    (done : scene.Completes tile fuel after)
    : (job.execute tile signal fuel).job.state = .completed
      ∧ (job.execute tile signal fuel).job.scene = some { (scene.start fuel).2 with env := after } := by
  unfold staged? at staged
  unfold execute
  cases prepared : prepare { job with claimed := true } with
  | mk result ready =>
    rw [prepared] at staged
    cases result with
    | error cause => exact nomatch staged
    | ok _ =>
      have given : Job.scene { ready with state := .running } = some scene := staged
      obtain ⟨ending, left⟩ := process_live live given done.bound done.started tile
      rw [done.swept] at ending left
      dsimp only
      rw [Execution.finish, ending]
      exact ⟨rfl, left⟩

theorem exists_completes (completed : (job.execute tile signal fuel).job.state = .completed)
    : ∃ scene after, job.staged? = some scene ∧ scene.Completes tile fuel after := by
  obtain ⟨fractions, reports, -, left⟩ := job.execute_reports tile signal fuel
  generalize job.execute tile signal fuel = e at completed reports left
  have ending : e.ending = .completed := by
    have state := left.state
    rw [completed] at state
    cases ended : e.ending <;> rw [ended] at state <;> first | rfl | exact nomatch state
  rw [ending] at reports
  cases reports with
  | early opens => exact absurd rfl opens.ne_completed
  | swept opens finishes =>
    cases opens with
    | @started ready scene prepared held bound started =>
      have all := finishes.completed_iff.mp rfl
      obtain ⟨-, -, after, ran, -⟩ := finishes
      rw [all, take_length, Sweep.plan_start] at ran
      refine ⟨scene, after, ?_, bound, started, ?_⟩
      · rw [staged?, prepared]
        exact held
      · rw [Scene.program_start] at ran
        exact ran

/-- If a job completes, it completes over the same rasters with other tiles, with the same samples in
every destination.
-/
theorem execute_retiled (live : ∀ n, signal n = none)
    (independent : ∀ scene, job.staged? = some scene → scene.program.Independent)
    (same : job'.untiled = job.untiled)
    (small : ∀ scene, job.staged? = some scene → scene.InWords tile)
    (small' : ∀ scene, job'.staged? = some scene → scene.InWords tile')
    (completed : (job.execute tile signal fuel).job.state = .completed)
    : (job'.execute tile' signal fuel).job.state = .completed
      ∧ ∀ name, ((job'.execute tile' signal fuel).job.scene.bind (·.destination? name)).map Raster.untiled
        = ((job.execute tile signal fuel).job.scene.bind (·.destination? name)).map Raster.untiled := by
  obtain ⟨scene, after, staged, done⟩ := exists_completes completed
  have scenes := staged?_of_untiled same
  rw [staged] at scenes
  obtain ⟨scene', staged', alike⟩ := Option.map_eq_some_iff.mp scenes
  obtain ⟨after', done', images⟩ := done.retiled (independent scene staged) alike (small scene staged)
    (small' scene' staged')
  obtain ⟨completed', left'⟩ := execute_of_completes live staged' done'
  refine ⟨completed', fun name => ?_⟩
  rw [left', (execute_of_completes live staged done).2]
  refine Scene.destination?_of_images ?_ images name
  rw [Scene.program_start, Scene.program_start, Scene.program_of_untiled alike]

theorem exists_run_completed_iff
    : (∃ e, job.run tile signal fuel = .ok e ∧ e.job.state = .completed)
      ↔ job.claimed = false ∧ (job.execute tile signal fuel).job.state = .completed := by
  constructor
  · rintro ⟨e, ran, completed⟩
    obtain ⟨unclaimed, rfl⟩ := run_eq_ok ran
    exact ⟨unclaimed, completed⟩
  · rintro ⟨unclaimed, completed⟩
    exact ⟨_, if_neg (by simp [unclaimed]), completed⟩

end Job

/-- The tile size does not change results. Of two jobs for an accepted script over rasters that differ in
nothing but the tiles that they prefer, swept with whatever tiles, one completes if the other does, and
then every destination holds the same samples; if the body assigns no variable of the init block, the
functions have no state and no number leaves the words.
-/
theorem tileSize_keepsResults {script : Script} {bindings : Bindings} {registry : Registry}
    {strategy : Strategy} {compiled : Compiled}
    (accepted : compileScript script bindings registry strategy = .ok compiled)
    (fresh : (resolve bindings registry script.program).program.SparesInit)
    (stateless : ∀ f ∈ registry.functions, f.Stateless)
    (job job' : Job) (same : job'.untiled = job.untiled)
    (carried : ∀ scene, job.staged? = some scene → scene.program = compiled.program)
    (tile tile' : TileSize) (small : ∀ scene, job.staged? = some scene → scene.InWords tile)
    (small' : ∀ scene, job'.staged? = some scene → scene.InWords tile')
    (signal : Job.StopSignal) (live : ∀ n, signal n = none) (fuel : Nat)
    : ((∃ e, job.run tile signal fuel = .ok e ∧ e.job.state = .completed)
        ↔ ∃ e, job'.run tile' signal fuel = .ok e ∧ e.job.state = .completed)
      ∧ ∀ e e', job.run tile signal fuel = .ok e → job'.run tile' signal fuel = .ok e'
        → e.job.state = .completed
        → ∀ name, (e'.job.scene.bind (·.destination? name)).map Raster.untiled
          = (e.job.scene.bind (·.destination? name)).map Raster.untiled := by
  have program := independent_of_compileScript accepted fresh stateless
  have independent : ∀ scene, job.staged? = some scene → scene.program.Independent :=
    fun scene staged => carried scene staged ▸ program
  have independent' : ∀ scene, job'.staged? = some scene → scene.program.Independent := by
    intro scene' staged'
    have scenes := Job.staged?_of_untiled same
    rw [staged'] at scenes
    obtain ⟨scene, staged, alike⟩ := Option.map_eq_some_iff.mp scenes.symm
    rw [← Scene.program_of_untiled alike]
    exact independent scene staged
  have claimed : job'.claimed = job.claimed := by
    simp only [Job.untiled, Job.mk.injEq] at same
    exact same.2.2.2.2.2.1
  refine ⟨?_, fun e e' ran ran' completed => ?_⟩
  · rw [Job.exists_run_completed_iff, Job.exists_run_completed_iff, claimed]
    exact and_congr_right fun _ => ⟨
      fun completed => (Job.execute_retiled live independent same small small' completed).1,
      fun completed => (Job.execute_retiled live independent' same.symm small' small completed).1⟩
  · obtain ⟨-, rfl⟩ := Job.run_eq_ok ran
    obtain ⟨-, rfl⟩ := Job.run_eq_ok ran'
    exact (Job.execute_retiled live independent same small small' completed).2

/-- A script is compiled, and bound to a source of ones and a destination that prefers a tile size. -/
def halving.Tiled (tile : TileSize) (compiled : Compiled) (scene : Scene) : Prop :=
  ∃ raster ones bound,
    compileScript { source := [], program := halving } halving.bindings halving.registry .bytecode
      = .ok compiled
    ∧ Raster.create (.ofSize 3 2) 1 = .ok raster
    ∧ raster.fill? 0 .one = some ones
    ∧ (Scene.create compiled.program .empty).bindSource "in" (some ones) = .ok bound
    ∧ bound.bindDestination "out" (some (raster.withTile tile)) = .ok scene

namespace halving

variable {tile tile' : TileSize} {compiled : Compiled} {scene scene' : Scene}

theorem Tiled.accepted (tiled : Tiled tile compiled scene)
    : compileScript { source := [], program := halving } bindings registry .bytecode = .ok compiled := by
  obtain ⟨-, -, -, made, -⟩ := tiled
  exact made

theorem Tiled.untiled_eq (tiled : Tiled tile compiled scene) (tiled' : Tiled tile' compiled scene')
    : scene'.untiled = scene.untiled := by
  obtain ⟨raster, ones, bound, -, made, filled, source, destination⟩ := tiled
  obtain ⟨raster', ones', bound', -, made', filled', source', destination'⟩ := tiled'
  cases made.symm.trans made'
  cases filled.symm.trans filled'
  cases source.symm.trans source'
  have untiled := bound.bindDestination_untiled "out" (some (raster.withTile tile))
  have untiled' := bound.bindDestination_untiled "out" (some (raster.withTile tile'))
  rw [destination] at untiled
  rw [destination'] at untiled'
  exact Except.ok.inj (untiled'.symm.trans untiled)

theorem sparesInit : (resolve bindings registry halving).program.SparesInit := by
  have spares : ∀ n ∈ stmtsNodes (resolve bindings registry halving).program.body,
      n.assigned?.all (!·.persistent) = true := by decide +kernel
  intro n member s assigned
  simpa [assigned] using spares n member

theorem stateless : ∀ f ∈ registry.functions, f.Stateless := by
  intro f member counts counts' args
  cases mem_singleton.mp member
  rfl

end halving

theorem tileSize_keepsResults_halving
    : ∃ compiled scene scene' e e',
        halving.Tiled ⟨1, 2⟩ compiled scene ∧ halving.Tiled ⟨2, 1⟩ compiled scene'
        ∧ Job.run (.ofScene ⟨[]⟩ (some scene)) ⟨0, 0⟩ (fun _ => none) 99 = .ok e
        ∧ Job.run (.ofScene ⟨[]⟩ (some scene')) ⟨2, 2⟩ (fun _ => none) 99 = .ok e'
        ∧ e.job.state = .completed ∧ e'.job.state = .completed
        ∧ ∀ name, (e'.job.scene.bind (·.destination? name)).map Raster.untiled
          = (e.job.scene.bind (·.destination? name)).map Raster.untiled := by
  obtain ⟨compiled, scene, scene', here, here', program, small, small', completed⟩ :
      ∃ compiled scene scene',
        halving.Tiled ⟨1, 2⟩ compiled scene ∧ halving.Tiled ⟨2, 1⟩ compiled scene'
        ∧ scene.program = compiled.program ∧ scene.InWords ⟨0, 0⟩ ∧ scene'.InWords ⟨2, 2⟩
        ∧ (Job.execute (.ofScene ⟨[]⟩ (some scene)) ⟨0, 0⟩ (fun _ => none) 99).job.state = .completed :=
    ⟨_, _, _, ⟨_, _, _, rfl, rfl, rfl, rfl, rfl⟩, ⟨_, _, _, rfl, rfl, rfl, rfl, rfl⟩, rfl, by decide +kernel,
      by decide +kernel, by decide +kernel⟩
  refine ⟨compiled, scene, scene', _, _, here, here', rfl, rfl, completed, ?_⟩
  obtain ⟨both, results⟩ := tileSize_keepsResults here.accepted halving.sparesInit halving.stateless
    (.ofScene ⟨[]⟩ (some scene)) (.ofScene ⟨[]⟩ (some scene'))
    (congrArg (Job.ofScene ⟨[]⟩ ∘ some) (here.untiled_eq here'))
    (fun _ staged => Option.some.inj staged ▸ program) ⟨0, 0⟩ ⟨2, 2⟩
    (fun _ staged => Option.some.inj staged ▸ small)
    (fun _ staged => Option.some.inj staged ▸ small') (fun _ => none) (fun _ => rfl) 99
  obtain ⟨e', ran', completed'⟩ := both.mp ⟨_, rfl, completed⟩
  cases ran'
  exact ⟨completed', results _ _ rfl rfl completed⟩

end MapAlgebra
