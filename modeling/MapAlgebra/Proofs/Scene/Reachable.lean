import MapAlgebra.Proofs.Code.Footprint
import MapAlgebra.Proofs.Eval.Safety
import MapAlgebra.Scene

/-! The scenes that a program can come to. However rasters are bound to its images and however often
it runs, a scene keeps the images and the number of variables of its program.
-/

namespace MapAlgebra

open EStateM

theorem EvalM.Keeps.code (fuel) (code : Code) : Keeps (code.run fuel) := by
  cases code with
  | tree body =>
    have touches : Touches (fun _ => False) (Eval.stmts fuel body) :=
      Eval.touches_stmts fuel fun n _ => n.spares_false
    exact touches.keeps
  | chunk chunk =>
    have touches (f : Machine.Frame)
        : Touches (fun _ => False) (Machine.runFrom chunk fuel f) :=
      Machine.composes_touches.runFrom (.stop .unfinished)
        (fun i => Machine.touches_instr fun _ _ => not_false) fuel f
    refine .bind (fun env => ?_) fun _ => (touches _).keeps
    simp only [Machine.reserve, run_modify]
    split
    · exact ⟨rfl, rfl, rfl, rfl, rfl, rfl, rfl, fun _ slot here => ⟨slot, here, .refl slot⟩⟩
    · exact .refl env

namespace Executable

/-- The state in which the init block runs. -/
def startEnv (env : Env) : Env :=
  { env with vars := Array.replicate env.vars.size .zero, x := 0, y := 0, band := 0, iterations := 0 }

/-- The state in which the body runs at a pixel and band. -/
def pixelEnv (program : Executable) (env : Env) (x y band : Int) : Env :=
  { env with vars := freshVars program.persistent env.vars, x, y, band, iterations := 0 }

theorem run_start (program : Executable) (fuel env)
    : (program.start fuel).run env
      = match program.init with
        | none => .ok () (startEnv env)
        | some code => (code.run fuel).run (startEnv env) := by
  simp only [start, moveTo, run_bind, run_modify]
  cases program.init <;> rfl

theorem run_evaluate (program : Executable) (fuel x y band env)
    : (program.evaluate fuel x y band).run env
      = (program.body.run fuel).run (program.pixelEnv env x y band) := rfl

/-- Setting variables to zero keeps their number, by induction on the flags. -/
theorem size_freshVars (persistent : List Bool) (vars : Array Sample)
    : (freshVars persistent vars).size = vars.size := by
  unfold freshVars
  generalize persistent.zipIdx = flags
  induction flags generalizing vars with
  | nil => rfl
  | cons flag flags ih =>
    rw [List.foldl_cons, ih]
    obtain ⟨keeps, slot⟩ := flag
    cases keeps <;> simp

end Executable

namespace Scene

/-- The scenes that a program can come to: rasters are bound, limits are set, images are read and
written by name, and the init block and the body run, in any order.
-/
inductive Reachable (program : Executable) : Scene → Prop where
  | create (calls : CallCounts) : Reachable program (.create program calls)
  | bindSource {scene scene' name raster}
    (reached : Reachable program scene) (bound : scene.bindSource name raster = .ok scene')
    : Reachable program scene'
  | bindDestination {scene scene' name raster}
    (reached : Reachable program scene) (bound : scene.bindDestination name raster = .ok scene')
    : Reachable program scene'
  | withOutside {scene} (reached : Reachable program scene) (v : Sample)
    : Reachable program (scene.withOutside v)
  | withLoopLimit {scene} (reached : Reachable program scene) (limit : Int)
    : Reachable program (scene.withLoopLimit limit)
  | start {scene} (reached : Reachable program scene) (fuel : Nat)
    : Reachable program (scene.start fuel).2
  | evaluate {scene} (reached : Reachable program scene) (fuel : Nat) (x y band : Int)
    : Reachable program (scene.evaluate fuel x y band).2
  | read {scene} (reached : Reachable program scene) (name : String) (x y band : Int)
    : Reachable program (scene.read name x y band).2
  | write {scene} (reached : Reachable program scene) (name : String) (x y band : Int)
    (v : Sample)
    : Reachable program (scene.write name x y band v).2

variable {env : Env} {α : Type} {i : Nat} {name : String} {slot : ImageSlot}

theorem run_sameShape (scene : Scene) {action next : EvalM α} (keeps : EvalM.Keeps next)
    (starts : action.run scene.env = next.run env)
    : ∃ env', (scene.run action).2 = { scene with env := env' } ∧ env.SameShape env' := by
  have kept := keeps env
  unfold Scene.run
  rw [starts]
  cases ran : next.run env with
  | ok a env' | error stop env' =>
    rw [ran] at kept
    exact ⟨env', rfl, kept⟩

theorem start_sameShape (scene : Scene) (fuel : Nat)
    : ∃ env', (scene.start fuel).2 = { scene with env := env' }
      ∧ (Executable.startEnv scene.env).SameShape env' := by
  have runs := scene.program.run_start fuel scene.env
  cases init : scene.program.init with
  | none =>
    rw [init] at runs
    exact scene.run_sameShape (.pure ()) runs
  | some code =>
    rw [init] at runs
    exact scene.run_sameShape (.code fuel code) runs

/-- A scene has the images of a program, and as many variables. -/
structure Fits (program : Executable) (scene : Scene) : Prop where
  runs : scene.program = program
  vars : scene.env.vars.size = program.varNames.length
  images : ∀ (i : Nat) b, program.images[i]? = some b
    → ∃ slot, scene.env.images[i]? = some slot ∧ slot.name = b.name ∧ slot.role = b.role

variable {program : Executable} {scene scene' : Scene}

theorem fits_create (calls) : Fits program (.create program calls) := by
  refine ⟨rfl, by simp [create], fun i b here => ?_⟩
  simp [create, here]

theorem Fits.of_sameShape {env'} (fits : Fits program { scene with env })
    (same : env.SameShape env')
    : Fits program { scene with env := env' } := by
  refine ⟨fits.runs, same.vars.trans fits.vars, fun i b here => ?_⟩
  obtain ⟨slot, found, name, role⟩ := fits.images i b here
  obtain ⟨slot', found', shape⟩ := same.getElem?_images found
  exact ⟨slot', found', shape.name.trans name, shape.role.trans role⟩

theorem Fits.withSlot (fits : Fits program scene) {slot'}
    (found : scene.slot? name = some (i, slot)) (names : slot'.name = slot.name)
    (roles : slot'.role = slot.role)
    : Fits program (scene.withSlot i slot') := by
  have here : scene.env.images[i]? = some slot := by
    simp only [slot?, Option.bind_eq_bind, Option.bind_eq_some_iff] at found
    obtain ⟨i', -, slot', there, same⟩ := found
    cases same
    exact there
  refine ⟨fits.runs, fits.vars, fun j b given => ?_⟩
  obtain ⟨old, there, name, role⟩ := fits.images j b given
  simp only [Scene.withSlot, Array.getElem?_setIfInBounds]
  split
  · next same =>
    subst same
    cases here.symm.trans there
    obtain ⟨inside, -⟩ := Array.getElem?_eq_some_iff.mp here
    exact ⟨slot', if_pos inside, names.trans name, roles.trans role⟩
  · exact ⟨old, there, name, role⟩

theorem Fits.measured (fits : Fits program scene) : Fits program scene.measured := by
  unfold Scene.measured
  split
  · exact ⟨fits.runs, fits.vars, fits.images⟩
  · exact fits

theorem Fits.run {action next : EvalM α} (fits : Fits program { scene with env })
    (keeps : EvalM.Keeps next) (starts : action.run scene.env = next.run env)
    : Fits program (scene.run action).2 := by
  obtain ⟨env', left, same⟩ := scene.run_sameShape keeps starts
  rw [left]
  exact fits.of_sameShape same

section

variable (fits : Fits program scene)
include fits

/-- A raster was bound to an image, and the scene may have got another size. -/
theorem Fits.bound (slot' : ImageSlot) (found : scene.slot? name = some (i, slot))
    (names : slot'.name = slot.name) (roles : slot'.role = slot.role)
    (firstSource firstDestination : Option Nat)
    : Fits program
        { scene.withSlot i slot' with firstSource, firstDestination : Scene }.measured :=
  have fits := fits.withSlot found names roles
  Fits.measured ⟨fits.runs, fits.vars, fits.images⟩

variable {raster : Option Raster}

theorem Fits.bindSource (bound : scene.bindSource name raster = .ok scene')
    : Fits program scene' := by
  unfold Scene.bindSource at bound
  split at bound
  · exact nomatch bound
  · next i slot found =>
    split at bound
    · exact nomatch bound
    · split at bound
      · exact nomatch bound
      · next raster =>
        cases bound
        exact fits.bound { slot with source := some raster } found rfl rfl _ _

theorem Fits.bindDestination (bound : scene.bindDestination name raster = .ok scene')
    : Fits program scene' := by
  unfold Scene.bindDestination at bound
  split at bound
  · exact nomatch bound
  · next i slot found =>
    split at bound
    · exact nomatch bound
    · split at bound
      · exact nomatch bound
      · next raster =>
        cases bound
        exact fits.bound { slot with destination := some raster } found rfl rfl _ _

theorem Fits.start (fuel : Nat)
    : Fits program (scene.start fuel).2 := by
  have started : Fits program { scene with env := Executable.startEnv scene.env } :=
    ⟨fits.runs, by simp [Executable.startEnv, fits.vars], fits.images⟩
  obtain ⟨env', left, same⟩ := scene.start_sameShape fuel
  rw [left]
  exact started.of_sameShape same

theorem Fits.evaluate (fuel : Nat) (x y band : Int)
    : Fits program (scene.evaluate fuel x y band).2 := by
  have moved : Fits program { scene with env := scene.program.pixelEnv scene.env x y band } :=
    ⟨fits.runs, by simp [Executable.pixelEnv, Executable.size_freshVars, fits.vars], fits.images⟩
  exact moved.run (.code fuel scene.program.body)
    (scene.program.run_evaluate fuel x y band scene.env)

end

/-- Every scene that a program can come to fits it, by induction on how it is come to. -/
theorem Reachable.fits (reached : Reachable program scene) : Fits program scene := by
  induction reached with
  | create calls => exact fits_create calls
  | bindSource _ bound fits => exact fits.bindSource bound
  | bindDestination _ bound fits => exact fits.bindDestination bound
  | withOutside _ v fits => exact ⟨fits.runs, fits.vars, fits.images⟩
  | withLoopLimit _ limit fits => exact ⟨fits.runs, fits.vars, fits.images⟩
  | start _ fuel fits => exact fits.start fuel
  | evaluate _ fuel x y band fits => exact fits.evaluate fuel x y band
  | read _ name x y band fits =>
    unfold Scene.read
    split
    · exact fits
    · next i _ => exact Fits.run fits (.of_left (EvalM.left_readAt i x y band)) rfl
  | write _ name x y band v fits =>
    unfold Scene.write
    split
    · exact fits
    · next i _ => exact Fits.run fits (.writeAt i x y band v) rfl

end Scene

end MapAlgebra
