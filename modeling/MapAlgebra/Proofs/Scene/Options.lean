import MapAlgebra.Proofs.Eval.Options
import MapAlgebra.Proofs.Scene.Safety

/-! What the options of a scene change. Raising the limit of rounds, or giving a value to reads outside of
a raster, changes nothing but how the runs end that the option has stopped.
-/

namespace MapAlgebra

open EvalM (Lockstep)
open EStateM

variable {o o' : Options}

namespace Machine

theorem composes_lockstep (relaxes : o.Relaxes o') : Composes fun _ => Lockstep o o' where
  toChains := (Eval.composes_lockstep relaxes).toChains
  crash := .of_free (.stop .crash)
  fault _ _ := .of_free fun _ _ => rfl
  peek height := .of_free (free_peek height)
  poke height v := .of_free (free_poke height v)
  window low high := .of_free (free_window low high)

/-- Every instruction goes the same way, by cases on the instruction. -/
theorem lockstep_instr (relaxes : o.Relaxes o') (i : Instr) : i.Runs fun _ => Lockstep o o' := by
  cases i with
  | loadVar n => exact .of_free (.readVar _)
  | storeVar n => exact fun v => .of_free (.writeVar _ v)
  | readImage n => exact .readImage relaxes _
  | writeImage n => exact fun v => .of_free (.writeImage _ v)
  | builtin which => exact .of_free (.builtin which)
  | loop d => exact .tick relaxes
  | call n argc => exact fun function args => .of_free (.call function args)
  | _ => trivial

theorem lockstep_run (relaxes : o.Relaxes o') (chunk fuel) : Lockstep o o' (run chunk fuel) :=
  .bind (.of_free (free_reserve _)) fun _ =>
    (composes_lockstep relaxes).runFrom (.of_free (.stop .unfinished)) (lockstep_instr relaxes) fuel _

end Machine

theorem Code.lockstep_run (relaxes : o.Relaxes o') (fuel) (code : Code)
    : Lockstep o o' (code.run fuel) := by
  cases code with
  | tree body => exact Eval.lockstep_stmts relaxes fuel body
  | chunk chunk => exact Machine.lockstep_run relaxes chunk fuel

theorem Executable.lockstep_start (relaxes : o.Relaxes o') (program : Executable) (fuel : Nat)
    : Lockstep o o' (program.start fuel) := by
  refine .bind (.of_free fun _ _ => rfl) fun _ => .bind (.of_free fun _ _ => rfl) fun _ => ?_
  cases program.init with
  | none => exact .of_free (.pure ())
  | some code => exact code.lockstep_run relaxes fuel

theorem Executable.lockstep_evaluate (relaxes : o.Relaxes o') (program : Executable) (fuel : Nat)
    (x y band)
    : Lockstep o o' (program.evaluate fuel x y band) :=
  .bind (.of_free fun _ _ => rfl) fun _ => .bind (.of_free fun _ _ => rfl) fun _ =>
    program.body.lockstep_run relaxes fuel

namespace Scene

variable {causes : EvalFault → Prop} {set : Scene → Scene}

/-- The scene with other options. -/
def withOptions (scene : Scene) (o : Options) : Scene :=
  { scene with env := scene.env.withOptions o }

/-- What a run comes to after something was set in the scene, next to what it came to before. It succeeds
if it did, with the same variables and rasters and with all else the same, and stops for the same reason
if it did and the reason is none of some causes.
-/
structure Conserves (causes : EvalFault → Prop) (set : Scene → Scene)
    (before after : Except Stop Unit × Scene) : Prop where
  success : before.1 = .ok ()
    → after = (.ok (), set before.2)
      ∧ after.2.env.vars = before.2.env.vars ∧ after.2.env.images = before.2.env.images
  otherStops : ∀ stop, before.1 = .error stop → (∀ e, stop = .error e → ¬ causes e.fault)
    → after = (.error stop, set before.2)

variable {action : EvalM Unit}

/-- Setting options that forbid less conserves a run that goes the same way with them. -/
theorem conserves_run (scene : Scene) (o' : Options) (steps : Lockstep scene.env.options o' action)
    (sets : ∀ scene' : Scene, scene'.env.options = scene.env.options → set scene' = scene'.withOptions o')
    (lifts : ∀ stop, scene.env.options.Lifts o' stop → ∃ e, stop = .error e ∧ causes e.fault)
    : Conserves causes set (scene.run action) ((set scene).run action) := by
  have follows := steps scene.env rfl
  rw [sets scene rfl]
  simp only [Scene.run, withOptions]
  generalize action.run scene.env = result at follows ⊢
  generalize action.run (scene.env.withOptions o') = result' at follows ⊢
  cases follows with
  | @ok _ after _ kept same =>
    subst same
    refine ⟨fun _ => ⟨?_, rfl, rfl⟩, fun _ => (by cases ·)⟩
    rw [sets { scene with env := after } kept]
    rfl
  | @error _ after _ kept same =>
    subst same
    refine ⟨(by cases ·), fun _ stopped _ => ?_⟩
    cases stopped
    rw [sets { scene with env := after } kept]
    rfl
  | lifted lifted =>
    refine ⟨(by cases ·), fun stop stopped other => ?_⟩
    cases stopped
    obtain ⟨e, here, cause⟩ := lifts _ lifted
    exact absurd cause (other e here)

theorem conserves_withLoopLimit (scene : Scene) {n m} (limited : 0 < n) (more : n < m ∨ m ≤ 0)
    (steps : ∀ {o o'}, o.Relaxes o' → Lockstep o o' action)
    : Conserves (· = .loopLimit n.toNat) (·.withLoopLimit m) ((scene.withLoopLimit n).run action)
        ((scene.withLoopLimit m).run action) := by
  refine conserves_run (scene.withLoopLimit n)
    { outside := scene.env.outside, loopLimit := m.toNat } (steps ⟨Or.inl rfl, Or.inr ?_⟩)
    (fun scene' kept => ?_) fun stop lifted => ?_
  · simp only [Env.options, withLoopLimit]
    omega
  · have outside : scene'.env.outside = scene.env.outside := congrArg Options.outside kept
    rw [withOptions, Env.withOptions, ← outside]
    rfl
  · cases lifted with
    | loopLimit => exact ⟨_, rfl, rfl⟩
    | outside changed => exact absurd rfl changed

theorem conserves_withOutside (scene : Scene) (unset : scene.env.outside = none) (v)
    (steps : ∀ {o o'}, o.Relaxes o' → Lockstep o o' action)
    : Conserves (fun fault => ∃ image bounds bands, fault = .image (.outside image bounds bands))
        (·.withOutside v) (scene.run action) ((scene.withOutside v).run action) := by
  refine conserves_run scene { outside := some v, loopLimit := scene.env.loopLimit }
    (steps ⟨Or.inr unset, Or.inl rfl⟩) (fun scene' kept => ?_) fun stop lifted => ?_
  · have limit : scene'.env.loopLimit = scene.env.loopLimit := congrArg Options.loopLimit kept
    rw [withOptions, Env.withOptions, ← limit]
    rfl
  · cases lifted with
    | loopLimit changed => exact absurd rfl changed
    | outside => exact ⟨_, rfl, _, _, _, rfl⟩

end Scene

/-- Options only forbid. With a larger limit of rounds, or with none, the init block and the body succeed
as before and stop as before, unless they went past the limit. With a value for reads outside of rasters
they succeed as before and stop as before, unless they made such a read.
-/
theorem options_conservative (scene : Scene) (fuel : Nat) (x y band : Int)
    : (∀ n m : Int, 0 < n → n < m ∨ m ≤ 0
        → Scene.Conserves (· = .loopLimit n.toNat) (·.withLoopLimit m)
            ((scene.withLoopLimit n).start fuel) ((scene.withLoopLimit m).start fuel)
          ∧ Scene.Conserves (· = .loopLimit n.toNat) (·.withLoopLimit m)
            ((scene.withLoopLimit n).evaluate fuel x y band)
            ((scene.withLoopLimit m).evaluate fuel x y band))
      ∧ (scene.env.outside = none
        → ∀ v,
          Scene.Conserves
              (fun fault => ∃ image bounds bands, fault = .image (.outside image bounds bands))
              (·.withOutside v) (scene.start fuel) ((scene.withOutside v).start fuel)
            ∧ Scene.Conserves
              (fun fault => ∃ image bounds bands, fault = .image (.outside image bounds bands))
              (·.withOutside v) (scene.evaluate fuel x y band)
              ((scene.withOutside v).evaluate fuel x y band)) := by
  refine ⟨fun n m limited more => ⟨?_, ?_⟩, fun unset v => ⟨?_, ?_⟩⟩
  · exact scene.conserves_withLoopLimit limited more fun relaxes =>
      scene.program.lockstep_start relaxes fuel
  · exact scene.conserves_withLoopLimit limited more fun relaxes =>
      scene.program.lockstep_evaluate relaxes fuel x y band
  · exact scene.conserves_withOutside unset v fun relaxes =>
      scene.program.lockstep_start relaxes fuel
  · exact scene.conserves_withOutside unset v fun relaxes =>
      scene.program.lockstep_evaluate relaxes fuel x y band

theorem options_conservative_counting
    : ∃ compiled scene, counting.Staged .bytecode compiled scene
      ∧ ((scene.withLoopLimit 2).evaluate 99 0 0 0).1
        = .error (.error { image := "", x := 0, y := 0, band := 0, fault := .loopLimit 2 })
      ∧ (scene.withLoopLimit 0).evaluate 99 0 0 0
        = (.ok (), ((scene.withLoopLimit 3).evaluate 99 0 0 0).2.withLoopLimit 0)
      ∧ (scene.withOutside .one).evaluate 99 0 0 0
        = (.ok (), (scene.evaluate 99 0 0 0).2.withOutside .one) := by
  obtain ⟨compiled, scene, here, fault, guarded, unguarded, unset⟩ : ∃ compiled scene,
      counting.Staged .bytecode compiled scene
      ∧ ((scene.withLoopLimit 2).evaluate 99 0 0 0).1
        = .error (.error { image := "", x := 0, y := 0, band := 0, fault := .loopLimit 2 })
      ∧ ((scene.withLoopLimit 3).evaluate 99 0 0 0).1 = .ok ()
      ∧ (scene.evaluate 99 0 0 0).1 = .ok () ∧ scene.env.outside = none :=
    ⟨_, _, ⟨_, _, _, rfl, rfl, rfl, rfl, rfl⟩, by decide +kernel, by decide +kernel, by decide +kernel,
      by rfl⟩
  obtain ⟨limits, outside⟩ := options_conservative scene 99 0 0 0
  exact ⟨compiled, scene, here, fault,
    ((limits 3 0 (by decide) (by decide)).2.success guarded).1,
    ((outside unset .one).2.success unguarded).1⟩

end MapAlgebra
