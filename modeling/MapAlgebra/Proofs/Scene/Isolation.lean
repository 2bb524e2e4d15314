import MapAlgebra.Proofs.Code.References
import MapAlgebra.Proofs.Scene.Evaluation

/-! The init block by itself. It has no way to an image, so it neither reads nor changes one. It starts
with variables that are zero, so nothing of what evaluations leave behind can be told.
-/

namespace MapAlgebra

open EvalM (Agreed left)
open EStateM
open Scene
open Executable

/-- The state with other images, and another value for reads outside of them. -/
def Env.withImages (env : Env) (images : Array ImageSlot) (outside : Option Sample) : Env :=
  { env with images, outside }

/-- An evaluation that neither reads nor changes the images. -/
abbrev EvalM.ImageFree {α : Type} (m : EvalM α) : Prop :=
  Free { images := true, outside := true } m

open EvalM (ImageFree)

/-- A node neither reads nor assigns an image. -/
def Expr.Imageless (n : Expr) : Prop :=
  ∀ s, n.symbol? = some s → s.role.isImage = false

variable {n : Expr} {i : Instr} {code : Code} {fuel : Nat} {program : Executable} {env : Env}

/-- The nodes of an init block have no images: the variables of the table are all that they may use. -/
theorem Expr.imageless_of_resolved {names} (resolved : n.Resolved names)
    (inInit : names.inInit = true) (dense : Dense names.locals)
    : n.Imageless := by
  intro s stands
  rcases resolved.reads stands with isLocal | ⟨outside, -⟩
  · obtain ⟨slot, found⟩ := Array.mem_iff_getElem?.mp isLocal
    rw [(dense slot s found).2]
    rfl
  · cases inInit.symm.trans outside

namespace Eval

theorem composes_imageFree : Composes fun _ => ImageFree where
  pure := .pure
  bind := .bind
  tick := .tick
  unfinished := .stop _

variable {symbol : Option Symbol}

theorem imageFree_load (isVar : ∀ s, symbol = some s → s.role.isImage = false)
    : ImageFree (load symbol) := by
  cases symbol with
  | none => exact .stop .crash
  | some s =>
    have loads : load (some s) = EvalM.readVar s.slot := by
      simp [load, EvalM.orCrash, isVar s rfl]
    exact loads ▸ .readVar s.slot

theorem imageFree_store (isVar : ∀ s, symbol = some s → s.role.isImage = false) (v)
    : ImageFree (store symbol v) := by
  cases symbol with
  | none => exact .stop .crash
  | some s =>
    have stores : store (some s) v = EvalM.writeVar s.slot v := by
      simp [store, EvalM.orCrash, isVar s rfl]
    exact stores ▸ .writeVar s.slot v

theorem imageFree_of_imageless (imageless : n.Imageless) : n.Runs fun _ => ImageFree := by
  cases n with
  | literal | binary | unary => trivial
  | read span name symbol => exact imageFree_load imageless
  | assign span target step value symbol | update span target decrement before symbol =>
    exact ⟨imageFree_load imageless, imageFree_store imageless⟩
  | builtin span name which args => exact .builtin which
  | call span name args function =>
    exact composes_imageFree.runs_call fun vs => .bind (.orCrash function) fun f => .call f vs

end Eval

/-- An instruction reads or writes an image. -/
def Instr.isImaging : Instr → Bool
  | .readImage _ | .writeImage _ => true
  | _ => false

theorem Instr.isImaging_of_plain (plain : i.plain = true) : i.isImaging = false := by
  cases i with
  | readImage | writeImage => cases plain
  | _ => rfl

namespace Lower

variable {pools : Pools}

theorem Emits.isImage {r} (emits : Emits pools r i) (imaging : i.isImaging = true)
    : ∃ s, r.symbol? = some s ∧ s.role.isImage = true := by
  cases r with
  | constant v =>
    rcases emits with ⟨-, rfl⟩ | ⟨-, rfl⟩ | ⟨-, rfl⟩ <;> cases imaging
  | load symbol | store symbol =>
    obtain ⟨s, rfl, ⟨isImage, -⟩ | ⟨-, n, -, rfl⟩⟩ := emits
    · exact ⟨s, rfl, isImage⟩
    · cases imaging
  | call function argc =>
    obtain ⟨f, -, rfl⟩ := emits
    cases imaging

end Lower

namespace Machine

variable {chunk : Chunk}

theorem composes_imageFree : Composes fun _ => ImageFree where
  toChains := Eval.composes_imageFree.toChains
  crash := .stop .crash
  fault _ _ := fun _ _ => rfl
  peek := free_peek
  poke := free_poke
  window := free_window

theorem imageFree_instr (plain : i.isImaging = false) : i.Runs fun _ => ImageFree := by
  cases i with
  | loadVar n => exact .readVar _
  | storeVar n => exact .writeVar _
  | readImage n | writeImage n => cases plain
  | builtin which => exact .builtin which
  | loop d => exact .tick
  | call n argc => exact .call
  | _ => trivial

/-- A run leaves the images alone if its rounds do, as long as they lead from allowed places to allowed
places, by induction on the fuel.
-/
theorem imageFree_runFrom {allowed : Frame → Prop}
    (rounds : ∀ f, allowed f → ImageFree (round chunk f)
      ∧ ∀ env f' env', (round chunk f).run env = .ok (some f') env' → allowed f')
    (fuel : Nat) {f} (here : allowed f)
    : ImageFree (runFrom chunk fuel f) := by
  induction fuel generalizing f with
  | zero => exact .stop .unfinished
  | succ fuel ih =>
    intro env other
    obtain ⟨free, leads⟩ := rounds f here
    rw [run_runFrom_succ, run_runFrom_succ, free env other]
    cases ran : (round chunk f).run env with
    | error stop env' => rfl
    | ok next env' =>
      cases next with
      | none => rfl
      | some f' => exact ih (leads env f' env' ran) env' other

/-- The chunk of statements without images leaves the images alone: of the instructions that the machine
can come to, none was made of a reference to an image.
-/
theorem imageFree_chunk {name : String} {table : SymbolTable} {body}
    (lowered : Lower.chunk name table body = .ok chunk)
    (imageless : ∀ n ∈ stmtsNodes body, n.Imageless) (fuel : Nat)
    : ImageFree (run chunk fuel) := by
  have isVar : ∀ r ∈ stmtsReferences body, ∀ s, r.symbol? = some s → s.role.isImage = false :=
    Lower.forall_stmts_references body fun n member r refers s stands =>
      imageless n member s (Expr.symbol?_of_ownReferences refers stands)
  have sends (r : Reference) (among : r ∈ stmtsReferences body)
      : Lower.Sends False (·.isImaging = false) (Lower.bodyPools body) r := by
    refine ⟨fun i emits => Or.inr (Bool.eq_false_iff.mpr fun imaging => ?_), nofun⟩
    obtain ⟨s, stands, isImage⟩ := emits.isImage imaging
    cases isImage.symm.trans (isVar r among s stands)
  obtain ⟨items, -, laid⟩ := Lower.laid_chunk lowered sends
  refine .bind (free_reserve _) fun _ => imageFree_runFrom
    (fun f (stands : StandsIn False _ f) => ⟨?_, fun env f' env' => stands.round laid⟩) fuel (.start laid)
  refine composes_imageFree.round fun i decoded => ?_
  obtain ⟨j, depth, stands⟩ := stands
  cases (stands.decoded laid).symm.trans decoded
  exact imageFree_instr ((laid.all.steady stands.noted).operand.elim Instr.isImaging_of_plain id)

end Machine

theorem Code.Codes.imageFree {table body} (codes : Codes table body code)
    (imageless : ∀ n ∈ stmtsNodes body, n.Imageless) (fuel)
    : ImageFree (code.run fuel) := by
  cases codes with
  | tree =>
    exact Eval.composes_imageFree.stmts fuel body fun n member =>
      Eval.imageFree_of_imageless (imageless n member)
  | chunk lowered => exact Machine.imageFree_chunk lowered imageless fuel

theorem Executable.imageFree_start (init : ∀ code ∈ program.init, ImageFree (code.run fuel))
    : ImageFree (program.start fuel) := by
  intro env other
  rw [run_start, run_start]
  cases given : program.init with
  | none => rfl
  | some code => exact init code given (startEnv env) other

theorem Code.sameRoom_startEnv {env'} (same : code.SameRoom env env') (images outside)
    : code.SameRoom (startEnv env) (startEnv (env'.withImages images outside)) := by
  cases code <;> exact same

namespace Scene

variable {α : Type} {scene scene' : Scene} {kept : Nat → Prop}

/-- The scene with other images, and another value for reads outside of them. -/
def withImages (scene : Scene) (images : Array ImageSlot) (outside : Option Sample) : Scene :=
  { scene with env := scene.env.withImages images outside }

theorem run_withImages {m : EvalM α} (free : ImageFree m) (scene : Scene) (images outside)
    : (scene.withImages images outside).run m
      = ((scene.run m).1, (scene.run m).2.withImages images outside) := by
  have same : m.run (scene.env.withImages images outside) = _ :=
    free scene.env (scene.env.withImages images outside)
  unfold run withImages
  rw [same]
  cases m.run scene.env <;> rfl

/-- Scenes of the same size, with the same limit on rounds. -/
structure SameFrame (scene scene' : Scene) : Prop where
  width : scene'.env.width = scene.env.width
  height : scene'.env.height = scene.env.height
  loopLimit : scene'.env.loopLimit = scene.env.loopLimit

theorem SameFrame.refl (scene : Scene) : scene.SameFrame scene :=
  ⟨rfl, rfl, rfl⟩

theorem SameFrame.trans {scene''} (first : scene.SameFrame scene')
    (second : scene'.SameFrame scene'')
    : scene.SameFrame scene'' :=
  ⟨second.width.trans first.width, second.height.trans first.height,
    second.loopLimit.trans first.loopLimit⟩

theorem sameFrame_run {m} (touches : code.Touches kept)
    (starts : m.run scene.env = (code.run fuel).run env) (width : env.width = scene.env.width)
    (height : env.height = scene.env.height) (loopLimit : env.loopLimit = scene.env.loopLimit)
    : scene.SameFrame (scene.run m).2 := by
  have touched := touches fuel env
  obtain ⟨stack, ready⟩ := code.exists_ready_eq env
  rw [ready, ← starts, ← env_run] at touched
  exact ⟨touched.width.trans width, touched.height.trans height, touched.loopLimit.trans loopLimit⟩

theorem sameFrame_start (touches : ∀ code ∈ scene.program.init, code.Touches kept)
    : scene.SameFrame (scene.start fuel).2 := by
  have starts := scene.program.run_start fuel scene.env
  cases given : scene.program.init with
  | none =>
    rw [given] at starts
    unfold start run
    rw [starts]
    exact ⟨rfl, rfl, rfl⟩
  | some code =>
    rw [given] at starts
    exact sameFrame_run (touches code given) starts rfl rfl rfl

/-- The scene after evaluations, each with its fuel, its pixel and its band. -/
def evaluated (scene : Scene) (runs : List (Nat × Int × Int × Int)) : Scene :=
  runs.foldl (fun scene (fuel, x, y, band) => (scene.evaluate fuel x y band).2) scene

/-- Evaluations lead to a scene of the same program and frame, by induction on their list. -/
theorem evaluated_sameFrame (touches : program.body.Touches kept)
    (reached : Reachable program scene) (runs : List (Nat × Int × Int × Int))
    : Reachable program (scene.evaluated runs) ∧ scene.SameFrame (scene.evaluated runs) := by
  induction runs generalizing scene with
  | nil => exact ⟨reached, .refl scene⟩
  | cons run runs ih =>
    obtain ⟨fuel, x, y, band⟩ := run
    have first : scene.SameFrame (scene.evaluate fuel x y band).2 :=
      sameFrame_run (reached.fits.runs ▸ touches)
        (scene.program.run_evaluate fuel x y band scene.env) rfl rfl rfl
    obtain ⟨later, same⟩ := ih (reached.evaluate fuel x y band)
    exact ⟨later, first.trans same⟩

end Scene

variable {script : Script} {strategy : Strategy} {compiled : Compiled} {bindings : Bindings}
  {registry : Registry} {scene scene' : Scene}

/-- Starts from two scenes have room for the same: always if the tree is run, with any two stacks if no
call has too many arguments, and else with stacks of the same size.
-/
def Compiled.SameStart (strategy : Strategy) (init : Option InitBlock) (compiled : Compiled)
    (scene scene' : Scene) : Prop :=
  strategy = .tree
  ∨ (∀ block ∈ init, ∀ n ∈ stmtsNodes block.body, n.FewArguments)
  ∨ ∀ code ∈ compiled.program.init, code.SameRoom scene.env scene'.env

/-- A start has no way to an image, so it ends the same with other images and leaves those alone. -/
theorem start_withImages (made : compileScript script bindings registry strategy = .ok compiled)
    (reached : Reachable compiled.program scene) (images : Array ImageSlot)
    (outside : Option Sample) (fuel : Nat)
    : (scene.withImages images outside).start fuel
      = ((scene.start fuel).1, (scene.start fuel).2.withImages images outside) := by
  obtain ⟨valid, accepted, coded, -⟩ := compileScript_eq_ok made
  obtain ⟨resolved, dense⟩ := resolve_allResolved registry valid accepted
  obtain ⟨init, -⟩ := Strategy.code_eq_ok coded
  have free : ImageFree (compiled.program.start fuel) := by
    refine imageFree_start fun code given => ?_
    obtain ⟨block, isBlock, codes⟩ := exists_of_rel init given
    exact codes.imageFree (fun n member =>
      Expr.imageless_of_resolved (resolved.init block isBlock n member) rfl dense) fuel
  rw [← reached.fits.runs] at free
  exact run_withImages free scene images outside

section

variable (made : compileScript script bindings registry strategy = .ok compiled)
  (stateless : ∀ f ∈ registry.functions, f.Stateless)
  (reached : Reachable compiled.program scene)
  (reached' : Reachable compiled.program scene') (frame : scene.SameFrame scene')
  (room : compiled.SameStart strategy (resolve bindings registry script.program).program.init scene scene')
include made stateless reached reached' frame room

/-- From scenes of the same frame that have the same images, starts end the same. -/
theorem agreed_start (fuel : Nat)
    : Agreed (fun _ => Env.Alike) ((compiled.program.start fuel).run scene.env)
        ((compiled.program.start fuel).run
          (scene'.env.withImages scene.env.images scene.env.outside)) := by
  obtain ⟨valid, accepted, coded, -⟩ := compileScript_eq_ok made
  obtain ⟨resolved, -⟩ := resolve_allResolved registry valid accepted
  obtain ⟨init, -⟩ := Strategy.code_eq_ok coded
  have count : scene'.env.vars.size = scene.env.vars.size :=
    reached'.fits.vars.trans reached.fits.vars.symm
  have alike : (startEnv scene.env).Alike
      (startEnv (scene'.env.withImages scene.env.images scene.env.outside)) :=
    ⟨rfl, rfl, rfl, frame.width, frame.height, rfl, frame.loopLimit, rfl,
      congrArg (Array.replicate · Sample.zero) count, fun _ => rel_refl ImageSlot.AlikeAt.refl _⟩
  rw [run_start, run_start]
  cases given : compiled.program.init with
  | none => exact .ok alike
  | some code =>
    obtain ⟨block, isBlock, codes⟩ := exists_of_rel init given
    refine codes.agreed (resolved.init block isBlock) stateless alike ?_ fuel
    rcases room with rfl | few | same
    · have tree := (code_of_tree made).1
      rw [given, isBlock] at tree
      exact Or.inl (Option.some.inj tree).symm
    · exact Or.inr (Or.inl (few block isBlock))
    · exact Or.inr (Or.inr (Code.sameRoom_startEnv (same code given) _ _))

/-- From scenes of the same frame, whatever their images are, starts end the same. -/
theorem start_of_sameFrame (fuel : Nat)
    : (scene'.start fuel).1 = (scene.start fuel).1
      ∧ (scene'.start fuel).2.env.vars = (scene.start fuel).2.env.vars := by
  have agreed := agreed_start made stateless reached reached' frame room fuel
  -- The second scene is given the images of the first, which it cannot tell from its own.
  have swapped := start_withImages made reached' scene.env.images scene.env.outside fuel
  have started : (scene'.withImages scene.env.images scene.env.outside).start fuel
      = (scene'.withImages scene.env.images scene.env.outside).run (compiled.program.start fuel) :=
    reached'.fits.runs ▸ rfl
  have started' : scene.start fuel = scene.run (compiled.program.start fuel) :=
    reached.fits.runs ▸ rfl
  have vars : ((scene'.withImages scene.env.images scene.env.outside).start fuel).2.env.vars
      = (scene.start fuel).2.env.vars := by
    rw [started, started', env_run, env_run]
    exact agreed.left.vars
  rw [swapped] at vars
  refine ⟨?_, vars⟩
  rw [← congrArg Prod.fst swapped, started, started']
  exact result_of_agreed agreed

end

/-- The init block of an accepted script whose functions have no state is isolated, and running it again
restores what it left.

With any other images in their place a start ends the same and leaves those images as they are. From
scenes of one program with the same size and limit on rounds it gives the same result and leaves the same
variables, whatever happened to the scenes before, and so it does after a start and any evaluations.
-/
theorem start_isolated (made : compileScript script bindings registry strategy = .ok compiled)
    (stateless : ∀ f ∈ registry.functions, f.Stateless)
    (reached : Reachable compiled.program scene) (fuel : Nat)
    : (∀ images outside, (scene.withImages images outside).start fuel
        = ((scene.start fuel).1, (scene.start fuel).2.withImages images outside))
      ∧ (scene.start fuel).2.env.images = scene.env.images
      ∧ (∀ scene', Reachable compiled.program scene' → scene.SameFrame scene'
        → compiled.SameStart strategy (resolve bindings registry script.program).program.init
          scene scene'
        → (scene'.start fuel).1 = (scene.start fuel).1
          ∧ (scene'.start fuel).2.env.vars = (scene.start fuel).2.env.vars)
      ∧ ∀ runs, compiled.SameStart strategy
          (resolve bindings registry script.program).program.init
          scene ((scene.start fuel).2.evaluated runs)
        → (((scene.start fuel).2.evaluated runs).start fuel).1 = (scene.start fuel).1
          ∧ (((scene.start fuel).2.evaluated runs).start fuel).2.env.vars
            = (scene.start fuel).2.env.vars := by
  obtain ⟨-, -, coded, -⟩ := compileScript_eq_ok made
  obtain ⟨init, body⟩ := Strategy.code_eq_ok coded
  have own (images : Array ImageSlot) (outside : Option Sample) :=
    start_withImages made reached images outside fuel
  refine ⟨own, ?_, fun scene' reached' frame room => ?_, fun runs room => ?_⟩
  · exact congrArg (fun ended => ended.2.env.images) (own scene.env.images scene.env.outside)
  · exact start_of_sameFrame made stateless reached reached' frame room fuel
  · have started : scene.SameFrame (scene.start fuel).2 :=
      sameFrame_start fun code given => by
        obtain ⟨block, -, codes⟩ := exists_of_rel init (reached.fits.runs ▸ given)
        exact codes.touches fun n _ => n.spares_false
    obtain ⟨later, frame⟩ := evaluated_sameFrame
      (body.touches fun n _ => n.spares_false) (reached.start fuel) runs
    exact start_of_sameFrame made stateless reached later (started.trans frame) room fuel

/-- After an evaluation that succeeds and one that fails outside of the rasters, the variables are those
of the first start again.
-/
theorem start_isolated_halving
    : ∃ compiled scene, halving.Staged .bytecode compiled scene
        ∧ ((scene.start 99).2.evaluate 99 1 1 0).1.toBool = true
        ∧ ((scene.start 99).2.evaluate 99 9 9 0).1.toBool = false
        ∧ ((scene.start 99).2.evaluated [(99, 1, 1, 0), (99, 9, 9, 0)]).env.vars
          ≠ (scene.start 99).2.env.vars
        ∧ (((scene.start 99).2.evaluated [(99, 1, 1, 0), (99, 9, 9, 0)]).start 99).2.env.vars
          = (scene.start 99).2.env.vars := by
  obtain ⟨compiled, scene, here, succeeds, fails, differs⟩ :
      ∃ compiled scene, halving.Staged .bytecode compiled scene
        ∧ ((scene.start 99).2.evaluate 99 1 1 0).1.toBool = true
        ∧ ((scene.start 99).2.evaluate 99 9 9 0).1.toBool = false
        ∧ ((scene.start 99).2.evaluated [(99, 1, 1, 0), (99, 9, 9, 0)]).env.vars
          ≠ (scene.start 99).2.env.vars :=
    ⟨_, _, ⟨_, _, rfl, rfl, rfl, rfl⟩, by decide +kernel, by decide +kernel, by decide +kernel⟩
  have few : ∀ block ∈ (resolve halving.bindings halving.registry halving).program.init,
      ∀ n ∈ stmtsNodes block.body, n.FewArguments := by decide +kernel
  refine ⟨compiled, scene, here, succeeds, fails, differs, ?_⟩
  obtain ⟨raster, bound, made, -, source, destination⟩ := here
  have reached : Reachable compiled.program scene :=
    .bindDestination (.bindSource (.create .empty) source) destination
  obtain ⟨-, -, -, restored⟩ := start_isolated made halving.stateless reached 99
  exact (restored _ (Or.inr (Or.inl few))).2

/-- A script that calls a function of 256 arguments in its init block. Its body never comes to the call of
a function of 257 arguments.
-/
def crammed : Program where
  span := .none
  init := some {
    span := .none
    body := [.expr (.call .none "most" (List.replicate 256 (.literal .none .one)) none)] }
  body := [.ifThen .none (.literal .none .zero) (.expr (.assign .none "out" none
    (.call .none "all" (List.replicate 257 (.literal .none .one)) none) none))]

/-- The functions of the script. -/
def crammed.functions : Registry where
  functions := [("most", 256), ("all", 257)].map fun (name, arity) =>
    { name, arity, body := .fixed fun args => .ok (.ofInt args.length) }

/-- The program of the script. -/
def crammed.built : Except CompileError Compiled :=
  compileScript { source := [], program := crammed } [⟨"out", .destination⟩] crammed.functions .bytecode

/-- A call of 256 arguments needs more room than its chunk says. So the init block crashes with a new
stack, and comes to its end with the larger one that an evaluation leaves.
-/
theorem crammed_crashes
    : ∃ compiled, crammed.built = .ok compiled
      ∧ ((create compiled.program .empty).start 999).1.toBool = false
      ∧ ((((create compiled.program .empty).start 999).2.evaluated [(999, 0, 0, 0)]).start
          999).1.toBool = true := by
  have outcome : crammed.built.toOption.map (fun compiled =>
      (((create compiled.program .empty).start 999).1.toBool,
        ((((create compiled.program .empty).start 999).2.evaluated [(999, 0, 0, 0)]).start
          999).1.toBool)) = some (false, true) := by
    decide +kernel
  -- The program is large: nothing of it is looked at below.
  generalize crammed.built = built at outcome
  cases built with
  | error error => cases outcome
  | ok compiled =>
    obtain ⟨fails, succeeds⟩ := Prod.mk.inj (Option.some.inj outcome)
    exact ⟨compiled, rfl, fails, succeeds⟩

end MapAlgebra
