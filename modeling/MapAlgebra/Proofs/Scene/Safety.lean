import MapAlgebra.Proofs.Code.Refinement
import MapAlgebra.Proofs.Scene.Reachable

/-! Accepted scripts do not go wrong. However a script is run, and whatever scene its program has come
to, with rasters for all images it stops early only for a cause that lies outside of the script.
-/

namespace MapAlgebra

variable {registry : Registry} {bindings : Bindings} {names : Names} {env env' : Env}

namespace Code

/-- The tables of a chunk are within reach of its operands; a tree has none. -/
def Addressable : Code → Prop
  | .chunk c => c.Addressable
  | .tree _ => True

instance (code : Code) : Decidable code.Addressable :=
  match code with
  | .chunk c => inferInstanceAs (Decidable c.Addressable)
  | .tree _ => .isTrue trivial

/-- Whenever code stops early, the state it starts from explains it. -/
def SafeFrom (registry : Registry) (env : Env) (code : Code) : Prop :=
  ∀ fuel stop env', (code.run fuel).run env = .error stop env' → Explained registry env stop

theorem safeFrom_tree {body} (ready : Ready names env)
    (resolved : ∀ n ∈ stmtsNodes body, n.Resolved names)
    : (Code.tree body).SafeFrom names.registry env := by
  intro fuel stop env' stopped
  have safe := Eval.safe_of_resolved ready fuel resolved env (.refl env)
  have ran : (Eval.stmts fuel body).run env = .error stop env' := stopped
  rw [ran] at safe
  exact safe.2

theorem eq_error_of_outcome? {result stop} (ended : outcome? result = some (.error stop, env))
    : ∃ env', result = .error stop env' := by
  cases result with
  | ok _ env' => exact nomatch ended
  | error stop' env' =>
    cases stop' with
    | unfinished => exact nomatch ended
    | _ =>
      cases ended
      exact ⟨env', rfl⟩

/-- Code with the meaning of safe code is safe: it stops for the same reasons, or is not finished. -/
theorem SafeFrom.of_sameMeaning {first second : Code} (safe : first.SafeFrom registry env)
    (same : first.SameMeaning second)
    : second.SafeFrom registry env := by
  intro fuel stop env' stopped
  by_cases unfinished : stop = .unfinished
  · rw [unfinished]
    exact .unfinished
  · have ended : second.EndsWith env (.error stop, env'.withStack #[]) := by
      refine ⟨fuel, ?_⟩
      rw [stopped]
      cases stop with
      | unfinished => exact (unfinished rfl).elim
      | _ => rfl
    obtain ⟨fuel', ended'⟩ := (same.outcomes env _).mpr ended
    obtain ⟨env'', stopped'⟩ := eq_error_of_outcome? ended'
    exact safe fuel' stop env'' stopped'

end Code

variable {locals : Array Symbol} {strategy : Strategy} {scene : Scene}

/-- The code of an accepted script is safe, whichever way it is to be run. -/
theorem Strategy.code_safeFrom {resolution : Resolution} {init body images}
    (resolved : Resolve.AllResolved images registry locals resolution.program)
    (coded : strategy.code resolution = .ok (init, body))
    (addressable : ∀ code ∈ init.toList ++ [body], code.Addressable)
    (ready : ∀ inInit, Ready { images, locals, registry, inInit } env)
    : (∀ code ∈ init, code.SafeFrom registry env) ∧ body.SafeFrom registry env := by
  cases strategy with
  | other number => cases coded
  | tree =>
    cases coded
    refine ⟨fun code member => ?_, Code.safeFrom_tree (ready false) resolved.body⟩
    obtain ⟨block, given, rfl⟩ := Option.map_eq_some_iff.mp member
    exact Code.safeFrom_tree (ready true) (resolved.init block given)
  | bytecode =>
    simp only [Strategy.code] at coded
    split at coded
    · next code lowered =>
      cases coded
      have chunks : ∀ chunk ∈ code.chunks, chunk.Addressable := by
        intro chunk member
        apply addressable (.chunk chunk)
        simpa [ScriptCode.chunks] using member
      have safe : Option.Rel (fun _ chunk => (Code.chunk chunk).SafeFrom registry env)
            resolution.program.init code.init
          ∧ (Code.chunk code.body).SafeFrom registry env := by
        apply lower_forall_chunks (fun _ chunk => (Code.chunk chunk).SafeFrom registry env)
          resolved lowered chunks
        intro inInit name body chunk lowered resolved addressable
        exact (Code.safeFrom_tree (ready inInit) resolved).of_sameMeaning
          (Machine.sameMeaning_chunk lowered resolved addressable)
      refine ⟨fun c member => ?_, safe.2⟩
      obtain ⟨chunk, given, rfl⟩ := Option.map_eq_some_iff.mp member
      cases init : resolution.program.init with
      | none =>
        rw [init, given] at safe
        cases safe.1
      | some block =>
        rw [init, given] at safe
        cases safe.1 with
        | some safe => exact safe
    · cases coded

/-- With nothing left to bind, an image has a raster for each of its roles. -/
theorem Scene.isSome_of_unbound (bound : scene.unbound = []) {slot}
    (member : slot ∈ scene.env.images)
    : (slot.role.isSource = true → slot.source.isSome)
      ∧ (slot.role.isDestination = true → slot.destination.isSome) := by
  have complete : Scene.missing slot = [] :=
    List.flatMap_eq_nil_iff.mp bound slot (Array.mem_toList_iff.mpr member)
  simpa [Scene.missing, Option.isSome_iff_ne_none] using complete

theorem Scene.Fits.ready {program inInit} (fits : scene.Fits program) (bound : scene.unbound = [])
    (images : program.images = bindings) (valid : bindings.error? = none) (dense : Dense locals)
    (count : program.varNames.length = locals.size)
    : Ready { images := Scope.imageSymbols bindings, locals, registry, inInit } scene.env := by
  subst images
  refine ⟨fun s isLocal => ?_, fun s isImage => ?_⟩
  · obtain ⟨slot, inside, rfl⟩ := Array.mem_iff_getElem.mp isLocal
    obtain ⟨slots, role⟩ := dense slot _ (Array.getElem?_eq_getElem inside)
    rw [role, slots, fits.vars, count]
    exact ⟨rfl, inside⟩
  · have image := Scope.isImage_imageSymbols valid s isImage
    obtain ⟨i, inside, rfl⟩ := List.mem_mapIdx.mp isImage
    obtain ⟨slot, here, -, role⟩ := fits.images i _ (List.getElem?_eq_getElem inside)
    obtain ⟨source, destination⟩ := Scene.isSome_of_unbound bound (Array.mem_of_getElem? here)
    refine ⟨image, slot, here, ?_, fun writes => ?_⟩
    · unfold EvalM.readable
      split
      · next isSource => exact source isSource
      · next notSource =>
        -- An image that is not read from a source has the other role.
        have role' := Bindings.hasRole_of_errorAfter? valid _ (List.getElem_mem inside)
        rw [← role] at role'
        exact destination (role'.resolve_left notSource)
    · rw [SymbolRole.isDestination_ofImage, ← role] at writes
      exact ⟨writes, destination writes⟩

theorem Ready.of_env (ready : Ready names env) (vars : env'.vars.size = env.vars.size)
    (images : env'.images = env.images)
    : Ready names env' := by
  refine ⟨?_, ?_⟩
  · rw [vars]
    exact ready.vars
  · rw [images]
    exact ready.images

/-- A script that compiles has valid bindings and no errors, and its program is what was made of it. -/
theorem compileScript_eq_ok {script compiled}
    (made : compileScript script bindings registry strategy = .ok compiled)
    : bindings.error? = none
      ∧ (resolve bindings registry script.program).problems.hasErrors = false
      ∧ strategy.code (resolve bindings registry script.program)
        = .ok (compiled.program.init, compiled.program.body)
      ∧ compiled.program.images = bindings
      ∧ compiled.program.varNames = (resolve bindings registry script.program).table.localNames := by
  unfold compileScript at made
  cases invalid : bindings.error? with
  | some error => exact nomatch (invalid ▸ made)
  | none =>
    simp only [invalid] at made
    cases errors : (resolve bindings registry script.program).problems.hasErrors with
    | true => exact nomatch (errors ▸ made)
    | false =>
      simp only [errors, Bool.false_eq_true, if_false] at made
      cases coded : strategy.code (resolve bindings registry script.program) with
      | error error =>
        rw [coded] at made
        exact nomatch made
      | ok code =>
        rw [coded] at made
        cases made
        exact ⟨rfl, rfl, rfl, rfl, rfl⟩

theorem Scene.eq_error_of_run {α : Type} {action : EvalM α} {stop}
    (stopped : (scene.run action).1 = .error stop)
    : ∃ env', action.run scene.env = .error stop env' := by
  unfold Scene.run at stopped
  cases ran : action.run scene.env with
  | ok a env' =>
    rw [ran] at stopped
    exact nomatch stopped
  | error stop' env' =>
    rw [ran] at stopped
    cases stopped
    exact ⟨env', rfl⟩

/-- The state at another pixel and band. -/
def Env.movedTo (env : Env) (x y band : Int) : Env :=
  { env with x, y, band }

/-- Setting variables and counting rounds anew keeps the shape of a state at its pixel. -/
theorem sameShape_startEnv (env : Env) : (env.movedTo 0 0 0).SameShape (Executable.startEnv env) :=
  ⟨rfl, rfl, rfl, by simp [Executable.startEnv, Env.movedTo], rfl, rfl, rfl,
    fun _ slot here => ⟨slot, here, .refl slot⟩⟩

theorem sameShape_pixelEnv (program : Executable) (env : Env) (x y band)
    : (env.movedTo x y band).SameShape (program.pixelEnv env x y band) :=
  ⟨rfl, rfl, rfl, Executable.size_freshVars program.persistent env.vars, rfl, rfl, rfl,
    fun _ slot here => ⟨slot, here, .refl slot⟩⟩

/-- A script that resolves without errors carries all it needs. However it is compiled, and whatever
scene its program has come to, with a raster for every role of an image the init block and the body
stop early only for a cause that the scene explains. A new raster is none, unless the number of its
samples is past the words.
-/
theorem accepted_explained (script : Script) (valid : bindings.error? = none)
    (accepted : (resolve bindings registry script.program).problems.hasErrors = false)
    : Resolve.AllResolved (Scope.imageSymbols bindings) registry
        (resolve bindings registry script.program).table.locals
        (resolve bindings registry script.program).program
      ∧ (∀ strategy compiled, compileScript script bindings registry strategy = .ok compiled
        → (∀ code ∈ compiled.program.init.toList ++ [compiled.program.body], code.Addressable)
        → ∀ scene, Scene.Reachable compiled.program scene → scene.unbound = []
        → (∀ fuel stop, (scene.start fuel).1 = .error stop
            → Explained registry (scene.env.movedTo 0 0 0) stop)
          ∧ ∀ fuel x y band stop, (scene.evaluate fuel x y band).1 = .error stop
            → Explained registry (scene.env.movedTo x y band) stop)
      ∧ ∀ bounds bands raster, Raster.create bounds bands = .ok raster
        → (raster.bounds.maxY - raster.bounds.minY) * (raster.bounds.maxX - raster.bounds.minX)
          * raster.bands < 2 ^ 63
        → ∀ x y band, raster.contains x y band = true → raster.HasPlace x y band := by
  obtain ⟨resolved, dense⟩ := resolve_allResolved registry valid accepted
  refine ⟨resolved, fun strategy compiled made addressable scene reached bound => ?_,
    fun _ _ _ made small _ _ _ => Raster.hasPlace_of_create made small⟩
  obtain ⟨-, -, coded, images, varNames⟩ := compileScript_eq_ok made
  have fits := reached.fits
  have ready (inInit : Bool)
      : Ready { images := Scope.imageSymbols bindings, registry, inInit
                locals := (resolve bindings registry script.program).table.locals } scene.env :=
    fits.ready bound images valid dense (by simp [varNames, SymbolTable.localNames])
  constructor
  · intro fuel stop stopped
    obtain ⟨env', stopped⟩ := Scene.eq_error_of_run stopped
    have safe := Strategy.code_safeFrom resolved coded addressable fun inInit =>
      (ready inInit).of_env (sameShape_startEnv scene.env).vars rfl
    rw [Executable.run_start, fits.runs] at stopped
    cases init : compiled.program.init with
    | none =>
      rw [init] at stopped
      exact nomatch stopped
    | some code =>
      rw [init] at stopped
      exact (safe.1 code init fuel stop env' stopped).of_sameShape (sameShape_startEnv scene.env)
  · intro fuel x y band stop stopped
    obtain ⟨env', stopped⟩ := Scene.eq_error_of_run stopped
    have same := sameShape_pixelEnv compiled.program scene.env x y band
    have safe := Strategy.code_safeFrom resolved coded addressable fun inInit =>
      (ready inInit).of_env same.vars rfl
    rw [Executable.run_evaluate, fits.runs] at stopped
    exact (safe.2 fuel stop env' stopped).of_sameShape same

/-- The script of the halving is compiled, and rasters are bound to its images. -/
def halving.Staged (strategy : Strategy) (compiled : Compiled) (scene : Scene) : Prop :=
  ∃ raster bound,
    compileScript { source := [], program := halving } halving.bindings halving.registry strategy
      = .ok compiled
    ∧ Raster.create (.ofSize 3 2) 1 = .ok raster
    ∧ (Scene.create compiled.program .empty).bindSource "in" (some raster) = .ok bound
    ∧ bound.bindDestination "out" (some raster) = .ok scene

theorem accepted_explained_halving
    : halving.bindings.error? = none ∧ halving.resolution.problems.hasErrors = false
      ∧ ∃ compiled scene, halving.Staged .bytecode compiled scene ∧ scene.unbound = []
        ∧ ∀ fuel x y band stop, (scene.evaluate fuel x y band).1 = .error stop
          → Explained halving.registry (scene.env.movedTo x y band) stop := by
  obtain ⟨compiled, scene, here, addressable, complete⟩ : ∃ compiled scene,
      halving.Staged .bytecode compiled scene
      ∧ (∀ code ∈ compiled.program.init.toList ++ [compiled.program.body], code.Addressable)
      ∧ scene.unbound = [] :=
    ⟨_, _, ⟨_, _, rfl, rfl, rfl, rfl⟩, by decide +kernel, rfl⟩
  refine ⟨halving.valid, halving.accepted, compiled, scene, here, complete, ?_⟩
  obtain ⟨raster, bound, made, -, source, destination⟩ := here
  obtain ⟨-, explained, -⟩ :=
    accepted_explained { source := [], program := halving } halving.valid halving.accepted
  exact (explained .bytecode compiled made addressable scene
    (.bindDestination (.bindSource (.create .empty) source) destination) complete).2

/-- A script that writes one to each of some images. -/
def painting (images : List String) : Program where
  span := .none
  init := none
  body := images.map fun image => .expr (.assign .none image none (.literal .none .one) none)

/-- The script is compiled for an image to write to, and a raster of some shape is bound to that. -/
def Program.OnRaster (p : Program) (strategy : Strategy) (bounds : Rect) (bands : Int)
    (compiled : Compiled) (raster : Raster) (scene : Scene) : Prop :=
  compileScript { source := [], program := p } [⟨"out", .destination⟩] .empty strategy = .ok compiled
  ∧ Raster.create bounds bands = .ok raster
  ∧ (Scene.create compiled.program .empty).bindDestination "out" (some raster) = .ok scene

/-- A script that reads an image in each round of a loop. There are three rounds. -/
def counting : Program where
  span := .none
  init := none
  body := [
    .expr (.assign .none "i" none (.literal .none .zero) none),
    .loop .none
      (.binary .none (.arith .lt) (.update .none "i" false false none) (.literal .none (.ofInt 3)))
      (.expr (.assign .none "out" none (.read .none "in" none) none))]

/-- The script of the counting is compiled, and bound to a raster to write to that has a pixel more than the
one to read from.
-/
def counting.Staged (strategy : Strategy) (compiled : Compiled) (scene : Scene) : Prop :=
  ∃ inner outer bound,
    compileScript { source := [], program := counting } halving.bindings .empty strategy = .ok compiled
    ∧ Raster.create (.ofSize 1 1) 1 = .ok inner
    ∧ Raster.create (.ofSize 2 1) 1 = .ok outer
    ∧ (Scene.create compiled.program .empty).bindSource "in" (some inner) = .ok bound
    ∧ bound.bindDestination "out" (some outer) = .ok scene

/-- The number of samples of a raster may be past the words. Its store is then too short, and writing
within its bounds crashes.
-/
theorem painting_crashes
    : ∃ compiled raster scene,
        (painting ["out"]).OnRaster .bytecode (.ofSize (2 ^ 32) (2 ^ 32)) 1 compiled raster scene
        ∧ scene.unbound = []
        ∧ (scene.start 9).1 = .ok ()
        ∧ (scene.evaluate 9 0 0 0).1 = .error .crash :=
  ⟨_, _, _, ⟨rfl, rfl, rfl⟩, rfl, rfl, rfl⟩

end MapAlgebra
