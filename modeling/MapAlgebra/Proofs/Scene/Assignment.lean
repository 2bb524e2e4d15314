import MapAlgebra.Proofs.Code.Assignment
import MapAlgebra.Proofs.Scene.Evaluation
import MapAlgebra.Proofs.Scope.Declaration

/-! Variables of accepted scripts are stored before they are loaded. Zero, from which every variable
starts, is then never seen.
-/

namespace MapAlgebra

open Watch (Covered Mirrors Safe)

/-- Runs the code of an entry point and notes what it does with variables. -/
def Code.watch (fuel : Nat) : Code → WatchM Unit
  | .chunk c => Watch.run c fuel
  | .tree body => Watch.stmts fuel body

theorem Code.mirrors_watch (fuel) (code : Code) : Mirrors (code.watch fuel) (code.run fuel) := by
  cases code with
  | chunk c => exact Watch.mirrors_run c fuel
  | tree body => exact Watch.mirrors_stmts fuel body

/-- Both codes of statements load only what the statements may load. -/
theorem Code.Codes.safe_watch {table body code known before} (codes : Codes table body code)
    (definite : stmtsDefinite before body) (fuel : Nat)
    : Safe known before (before ∪ stmtsStored body) (code.watch fuel) := by
  cases codes with
  | tree => exact Watch.safe_stmts fuel body definite
  | chunk lowered => exact Watch.safe_chunk lowered definite fuel

namespace Executable

variable {program : Executable} {p : Program} {known : Set Nat} {table : SymbolTable}

/-- Sets every variable to zero and runs the init block, watched. -/
def watchStart (program : Executable) (fuel : Nat) : WatchM Unit := do
  Watch.unnoted (modify startEnv)
  match program.init with
  | none => pure ()
  | some code => code.watch fuel

/-- Runs the body for one pixel and band, watched. -/
def watchEvaluate (program : Executable) (fuel : Nat) (x y band : Int) : WatchM Unit := do
  Watch.unnoted (modify (program.pixelEnv · x y band))
  program.body.watch fuel

theorem mirrors_watchStart (program : Executable) (fuel : Nat)
    : Mirrors (program.watchStart fuel) (program.start fuel) := by
  intro w
  rw [run_start, watchStart]
  cases program.init with
  | none => rfl
  | some code => exact code.mirrors_watch fuel { w with env := startEnv w.env }

theorem mirrors_watchEvaluate (program : Executable) (fuel : Nat) (x y band)
    : Mirrors (program.watchEvaluate fuel x y band) (program.evaluate fuel x y band) := by
  intro w
  rw [run_evaluate]
  exact program.body.mirrors_watch fuel { w with env := program.pixelEnv w.env x y band }

/-- The init block loads only what it has stored. -/
theorem safe_watchStart
    (init : Option.Rel (fun block => Code.Codes table block.body) p.init program.init)
    (definite : stmtsDefinite ∅ p.initBody) (fuel : Nat)
    : Safe ∅ ∅ (stmtsStored p.initBody) (program.watchStart fuel) := by
  refine (Safe.unnoted _).bind fun _ => ?_
  unfold Program.initBody at definite ⊢
  rcases rel_cases init with ⟨none, none'⟩ | ⟨block, code, given, coded, codes⟩
  · rw [none, none']
    exact .pure ()
  · rw [given] at definite ⊢
    rw [coded]
    exact Set.empty_union (stmtsStored block.body) ▸ codes.safe_watch definite fuel

/-- The body loads only what is known or what it has stored. -/
theorem safe_watchEvaluate (body : program.body.Codes table p.body)
    (definite : stmtsDefinite known p.body) (fuel : Nat) (x y band : Int)
    : Safe known known (known ∪ stmtsStored p.body) (program.watchEvaluate fuel x y band) :=
  (Safe.unnoted _).bind fun _ => body.safe_watch definite fuel

end Executable

namespace Scene

variable {scene scene' : Scene} {p : Program} {fuel : Nat}

/-- What a start of the scene does with variables, the newest first. -/
def startHistory (scene : Scene) (fuel : Nat) : List Access :=
  (Watch.left ((scene.program.watchStart fuel).run { env := scene.env, history := [] })).history

/-- What an evaluation at a pixel and band does with variables, the newest first. -/
def evaluateHistory (scene : Scene) (fuel : Nat) (x y band : Int) : List Access :=
  (Watch.left ((scene.program.watchEvaluate fuel x y band).run
    { env := scene.env, history := [] })).history

/-- The variables that last and that a start of the scene stores. -/
def startedSlots (scene : Scene) (table : SymbolTable) (fuel : Nat) : Set Nat :=
  { slot | slot ∈ table.persistentSlots ∧ .store slot ∈ scene.startHistory fuel }

/-- The scenes that come from a scene by evaluations. -/
inductive Evaluated (scene : Scene) : Scene → Prop where
  | refl : Evaluated scene scene
  | evaluate {scene' : Scene} (before : Evaluated scene scene') (fuel : Nat) (x y band : Int)
    : Evaluated scene (scene'.evaluate fuel x y band).2

theorem Evaluated.program_eq (evaluated : Evaluated scene scene') : scene'.program = scene.program := by
  induction evaluated with
  | refl => rfl
  | evaluate before fuel x y band ih => exact (program_run _ _).trans ih

section

variable {table : SymbolTable}
  (init : Option.Rel (fun block => Code.Codes table block.body) p.init scene.program.init)
include init

theorem covered_startHistory (definite : stmtsDefinite ∅ p.initBody) (fuel)
    : Covered ∅ (scene.startHistory fuel) := by
  have safe := Executable.safe_watchStart init definite fuel { env := scene.env, history := [] }
  exact (safe Watch.covered_nil fun slot member => Or.inl member).1

theorem store_mem_startHistory (definite : stmtsDefinite ∅ p.initBody)
    (started : (scene.start fuel).1 = .ok ()) {slot} (stored : slot ∈ stmtsStored p.initBody)
    : .store slot ∈ scene.startHistory fuel := by
  have safe := Executable.safe_watchStart init definite fuel { env := scene.env, history := [] }
    Watch.covered_nil fun slot member => Or.inl member
  have same := scene.program.mirrors_watchStart fuel { env := scene.env, history := [] }
  unfold startHistory
  unfold start Scene.run at started
  rw [← same] at started
  cases ran : (scene.program.watchStart fuel).run { env := scene.env, history := [] } with
  | ok a w => exact (safe.2 a w ran slot stored).resolve_left (Set.notMem_empty slot)
  | error stop w =>
    rw [ran] at started
    cases started

end

theorem covered_evaluateHistory {known table} (body : scene.program.body.Codes table p.body)
    (definite : stmtsDefinite known p.body) (fuel x y band)
    : Covered known (scene.evaluateHistory fuel x y band) := by
  have safe := Executable.safe_watchEvaluate body definite fuel x y band
    { env := scene.env, history := [] }
  exact (safe Watch.covered_nil fun slot member => Or.inl member).1

end Scene

variable {script : Script} {compiled : Compiled} {bindings : Bindings} {registry : Registry}
  {strategy : Strategy}

theorem symbols_of_compileScript (made : compileScript script bindings registry strategy = .ok compiled)
    : compiled.symbols = (resolve bindings registry script.program).table := by
  obtain ⟨valid, accepted, coded, -⟩ := compileScript_eq_ok made
  simp only [compileScript, valid, accepted, coded] at made
  exact (congrArg (·.symbols) (Except.ok.inj made)).symm

/-- Accepted scripts that are looked at in the order in which they are run load only variables that hold
values. The init block has stored before what it loads. Behind a start that comes to an end, and after
any evaluations, an evaluation has stored before what it loads, or it is a variable that lasts and that
the start has stored.

The histories are those of the runs themselves: watching changes nothing.
-/
theorem loads_follow_stores (made : compileScript script bindings registry strategy = .ok compiled)
    (inOrder : ∀ n ∈ stmtsNodes (resolve bindings registry script.program).program.statements,
      n.InOrder)
    {scene scene1 scene2 : Scene} (own : scene.program = compiled.program) {fuel : Nat}
    (started : scene.start fuel = (.ok (), scene1)) (evaluated : scene1.Evaluated scene2)
    : Mirrors (scene.program.watchStart fuel) (scene.program.start fuel)
      ∧ Covered ∅ (scene.startHistory fuel)
      ∧ ∀ fuel' x y band,
        Mirrors (scene2.program.watchEvaluate fuel' x y band)
          (scene2.program.evaluate fuel' x y band)
        ∧ Covered (scene.startedSlots compiled.symbols fuel)
          (scene2.evaluateHistory fuel' x y band) := by
  obtain ⟨valid, accepted, coded, -⟩ := compileScript_eq_ok made
  have definite := definite_of_inOrder valid accepted inOrder
  obtain ⟨init, body⟩ := Strategy.code_eq_ok coded
  rw [← own] at init body
  have same : scene2.program = scene.program := by
    rw [evaluated.program_eq]
    exact (congrArg (·.2.program) started).symm.trans (Scene.program_run _ _)
  rw [← same] at body
  refine ⟨Executable.mirrors_watchStart _ fuel, Scene.covered_startHistory init definite.init fuel,
    fun fuel' x y band => ⟨Executable.mirrors_watchEvaluate _ fuel' x y band, ?_⟩⟩
  refine Scene.covered_evaluateHistory body (stmtsDefinite_mono ?_ _ definite.body) fuel' x y band
  rintro slot ⟨lasts, stored⟩
  rw [Scene.startedSlots, symbols_of_compileScript made]
  exact ⟨lasts, Scene.store_mem_startHistory init definite.init (congrArg (·.1) started) stored⟩

theorem loads_follow_stores_halving
    : (∀ n ∈ stmtsNodes halving.resolution.program.statements, n.InOrder)
      ∧ ∀ strategy ∈ [Strategy.tree, .bytecode], ∃ compiled scene,
        halving.Staged strategy compiled scene
        ∧ (scene.start 99).1 = .ok ()
        ∧ Covered ∅ (scene.startHistory 99)
        ∧ ((scene.start 99).2.evaluate 99 1 1 0).2.evaluateHistory 99 2 1 0
          = [.load 1, .load 0, .store 1, .load 1, .store 1]
        ∧ Covered (scene.startedSlots compiled.symbols 99)
          (((scene.start 99).2.evaluate 99 1 1 0).2.evaluateHistory 99 2 1 0) := by
  have inOrder : ∀ n ∈ stmtsNodes halving.resolution.program.statements, n.InOrder := by
    decide +kernel
  refine ⟨inOrder, fun strategy member => ?_⟩
  obtain ⟨compiled, scene, here, own, started, history⟩ : ∃ compiled scene,
      halving.Staged strategy compiled scene
      ∧ scene.program = compiled.program
      ∧ (scene.start 99).1 = .ok ()
      ∧ ((scene.start 99).2.evaluate 99 1 1 0).2.evaluateHistory 99 2 1 0
        = [.load 1, .load 0, .store 1, .load 1, .store 1] := by
    rcases List.mem_cons.mp member with rfl | member
    · exact ⟨_, _, ⟨_, _, rfl, rfl, rfl, rfl⟩, by rfl, by decide +kernel, by decide +kernel⟩
    · cases List.mem_singleton.mp member
      exact ⟨_, _, ⟨_, _, rfl, rfl, rfl, rfl⟩, by rfl, by decide +kernel, by decide +kernel⟩
  have ⟨raster, bound, made, _⟩ := here
  obtain ⟨-, covered, later⟩ := loads_follow_stores made inOrder own (Prod.ext started rfl)
    (.evaluate .refl 99 1 1 0)
  exact ⟨compiled, scene, here, started, covered, history, (later 99 2 1 0).2⟩

/-- A script that adds to a variable what it assigns to it for the first time. -/
def swelling : Program where
  span := .none
  init := none
  body := [
    .expr (.assign .none "a" (some .add) (.assign .none "a" none (.literal .none .one) none) none),
    .expr (.assign .none "out" none (.read .none "a" none) none)]

/-- The value of a compound assignment is looked at before its target, and the target is loaded before the
value is run. A script is accepted that loads a variable in which nothing was stored.
-/
theorem swelling_loads_unstored
    : ∃ compiled raster scene scene1,
        swelling.OnRaster .tree (.ofSize 3 2) 1 compiled raster scene
        ∧ (∀ n ∈ stmtsNodes (resolve [⟨"out", .destination⟩] .empty swelling).program.statements,
          n.AssignsSurely)
        ∧ scene.start 9 = (.ok (), scene1)
        ∧ scene1.evaluateHistory 9 0 0 0 = [.load 0, .store 0, .store 0, .load 0]
        ∧ ¬ Covered (scene.startedSlots compiled.symbols 9) (scene1.evaluateHistory 9 0 0 0) := by
  obtain ⟨compiled, raster, scene, scene1, here, started, history, nothing⟩ :
      ∃ compiled raster scene scene1, swelling.OnRaster .tree (.ofSize 3 2) 1 compiled raster scene
        ∧ scene.start 9 = (.ok (), scene1)
        ∧ scene1.evaluateHistory 9 0 0 0 = [.load 0, .store 0, .store 0, .load 0]
        ∧ compiled.symbols.persistentSlots = [] :=
    ⟨_, _, _, _, ⟨rfl, rfl, rfl⟩, rfl, rfl, rfl⟩
  refine ⟨compiled, raster, scene, scene1, here, by decide +kernel, started, history,
    fun covered => ?_⟩
  rcases covered [.load 0, .store 0, .store 0] 0 [] history with ⟨lasts, -⟩ | stored
  · rw [nothing] at lasts
    cases lasts
  · cases stored

end MapAlgebra
