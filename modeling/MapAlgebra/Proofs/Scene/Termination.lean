import MapAlgebra.Proofs.Code.Rounds
import MapAlgebra.Proofs.Scene.Locality

/-! Scripts come to an end. With a limit of rounds, whatever the values of the rasters and the tests of
the loops are, the init block and the body of an accepted script end after a number of steps that the
limit and the size of the code bound.
-/

namespace MapAlgebra

open EvalM (Concludes)

namespace Code

/-- The fuel that is enough for code with a limit of rounds. A statement needs fuel for the rounds of
its loops only, and the machine for every instruction.
-/
def enoughFuel (limit : Nat) : Code → Nat
  | .tree _ => limit + 1
  | .chunk c => (limit + 1) * (c.code.size + 1)

variable {table : SymbolTable} {body : List Stmt} {code : Code}

theorem Codes.concludes (codes : Codes table body code) {env} (inside : env.InLimit)
    : Concludes code.run (code.enoughFuel env.loopLimit) env := by
  cases codes with
  | tree => exact Eval.concludes_stmts body inside
  | chunk lowered => exact Machine.concludes_chunk lowered inside

/-- The chunk of statements leads backward only where a round is counted. -/
theorem Codes.guarded {chunk} (codes : Codes table body (.chunk chunk))
    : Machine.Guarded chunk := by
  cases codes with
  | chunk lowered => exact Machine.guarded_chunk lowered

end Code

namespace Scene

/-- A run comes to one end, whatever fuel it has beyond what is enough. Its loops have made no more
rounds in all than the limit, unless it was stopped at the first round past the limit.
-/
def EndsWithin (limit enough : Nat) (run : (fuel : Nat) → Except Stop Unit × Scene) : Prop :=
  ∃ outcome, (∀ fuel, enough ≤ fuel → run fuel = outcome) ∧ outcome.1 ≠ .error .unfinished
    ∧ 0 ≤ outcome.2.env.iterations
    ∧ (outcome.2.env.iterations ≤ limit
      ∨ outcome.2.env.iterations = limit + 1
        ∧ ∃ e, outcome.1 = .error (.error e) ∧ e.fault = .loopLimit limit)

theorem EndsWithin.eq_of_le {limit enough fuel more run} (ends : EndsWithin limit enough run)
    (satisfied : enough ≤ fuel) (larger : fuel ≤ more)
    : run more = run fuel := by
  obtain ⟨outcome, same, -⟩ := ends
  rw [same more (Nat.le_trans satisfied larger), same fuel satisfied]

theorem endsWithin_run (scene : Scene) (env) {action run : (fuel : Nat) → EvalM Unit} {enough}
    (concludes : Concludes run enough env)
    (starts : ∀ fuel, (action fuel).run scene.env = (run fuel).run env) (inside : env.InLimit)
    : EndsWithin env.loopLimit enough fun fuel => scene.run (action fuel) := by
  obtain ⟨result, finished, counted, same⟩ := concludes
  have within := counted.within inside
  have limit := counted.limit
  have low := Int.le_trans inside.low (counted.grows inside)
  cases result with
  | ok a env' =>
    refine ⟨(.ok a, { scene with env := env' }), fun fuel more => ?_, (by cases ·), low, Or.inl ?_⟩
    · simp only [Scene.run, starts, same fuel more]
    · rcases within with few | ⟨e, env'', stopped, -⟩
      · exact few
      · cases stopped
  | error stop env' =>
    refine ⟨(.error stop, { scene with env := env' }), fun fuel more => ?_, fun left => ?_, low, ?_⟩
    · simp only [Scene.run, starts, same fuel more]
    · cases left
      exact finished env' rfl
    · rcases within with few | ⟨e, env'', stopped, fault, past⟩
      · exact Or.inl few
      · cases stopped
        have limit : env'.loopLimit = env.loopLimit := limit
        rw [limit] at fault past
        exact Or.inr ⟨past, e, rfl, fault⟩

end Scene

/-- With a limit of rounds that the count can pass, every accepted script comes to an end. In the code of
the machine jumps lead forward, and what leads backward is counted. The init block and the body end in
every scene, after no more rounds of loops in all than the limit or with the fault that says so.
-/
theorem loops_end {script : Script} {bindings : List Binding} {registry : Registry}
    {strategy : Strategy} {compiled : Compiled}
    (made : compileScript script bindings registry strategy = .ok compiled)
    : (∀ chunk, .chunk chunk ∈ compiled.program.init.toList ++ [compiled.program.body]
        → Machine.Guarded chunk)
      ∧ ∀ scene : Scene, scene.program = compiled.program → ∀ n, scene.env.loopLimit = n → 0 < n
        → n < 2 ^ 63 - 1
        → Scene.EndsWithin n (compiled.program.init.elim 0 (·.enoughFuel n)) scene.start
          ∧ ∀ x y band,
            Scene.EndsWithin n (compiled.program.body.enoughFuel n) (scene.evaluate · x y band) := by
  obtain ⟨-, -, coded, -⟩ := compileScript_eq_ok made
  obtain ⟨init, body⟩ := Strategy.code_eq_ok coded
  refine ⟨fun chunk member => ?_, ?_⟩
  · simp only [List.mem_append, Option.mem_toList, List.mem_singleton] at member
    rcases member with member | same
    · obtain ⟨block, -, codes⟩ := exists_of_rel init member
      exact codes.guarded
    · rw [← same] at body
      exact body.guarded
  · rintro scene runs n rfl limited passable
    rw [← runs] at init body ⊢
    refine ⟨?_, fun x y band => ?_⟩
    · have starts := scene.program.run_start
      cases given : scene.program.init with
      | none =>
        rw [given] at starts
        exact scene.endsWithin_run (Executable.startEnv scene.env) (EvalM.concludes_pure () _)
          (starts · scene.env) ⟨limited, passable, Int.le_refl 0, Int.natCast_nonneg _⟩
      | some code =>
        rw [given] at starts
        obtain ⟨block, -, codes⟩ := exists_of_rel init given
        have inside : (Executable.startEnv scene.env).InLimit :=
          ⟨limited, passable, Int.le_refl 0, Int.natCast_nonneg _⟩
        exact scene.endsWithin_run (Executable.startEnv scene.env) (codes.concludes inside)
          (starts · scene.env) inside
    · have inside : (scene.program.pixelEnv scene.env x y band).InLimit :=
        ⟨limited, passable, Int.le_refl 0, Int.natCast_nonneg _⟩
      exact scene.endsWithin_run (scene.program.pixelEnv scene.env x y band) (body.concludes inside)
        (scene.program.run_evaluate · x y band scene.env) inside

theorem loops_end_counting
    : ∃ compiled scene, counting.Staged .bytecode compiled scene
      ∧ ∀ fuel, 200 ≤ fuel
        → ((scene.withLoopLimit 2).evaluate fuel 0 0 0).1
            = .error (.error { image := "", x := 0, y := 0, band := 0, fault := .loopLimit 2 })
          ∧ ((scene.withLoopLimit 3).evaluate fuel 0 0 0).1 = .ok () := by
  obtain ⟨compiled, scene, here, made, runs, enough, enough', fault, ended⟩ : ∃ compiled scene,
      counting.Staged .bytecode compiled scene
      ∧ compileScript { source := [], program := counting } halving.bindings .empty .bytecode
        = .ok compiled
      ∧ scene.program = compiled.program
      ∧ compiled.program.body.enoughFuel 2 ≤ 200 ∧ compiled.program.body.enoughFuel 3 ≤ 200
      ∧ ((scene.withLoopLimit 2).evaluate 200 0 0 0).1
        = .error (.error { image := "", x := 0, y := 0, band := 0, fault := .loopLimit 2 })
      ∧ ((scene.withLoopLimit 3).evaluate 200 0 0 0).1 = .ok () :=
    ⟨_, _, ⟨_, _, _, rfl, rfl, rfl, rfl, rfl⟩, by rfl, by rfl, by decide +kernel, by decide +kernel,
      by decide +kernel, by decide +kernel⟩
  obtain ⟨-, ends⟩ := loops_end made
  obtain ⟨-, stopped⟩ := ends (scene.withLoopLimit 2) runs 2 rfl (by decide) (by decide)
  obtain ⟨-, finished⟩ := ends (scene.withLoopLimit 3) runs 3 rfl (by decide) (by decide)
  refine ⟨compiled, scene, here, fun fuel more => ⟨?_, ?_⟩⟩
  · exact (congrArg (·.1) ((stopped 0 0 0).eq_of_le enough more)).trans fault
  · exact (congrArg (·.1) ((finished 0 0 0).eq_of_le enough' more)).trans ended

/-- A limit that the count cannot pass stops no round. -/
theorem Env.not_spent_of_impassable {env : Env} (impassable : 2 ^ 63 - 1 ≤ env.loopLimit)
    : ¬ env.Spent := by
  rintro ⟨-, past⟩
  have last : env.counted.iterations < 2 ^ 63 := (wrap_bounds (env.iterations + 1)).2
  omega

/-- Under such a limit a loop whose test holds takes whatever fuel there is, by induction on it. -/
theorem Eval.repeating_unfinished (fuel : Nat) {env : Env} (impassable : 2 ^ 63 - 1 ≤ env.loopLimit)
    : ∃ env', (repeating (pure .one) (pure ()) fuel).run env = .error .unfinished env' := by
  induction fuel generalizing env with
  | zero => exact ⟨env, rfl⟩
  | succ fuel ih =>
    obtain ⟨env', unfinished⟩ := @ih env.counted impassable
    refine ⟨env', ?_⟩
    have counted := EvalM.run_tick_of_not_spent (Env.not_spent_of_impassable impassable)
    rw [repeating, pure_bind, if_pos (by decide), pure_bind, EStateM.run_bind, counted]
    exact unfinished

/-- A script with a loop that never ends. -/
def endless : Program where
  span := .none
  init := none
  body := [.loop .none (.literal .none .one) (.block .none [])]

theorem endless.run_body (fuel) {env} (impassable : 2 ^ 63 - 1 ≤ env.loopLimit)
    : ∃ env', ((Code.tree endless.body).run fuel).run env = .error .unfinished env' := by
  obtain ⟨env', unfinished⟩ := Eval.repeating_unfinished fuel impassable
  refine ⟨env', ?_⟩
  change (Eval.repeating (pure .one) (pure ()) fuel >>= fun _ => pure () : EvalM Unit).run env = _
  rw [EStateM.run_bind, unfinished]

/-- The last word is a limit that the count never passes, so it does not end the loop. -/
theorem endless_unfinished
    : ∃ compiled scene,
      compileScript { source := [], program := endless } [] .empty .tree = .ok compiled
      ∧ (Scene.create compiled.program .empty).withLoopLimit (2 ^ 63 - 1) = scene
      ∧ ∀ fuel x y band, (scene.evaluate fuel x y band).1 = .error .unfinished := by
  obtain ⟨compiled, scene, made, set, body⟩ : ∃ compiled scene,
      compileScript { source := [], program := endless } [] .empty .tree = .ok compiled
      ∧ (Scene.create compiled.program .empty).withLoopLimit (2 ^ 63 - 1) = scene
      ∧ scene.program.body = .tree endless.body := ⟨_, _, rfl, rfl, rfl⟩
  refine ⟨compiled, scene, made, set, fun fuel x y band => ?_⟩
  have limit : scene.env.loopLimit = 2 ^ 63 - 1 := by
    rw [← set]
    exact (rfl : (2 ^ 63 - 1 : Int).toNat = 2 ^ 63 - 1)
  obtain ⟨env, unfinished⟩ := @endless.run_body fuel (scene.program.pixelEnv scene.env x y band)
    (Nat.le_of_eq limit.symm)
  rw [Scene.evaluate, Scene.run, Executable.run_evaluate, body, unfinished]

end MapAlgebra
