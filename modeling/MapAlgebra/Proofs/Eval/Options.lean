import MapAlgebra.Proofs.Eval.Composition
import MapAlgebra.Proofs.Eval.Operations

/-! The options of a run: how many rounds its loops may take, and what a read outside of a raster gives.
A run with options that forbid less goes the same way as the run without them, up to the place where
that one is stopped by an option.
-/

namespace MapAlgebra

/-- The options of a run. -/
structure Options where
  outside : Option Sample
  loopLimit : Nat

/-- The options of a state. -/
def Env.options (env : Env) : Options :=
  { outside := env.outside, loopLimit := env.loopLimit }

/-- The state with other options. -/
def Env.withOptions (env : Env) (o : Options) : Env :=
  { env with outside := o.outside, loopLimit := o.loopLimit }

namespace Options

/-- Options that forbid less: reads outside of a raster may get a value, and the limit of rounds may become
larger or be taken away.
-/
structure Relaxes (o o' : Options) : Prop where
  outside : o'.outside = o.outside ∨ o.outside = none
  loopLimit : o'.loopLimit = o.loopLimit
    ∨ 0 < o.loopLimit ∧ (o'.loopLimit = 0 ∨ o.loopLimit < o'.loopLimit)

/-- The stops that are due to an option which has changed. -/
inductive Lifts (o o' : Options) : Stop → Prop where
  | loopLimit {x y band} (changed : o'.loopLimit ≠ o.loopLimit)
    : Lifts o o' (.error { image := "", x, y, band, fault := .loopLimit o.loopLimit })
  | outside {image x y band bounds bands}
    (changed : o'.outside ≠ o.outside)
    : Lifts o o' (.error { image, x, y, band, fault := .image (.outside image bounds bands) })

end Options

namespace EvalM

variable {α β : Type} {o o' : Options}

/-- A run with other options ends as the run without them: with the same value or stop, and with the same
state apart from the options. If the run without them is stopped by an option that has changed, the other
one may end in any way.
-/
inductive Follows (o o' : Options)
    : EStateM.Result Stop Env α → EStateM.Result Stop Env α → Prop where
  | ok {a env env'} (kept : env.options = o) (same : env' = env.withOptions o')
    : Follows o o' (.ok a env) (.ok a env')
  | error {stop env env'} (kept : env.options = o) (same : env' = env.withOptions o')
    : Follows o o' (.error stop env) (.error stop env')
  | lifted {stop env result} (lifts : o.Lifts o' stop) : Follows o o' (.error stop env) result

/-- With other options an evaluation goes the same way. -/
def Lockstep (o o' : Options) (m : EvalM α) : Prop :=
  ∀ env : Env, env.options = o → Follows o o' (m.run env) (m.run (env.withOptions o'))

namespace Lockstep

theorem of_free {m : EvalM α} (free : Free { outside := true, loopLimit := true } m)
    : Lockstep o o' m := by
  intro env given
  subst given
  rw [show m.run (env.withOptions o') = _ from free env (env.withOptions o')]
  -- A run is the same when the options that it finds are put back, so it leaves them.
  have kept : m.run env = _ := free env env
  cases ran : m.run env with
  | ok a env' =>
    rw [ran, exchange, EStateM.Result.ok.injEq] at kept
    exact .ok ((congrArg Env.options kept.2).trans rfl) rfl
  | error stop env' =>
    rw [ran, exchange, EStateM.Result.error.injEq] at kept
    exact .error ((congrArg Env.options kept.2).trans rfl) rfl

theorem bind {m} {next : α → EvalM β} (first : Lockstep o o' m)
    (later : ∀ a, Lockstep o o' (next a))
    : Lockstep o o' (m >>= next) := by
  intro env given
  have follows := first env given
  rw [EStateM.run_bind, EStateM.run_bind]
  generalize m.run env = result, m.run (env.withOptions o') = result' at follows ⊢
  cases follows with
  | ok kept same =>
    subst same
    exact later _ _ kept
  | error kept same => exact .error kept same
  | lifted lifts => exact .lifted lifts

/-- A round that is one too many is one of the stops that another limit lifts. Any other round is counted
in the same way.
-/
theorem tick (relaxes : o.Relaxes o') : Lockstep o o' EvalM.tick := by
  intro env given
  subst given
  have limits : o'.loopLimit = env.loopLimit
      ∨ 0 < env.loopLimit ∧ (o'.loopLimit = 0 ∨ env.loopLimit < o'.loopLimit) := relaxes.loopLimit
  have spent' : (env.withOptions o').Spent
      ↔ 0 < o'.loopLimit ∧ o'.loopLimit < env.counted.iterations :=
    Iff.rfl
  by_cases spent : env.Spent
  · rw [run_tick_of_spent spent]
    by_cases same : o'.loopLimit = env.loopLimit
    · rw [run_tick_of_spent (spent'.mpr (same ▸ spent)),
        show (env.withOptions o').loopLimit = env.loopLimit from same]
      exact .error rfl (by simp only [Env.withOptions, Env.counted, same])
    · exact .lifted (.loopLimit same)
  · have within : ¬ (env.withOptions o').Spent := by
      rw [Env.Spent] at spent
      rw [spent']
      omega
    rw [run_tick_of_not_spent spent, run_tick_of_not_spent within]
    exact .ok rfl rfl

/-- A read outside of a raster is one of the stops that a value for such reads lifts. Any other read gives
the same.
-/
theorem readAt (relaxes : o.Relaxes o') (i : Nat) (x y band : Int)
    : Lockstep o o' (EvalM.readAt i x y band) := by
  intro env given
  subst given
  have values : o'.outside = env.outside ∨ env.outside = none := relaxes.outside
  rw [run_readAt, run_readAt]
  simp only [Env.withOptions]
  cases env.images[i]? with
  | none => exact .error rfl rfl
  | some slot =>
    dsimp only
    cases readable slot with
    | none => exact .error rfl rfl
    | some raster =>
      dsimp only
      split
      · cases raster.get? x y band with
        | none => exact .error rfl rfl
        | some v => exact .ok rfl rfl
      · cases before : env.outside with
        | none =>
          cases after : o'.outside with
          | none => exact .error rfl (by rw [Env.withOptions, after])
          | some v => exact .lifted (.outside (by simp [Env.options, before, after]))
        | some v =>
          have after : o'.outside = some v := by simpa [before] using values
          rw [after]
          exact .ok rfl (by rw [Env.withOptions, after])

theorem readImage (relaxes : o.Relaxes o') (i) : Lockstep o o' (EvalM.readImage i) :=
  fun env given => readAt relaxes i env.x env.y env.band env given

end Lockstep

end EvalM

namespace Eval

open EvalM (Lockstep)

variable {o o' : Options}

theorem composes_lockstep (relaxes : o.Relaxes o') : Composes fun _ => Lockstep o o' where
  pure := fun a => .of_free (.pure a)
  bind := .bind
  tick := .tick relaxes
  unfinished := .of_free (.stop .unfinished)

theorem lockstep_load (relaxes : o.Relaxes o') (symbol) : Lockstep o o' (load symbol) := by
  refine .bind (.of_free (.orCrash symbol)) fun s => ?_
  split
  · exact .readImage relaxes s.slot
  · exact .of_free (.readVar s.slot)

theorem lockstep_store (symbol v) : Lockstep o o' (store symbol v) := by
  refine .bind (.of_free (.orCrash symbol)) fun s => ?_
  split
  · exact .of_free (.writeImage s.slot v)
  · exact .of_free (.writeVar s.slot v)

/-- Every node goes the same way, by cases on the node. -/
theorem lockstep_node (relaxes : o.Relaxes o') (n : Expr) : n.Runs fun _ => Lockstep o o' := by
  cases n with
  | literal | binary | unary => trivial
  | read span name symbol => exact lockstep_load relaxes symbol
  | assign span target step value symbol | update span target decrement before symbol =>
    exact ⟨lockstep_load relaxes symbol, lockstep_store symbol⟩
  | builtin span name which args => exact .of_free (.builtin which)
  | call span name args function =>
    exact (composes_lockstep relaxes).runs_call fun vs =>
      .bind (.of_free (.orCrash function)) fun f => .of_free (.call f vs)

theorem lockstep_stmts (relaxes : o.Relaxes o') (fuel body) : Lockstep o o' (stmts fuel body) :=
  (composes_lockstep relaxes).stmts fuel body fun n _ => lockstep_node relaxes n

end Eval

end MapAlgebra
