import MapAlgebra.Proofs.Eval.Composition
import MapAlgebra.Proofs.Eval.Frame
import MapAlgebra.Proofs.Word

/-! The rounds of loops. Each of them is counted, and nothing else is. So with a limit of rounds every
evaluation of a script comes to an end, whatever the tests of its loops give. The count is a word, so
this needs a limit that the count can pass: the last word is none.
-/

namespace MapAlgebra

open EStateM

/-- The rounds so far are within a limit that the count can pass. -/
structure Env.InLimit (env : Env) : Prop where
  limited : 0 < env.loopLimit
  passable : env.loopLimit < 2 ^ 63 - 1
  low : 0 ≤ env.iterations
  high : env.iterations ≤ env.loopLimit

/-- Within such a limit the count does not wrap around. -/
theorem Env.InLimit.counted {env : Env} (inside : env.InLimit)
    : env.counted.iterations = env.iterations + 1 := by
  obtain ⟨-, passable, low, high⟩ := inside
  exact wrap_eq_self (by omega) (by omega)

namespace EvalM

variable {α β : Type} {rounds : Nat}

/-- A run has ended, and has counted no rounds. -/
inductive Uncounted (env : Env) : EStateM.Result Stop Env α → Prop where
  | ok {a env'} (iterations : env'.iterations = env.iterations)
    (limit : env'.loopLimit = env.loopLimit)
    : Uncounted env (.ok a env')
  | error {stop env'} (finished : stop ≠ .unfinished) (iterations : env'.iterations = env.iterations)
    (limit : env'.loopLimit = env.loopLimit)
    : Uncounted env (.error stop env')

theorem Uncounted.crash (env) : Uncounted env (.error .crash env : EStateM.Result Stop Env α) :=
  .error nofun rfl rfl

/-- An evaluation without loops. -/
def Loopless (m : EvalM α) : Prop :=
  ∀ env, Uncounted env (m.run env)

namespace Loopless

theorem pure (a : α) : Loopless (Pure.pure a : EvalM α) :=
  fun _ => .ok rfl rfl

theorem crash : Loopless (throw .crash : EvalM α) :=
  Uncounted.crash

theorem orCrash (a : Option α) : Loopless (EvalM.orCrash a) := by
  cases a with
  | none => exact crash
  | some a => exact pure a

theorem bind {m} {next : α → EvalM β} (first : Loopless m) (later : ∀ a, Loopless (next a))
    : Loopless (m >>= next) := by
  intro env
  have uncounted := first env
  rw [run_bind]
  cases ran : m.run env with
  | ok a env' =>
    rw [ran] at uncounted
    obtain ⟨iterations, limit⟩ := uncounted
    have after := later a env'
    dsimp only
    cases ran' : (next a).run env' with
    | ok b env'' =>
      rw [ran'] at after
      obtain ⟨iterations', limit'⟩ := after
      exact .ok (iterations'.trans iterations) (limit'.trans limit)
    | error stop env'' =>
      rw [ran'] at after
      obtain ⟨-, -⟩ | ⟨finished, iterations', limit'⟩ := after
      exact .error finished (iterations'.trans iterations) (limit'.trans limit)
  | error stop env' =>
    rw [ran] at uncounted
    obtain ⟨-, -⟩ | ⟨finished, iterations, limit⟩ := uncounted
    exact .error finished iterations limit

theorem readVar (slot) : Loopless (EvalM.readVar slot) := by
  intro env
  rw [run_readVar]
  split
  · exact .ok rfl rfl
  · exact .error nofun rfl rfl

theorem writeVar (slot v) : Loopless (EvalM.writeVar slot v) := by
  intro env
  rw [run_writeVar]
  split
  · exact .ok rfl rfl
  · exact .error nofun rfl rfl

theorem readAt (i x y band) : Loopless (EvalM.readAt i x y band) := by
  intro env
  simp only [run_readAt]
  repeat' split
  all_goals first | exact .ok rfl rfl | exact .error nofun rfl rfl

theorem writeAt (i x y band v) : Loopless (EvalM.writeAt i x y band v) := by
  intro env
  simp only [run_writeAt]
  repeat' split
  all_goals first | exact .ok rfl rfl | exact .error nofun rfl rfl

theorem readImage (i) : Loopless (EvalM.readImage i) :=
  fun env => readAt i env.x env.y env.band env

theorem writeImage (i v) : Loopless (EvalM.writeImage i v) :=
  fun env => writeAt i env.x env.y env.band v env

theorem builtin (which) : Loopless (EvalM.builtin which) := by
  intro env
  cases which <;> exact .ok rfl rfl

theorem call (f args) : Loopless (EvalM.call f args) := by
  intro env
  rw [run_call]
  split
  · exact .ok rfl rfl
  all_goals exact .error nofun rfl rfl

end Loopless

/-- The run has stopped at the first round past the limit. -/
def PastLimit (result : EStateM.Result Stop Env α) : Prop :=
  ∃ e env, result = .error (.error e) env ∧ e.fault = .loopLimit env.loopLimit
    ∧ env.iterations = env.loopLimit + 1

/-- The rounds of a run are counted. Within a limit there are no more than it allows, unless the run
stops at the first round past it. If the run is not finished, there were so many rounds at least.
-/
structure Counted (rounds : Nat) (env : Env) (result : EStateM.Result Stop Env α) : Prop where
  limit : (left result).loopLimit = env.loopLimit
  grows : env.InLimit → env.iterations ≤ (left result).iterations
  within : env.InLimit → (left result).iterations ≤ env.loopLimit ∨ PastLimit result
  unfinished : env.InLimit → ∀ env', result = .error .unfinished env'
    → env.iterations + rounds ≤ env'.iterations

/-- An evaluation counts the rounds of its loops. -/
def Counts (rounds : Nat) (m : EvalM α) : Prop :=
  ∀ env, Counted rounds env (m.run env)

/-- A run is finished if the limit does not allow for as many rounds. -/
theorem Counted.finished {env env'} {result : EStateM.Result Stop Env α}
    (counted : Counted rounds env result) (inside : env.InLimit) (enough : env.loopLimit < rounds)
    : result ≠ .error .unfinished env' := by
  intro unfinished
  have many := counted.unfinished inside env' unfinished
  have low := inside.low
  subst unfinished
  rcases counted.within inside with few | ⟨e, after, stopped, -⟩
  · have few : env'.iterations ≤ env.loopLimit := few
    omega
  · cases stopped

theorem Counted.stopped {env env' stop}
    (counted : Counted rounds env (.error stop env' : EStateM.Result Stop Env α))
    : Counted rounds env (.error stop env' : EStateM.Result Stop Env β) := by
  obtain ⟨limit, grows, within, unfinished⟩ := counted
  refine ⟨limit, grows, fun inside => ?_, fun inside env'' left => ?_⟩
  · refine (within inside).imp_right fun ⟨e, after, stopped, past⟩ => ?_
    cases stopped
    exact ⟨e, env', rfl, past⟩
  · cases left
    exact unfinished inside env' rfl

/-- What runs on after a counted run is still within the limit. -/
theorem Counted.inLimit {env env'} {a : α} (counted : Counted rounds env (.ok a env'))
    (inside : env.InLimit)
    : env'.InLimit := by
  have limit : env'.loopLimit = env.loopLimit := counted.limit
  have grows : env.iterations ≤ env'.iterations := counted.grows inside
  rcases counted.within inside with few | ⟨e, after, stopped, -⟩
  · exact ⟨limit ▸ inside.limited, limit ▸ inside.passable, Int.le_trans inside.low grows,
      limit ▸ few⟩
  · cases stopped

theorem Counted.andThen {before} {env env' : Env} {a : α} {result : EStateM.Result Stop Env β}
    (first : Counted before env (.ok a env')) (second : Counted rounds env' result)
    : Counted rounds env result := by
  have limit : env'.loopLimit = env.loopLimit := first.limit
  refine ⟨second.limit.trans limit, fun inside => ?_, fun inside => ?_, fun inside env'' left => ?_⟩
  · exact Int.le_trans (first.grows inside) (second.grows (first.inLimit inside))
  · exact limit ▸ second.within (first.inLimit inside)
  · have grows : env.iterations ≤ env'.iterations := first.grows inside
    have many := second.unfinished (first.inLimit inside) env'' left
    omega

namespace Counts

variable {m : EvalM α}

theorem of_loopless (loopless : Loopless m) : Counts rounds m := by
  intro env
  have uncounted := loopless env
  generalize m.run env = result at uncounted ⊢
  cases uncounted with
  | ok iterations limit =>
    exact ⟨limit, fun _ => Int.le_of_eq iterations.symm,
      fun inside => Or.inl (iterations ▸ inside.high), nofun⟩
  | error finished iterations limit =>
    refine ⟨limit, fun _ => Int.le_of_eq iterations.symm,
      fun inside => Or.inl (iterations ▸ inside.high), ?_⟩
    rintro - env' ⟨⟩
    exact absurd rfl finished

/-- A round is counted, and past the limit it stops the run. -/
theorem tick : Counts rounds EvalM.tick := by
  intro env
  by_cases spent : env.Spent
  · rw [run_tick_of_spent spent]
    refine ⟨rfl, fun inside => ?_, fun inside => Or.inr ⟨_, _, rfl, rfl, ?_⟩, nofun⟩
    · exact inside.counted ▸ Int.le_add_one (Int.le_refl _)
    · have past := spent.2
      have high := inside.high
      rw [inside.counted] at past ⊢
      show env.iterations + 1 = env.loopLimit + 1
      omega
  · rw [run_tick_of_not_spent spent]
    refine ⟨rfl, fun inside => ?_, fun inside => Or.inl ?_, nofun⟩
    · exact inside.counted ▸ Int.le_add_one (Int.le_refl _)
    · exact Int.not_lt.mp fun past => spent ⟨inside.limited, past⟩

theorem mono {more} (counts : Counts more m) (fewer : rounds ≤ more) : Counts rounds m := by
  intro env
  obtain ⟨limit, grows, within, unfinished⟩ := counts env
  refine ⟨limit, grows, within, fun inside env' left => ?_⟩
  have many := unfinished inside env' left
  omega

theorem bind {next : α → EvalM β} (first : Counts rounds m) (later : ∀ a, Counts rounds (next a))
    : Counts rounds (m >>= next) := by
  intro env
  have counted := first env
  rw [run_bind]
  cases ran : m.run env with
  | ok a env' =>
    rw [ran] at counted
    exact counted.andThen (later a env')
  | error stop env' =>
    rw [ran] at counted
    exact counted.stopped

theorem tick_bind (counts : Counts rounds m)
    : Counts (rounds + 1) (EvalM.tick >>= fun _ => m) := by
  intro env
  have counted : Counted (rounds + 1) env (EvalM.tick.run env) := tick env
  rw [run_bind]
  by_cases spent : env.Spent
  · rw [run_tick_of_spent spent] at counted ⊢
    exact counted.stopped
  · rw [run_tick_of_not_spent spent] at counted ⊢
    have after := counts env.counted
    obtain ⟨limit, grows, within, -⟩ := counted.andThen after
    refine ⟨limit, grows, within, fun inside env' left => ?_⟩
    have many := after.unfinished (counted.inLimit inside) env' left
    rw [inside.counted] at many
    omega

end Counts

/-- An evaluation ends as another one, unless that one is not finished. -/
def Extends (m m' : EvalM α) : Prop :=
  ∀ env, (∃ env', m.run env = .error .unfinished env') ∨ m'.run env = m.run env

/-- Evaluations with more and more fuel come to an end: whatever fuel is enough, they end the same, and
count their rounds.
-/
def Concludes (run : (fuel : Nat) → EvalM α) (enough : Nat) (env : Env) : Prop :=
  ∃ result, (∀ env', result ≠ .error .unfinished env') ∧ Counted 0 env result
    ∧ ∀ fuel, enough ≤ fuel → (run fuel).run env = result

theorem Extends.refl (m : EvalM α) : Extends m m :=
  fun _ => Or.inr rfl

theorem Extends.bind {m m'} {next next' : α → EvalM β} (first : Extends m m')
    (later : ∀ a, Extends (next a) (next' a))
    : Extends (m >>= next) (m' >>= next') := by
  intro env
  rw [run_bind, run_bind]
  rcases first env with ⟨env', unfinished⟩ | same
  · rw [unfinished]
    exact Or.inl ⟨env', rfl⟩
  · rw [same]
    cases m.run env with
    | ok a env' => exact later a env'
    | error stop env' => exact Or.inr rfl

theorem concludes_pure (a : α) (env) : Concludes (fun _ => Pure.pure a) 0 env :=
  ⟨.ok a env, nofun, Counts.of_loopless (.pure a) env, fun _ _ => rfl⟩

end EvalM

namespace Eval

open EvalM (Counts Loopless Extends Concludes)

variable {rounds : Nat}

theorem chains_counts : Chains fun _ => Counts rounds where
  pure := fun a => .of_loopless (.pure a)
  bind := .bind

/-- A loop counts as many rounds as it has fuel before it gives up, by induction on the fuel. -/
theorem loops_counts (fuel : Nat) : Chains.Loops (fun _ => Counts fuel) fuel := by
  intro test body counts counts'
  have each (rounds : Nat) (within : rounds ≤ fuel) : Counts rounds (repeating test body rounds) := by
    induction rounds with
    | zero =>
      refine fun env => ⟨rfl, fun _ => Int.le_refl _, fun inside => Or.inl inside.high, ?_⟩
      rintro - env' ⟨⟩
      exact Int.le_of_eq (Int.add_zero _)
    | succ rounds ih =>
      refine .bind (counts.mono within) fun v => ?_
      split
      · exact .bind (counts'.mono within) fun _ => .tick_bind (ih (by omega))
      · exact .of_loopless (.pure ())
  exact each fuel (Nat.le_refl _)

theorem loopless_load (symbol) : Loopless (load symbol) := by
  refine .bind (.orCrash symbol) fun s => ?_
  split
  · exact .readImage s.slot
  · exact .readVar s.slot

theorem loopless_store (symbol v) : Loopless (store symbol v) := by
  refine .bind (.orCrash symbol) fun s => ?_
  split
  · exact .writeImage s.slot v
  · exact .writeVar s.slot v

/-- No node has a loop, by cases on the node. -/
theorem counts_node (n : Expr) : n.Runs fun _ => Counts rounds := by
  cases n with
  | literal | binary | unary => trivial
  | read span name symbol => exact .of_loopless (loopless_load symbol)
  | assign span target step value symbol | update span target decrement before symbol =>
    exact ⟨.of_loopless (loopless_load symbol), fun v => .of_loopless (loopless_store symbol v)⟩
  | builtin span name which args => exact .of_loopless (.builtin which)
  | call span name args function =>
    exact chains_counts.runs_call fun vs =>
      .of_loopless (.bind (.orCrash function) fun f => .call f vs)

/-- Statements count the rounds of their loops, and give up only after as many as they have fuel. -/
theorem counts_stmts (fuel : Nat) (body : List Stmt) : Counts fuel (stmts fuel body) :=
  chains_counts.stmts (loops_counts fuel) body fun n _ => counts_node n

variable {fuel fuel' : Nat}

/-- A loop with more fuel ends as it does with less, by induction on the fuel. -/
theorem extends_repeating (test : EvalM Sample) {body body'} (bodies : Extends body body')
    (more : fuel ≤ fuel')
    : Extends (repeating test body fuel) (repeating test body' fuel') := by
  induction fuel generalizing fuel' with
  | zero => exact fun env => Or.inl ⟨env, rfl⟩
  | succ fuel ih =>
    obtain ⟨fuel', rfl⟩ : ∃ n, fuel' = n + 1 := ⟨fuel' - 1, by omega⟩
    refine .bind (.refl test) fun v => ?_
    split
    · exact .bind bodies fun _ => .bind (.refl EvalM.tick) fun _ => ih (by omega)
    · exact .refl _

mutual

/-- A statement with more fuel ends as it does with less, by induction on the statement. -/
theorem extends_stmt (more : fuel ≤ fuel') (s : Stmt) : Extends (stmt fuel s) (stmt fuel' s) := by
  cases s with
  | expr e => exact .refl _
  | block span body => exact extends_stmts more body
  | ifThen span test yes =>
    refine .bind (.refl (expr test)) fun v => ?_
    split
    · exact extends_stmt more yes
    · exact .refl _
  | ifElse span test yes no =>
    refine .bind (.refl (expr test)) fun v => ?_
    split
    · exact extends_stmt more yes
    · exact extends_stmt more no
  | loop span test body => exact extends_repeating (expr test) (extends_stmt more body) more

theorem extends_stmts (more : fuel ≤ fuel') (body)
    : Extends (stmts fuel body) (stmts fuel' body) := by
  cases body with
  | nil => exact .refl _
  | cons s rest => exact .bind (extends_stmt more s) fun _ => extends_stmts more rest

end

theorem concludes_stmts (body) {env} (inside : env.InLimit)
    : Concludes (stmts · body) (env.loopLimit + 1) env := by
  have counts := counts_stmts (env.loopLimit + 1) body
  have finished (env' : Env) : (stmts (env.loopLimit + 1) body).run env ≠ .error .unfinished env' :=
    (counts env).finished inside (Nat.lt_succ_self _)
  refine ⟨_, finished, counts.mono (Nat.zero_le _) env, fun fuel enough => ?_⟩
  rcases extends_stmts enough body env with ⟨env', unfinished⟩ | same
  · exact absurd unfinished (finished env')
  · exact same

end Eval

end MapAlgebra
