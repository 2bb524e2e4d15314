import MapAlgebra.Proofs.Code.Operands
import MapAlgebra.Proofs.Eval.Rounds

/-! The rounds of loops on the machine. Code leads backward only at the end of a loop, where a round is
counted. So with a limit of rounds every run of a chunk comes to an end: between two counted rounds the
machine only moves forward.
-/

namespace MapAlgebra

open EStateM
open Lower

variable {d : Int} {i : Instr}

theorem Instr.Directed.nonneg (directed : i.Directed) (straight : ∀ d, i ≠ .loop d)
    (jumps : i.distance? = some d)
    : 0 ≤ d := by
  cases i with
  | jump e | jumpTrue e | jumpFalse e =>
    cases jumps
    exact directed
  | loop e => exact absurd rfl (straight e)
  | _ => cases jumps

/-- The bytes of items are those of their instructions, by induction on the items. -/
theorem Lower.flatMap_encode_instrs (items : List Item)
    : (items.filterMap Item.instr?).flatMap Instr.encode = items.flatMap Item.encode := by
  induction items with
  | nil => rfl
  | cons item items ih =>
    rw [List.flatMap_cons, ← ih]
    cases item <;> rfl

namespace Machine

open EvalM (Loopless Counts Counted Concludes)

variable {rounds : Nat}

theorem loopless_peek (height) : Loopless (peek height) := by
  unfold peek
  split
  · exact fun env => Loopless.orCrash env.stack[height.toNat]? env
  · exact .crash

theorem loopless_poke (height v) : Loopless (poke height v) := by
  intro env
  simp only [poke, run_bind, run_get]
  split
  · exact .ok rfl rfl
  · exact .crash env

theorem loopless_window (low high) : Loopless (window low high) := by
  intro env
  simp only [window, run_bind, run_get]
  split
  · exact .ok rfl rfl
  · exact .crash env

theorem composes_loopless : Composes fun _ => Loopless where
  pure := .pure
  bind := .bind
  crash := .crash
  fault _ _ := fun _ => .error nofun rfl rfl
  peek := loopless_peek
  poke := loopless_poke
  window := loopless_window

/-- Every instruction but one counts no round, by cases on the instruction. -/
theorem loopless_instr (straight : ∀ d, i ≠ .loop d) : i.Runs fun _ => Loopless := by
  cases i with
  | loadVar n => exact .readVar _
  | storeVar n => exact .writeVar _
  | readImage n => exact .readImage _
  | writeImage n => exact .writeImage _
  | builtin which => exact .builtin which
  | loop d => exact absurd rfl (straight d)
  | call n argc => exact .call
  | _ => trivial

theorem composes_counts : Composes fun _ => Counts rounds where
  toChains := Eval.chains_counts
  crash := .of_loopless .crash
  fault _ _ := .of_loopless (composes_loopless.fault _ _)
  peek height := .of_loopless (loopless_peek height)
  poke height v := .of_loopless (loopless_poke height v)
  window low high := .of_loopless (loopless_window low high)

theorem counts_instr (i : Instr) : i.Runs fun _ => Counts rounds := by
  by_cases loops : ∃ d, i = .loop d
  · obtain ⟨d, rfl⟩ := loops
    exact .tick
  · exact (loopless_instr fun d same => loops ⟨d, same⟩).mono .of_loopless

theorem counts_round (chunk f) : Counts rounds (round chunk f) :=
  composes_counts.round fun i _ => counts_instr i

theorem iterations_of_loop {chunk f env env' next}
    (ran : (step chunk f (.loop d)).run env = .ok next env')
    : env'.iterations = env.counted.iterations := by
  simp only [step, run_bind] at ran
  by_cases spent : env.Spent
  · rw [EvalM.run_tick_of_spent spent] at ran
    cases ran
  · rw [EvalM.run_tick_of_not_spent spent] at ran
    cases ran
    rfl

variable {chunk : Chunk} {level : Prop} {ok : Instr → Prop} {whole : List Item} {f f' : Frame}
  {env env' : Env}

/-- A round leads forward and is not counted, or it is counted and ends a round of a loop. -/
theorem StandsIn.forward_or_counted (stands : StandsIn level whole f)
    (laid : Laid level ok whole chunk)
    (ran : (Machine.round chunk f).run env = .ok (some f') env')
    : f.ip < f'.ip ∧ env'.iterations = env.iterations
      ∨ (∃ d, Instr.decodeAt chunk.code f.ip.toNat = some (.instr (.loop d)))
        ∧ env'.iterations = env.counted.iterations := by
  obtain ⟨i, depth, stands⟩ := stands
  rw [stands.round_eq laid] at ran
  by_cases loops : ∃ d, i = .loop d
  · obtain ⟨d, rfl⟩ := loops
    exact Or.inr ⟨⟨d, stands.decoded laid⟩, iterations_of_loop ran⟩
  · have straight (d : Int) : i ≠ .loop d := fun same => loops ⟨d, same⟩
    have uncounted :=
      composes_loopless.step chunk { f with ip := f.ip + i.length } (loopless_instr straight) env
    rw [ran] at uncounted
    cases uncounted with
    | ok same limit =>
      refine Or.inl ⟨?_, same⟩
      have longer := i.length_pos
      rcases (gives_step chunk _ i env _ env' ran).leads with ⟨-, next⟩ | ⟨d, jumps, leads⟩
      · simp only [next]
        omega
      · have forward := (laid.all.steady stands.noted).directed.nonneg straight jumps
        simp only [leads]
        omega

/-- A bound on the rounds that the machine can still make: the rounds of loops that are left, and then
the way to the end of the code.
-/
def rank (chunk : Chunk) (c : Config) : Nat :=
  (c.env.loopLimit - c.env.iterations).toNat * (chunk.code.size + 1)
    + (chunk.code.size - c.frame.ip.toNat)

theorem StandsIn.rank_lt (stands : StandsIn level whole f) (laid : Laid level ok whole chunk)
    (ran : (Machine.round chunk f).run env = .ok (some f') env')
    (limit : env'.loopLimit = env.loopLimit) (inside : env.InLimit) (inside' : env'.InLimit)
    : rank chunk ⟨f', env'⟩ < rank chunk ⟨f, env⟩ := by
  have ahead := stands.ip_lt laid
  have reached := (stands.round laid ran).ip_lt laid
  simp only [rank, limit]
  rcases stands.forward_or_counted laid ran with ⟨forward, same⟩ | ⟨-, counted⟩
  · rw [same]
    omega
  · have high := inside'.high
    rw [inside.counted] at counted
    obtain ⟨left, before⟩ : ∃ left, (env.loopLimit - env.iterations).toNat = left + 1 :=
      ⟨(env.loopLimit - env.iterations).toNat - 1, by omega⟩
    have after : (env.loopLimit - env'.iterations).toNat = left := by omega
    rw [before, after, Nat.succ_mul]
    omega

/-- Within a limit of rounds a run comes to its last round, by induction on the bound. -/
theorem StandsIn.ends {c} (stands : StandsIn level whole c.frame)
    (laid : Laid level ok whole chunk) (inside : c.env.InLimit)
    : ∃ n d result, n ≤ rank chunk c ∧ Steps chunk n c d ∧ Ends chunk d result
      ∧ ∀ rounds, Counted rounds c.env result := by
  induction bound : rank chunk c using Nat.strongRecOn generalizing c with
  | ind bound ih =>
    have counted (rounds : Nat) : Counted rounds c.env ((Machine.round chunk c.frame).run c.env) :=
      counts_round chunk c.frame c.env
    cases ran : (Machine.round chunk c.frame).run c.env with
    | error stop env =>
      rw [ran] at counted
      exact ⟨0, c, _, Nat.zero_le _, .refl c, .stopped ran, fun rounds => (counted rounds).stopped⟩
    | ok next env =>
      rw [ran] at counted
      cases next with
      | none =>
        exact ⟨0, c, _, Nat.zero_le _, .refl c, .finished ran, fun rounds =>
          (counted 0).andThen (Counts.of_loopless (.pure ()) env)⟩
      | some f =>
        have limit : env.loopLimit = c.env.loopLimit := (counted 0).limit
        have inside' : env.InLimit := (counted 0).inLimit inside
        have lower : rank chunk ⟨f, env⟩ < rank chunk c :=
          stands.rank_lt laid ran limit inside inside'
        have stands := stands.round laid ran
        obtain ⟨n, d, result, few, steps, ends, later⟩ :=
          ih _ (bound ▸ lower) (c := ⟨f, env⟩) stands inside' rfl
        exact ⟨n + 1, d, result, by omega, .head ran steps, ends, fun rounds =>
          (counted rounds).andThen (later rounds)⟩

variable {body : List Stmt} {name : String} {table : SymbolTable}

theorem concludes_chunk (lowered : Lower.chunk name table body = .ok chunk)
    (inside : env.InLimit)
    : Concludes (run chunk) ((env.loopLimit + 1) * (chunk.code.size + 1)) env := by
  obtain ⟨items, -, laid⟩ := Lower.laid_chunk lowered fun r _ => Lower.sends_any r
  have stands : StandsIn False _ (entry chunk env).frame := .start laid
  have entered : (entry chunk env).env.InLimit :=
    ⟨inside.limited, inside.passable, inside.low, inside.high⟩
  obtain ⟨n, d, result, few, steps, ends, counted⟩ := stands.ends laid entered
  have least : rank chunk (entry chunk env) < (env.loopLimit + 1) * (chunk.code.size + 1) := by
    have low := inside.low
    have left : (env.loopLimit - env.iterations).toNat ≤ env.loopLimit := by omega
    have fewer := Nat.mul_le_mul_right (chunk.code.size + 1) left
    rw [Nat.succ_mul]
    exact Nat.add_lt_add_of_le_of_lt fewer (by omega)
  refine ⟨result, fun env' => ?_, ?_, fun fuel enough => ?_⟩
  · exact (counted (env.loopLimit + 1)).finished entered (Nat.lt_succ_self _)
  · obtain ⟨limit, grows, within, unfinished⟩ := counted 0
    exact ⟨limit, fun _ => grows entered, fun _ => within entered, fun _ => unfinished entered⟩
  · rw [run_run]
    exact steps.run_of_ends ends (by omega)

/-- All of the code decodes, its jumps lead forward, and every round of a run that does not lead
forward ends a round of a loop and is counted.
-/
structure Guarded (chunk : Chunk) : Prop where
  decodes : chunk.code = (chunk.instrs.flatMap Instr.encode).toArray
  directed : ∀ i ∈ chunk.instrs, i.Directed
  forward_or_counted : ∀ {n : Nat} {env : Env} {c : Config} {f : Frame} {env' : Env},
    Steps chunk n (entry chunk env) c → (round chunk c.frame).run c.env = .ok (some f) env'
    → c.frame.ip < f.ip ∧ env'.iterations = c.env.iterations
      ∨ (∃ d, Instr.decodeAt chunk.code c.frame.ip.toNat = some (.instr (.loop d)))
        ∧ env'.iterations = c.env.counted.iterations

theorem guarded_chunk (lowered : Lower.chunk name table body = .ok chunk) : Guarded chunk := by
  obtain ⟨items, -, laid⟩ := Lower.laid_chunk lowered fun r _ => Lower.sends_any r
  refine ⟨?_, fun i member => ?_, fun steps ran => ?_⟩
  · rw [laid.instrs, Lower.flatMap_encode_instrs, laid.code]
  · rw [laid.instrs] at member
    obtain ⟨item, member, here⟩ := List.mem_filterMap.mp member
    cases item with
    | mark p => cases here
    | instr j depth =>
      cases here
      obtain ⟨offset, steady⟩ := laid.all.exists_steady member
      exact steady.directed
  · exact (StandsIn.steps laid steps (.start laid)).forward_or_counted laid ran

end Machine

end MapAlgebra
