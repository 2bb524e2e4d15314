import MapAlgebra.Code.Machine
import MapAlgebra.Proofs.Eval.Operations

/-! Runs of the machine as sequences of rounds. A run with enough fuel goes through the rounds
until one of them ends it, so its outcome does not depend on the fuel.
-/

namespace MapAlgebra.Machine

/-- One round of a run: the instruction ahead is decoded and carried out. Nothing is left to do
after the last one.
-/
def round (chunk : Chunk) (f : Frame) : EvalM (Option Frame) := do
  if f.ip < 0 then throw .crash
  match Instr.decodeAt chunk.code f.ip.toNat with
  | none => return none
  | some (.instr i) => step chunk { f with ip := f.ip + i.length } i
  | some (.truncated _) => throw .crash
  | some (.unknown byte) => EvalM.fault "" (.unknownOpcode byte f.ip.toNat chunk.name)

/-- With fuel for it, a run is a round and then the run from where that round leads, by cases on
what is decoded.
-/
theorem run_runFrom_succ (chunk : Chunk) (fuel : Nat) (f : Frame) (env : Env)
    : (runFrom chunk (fuel + 1) f).run env
      = match (round chunk f).run env with
        | .ok (some f) env => (runFrom chunk fuel f).run env
        | .ok none env => .ok () env
        | .error stop env => .error stop env := by
  by_cases negative : f.ip < 0
  · simp only [runFrom, round, negative, if_true, EStateM.run_bind, EvalM.run_stop]
  · simp only [runFrom, round, negative, if_false]
    cases Instr.decodeAt chunk.code f.ip.toNat with
    | none => rfl
    | some decoded =>
      cases decoded with
      | truncated op => rfl
      | unknown byte => rfl
      | instr i =>
        simp only [EStateM.run_bind]
        cases (step chunk { f with ip := f.ip + i.length } i).run env with
        | ok next env' => cases next <;> rfl
        | error stop env' => rfl

/-- A machine between two rounds: where it stands and the state it works on. -/
structure Config where
  frame : Frame
  env : Env

/-- So many rounds lead from one configuration to another. -/
inductive Steps (chunk : Chunk) : Nat → Config → Config → Prop where
  | refl (c : Config) : Steps chunk 0 c c
  | head {n c f env d} (first : (round chunk c.frame).run c.env = .ok (some f) env)
    (rest : Steps chunk n ⟨f, env⟩ d)
    : Steps chunk (n + 1) c d

/-- The next round ends the run with a result. -/
inductive Ends (chunk : Chunk) (c : Config) : EStateM.Result Stop Env Unit → Prop where
  | finished {env} (last : (round chunk c.frame).run c.env = .ok none env)
    : Ends chunk c (.ok () env)
  | stopped {stop env} (last : (round chunk c.frame).run c.env = .error stop env)
    : Ends chunk c (.error stop env)

variable {chunk : Chunk} {n m fuel : Nat} {c d e : Config} {result : EStateM.Result Stop Env Unit}

theorem Steps.single {f env} (first : (round chunk c.frame).run c.env = .ok (some f) env)
    : Steps chunk 1 c ⟨f, env⟩ :=
  .head first (.refl _)

/-- Steps can be followed by more steps, by induction on the first ones. -/
theorem Steps.trans (first : Steps chunk n c d) (second : Steps chunk m d e)
    : Steps chunk (n + m) c e := by
  induction first with
  | refl c => simpa using second
  | @head n c f env d round _ ih =>
    have later := Steps.head round (ih second)
    rwa [show n + 1 + m = n + m + 1 by omega]

/-- The rounds of a machine are determined: of two runs the shorter is the start of the longer. -/
theorem Steps.split (first : Steps chunk n c d) (other : Steps chunk m c e) (shorter : n ≤ m)
    : Steps chunk (m - n) d e := by
  induction first generalizing m with
  | refl c => simpa using other
  | @head n c f env d round _ ih =>
    cases other with
    | refl => omega
    | @head m _ f' env' _ round' rest' =>
      rw [round] at round'
      cases round'
      have later := ih rest' (by omega)
      rwa [show m + 1 - (n + 1) = m - n by omega]

theorem Ends.not_steps (ends : Ends chunk c result) (steps : Steps chunk (n + 1) c d) : False := by
  cases steps with
  | head first _ =>
    cases ends with
    | finished last => rw [first] at last; cases last
    | stopped last => rw [first] at last; cases last

/-- Steps cannot lead past the end of a run. -/
theorem Steps.le_of_ends (steps : Steps chunk n c d) (ends : Ends chunk d result)
    (other : Steps chunk m c e)
    : m ≤ n := by
  rcases Nat.lt_or_ge n m with longer | within
  · have later := steps.split other (by omega)
    rw [show m - n = (m - n - 1) + 1 by omega] at later
    exact (ends.not_steps later).elim
  · exact within

theorem Steps.run_runFrom (steps : Steps chunk n c d)
    : (runFrom chunk (n + fuel) c.frame).run c.env = (runFrom chunk fuel d.frame).run d.env := by
  induction steps with
  | refl c => simp
  | @head n c f env d first _ ih =>
    rw [show n + 1 + fuel = n + fuel + 1 by omega, run_runFrom_succ, first]
    exact ih

theorem Ends.run_runFrom (ends : Ends chunk c result)
    : (runFrom chunk (fuel + 1) c.frame).run c.env = result := by
  cases ends with
  | finished last => rw [run_runFrom_succ, last]
  | stopped last => rw [run_runFrom_succ, last]

/-- A run either ends within its fuel, or makes as many rounds as it has fuel for and is not
finished, by induction on the fuel.
-/
theorem runFrom_cases (chunk : Chunk) (fuel : Nat) (c : Config)
    : (∃ n d, n < fuel ∧ Steps chunk n c d
        ∧ Ends chunk d ((runFrom chunk fuel c.frame).run c.env))
      ∨ ∃ d, Steps chunk fuel c d
        ∧ (runFrom chunk fuel c.frame).run c.env = .error .unfinished d.env := by
  induction fuel generalizing c with
  | zero => exact Or.inr ⟨c, .refl c, rfl⟩
  | succ fuel ih =>
    rw [run_runFrom_succ]
    cases first : (round chunk c.frame).run c.env with
    | error stop env => exact Or.inl ⟨0, c, by omega, .refl c, .stopped first⟩
    | ok next env =>
      cases next with
      | none => exact Or.inl ⟨0, c, by omega, .refl c, .finished first⟩
      | some f =>
        rcases ih ⟨f, env⟩ with ⟨n, d, less, steps, ends⟩ | ⟨d, steps, unfinished⟩
        · exact Or.inl ⟨n + 1, d, by omega, .head first steps, ends⟩
        · exact Or.inr ⟨d, .head first steps, unfinished⟩

/-- A run that comes to its end gives the result of the last round for every fuel that suffices. -/
theorem Steps.run_of_ends (steps : Steps chunk n c d) (ends : Ends chunk d result)
    (enough : n < fuel)
    : (runFrom chunk fuel c.frame).run c.env = result := by
  obtain ⟨more, rfl⟩ : ∃ more, fuel = n + (more + 1) := ⟨fuel - n - 1, by omega⟩
  rw [steps.run_runFrom, ends.run_runFrom]

end MapAlgebra.Machine
