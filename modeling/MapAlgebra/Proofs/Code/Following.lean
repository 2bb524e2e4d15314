import MapAlgebra.Proofs.Code.Steps

/-! How a run of the machine follows an evaluation. The machine stands at an offset with the
values it has computed so far on its stack, and every instruction takes it from one such place to
the next while the evaluation makes the same step.
-/

namespace MapAlgebra.Machine

open EStateM

/-- The machine stands at an offset with the given values on its stack, the lowest first. The
stack has so much room, and the rest of the state is the given one.
-/
def At (room offset : Nat) (values : List Sample) (env : Env) (c : Config) : Prop :=
  ∃ stack : Array Sample, stack.size = room ∧ values <+: stack.toList
    ∧ c = ⟨⟨offset, values.length⟩, env.withStack stack⟩

variable {values : List Sample}

theorem At.cast {room offset offset' env c} (place : At room offset values env c)
    (same : offset = offset')
    : At room offset' values env c :=
  same ▸ place

variable {stack : Array Sample}

theorem run_peek {v} (env : Env) (holds : values ++ [v] <+: stack.toList)
    : (peek values.length).run (env.withStack stack) = .ok v (env.withStack stack) := by
  obtain ⟨rest, split⟩ := holds
  have found : stack[values.length]? = some v := by
    rw [← Array.getElem?_toList, ← split]
    simp
  simp [peek, run_bind, Env.withStack, found, EvalM.run_orCrash]

theorem run_poke {height} (env : Env) (v) (inside : height < stack.size)
    : (poke height v).run (env.withStack stack)
      = .ok () (env.withStack (stack.setIfInBounds height v)) := by
  simp [poke, run_bind, Env.withStack, inside]

theorem prefix_set (v) (holds : values <+: stack.toList) (inside : values.length < stack.size)
    : values ++ [v] <+: (stack.setIfInBounds values.length v).toList := by
  obtain ⟨rest, split⟩ := holds
  have long : values.length < (values ++ rest).length := by
    rw [split]
    simpa using inside
  cases rest with
  | nil => simp at long
  | cons w rest =>
    refine ⟨rest, ?_⟩
    rw [Array.toList_setIfInBounds, ← split, List.set_append_right _ _ (Nat.le_refl _)]
    simp

theorem run_push (ip : Int) (env : Env) (v) (inside : values.length < stack.size)
    : (push ⟨ip, values.length⟩ v).run (env.withStack stack)
      = .ok ⟨ip, (values ++ [v]).length⟩
          (env.withStack (stack.setIfInBounds values.length v)) := by
  simp only [push, run_bind, run_poke env v inside, run_pure,
    List.length_append, List.length_singleton, Int.natCast_add, Int.natCast_one]

variable {α β : Type} {chunk : Chunk} {fuel n room offset target : Nat} {env : Env} {c d : Config}

/-- A single round does what an evaluation does: it reaches a goal if the evaluation gives a value,
and ends with the same stop if the evaluation stops.
-/
def Does (chunk : Chunk) (c : Config) (result : EStateM.Result Stop Env α)
    (goal : α → Env → Config → Prop) : Prop :=
  match result with
  | .ok a env => ∃ d, Steps chunk 1 c d ∧ goal a env d
  | .error stop env => ∃ stack, Ends chunk c (.error stop (env.withStack stack))

/-- A run follows an evaluation: it reaches a goal if the evaluation gives a value and ends with the
same stop if the evaluation stops. While the evaluation is not finished, neither is the run, which
has made as many rounds as the evaluation had fuel.
-/
def Follows (chunk : Chunk) (fuel : Nat) (c : Config) (result : EStateM.Result Stop Env α)
    (goal : α → Env → Config → Prop) : Prop :=
  match result with
  | .ok a env => ∃ n d, Steps chunk n c d ∧ goal a env d
  | .error stop env =>
    (∃ n d stack, Steps chunk n c d ∧ Ends chunk d (.error stop (env.withStack stack)))
    ∨ stop = .unfinished ∧ ∃ n d, fuel ≤ n ∧ Steps chunk n c d

variable {result : EStateM.Result Stop Env α} {goal : α → Env → Config → Prop}

theorem Does.follows (does : Does chunk c result goal) : Follows chunk fuel c result goal := by
  cases result with
  | ok a env =>
    obtain ⟨d, steps, reached⟩ := does
    exact ⟨1, d, steps, reached⟩
  | error stop env =>
    obtain ⟨stack, ends⟩ := does
    exact Or.inl ⟨0, c, stack, .refl c, ends⟩

theorem Follows.here {a} (reached : goal a env c) : Follows chunk fuel c (.ok a env) goal :=
  ⟨0, c, .refl c, reached⟩

theorem Follows.after (steps : Steps chunk n c d) (follows : Follows chunk fuel d result goal)
    : Follows chunk (n + fuel) c result goal := by
  cases result with
  | ok a env =>
    obtain ⟨m, e, more, reached⟩ := follows
    exact ⟨n + m, e, steps.trans more, reached⟩
  | error stop env =>
    rcases follows with ⟨m, e, stack, more, ends⟩ | ⟨unfinished, m, e, enough, more⟩
    · exact Or.inl ⟨n + m, e, stack, steps.trans more, ends⟩
    · exact Or.inr ⟨unfinished, n + m, e, by omega, steps.trans more⟩

theorem Follows.mono {less} (follows : Follows chunk fuel c result goal) (le : less ≤ fuel)
    : Follows chunk less c result goal := by
  cases result with
  | ok a env => exact follows
  | error stop env =>
    rcases follows with ended | ⟨unfinished, m, e, enough, more⟩
    · exact Or.inl ended
    · exact Or.inr ⟨unfinished, m, e, by omega, more⟩

theorem Follows.imp {weaker} (follows : Follows chunk fuel c result goal)
    (implies : ∀ a env d, goal a env d → weaker a env d)
    : Follows chunk fuel c result weaker := by
  cases result with
  | ok a env =>
    obtain ⟨n, d, steps, reached⟩ := follows
    exact ⟨n, d, steps, implies a env d reached⟩
  | error stop env => exact follows

/-- A round for which the evaluation does nothing may come first. -/
theorem Does.andThen {a} {first : β → Env → Config → Prop} (does : Does chunk c (.ok a env) first)
    (rest : ∀ d, first a env d → Follows chunk fuel d result goal)
    : Follows chunk fuel c result goal := by
  obtain ⟨d, steps, reached⟩ := does
  exact ((rest d reached).after steps).mono (by omega)

variable {later : β → Env → Config → Prop} {m : EvalM α} {next : α → EvalM β}

/-- A round that does what an evaluation does, and then a run that follows another, together follow
both in sequence and make one round more.
-/
theorem Does.bind (does : Does chunk c (m.run env) goal)
    (rest : ∀ a env d, goal a env d → Follows chunk fuel d ((next a).run env) later)
    : Follows chunk (fuel + 1) c ((m >>= next).run env) later := by
  rw [run_bind]
  cases ran : m.run env with
  | ok a env' =>
    rw [ran] at does
    obtain ⟨d, steps, reached⟩ := does
    exact ((rest a env' d reached).after steps).mono (by omega)
  | error stop env' =>
    rw [ran] at does
    obtain ⟨stack, ends⟩ := does
    exact Or.inl ⟨0, c, stack, .refl c, ends⟩

theorem Follows.bind (first : Follows chunk fuel c (m.run env) goal)
    (rest : ∀ a env d, goal a env d → Follows chunk fuel d ((next a).run env) later)
    : Follows chunk fuel c ((m >>= next).run env) later := by
  rw [run_bind]
  cases ran : m.run env with
  | ok a env' =>
    rw [ran] at first
    obtain ⟨n, d, steps, reached⟩ := first
    exact ((rest a env' d reached).after steps).mono (by omega)
  | error stop env' =>
    rw [ran] at first
    exact first

end MapAlgebra.Machine
