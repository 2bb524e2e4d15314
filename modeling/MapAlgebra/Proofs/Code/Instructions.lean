import MapAlgebra.Proofs.Code.Following

/-! What each instruction does to a machine that stands in front of it. Instructions that share
their shape share their rule: those that push a value, those that store one, and those that
replace the value on top.
-/

namespace MapAlgebra.Machine

open List
open EStateM
open Instr
open EvalM

variable {chunk : Chunk} {room offset target : Nat} {values : List Sample} {v : Sample} {env : Env}
  {c : Config} {i : Instr}

/-- A machine at a place runs the instruction that stands there next. -/
theorem At.ran (here : decodeAt chunk.code offset = some (.instr i))
    (place : At room offset values env c)
    : ∃ stack : Array Sample, stack.size = room ∧ values <+: stack.toList
      ∧ c = ⟨⟨offset, values.length⟩, env.withStack stack⟩
      ∧ (round chunk ⟨offset, values.length⟩).run (env.withStack stack)
        = (step chunk ⟨(offset + i.length : Nat), values.length⟩ i).run (env.withStack stack) := by
  obtain ⟨stack, size, holds, rfl⟩ := place
  have forward : ¬ (offset : Int) < 0 := by omega
  refine ⟨stack, size, holds, rfl, ?_⟩
  simp only [round, forward, if_false, Int.toNat_natCast, here, Int.natCast_add]

theorem pred_height (values) (v : Sample)
    : (((values ++ [v]).length : Nat) : Int) - 1 = values.length := by
  simp

/-- An instruction that pushes what an operation gives does what the operation does. -/
theorem does_push {m} (here : decodeAt chunk.code offset = some (.instr i))
    (meaning : ∀ f, step chunk f i = do
      let v ← m
      let f ← push f v
      return some f)
    (free : Free { stack := true } m) (place : At room offset values env c)
    (inside : values.length < room)
    : Does chunk c (m.run env) fun v env => At room (offset + i.length) (values ++ [v]) env := by
  obtain ⟨stack, rfl, holds, rfl, ran⟩ := place.ran here
  rw [meaning, run_bind, free.run_withStack env stack] at ran
  cases result : m.run env with
  | error stop env' =>
    simp only [result, restack] at ran
    exact ⟨stack, .stopped ran⟩
  | ok v env' =>
    simp only [result, restack, run_bind, run_push _ env' v inside,
      run_pure] at ran
    exact ⟨_, .single ran, _, by simp, prefix_set v holds inside, rfl⟩

/-- An instruction that stores the value on top does what the operation that stores it does. -/
theorem does_store {m : Sample → EvalM Unit}
    (here : decodeAt chunk.code offset = some (.instr i))
    (meaning : ∀ f : Frame, step chunk f i = do
      let v ← peek (f.sp - 1)
      m v
      return some { f with sp := f.sp - 1 })
    (free : Free { stack := true } (m v)) (place : At room offset (values ++ [v]) env c)
    : Does chunk c ((m v).run env) fun _ env => At room (offset + i.length) values env := by
  obtain ⟨stack, rfl, holds, rfl, ran⟩ := place.ran here
  simp only [meaning, run_bind, pred_height, run_peek env holds, free.run_withStack env stack] at ran
  cases result : (m v).run env with
  | error stop env' =>
    simp only [result, restack] at ran
    exact ⟨stack, .stopped ran⟩
  | ok _ env' =>
    simp only [result, restack, run_pure] at ran
    exact ⟨_, .single ran, stack, rfl, (prefix_append values [v]).trans holds, rfl⟩

variable {stack : Array Sample} {distance : Int} {args : List Sample}

theorem run_replaceTop (env : Env) (ip : Int) (change : Sample → Sample)
    (holds : values ++ [v] <+: stack.toList)
    : ∃ changed : Array Sample, changed.size = stack.size
      ∧ values ++ [change v] <+: changed.toList
      ∧ (replaceTop ⟨ip, (values ++ [v]).length⟩ change).run (env.withStack stack)
        = .ok ⟨ip, (values ++ [change v]).length⟩ (env.withStack changed) := by
  have inside : values.length < stack.size := by
    have := holds.length_le
    simp at this
    omega
  refine ⟨stack.setIfInBounds values.length (change v), by simp,
    prefix_set _ ((prefix_append values [v]).trans holds) inside, ?_⟩
  have lengths : (values ++ [change v]).length = (values ++ [v]).length := by simp
  simp only [replaceTop, run_bind, pred_height, run_peek env holds, run_poke env _ inside,
    run_pure, lengths]

theorem does_replaceTop {change}
    (here : decodeAt chunk.code offset = some (.instr i))
    (meaning : ∀ f, step chunk f i = do
      let f ← replaceTop f change
      return some f)
    (place : At room offset (values ++ [v]) env c)
    : Does chunk c (.ok () env) fun _ env =>
        At room (offset + i.length) (values ++ [change v]) env := by
  obtain ⟨stack, rfl, holds, rfl, ran⟩ := place.ran here
  obtain ⟨changed, size, holds', replaced⟩ := run_replaceTop env (offset + i.length : Nat)
    change holds
  simp only [meaning, run_bind, replaced, run_pure] at ran
  exact ⟨_, .single ran, changed, size, holds', rfl⟩

theorem does_arith {op a b} (here : decodeAt chunk.code offset = some (.instr (.arith op)))
    (place : At room offset (values ++ [a] ++ [b]) env c)
    : Does chunk c (.ok () env) fun _ env =>
        At room (offset + (arith op).length) (values ++ [op.apply a b]) env := by
  obtain ⟨stack, rfl, holds, rfl, ran⟩ := place.ran here
  obtain ⟨changed, size, holds', replaced⟩ := run_replaceTop env
    (offset + (arith op).length : Nat) (op.apply · b)
    ((prefix_append (values ++ [a]) [b]).trans holds)
  simp only [step, run_bind, pred_height, run_peek env holds, replaced, run_pure] at ran
  exact ⟨_, .single ran, changed, size, holds', rfl⟩

theorem does_dup (here : decodeAt chunk.code offset = some (.instr .dup))
    (place : At room offset (values ++ [v]) env c) (inside : values.length + 1 < room)
    : Does chunk c (.ok () env) fun _ env =>
        At room (offset + dup.length) (values ++ [v] ++ [v]) env := by
  obtain ⟨stack, rfl, holds, rfl, ran⟩ := place.ran here
  have inside' : (values ++ [v]).length < stack.size := by simpa using inside
  simp only [step, run_bind, pred_height, run_peek env holds, run_push _ env v inside',
    run_pure] at ran
  exact ⟨_, .single ran, _, by simp, prefix_set v holds inside', rfl⟩

theorem does_pop (here : decodeAt chunk.code offset = some (.instr .pop))
    (place : At room offset (values ++ [v]) env c)
    : Does chunk c (.ok () env) fun _ env => At room (offset + pop.length) values env := by
  obtain ⟨stack, rfl, holds, rfl, ran⟩ := place.ran here
  simp only [step, run_pure, pred_height] at ran
  exact ⟨_, .single ran, stack, rfl, (prefix_append values [v]).trans holds, rfl⟩

theorem does_jump (here : decodeAt chunk.code offset = some (.instr (.jump distance)))
    (place : At room offset values env c) (leads : (offset : Int) + 3 + distance = target)
    : Does chunk c (.ok () env) fun _ env => At room target values env := by
  obtain ⟨stack, rfl, holds, rfl, ran⟩ := place.ran here
  have ip : ((offset + (jump distance).length : Nat) : Int) + distance = target := leads
  simp only [step, run_pure, ip] at ran
  exact ⟨_, .single ran, stack, rfl, holds, rfl⟩

/-- A conditional jump takes the value on top off and leads to its target if that value has the
truth it waits for, else on.
-/
theorem does_jumpIf {truth} (here : decodeAt chunk.code offset = some (.instr i))
    (meaning : ∀ f, step chunk f i = do
      let f ← jumpIf truth distance f
      return some f) (place : At room offset (values ++ [v]) env c)
    (leads : ((offset + i.length : Nat) : Int) + distance = target)
    : Does chunk c (.ok () env) fun _ env =>
        At room (if v.truthy = truth then target else offset + i.length) values env := by
  obtain ⟨stack, rfl, holds, rfl, ran⟩ := place.ran here
  simp only [meaning, jumpIf, run_bind, pred_height, run_peek env holds, run_pure,
    leads] at ran
  refine ⟨_, .single ran, stack, rfl, (prefix_append values [v]).trans holds, ?_⟩
  split <;> rfl

theorem does_loop (here : decodeAt chunk.code offset = some (.instr (.loop distance)))
    (place : At room offset values env c) (leads : (offset : Int) + 3 + distance = target)
    : Does chunk c (tick.run env) fun _ env => At room target values env := by
  obtain ⟨stack, rfl, holds, rfl, ran⟩ := place.ran here
  have ip : ((offset + (loop distance).length : Nat) : Int) + distance = target := leads
  simp only [step, run_bind, Free.tick.run_withStack env stack] at ran
  cases result : tick.run env with
  | error stop env' =>
    simp only [result, restack] at ran
    exact ⟨stack, .stopped ran⟩
  | ok _ env' =>
    simp only [result, restack, run_pure, ip] at ran
    exact ⟨_, .single ran, stack, rfl, holds, rfl⟩

theorem run_window (holds : values ++ args <+: stack.toList)
    : (window values.length (values ++ args).length).run (env.withStack stack)
      = .ok args (env.withStack stack) := by
  obtain ⟨rest, split⟩ := holds
  have between : (stack.extract values.length (values ++ args).length).toList = args := by
    rw [Array.toList_extract, ← split]
    simp
  have bounds : 0 ≤ (values.length : Int) ∧ (values.length : Int) ≤ (values ++ args).length
      ∧ ((values ++ args).length : Int) ≤ stack.size := by
    have size : stack.size = (values ++ args ++ rest).length := by rw [split, Array.length_toList]
    simp only [length_append] at size ⊢
    omega
  simp only [window, run_bind, run_get, Env.withStack, bounds, and_self, if_true,
    run_pure, Int.toNat_natCast, between]

/-- A call takes its arguments off and leaves the value that the function gives. -/
theorem does_call {index argc f}
    (here : decodeAt chunk.code offset = some (.instr (.call index argc)))
    (known : chunk.functions[index.toNat]? = some f) (count : argc.toNat = args.length)
    (place : At room offset (values ++ args) env c) (inside : values.length < room)
    : Does chunk c ((EvalM.call f args).run env) fun v env =>
        At room (offset + (call index argc).length) (values ++ [v]) env := by
  obtain ⟨stack, rfl, holds, rfl, ran⟩ := place.ran here
  have bottom : (((values ++ args).length : Nat) : Int) - argc.toNat = values.length := by
    simp [count]
  simp only [step, run_bind, known, run_orCrash, bottom, run_window holds,
    (Free.call f args).run_withStack env stack] at ran
  cases result : (EvalM.call f args).run env with
  | error stop env' =>
    simp only [result, restack] at ran
    exact ⟨stack, .stopped ran⟩
  | ok v env' =>
    simp only [result, restack, run_push _ env' v inside, run_pure] at ran
    exact ⟨_, .single ran, _, by simp, prefix_set v
      ((prefix_append values args).trans holds) inside, rfl⟩

theorem ends_finish (here : decodeAt chunk.code offset = some (.instr .finish))
    (place : At room offset values env c)
    : ∃ stack, Ends chunk c (.ok () (env.withStack stack)) := by
  obtain ⟨stack, rfl, holds, rfl, ran⟩ := place.ran here
  exact ⟨stack, .finished ran⟩

end MapAlgebra.Machine
