import MapAlgebra.Proofs.Code.Steps
import MapAlgebra.Proofs.Eval.Composition

/-! Statements about evaluations that carry over to the machine. Such a statement holds of a round as soon
as it holds of the operations on the stack and of the operation that the instruction ahead asks for.
-/

namespace MapAlgebra

/-- A statement about evaluations that also holds of stopping and of the operations on the stack. -/
structure Machine.Composes (holds : ∀ ⦃α : Type⦄, EvalM α → Prop) : Prop extends Eval.Chains holds where
  crash : ∀ {α : Type}, holds (throw .crash : EvalM α)
  fault : ∀ {α : Type} (image : String) (cause : EvalFault), holds (EvalM.fault image cause : EvalM α)
  peek : ∀ height, holds (Machine.peek height)
  poke : ∀ height v, holds (Machine.poke height v)
  window : ∀ low high, holds (Machine.window low high)

/-- A statement holds of the operation that an instruction asks for, if it asks for one beyond the
stack.
-/
def Instr.Runs (holds : ∀ ⦃α : Type⦄, EvalM α → Prop) : Instr → Prop
  | .loadVar slot => holds (EvalM.readVar slot.toNat)
  | .storeVar slot => ∀ v, holds (EvalM.writeVar slot.toNat v)
  | .readImage i => holds (EvalM.readImage i.toNat)
  | .writeImage i => ∀ v, holds (EvalM.writeImage i.toNat v)
  | .builtin which => holds (EvalM.builtin which)
  | .loop _ => holds EvalM.tick
  | .call .. => ∀ function args, holds (EvalM.call function args)
  | _ => True

/-- What follows from a statement holds of the same operations, by cases on the instruction. -/
theorem Instr.Runs.mono {holds holds' : ∀ ⦃α : Type⦄, EvalM α → Prop} {i : Instr} (runs : i.Runs holds)
    (weaker : ∀ {α : Type} {m : EvalM α}, holds m → holds' m)
    : i.Runs holds' := by
  cases i with
  | loadVar n | readImage n | builtin which | loop d => exact weaker runs
  | storeVar n | writeImage n => exact fun v => weaker (runs v)
  | call n argc => exact fun function args => weaker (runs function args)
  | _ => trivial

namespace Machine.Composes

variable {holds : ∀ ⦃α : Type⦄, EvalM α → Prop} {chunk : Chunk} {f : Frame} {i : Instr}

section

variable (composes : Composes holds)
include composes

theorem orCrash {α : Type} (a : Option α) : holds (EvalM.orCrash a) := by
  cases a with
  | none => exact composes.crash
  | some a => exact composes.pure a

theorem push (f v) : holds (do return some (← Machine.push f v)) :=
  composes.bind (composes.bind (composes.poke f.sp v) fun _ => composes.pure _) fun _ => composes.pure _

theorem replaceTop (f) (change : Sample → Sample)
    : holds (do return some (← Machine.replaceTop f change)) :=
  composes.bind
    (composes.bind (composes.peek _) fun _ => composes.bind (composes.poke _ _) fun _ => composes.pure f)
    fun _ => composes.pure _

/-- What holds of the operation of an instruction holds of the instruction, by cases on it. -/
theorem step (chunk : Chunk) (f : Frame) (runs : i.Runs holds)
    : holds (Machine.step chunk f i) := by
  cases i with
  | nop | pop | jump d | finish => exact composes.pure _
  | dup => exact composes.bind (composes.peek _) (composes.push f)
  | const n => exact composes.bind (composes.orCrash _) (composes.push f)
  | constZero | constOne => exact composes.push f _
  | loadVar n | readImage n | builtin which => exact composes.bind runs (composes.push f)
  | storeVar n | writeImage n =>
    exact composes.bind (composes.peek _) fun v => composes.bind (runs v) fun _ => composes.pure _
  | arith op => exact composes.bind (composes.peek _) fun b => composes.replaceTop _ _
  | neg | not | truthy => exact composes.replaceTop f _
  | jumpTrue d | jumpFalse d =>
    exact composes.bind (composes.bind (composes.peek _) fun _ => composes.pure _) fun _ =>
      composes.pure _
  | loop d => exact composes.bind runs fun _ => composes.pure _
  | call n argc =>
    exact composes.bind (composes.orCrash _) fun function => composes.bind (composes.window _ _)
      fun args => composes.bind (runs function args) (composes.push _)

theorem round (runs : ∀ i, Instr.decodeAt chunk.code f.ip.toNat = some (.instr i) → i.Runs holds)
    : holds (Machine.round chunk f) := by
  by_cases negative : f.ip < 0
  · simp only [Machine.round, negative, if_true]
    exact composes.crash
  · simp only [Machine.round, negative, if_false]
    split
    · exact composes.pure none
    · next i here => exact composes.step chunk _ (runs i here)
    · exact composes.crash
    · exact composes.fault _ _

/-- What holds of all instructions, and of stopping without an end, holds of runs, by induction on the
fuel.
-/
theorem runFrom (unfinished : holds (throw .unfinished : EvalM Unit))
    (runs : ∀ i : Instr, i.Runs holds) (fuel : Nat) (f : Frame)
    : holds (Machine.runFrom chunk fuel f) := by
  induction fuel generalizing f with
  | zero => exact unfinished
  | succ fuel ih =>
    by_cases negative : f.ip < 0
    · simp only [Machine.runFrom, negative, if_true]
      exact composes.crash
    · simp only [Machine.runFrom, negative, if_false]
      split
      · exact composes.pure ()
      · next i _ =>
        refine composes.bind (composes.step chunk _ (runs i)) fun next => ?_
        cases next with
        | none => exact composes.pure ()
        | some f => exact ih f
      · exact composes.crash
      · exact composes.fault _ _

end

end Machine.Composes

namespace Machine

open EvalM (Free)
open EStateM

variable {images outside loopLimit : Bool}

theorem free_peek (height) : Free ⟨false, images, outside, loopLimit⟩ (peek height) := by
  intro env other
  unfold peek
  split
  · exact Free.orCrash env.stack[height.toNat]? env other
  · rfl

theorem free_poke (height v) : Free ⟨false, images, outside, loopLimit⟩ (poke height v) := by
  intro env other
  simp only [poke, run_bind, run_get, Env.exchange, cond_false]
  split <;> rfl

theorem free_window (low high) : Free ⟨false, images, outside, loopLimit⟩ (window low high) := by
  intro env other
  simp only [window, run_bind, run_get, Env.exchange, cond_false]
  split <;> rfl

theorem free_reserve (height) : Free ⟨false, images, outside, loopLimit⟩ (reserve height) := by
  intro env other
  simp only [reserve, run_modify, Env.exchange, cond_false]
  split <;> rfl

end Machine

end MapAlgebra
