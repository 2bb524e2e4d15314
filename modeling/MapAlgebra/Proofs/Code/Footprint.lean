import MapAlgebra.Proofs.Code.Composition
import MapAlgebra.Proofs.Eval.Footprint

/-! What the machine may change. Its instructions touch what the operations behind them touch, and the
stack, which keeps its size; so a run changes no variable that none of its instructions assigns.
-/

namespace MapAlgebra

open EStateM

/-- An instruction assigns no variable that is kept. -/
def Instr.Spares (kept : Nat → Prop) (i : Instr) : Prop :=
  ∀ slot : UInt16, i = .storeVar slot → ¬ kept slot.toNat

namespace Machine

open EvalM (Touches left)

variable {kept : Nat → Prop}

theorem touches_peek (height) : Touches kept (peek height) := by
  unfold peek
  split
  · exact fun env => Touches.orCrash env.stack[height.toNat]? env
  · exact .stop .crash

theorem touches_poke (height v) : Touches kept (poke height v) := by
  intro env
  simp only [poke, run_bind, run_get]
  split
  · exact .of_images rfl rfl rfl rfl rfl rfl rfl (by simp [left]) rfl (fun _ _ => rfl) rfl
  · exact .refl env

theorem touches_window (low high) : Touches kept (window low high) := by
  intro env
  simp only [window, run_bind, run_get]
  split <;> exact .refl env

theorem composes_touches : Composes fun _ => Touches kept where
  toChains := Eval.composes_touches.toChains
  crash := .stop .crash
  fault _ _ := fun env => .refl env
  peek := touches_peek
  poke := touches_poke
  window := touches_window

/-- An instruction touches what its operation touches, by cases on the instruction. -/
theorem touches_instr {i : Instr} (spares : i.Spares kept) : i.Runs fun _ => Touches kept := by
  cases i with
  | loadVar n => exact .of_left (EvalM.left_readVar _)
  | storeVar n => exact .writeVar (spares n rfl)
  | readImage n => exact .of_left (EvalM.left_readImage _)
  | writeImage n => exact .writeImage _
  | builtin which => exact .of_left (EvalM.left_builtin which)
  | loop d => exact .tick
  | call n argc => exact .call
  | _ => trivial

theorem touches_round {chunk : Chunk} {f}
    (spares : ∀ i, Instr.decodeAt chunk.code f.ip.toNat = some (.instr i) → i.Spares kept)
    : Touches kept (round chunk f) :=
  composes_touches.round fun i here => touches_instr (spares i here)

/-- A run touches what its rounds touch, as long as they lead from allowed places to allowed places, by
induction on the fuel.
-/
theorem touches_runFrom {chunk} {allowed : Frame → Prop}
    (rounds : ∀ f, allowed f → Touches kept (round chunk f)
      ∧ ∀ env f' env', (round chunk f).run env = .ok (some f') env' → allowed f')
    (fuel : Nat) {f} (here : allowed f)
    : Touches kept (runFrom chunk fuel f) := by
  induction fuel generalizing f with
  | zero => exact .stop .unfinished
  | succ fuel ih =>
    intro env
    obtain ⟨touches, leads⟩ := rounds f here
    have touched := touches env
    rw [run_runFrom_succ]
    cases ran : (round chunk f).run env with
    | error stop env' =>
      rw [ran] at touched
      exact touched
    | ok next env' =>
      rw [ran] at touched
      cases next with
      | none => exact touched
      | some f' => exact touched.trans (ih (leads env f' env' ran) env')

end Machine

end MapAlgebra
