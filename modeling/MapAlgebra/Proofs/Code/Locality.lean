import MapAlgebra.Proofs.Code.Flow
import MapAlgebra.Proofs.Eval.Locality

/-! What a run of the machine depends on. It reads its stack only below its height, where it has pushed
all values itself, so what an earlier run has left there cannot be told. This holds of any code. The size
of the stack can be told only by reaching past its end.
-/

namespace MapAlgebra

open EvalM (Relates Local Free Agreed)
open EStateM

theorem EvalM.Free.stack_left {α : Type} {m : EvalM α} (free : Free { stack := true } m) (env)
    : (left (m.run env)).stack = env.stack := by
  rw [show m.run env = _ from free.run_withStack env env.stack]
  cases m.run env <;> rfl

namespace Machine

variable {α : Type} {reach : Nat → Prop} {height : Int} {f : Frame}

/-- States that look alike, with stacks that both have a place or both have none wherever a run may reach,
and that agree below a height.
-/
structure Level (reach : Nat → Prop) (height : Int) (env env' : Env) : Prop where
  alike : env.Alike env'
  size : ∀ k, reach k → (k < env'.stack.size ↔ k < env.stack.size)
  below : ∀ k : Nat, (k : Int) < height → env'.stack[k]? = env.stack[k]?

theorem Level.lower {low env env'} (level : Level reach height env env') (less : low ≤ height)
    : Level reach low env env' :=
  { level with below := fun k inside => level.below k (by omega) }

/-- An operation that leaves the stack alone ends the same from stacks that agree. -/
theorem relates_of_free {m : EvalM α} (isLocal : Local m) (free : Free { stack := true } m)
    : Relates (Level reach height) m fun _ => Level reach height := by
  intro env env' level
  have agreed := isLocal level.alike
  have stack := free.stack_left env
  have stack' := free.stack_left env'
  cases ran : m.run env <;> cases ran' : m.run env' <;> rw [ran, ran'] at agreed <;> cases agreed
  · next after after' alike =>
    rw [ran] at stack
    rw [ran'] at stack'
    simp only [EvalM.left] at stack stack'
    refine .ok ⟨alike, ?_, ?_⟩
    · rw [stack, stack']
      exact level.size
    · rw [stack, stack']
      exact level.below
  · next alike => exact .error alike

theorem relates_peek {i} (inside : i < height)
    : Relates (Level reach height) (peek i) fun _ => Level reach height := by
  intro env env' level
  unfold peek
  split
  · next low =>
    simp only [run_bind, run_get, EvalM.run_orCrash,
      level.below i.toNat (by omega)]
    cases env.stack[i.toNat]? with
    | none => exact .error level.alike
    | some v => exact .ok level
  · exact .error level.alike

/-- A value that is put below the height or on top leaves stacks that agree up to it. -/
theorem relates_poke {i} (inside : i ≤ height) (reached : 0 ≤ i → reach i.toNat) (v : Sample)
    : Relates (Level reach height) (poke i v) fun _ => Level reach (max height (i + 1)) := by
  intro env env' level
  have room : (0 ≤ i ∧ i.toNat < env'.stack.size) ↔ (0 ≤ i ∧ i.toNat < env.stack.size) :=
    and_congr_right fun low => level.size i.toNat (reached low)
  simp only [poke, run_bind, run_get, room]
  split
  · next here =>
    refine .ok ⟨{ level.alike with }, fun k reached => ?_, fun k below => ?_⟩
    · simpa using level.size k reached
    · simp only [Array.getElem?_setIfInBounds]
      split
      · next same =>
        simp [here.2, (room.mpr here).2]
      · exact level.below k (by omega)
  · exact .error level.alike

theorem relates_push (f) (reached : 0 ≤ f.sp → reach f.sp.toNat) (v)
    : Relates (Level reach f.sp) (push f v) fun f' => Level reach f'.sp :=
  .bind (relates_poke (by omega) reached v) fun _ => .pure fun _ _ level =>
    level.lower (by dsimp only; omega)

theorem relates_replaceTop (f) (reached : 0 ≤ f.sp - 1 → reach (f.sp - 1).toNat)
    (change : Sample → Sample)
    : Relates (Level reach f.sp) (replaceTop f change) fun f' => Level reach f'.sp :=
  .bind (relates_peek (by omega)) fun v => .bind (relates_poke (by omega) reached (change v)) fun _ =>
    .pure fun _ _ level => level.lower (by omega)

theorem relates_window (low) (reached : 0 < height → reach (height.toNat - 1))
    : Relates (Level reach height) (window low height) fun _ => Level reach height := by
  intro env env' level
  have room : (0 ≤ low ∧ low ≤ height ∧ height ≤ env'.stack.size)
      ↔ (0 ≤ low ∧ low ≤ height ∧ height ≤ env.stack.size) := by
    refine and_congr_right fun _ => and_congr_right fun _ => ?_
    by_cases some : 0 < height
    · have same := level.size _ (reached some)
      omega
    · omega
  simp only [window, run_bind, run_get, room]
  split
  · next inside =>
    have same : (env'.stack.extract low.toNat height.toNat).toList
        = (env.stack.extract low.toNat height.toNat).toList := by
      have fits := room.mpr inside
      refine List.ext_getElem? fun k => ?_
      simp only [Array.getElem?_toList, Array.getElem?_extract,
        Nat.min_eq_left (show height.toNat ≤ env'.stack.size by omega),
        Nat.min_eq_left (show height.toNat ≤ env.stack.size by omega)]
      split
      · exact level.below _ (by omega)
      · rfl
    rw [same]
    exact .ok level
  · exact .error level.alike

theorem relates_jumpIf (truth distance f)
    : Relates (Level reach f.sp) (jumpIf truth distance f) fun f' => Level reach f'.sp := by
  refine .bind (relates_peek (by omega)) fun v => .pure fun _ _ level => ?_
  split <;> exact level.lower (by dsimp only; omega)

/-- Two runs go on from stacks that agree below the height, or are at their end. -/
def NextLevel (reach : Nat → Prop) : Option Frame → Env → Env → Prop
  | some f => Level reach f.sp
  | none => Env.Alike

theorem relates_next {m pre} (related : Relates pre m fun f => Level reach f.sp)
    : Relates pre (do return some (← m)) (NextLevel reach) :=
  .bind related fun _ => .pure fun _ _ level => level

/-- An instruction reaches no further than below the height that it finds and the one that it leaves. -/
def Reaches (reach : Nat → Prop) (height : Int) (i : Instr) : Prop :=
  ∀ k : Nat, (k : Int) < height ∨ (k : Int) < height - i.pops + i.pushes → reach k

/-- Every instruction ends the same from stacks that agree below the height, by cases on the
instruction.
-/
theorem relates_step {chunk : Chunk} (stateless : ∀ f ∈ chunk.functions, f.Stateless) (f : Frame)
    {i} (reaches : Reaches reach f.sp i)
    : Relates (Level reach f.sp) (step chunk f i) (NextLevel reach) := by
  have free {α : Type} {m : EvalM α} (isLocal : Local m) (free : Free { stack := true } m)
      : Relates (Level reach f.sp) m fun _ => Level reach f.sp :=
    relates_of_free isLocal free
  have within (k : Int) (found : k < f.sp) (low : 0 ≤ k) : reach k.toNat :=
    reaches k.toNat (Or.inl (by omega))
  have above (k : Int) (made : k < f.sp - i.pops + i.pushes) (low : 0 ≤ k) : reach k.toNat :=
    reaches k.toNat (Or.inr (by omega))
  have pushed (grows : f.sp < f.sp - i.pops + i.pushes) (v : Sample)
      : Relates (Level reach f.sp) (do return some (← push f v)) (NextLevel reach) :=
    relates_next (relates_push f (above _ grows) v)
  have one : f.sp < f.sp - (0 : Nat) + (1 : Nat) := by omega
  have two : f.sp < f.sp - (1 : Nat) + (2 : Nat) := by omega
  cases i with
  | nop => exact .pure fun _ _ level => level
  | pop => exact .pure fun _ _ level => level.lower (by dsimp only; omega)
  | jump d => exact .pure fun _ _ level => level
  | finish => exact .pure fun _ _ level => level.alike
  | dup => exact .bind (relates_peek (by omega)) fun v => pushed two v
  | const n => exact .bind (free (.orCrash _) (.orCrash _)) fun v => pushed one v
  | constZero | constOne => exact pushed one _
  | loadVar n => exact .bind (free (.readVar _) (.readVar _)) fun v => pushed one v
  | readImage n =>
    exact .bind (free (.readImage _) (.readImage _)) fun v => pushed one v
  | builtin which =>
    exact .bind (free (.builtin which) (.builtin which)) fun v => pushed one v
  | storeVar n =>
    exact .bind (relates_peek (by omega)) fun v => .bind (free (.writeVar _ v) (.writeVar _ v))
      fun _ => .pure fun _ _ level => level.lower (by dsimp only; omega)
  | writeImage n =>
    exact .bind (relates_peek (by omega)) fun v => .bind (free (.writeImage _ v) (.writeImage _ v))
      fun _ => .pure fun _ _ level => level.lower (by dsimp only; omega)
  | arith op =>
    refine .bind (relates_peek (by omega)) fun b => relates_next ?_
    exact fun _ _ level => relates_replaceTop { f with sp := f.sp - 1 }
      (within _ (by dsimp only; omega)) _ (level.lower (by dsimp only; omega))
  | neg | not | truthy => exact relates_next (relates_replaceTop f (within _ (by omega)) _)
  | jumpTrue d | jumpFalse d => exact relates_next (relates_jumpIf _ d f)
  | loop d => exact .bind (free .tick .tick) fun _ => .pure fun _ _ level => level
  | call n argc =>
    cases found : chunk.functions[n.toNat]? with
    | none =>
      simp only [step, found, EvalM.orCrash]
      exact .stop fun _ _ level => level.alike
    | some function =>
      simp only [step, found, EvalM.orCrash, pure_bind]
      refine .bind (relates_window _ fun some => reaches _ (Or.inl (by omega))) fun args => .bind
        (free (.call (stateless function (Array.mem_of_getElem? found)) args) (.call function args))
        fun v => relates_next ?_
      exact fun _ _ level => relates_push { f with sp := f.sp - argc.toNat }
        (above _ (Int.lt_succ _)) v (level.lower (by dsimp only; omega))

theorem relates_round {chunk} (stateless : ∀ f ∈ chunk.functions, f.Stateless) (f)
    (reaches : ∀ i, Instr.decodeAt chunk.code f.ip.toNat = some (.instr i) → Reaches reach f.sp i)
    : Relates (Level reach f.sp) (round chunk f) (NextLevel reach) := by
  by_cases negative : f.ip < 0
  · simp only [round, negative, if_true]
    exact fun _ _ level => .error level.alike
  · simp only [round, negative, if_false]
    split
    · exact .pure fun _ _ level => level.alike
    · next i here => exact relates_step stateless { f with ip := f.ip + i.length } (reaches i here)
    · exact .stop fun _ _ level => level.alike
    · intro env env' level
      simp only [EvalM.fault, run_bind, run_get, level.alike.x, level.alike.y,
        level.alike.band]
      exact .error level.alike

/-- A run ends the same from stacks that agree below the height, as long as its rounds lead from allowed
frames to allowed frames and reach no further than allowed, by induction on the fuel.
-/
theorem relates_runFrom {chunk} (stateless : ∀ f ∈ chunk.functions, f.Stateless)
    {allowed : Frame → Prop}
    (rounds : ∀ f, allowed f
      → (∀ i, Instr.decodeAt chunk.code f.ip.toNat = some (.instr i) → Reaches reach f.sp i)
        ∧ ∀ env f' env', (round chunk f).run env = .ok (some f') env' → allowed f')
    (fuel : Nat) {f} (here : allowed f)
    : Relates (Level reach f.sp) (runFrom chunk fuel f) fun _ => Env.Alike := by
  induction fuel generalizing f with
  | zero => exact .stop fun _ _ level => level.alike
  | succ fuel ih =>
    intro env env' level
    obtain ⟨reaches, leads⟩ := rounds f here
    have agreed := relates_round stateless f reaches level
    rw [run_runFrom_succ, run_runFrom_succ]
    cases ran : (round chunk f).run env <;> cases ran' : (round chunk f).run env' <;>
      rw [ran, ran'] at agreed <;> cases agreed
    · next next after after' related =>
      cases next with
      | none => exact .ok related
      | some f' => exact ih (leads env f' after ran) related
    · next alike => exact .error alike

end Machine

end MapAlgebra
