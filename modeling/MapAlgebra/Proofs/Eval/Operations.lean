import MapAlgebra.Eval.Tree

/-! What the operations that both ways of running share do to a state. None of them looks at the
operand stack, so a run with a stack and a run without one can be compared state by state.
-/

namespace MapAlgebra

open EStateM

/-- One more round of a loop is past the limit. -/
def Env.Spent (env : Env) : Prop :=
  0 < env.loopLimit ∧ env.loopLimit < env.counted.iterations

/-- The state with another operand stack. -/
def Env.withStack (env : Env) (stack : Array Sample) : Env :=
  { env with stack }

/-- Parts of a state that an operation may have nothing to do with. -/
structure Parts where
  stack : Bool := false
  images : Bool := false
  outside : Bool := false
  loopLimit : Bool := false

/-- The state with some parts of another one. -/
def Env.exchange (parts : Parts) (env other : Env) : Env :=
  { env with
    stack := bif parts.stack then other.stack else env.stack
    images := bif parts.images then other.images else env.images
    outside := bif parts.outside then other.outside else env.outside
    loopLimit := bif parts.loopLimit then other.loopLimit else env.loopLimit }

namespace EvalM

variable {α β : Type}

@[simp] theorem run_stop (stop : Stop) (env : Env)
    : (throw stop : EvalM α).run env = .error stop env := rfl

/-- A value that is there is given, and the lack of one is a crash. -/
theorem run_orCrash (a : Option α) (env : Env)
    : (orCrash a).run env
      = match a with
        | some a => .ok a env
        | none => .error .crash env := by
  cases a <;> rfl

theorem run_readVar (slot env)
    : (readVar slot).run env
      = match env.vars[slot]? with
        | some v => .ok v env
        | none => .error .crash env := by
  simp only [readVar, run_bind, run_get, run_orCrash]
  cases env.vars[slot]? <;> rfl

theorem run_writeVar (slot v env)
    : (writeVar slot v).run env
      = if slot < env.vars.size then
          .ok () { env with vars := env.vars.setIfInBounds slot v }
        else .error .crash env := by
  simp only [writeVar, run_bind, run_get]
  split <;> rfl

/-- Reading an image needs a raster, and outside of it a value for such reads. -/
theorem run_readAt (i : Nat) (x y band : Int) (env : Env)
    : (readAt i x y band).run env
      = match env.images[i]? with
        | none => .error .crash env
        | some slot =>
          let stop (fault : ImageFault) : EStateM.Result Stop Env Sample :=
            .error (.error { image := slot.name, x, y, band, fault := .image fault }) env
          match readable slot with
          | none => stop (.unbound slot.name)
          | some raster =>
            if raster.contains x y band then
              match raster.get? x y band with
              | some v => .ok v env
              | none => .error .crash env
            else
              match env.outside with
              | some v => .ok v env
              | none => stop (.outside slot.name raster.bounds raster.bands) := by
  simp only [readAt, run_bind, run_get, run_orCrash]
  cases env.images[i]? with
  | none => rfl
  | some slot =>
    dsimp only
    cases readable slot with
    | none => rfl
    | some raster =>
      dsimp only
      split
      · cases raster.get? x y band <;> rfl
      · cases env.outside <;> rfl

/-- Writing an image needs a destination, and changes nothing outside of it. -/
theorem run_writeAt (i : Nat) (x y band : Int) (v : Sample) (env : Env)
    : (writeAt i x y band v).run env
      = match env.images[i]? with
        | none => .error .crash env
        | some slot =>
          let stop (fault : ImageFault) : EStateM.Result Stop Env Unit :=
            .error (.error { image := slot.name, x, y, band, fault := .image fault }) env
          if !slot.role.isDestination then stop (.notDestination slot.name)
          else
            match slot.destination with
            | none => stop (.unbound slot.name)
            | some raster =>
              if raster.contains x y band then
                let place := raster.offset x y band
                if 0 ≤ place ∧ place.toNat < raster.samples.size then
                  .ok () (setDestination env i fun raster =>
                    { raster with samples := raster.samples.setIfInBounds place.toNat v })
                else .error .crash env
              else .ok () env := by
  simp only [writeAt, run_bind, run_get, run_orCrash]
  cases env.images[i]? with
  | none => rfl
  | some slot =>
    dsimp only
    split
    · rfl
    · cases slot.destination with
      | none => rfl
      | some raster =>
        dsimp only
        split
        · split <;> rfl
        · rfl

/-- A round of a loop is counted, and one past the limit is a fault. -/
theorem run_tick (env : Env)
    : tick.run env
      = if env.loopLimit > 0 && env.counted.iterations > env.loopLimit then
          .error (.error { image := "", x := env.x, y := env.y, band := env.band
                           fault := .loopLimit env.loopLimit })
            env.counted
        else .ok () env.counted := by
  change (if env.loopLimit > 0 && env.counted.iterations > env.loopLimit then _ else _ : EvalM Unit).run
    env.counted = _
  split <;> rfl

theorem run_tick_of_spent {env} (spent : env.Spent)
    : tick.run env
      = .error (.error { image := "", x := env.x, y := env.y, band := env.band
                         fault := .loopLimit env.loopLimit })
          env.counted := by
  obtain ⟨limited, past⟩ := spent
  rw [run_tick, if_pos]
  simp only [Bool.and_eq_true, decide_eq_true_eq]
  exact ⟨limited, past⟩

theorem run_tick_of_not_spent {env} (within : ¬ env.Spent) : tick.run env = .ok () env.counted := by
  rw [run_tick, if_neg]
  simp only [Bool.and_eq_true, decide_eq_true_eq]
  exact within

theorem run_call (f args env)
    : (call f args).run env
      = match (f.call env.calls args).1 with
        | .ok v => .ok v { env with calls := (f.call env.calls args).2 }
        | .error (.refused reason) =>
          .error (.error { image := "", x := env.x, y := env.y, band := env.band
                           fault := .callRefused f.name reason })
            { env with calls := (f.call env.calls args).2 }
        | .error (.evaluation text) =>
          .error (.error { image := "", x := env.x, y := env.y, band := env.band
                           fault := .raised text })
            { env with calls := (f.call env.calls args).2 }
        | .error .crashed => .error .crash { env with calls := (f.call env.calls args).2 } := by
  simp only [call, run_bind, run_modifyGet]
  cases (f.call env.calls args).1 with
  | ok v => rfl
  | error fault => cases fault <;> rfl

/-- The same result in a state with parts of another one. -/
def exchange (parts : Parts) (other : Env) : EStateM.Result Stop Env α → EStateM.Result Stop Env α
  | .ok a env => .ok a (env.exchange parts other)
  | .error stop env => .error stop (env.exchange parts other)

/-- An evaluation that neither reads nor changes some parts of the state. -/
def Free (parts : Parts) (m : EvalM α) : Prop :=
  ∀ env other, m.run (env.exchange parts other) = exchange parts other (m.run env)

namespace Free

variable {parts : Parts} {stack images outside loopLimit : Bool}

theorem pure (a : α) : Free parts (Pure.pure a : EvalM α) :=
  fun _ _ => rfl

theorem stop (stop) : Free parts (throw stop : EvalM α) :=
  fun _ _ => rfl

theorem orCrash (a : Option α) : Free parts (EvalM.orCrash a) := by
  intro env other
  cases a <;> rfl

theorem bind {m} {next : α → EvalM β} (first : Free parts m) (later : ∀ a, Free parts (next a))
    : Free parts (m >>= next) := by
  intro env other
  rw [run_bind, run_bind, first env other]
  cases m.run env with
  | ok a env' => exact later a env' other
  | error stop env' => rfl

theorem readVar (slot) : Free parts (EvalM.readVar slot) := by
  intro env other
  simp only [run_readVar, Env.exchange]
  split <;> rfl

theorem writeVar (slot v) : Free parts (EvalM.writeVar slot v) := by
  intro env other
  simp only [run_writeVar, Env.exchange]
  split <;> rfl

theorem readAt (i x y band) : Free ⟨stack, false, false, loopLimit⟩ (EvalM.readAt i x y band) := by
  intro env other
  simp only [run_readAt, Env.exchange, cond_false]
  repeat' split
  all_goals rfl

theorem writeAt (i x y band v)
    : Free ⟨stack, false, outside, loopLimit⟩ (EvalM.writeAt i x y band v) := by
  intro env other
  simp only [run_writeAt, Env.exchange, cond_false]
  repeat' split
  all_goals rfl

theorem readImage (i) : Free ⟨stack, false, false, loopLimit⟩ (EvalM.readImage i) :=
  fun env other => readAt i env.x env.y env.band env other

theorem writeImage (i v) : Free ⟨stack, false, outside, loopLimit⟩ (EvalM.writeImage i v) :=
  fun env other => writeAt i env.x env.y env.band v env other

theorem builtin (which) : Free parts (EvalM.builtin which) := by
  intro env other
  cases which <;> rfl

theorem tick : Free ⟨stack, images, outside, false⟩ EvalM.tick := by
  intro env other
  have same : (env.exchange ⟨stack, images, outside, false⟩ other).Spent ↔ env.Spent := Iff.rfl
  by_cases spent : env.Spent
  · rw [run_tick_of_spent spent, run_tick_of_spent (same.mpr spent)]
    rfl
  · rw [run_tick_of_not_spent spent, run_tick_of_not_spent (mt same.mp spent)]
    rfl

theorem call (f args) : Free parts (EvalM.call f args) := by
  intro env other
  simp only [run_call, Env.exchange]
  split <;> rfl

end Free

/-- The same result in a state with another operand stack. -/
def restack (stack : Array Sample) : EStateM.Result Stop Env α → EStateM.Result Stop Env α
  | .ok a env => .ok a (env.withStack stack)
  | .error stop env => .error stop (env.withStack stack)

theorem Free.run_withStack {m : EvalM α} (free : Free { stack := true } m) (env stack)
    : m.run (env.withStack stack) = restack stack (m.run env) :=
  (free env (env.withStack stack)).trans (by cases m.run env <;> rfl)

end EvalM

end MapAlgebra
