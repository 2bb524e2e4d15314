import MapAlgebra.Proofs.Eval.Operations

/-! What an evaluation leaves alone. It may change the values of variables and the samples of
destinations, but neither their number nor what is bound to an image.
-/

namespace MapAlgebra

/-- Rasters that differ in their samples only. -/
structure Raster.SameShape (r r' : Raster) : Prop where
  bounds : r'.bounds = r.bounds
  bands : r'.bands = r.bands
  size : r'.samples.size = r.samples.size
  tile : r'.tile = r.tile

theorem Raster.SameShape.refl (r : Raster) : r.SameShape r := ⟨rfl, rfl, rfl, rfl⟩

theorem Raster.SameShape.trans {r s t : Raster} (first : r.SameShape s) (second : s.SameShape t)
    : r.SameShape t :=
  ⟨second.bounds.trans first.bounds, second.bands.trans first.bands,
    second.size.trans first.size, second.tile.trans first.tile⟩

/-- A raster of the same shape has samples at the same pixels and bands, in the same places. -/
theorem Raster.SameShape.contains_eq {r r' : Raster} (same : r.SameShape r') (x y band : Int)
    : r'.contains x y band = r.contains x y band := by
  rw [Raster.contains, same.bounds, same.bands, Raster.contains]

theorem Raster.SameShape.offset_eq {r r' : Raster} (same : r.SameShape r') (x y band)
    : r'.offset x y band = r.offset x y band := by
  rw [Raster.offset, same.bounds, same.bands, Raster.offset]

/-- Image slots that differ in the samples of their destinations only. -/
structure ImageSlot.SameShape (slot slot' : ImageSlot) : Prop where
  name : slot'.name = slot.name
  role : slot'.role = slot.role
  source : slot'.source = slot.source
  destination : ∀ r', slot'.destination = some r'
    → ∃ r, slot.destination = some r ∧ r.SameShape r'
  bound : slot'.destination.isSome = slot.destination.isSome

theorem ImageSlot.SameShape.refl (slot : ImageSlot) : slot.SameShape slot :=
  ⟨rfl, rfl, rfl, fun r' here => ⟨r', here, .refl r'⟩, rfl⟩

theorem ImageSlot.SameShape.trans {r s t : ImageSlot} (first : r.SameShape s)
    (second : s.SameShape t)
    : r.SameShape t := by
  refine ⟨second.name.trans first.name, second.role.trans first.role,
    second.source.trans first.source, fun r' here => ?_, second.bound.trans first.bound⟩
  obtain ⟨middle, there, same⟩ := second.destination r' here
  obtain ⟨r, found, same'⟩ := first.destination middle there
  exact ⟨r, found, same'.trans same⟩

/-- States at the same pixel that differ in values only: of variables, of samples, of counters and of
the stack.
-/
structure Env.SameShape (env env' : Env) : Prop where
  x : env'.x = env.x
  y : env'.y = env.y
  band : env'.band = env.band
  vars : env'.vars.size = env.vars.size
  outside : env'.outside = env.outside
  loopLimit : env'.loopLimit = env.loopLimit
  count : env'.images.size = env.images.size
  images : ∀ (i : Nat) slot', env'.images[i]? = some slot'
    → ∃ slot, env.images[i]? = some slot ∧ slot.SameShape slot'

theorem Env.SameShape.refl (env : Env) : env.SameShape env :=
  ⟨rfl, rfl, rfl, rfl, rfl, rfl, rfl, fun _ slot here => ⟨slot, here, .refl slot⟩⟩

theorem Env.SameShape.trans {r s t : Env} (first : r.SameShape s) (second : s.SameShape t)
    : r.SameShape t := by
  refine ⟨second.x.trans first.x, second.y.trans first.y, second.band.trans first.band,
    second.vars.trans first.vars, second.outside.trans first.outside,
    second.loopLimit.trans first.loopLimit, second.count.trans first.count, fun i slot' here => ?_⟩
  obtain ⟨middle, there, same⟩ := second.images i slot' here
  obtain ⟨slot, found, same'⟩ := first.images i middle there
  exact ⟨slot, found, same'.trans same⟩

namespace EvalM

variable {α β : Type}

/-- The state that an evaluation leaves, whether it stops or not. -/
def left : EStateM.Result Stop Env α → Env
  | .ok _ env => env
  | .error _ env => env

/-- An evaluation that changes nothing but values. -/
def Keeps (m : EvalM α) : Prop :=
  ∀ env : Env, env.SameShape (left (m.run env))

theorem Keeps.of_left {m : EvalM α} (unchanged : ∀ env, left (m.run env) = env) : Keeps m :=
  fun env => (unchanged env).symm ▸ .refl env

theorem Keeps.pure (a : α) : Keeps (Pure.pure a : EvalM α) :=
  fun env => .refl env

theorem Keeps.bind {m : EvalM α} {next : α → EvalM β} (first : Keeps m)
    (later : ∀ a, Keeps (next a))
    : Keeps (m >>= next) := by
  intro env
  have kept := first env
  rw [EStateM.run_bind]
  cases ran : m.run env with
  | ok a env' =>
    rw [ran] at kept
    exact kept.trans (later a env')
  | error stop env' =>
    rw [ran] at kept
    exact kept

theorem left_readVar (slot env) : left ((readVar slot).run env) = env := by
  rw [run_readVar]
  split <;> rfl

theorem left_readAt (i x y band env) : left ((readAt i x y band).run env) = env := by
  rw [run_readAt]
  repeat' split
  all_goals rfl

theorem left_readImage (i env) : left ((readImage i).run env) = env :=
  left_readAt i env.x env.y env.band env

theorem sameShape_setDestination (env : Env) (i) {change}
    (keeps : ∀ r : Raster, r.SameShape (change r))
    : env.SameShape (setDestination env i change) := by
  refine ⟨rfl, rfl, rfl, rfl, rfl, rfl, by simp [setDestination], fun j slot' here => ?_⟩
  rw [setDestination, Array.getElem?_modify] at here
  split at here
  · obtain ⟨slot, found, rfl⟩ := Option.map_eq_some_iff.mp here
    refine ⟨slot, found, rfl, rfl, rfl, fun r' changed => ?_, by simp⟩
    obtain ⟨r, bound, rfl⟩ := Option.map_eq_some_iff.mp changed
    exact ⟨r, bound, keeps r⟩
  · exact ⟨slot', here, .refl slot'⟩

theorem Keeps.writeAt (i : Nat) (x y band v) : Keeps (EvalM.writeAt i x y band v) := by
  intro env
  rw [run_writeAt]
  cases env.images[i]? with
  | none => exact .refl env
  | some slot =>
    dsimp only
    split
    · exact .refl env
    · cases slot.destination with
      | none => exact .refl env
      | some raster =>
        dsimp only
        split
        · split
          · exact sameShape_setDestination env i fun r => ⟨rfl, rfl, by simp, rfl⟩
          · exact .refl env
        · exact .refl env

theorem left_builtin (which env) : left ((builtin which).run env) = env := by
  cases which <;> rfl

end EvalM

end MapAlgebra
