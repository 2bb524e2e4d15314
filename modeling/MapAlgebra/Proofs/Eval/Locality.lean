import MapAlgebra.Proofs.Eval.Footprint
import MapAlgebra.Proofs.Raster.Store

/-! What an evaluation depends on. Two runs at the same pixel and band cannot be told apart when their
states agree on the variables and, of every raster, on its shape and on its sample there.
-/

namespace MapAlgebra

/-- A function whose result depends on its arguments alone. -/
def Function.Stateless (f : Function) : Prop :=
  ∀ counts counts' args, (f.call counts args).1 = (f.call counts' args).1

variable {x y band : Int}

/-- Rasters of the same bounds and bands that have the same sample at a pixel and band. -/
structure Raster.AlikeAt (x y band : Int) (r r' : Raster) : Prop where
  bounds : r'.bounds = r.bounds
  bands : r'.bands = r.bands
  sample : r'.get? x y band = r.get? x y band

theorem Raster.AlikeAt.refl (r : Raster) : r.AlikeAt x y band r := ⟨rfl, rfl, rfl⟩

variable {r r' : Raster} {slot slot' : ImageSlot}

theorem Raster.AlikeAt.contains_eq (alike : r.AlikeAt x y band r')
    : r'.contains x y band = r.contains x y band := by
  rw [contains, alike.bounds, alike.bands, contains]

theorem Raster.AlikeAt.offset_eq (alike : r.AlikeAt x y band r')
    : r'.offset x y band = r.offset x y band := by
  rw [offset, alike.bounds, alike.bands, offset]

/-- Whether a raster has a place for a sample within its bounds and bands can be told by reading. -/
theorem Raster.hasPlace_iff_get? (inside : r.contains x y band = true)
    : r.HasPlace x y band ↔ (r.get? x y band).isSome = true := by
  rw [HasPlace, get?, if_pos inside, stored?]
  split
  · next low => simp [low]
  · next negative => simp [negative]

/-- Images with the same name and role whose rasters look alike. -/
structure ImageSlot.AlikeAt (x y band : Int) (slot slot' : ImageSlot) : Prop where
  name : slot'.name = slot.name
  role : slot'.role = slot.role
  source : Option.Rel (Raster.AlikeAt x y band) slot.source slot'.source
  destination : Option.Rel (Raster.AlikeAt x y band) slot.destination slot'.destination

/-- States at the same pixel and band that agree on all that an evaluation there looks at. The stack
and the counts of calls do not matter.
-/
structure Env.Alike (env env' : Env) : Prop where
  x : env'.x = env.x
  y : env'.y = env.y
  band : env'.band = env.band
  width : env'.width = env.width
  height : env'.height = env.height
  outside : env'.outside = env.outside
  loopLimit : env'.loopLimit = env.loopLimit
  iterations : env'.iterations = env.iterations
  vars : env'.vars = env.vars
  images : ∀ i : Nat, Option.Rel (ImageSlot.AlikeAt env.x env.y env.band)
    env.images[i]? env'.images[i]?

theorem ImageSlot.AlikeAt.readable (alike : slot.AlikeAt x y band slot')
    : Option.Rel (Raster.AlikeAt x y band) (EvalM.readable slot) (EvalM.readable slot') := by
  unfold EvalM.readable
  rw [alike.role]
  split
  · exact alike.source
  · exact alike.destination

namespace EvalM

variable {α β : Type}

/-- Two runs end the same: they give the same value and leave related states, or stop for the same
reason and leave states that look alike.
-/
inductive Agreed (post : α → Env → Env → Prop)
    : EStateM.Result Stop Env α → EStateM.Result Stop Env α → Prop where
  | ok {a env env'} (holds : post a env env') : Agreed post (.ok a env) (.ok a env')
  | error {stop env env'} (alike : env.Alike env') : Agreed post (.error stop env) (.error stop env')

variable {a : α} {env env' : Env} {post : α → Env → Env → Prop} {result : EStateM.Result Stop Env α}

theorem Agreed.of_ok (agreed : Agreed post (.ok a env) result)
    : ∃ env', result = .ok a env' ∧ post a env env' := by
  cases agreed with
  | ok holds => exact ⟨_, rfl, holds⟩

theorem Agreed.of_ok' (agreed : Agreed post result (.ok a env'))
    : ∃ env, result = .ok a env ∧ post a env env' := by
  cases agreed with
  | ok holds => exact ⟨_, rfl, holds⟩

/-- From related states two runs of an evaluation end the same. -/
def Relates (pre : Env → Env → Prop) (m : EvalM α) (post : α → Env → Env → Prop) : Prop :=
  ∀ ⦃env env'⦄, pre env env' → Agreed post (m.run env) (m.run env')

/-- From states that look alike two runs of an evaluation end the same. -/
def Local (m : EvalM α) : Prop :=
  Relates Env.Alike m fun _ => Env.Alike

variable {pre : Env → Env → Prop} {post' : β → Env → Env → Prop}

theorem Relates.pure (holds : ∀ env env', pre env env' → post a env env')
    : Relates pre (Pure.pure a : EvalM α) post :=
  fun _ _ related => .ok (holds _ _ related)

theorem Relates.stop {stop} (alike : ∀ env env', pre env env' → env.Alike env')
    : Relates pre (throw stop : EvalM α) post :=
  fun _ _ related => .error (alike _ _ related)

theorem Relates.bind {m next} (first : Relates pre m post)
    (later : ∀ a, Relates (post a) (next a) post')
    : Relates pre (m >>= next) post' := by
  intro env env' related
  have agreed := first related
  rw [EStateM.run_bind, EStateM.run_bind]
  cases ran : m.run env <;> cases ran' : m.run env' <;> rw [ran, ran'] at agreed
  all_goals cases agreed
  · next holds => exact later _ holds
  · next alike => exact .error alike

theorem Local.orCrash (a : Option α) : Local (EvalM.orCrash a) := by
  intro env env' alike
  cases a with
  | none => exact .error alike
  | some a => exact .ok alike

theorem Local.readVar (slot) : Local (EvalM.readVar slot) := by
  intro env env' alike
  rw [run_readVar, run_readVar, alike.vars]
  cases env.vars[slot]? with
  | none => exact .error alike
  | some v => exact .ok alike

theorem Local.writeVar (slot v) : Local (EvalM.writeVar slot v) := by
  intro env env' alike
  rw [run_writeVar, run_writeVar, alike.vars]
  split
  · exact .ok { alike with vars := rfl }
  · exact .error alike

theorem Local.readImage (i) : Local (EvalM.readImage i) := by
  intro env env' alike
  change Agreed _ ((readAt i env.x env.y env.band).run env)
    ((readAt i env'.x env'.y env'.band).run env')
  rw [alike.x, alike.y, alike.band, run_readAt, run_readAt, alike.outside]
  rcases rel_cases (alike.images i) with ⟨here, there⟩ | ⟨slot, slot', here, there, slots⟩
  · rw [here, there]
    exact .error alike
  · rw [here, there]
    dsimp only
    rw [slots.name]
    rcases rel_cases slots.readable with ⟨reads, reads'⟩ | ⟨r, r', reads, reads', rasters⟩
    · rw [reads, reads']
      exact .error alike
    · rw [reads, reads']
      dsimp only
      rw [rasters.contains_eq, rasters.sample, rasters.bounds, rasters.bands]
      split
      · cases r.get? env.x env.y env.band with
        | none => exact .error alike
        | some v => exact .ok alike
      · cases env.outside with
        | none => exact .error alike
        | some v => exact .ok alike

theorem hasPlace_iff_of_alike (alike : r.AlikeAt x y band r') (inside : r.contains x y band = true)
    : r'.HasPlace x y band ↔ r.HasPlace x y band := by
  rw [Raster.hasPlace_iff_get? inside, Raster.hasPlace_iff_get? (alike.contains_eq ▸ inside),
    alike.sample]

theorem get?_setIfInBounds (inside : r.contains x y band = true) (place : r.HasPlace x y band) (v)
    : Raster.get? { r with samples := r.samples.setIfInBounds (r.offset x y band).toNat v } x y band
      = some v := by
  refine (if_pos inside).trans ((if_pos place.1).trans ?_)
  exact Array.getElem?_setIfInBounds_self_of_lt place.2

theorem alikeAt_setIfInBounds (alike : r.AlikeAt x y band r') (inside : r.contains x y band = true)
    (place : r.HasPlace x y band) (place' : r'.HasPlace x y band) (v)
    : Raster.AlikeAt x y band
        { r with samples := r.samples.setIfInBounds (r.offset x y band).toNat v }
        { r' with samples := r'.samples.setIfInBounds (r'.offset x y band).toNat v } := by
  refine ⟨alike.bounds, alike.bands, ?_⟩
  rw [get?_setIfInBounds inside place, get?_setIfInBounds (alike.contains_eq.trans inside) place']

/-- Replacing the destinations of an image by rasters that look alike gives states that do. -/
theorem alike_setDestination (alike : env.Alike env') {i change change'}
    (here : env.images[i]? = some slot) (there : env'.images[i]? = some slot')
    (slots : slot.AlikeAt env.x env.y env.band slot')
    (changed : Option.Rel (Raster.AlikeAt env.x env.y env.band) (slot.destination.map change)
      (slot'.destination.map change'))
    : (setDestination env i change).Alike (setDestination env' i change') := by
  refine { alike with images := fun j => ?_ }
  simp only [setDestination, Array.getElem?_modify]
  split
  · next same =>
    subst same
    rw [here, there]
    exact .some { slots with destination := changed }
  · exact alike.images j

theorem Local.writeImage (i v) : Local (EvalM.writeImage i v) := by
  intro env env' alike
  change Agreed _ ((writeAt i env.x env.y env.band v).run env)
    ((writeAt i env'.x env'.y env'.band v).run env')
  rw [alike.x, alike.y, alike.band, run_writeAt, run_writeAt]
  rcases rel_cases (alike.images i) with ⟨here, there⟩ | ⟨slot, slot', here, there, slots⟩
  · rw [here, there]
    exact .error alike
  · rw [here, there]
    dsimp only
    rw [slots.name, slots.role]
    split
    · exact .error alike
    · rcases rel_cases slots.destination with ⟨bound, bound'⟩ | ⟨r, r', bound, bound', rasters⟩
      · rw [bound, bound']
        exact .error alike
      · rw [bound, bound']
        dsimp only
        rw [rasters.contains_eq]
        split
        · next inside =>
          have places := hasPlace_iff_of_alike rasters inside
          unfold Raster.HasPlace at places
          split
          · next place =>
            rw [if_pos (places.mpr place)]
            refine .ok (alike_setDestination alike here there slots ?_)
            rw [bound, bound']
            exact .some (alikeAt_setIfInBounds rasters inside place (places.mpr place) v)
          · next short =>
            rw [if_neg (mt places.mp short)]
            exact .error alike
        · exact .ok alike

theorem Local.builtin (which) : Local (EvalM.builtin which) := by
  intro env env' alike
  have tells (number : Env → Int) (same : number env' = number env)
      : Agreed (fun _ => Env.Alike) (.ok (Sample.ofInt (number env)) env)
          (.ok (Sample.ofInt (number env')) env') := by
    rw [same]
    exact .ok alike
  cases which with
  | column => exact tells Env.x alike.x
  | row => exact tells Env.y alike.y
  | width => exact tells Env.width alike.width
  | height => exact tells Env.height alike.height

theorem Local.tick : Local EvalM.tick := by
  intro env env' alike
  have counted : Env.Alike env.counted env'.counted :=
    { alike with iterations := congrArg (wrap <| · + 1) alike.iterations }
  rw [run_tick, run_tick, alike.x, alike.y, alike.band, alike.loopLimit, counted.iterations]
  split
  · exact .error counted
  · exact .ok counted

/-- Calling a function whose result depends on its arguments only is local. -/
theorem Local.call {f} (stateless : f.Stateless) (args : List Sample)
    : Local (EvalM.call f args) := by
  intro env env' alike
  have counted : Env.Alike { env with calls := (f.call env.calls args).2 }
      { env' with calls := (f.call env'.calls args).2 } :=
    { alike with }
  rw [run_call, run_call]
  generalize { env' with calls := (f.call env'.calls args).2 } = after at counted ⊢
  rw [alike.x, alike.y, alike.band, stateless env'.calls env.calls args]
  cases (f.call env.calls args).1 with
  | ok v => exact .ok counted
  | error fault => cases fault <;> exact .error counted

end EvalM

/-- The function that a node calls, if it calls one, has no state. -/
def Expr.CallsStateless : Expr → Prop
  | .call _ _ _ (some f) => f.Stateless
  | _ => True

namespace Eval

open EvalM (Local)

theorem composes_local : Composes fun _ => Local where
  pure := fun _ => .pure fun _ _ alike => alike
  bind := .bind
  tick := .tick
  unfinished := .stop fun _ _ alike => alike

theorem local_load (symbol) : Local (load symbol) := by
  refine composes_local.bind (Local.orCrash symbol) fun s => ?_
  split
  · exact .readImage s.slot
  · exact .readVar s.slot

theorem local_store (symbol v) : Local (store symbol v) := by
  refine composes_local.bind (Local.orCrash symbol) fun s => ?_
  split
  · exact .writeImage s.slot v
  · exact .writeVar s.slot v

/-- A node is local, unless it calls a function that has a state. -/
theorem local_of_stateless {n : Expr} (stateless : n.CallsStateless) : n.Runs fun _ => Local := by
  cases n with
  | literal | binary | unary => trivial
  | read span name symbol => exact local_load symbol
  | assign span target step value symbol | update span target decrement before symbol =>
    exact ⟨local_load symbol, local_store symbol⟩
  | builtin span name which args => exact .builtin which
  | call span name args function =>
    refine composes_local.runs_call fun vs => ?_
    cases function with
    | none => exact .stop fun _ _ alike => alike
    | some f => exact .call stateless vs

/-- Statements that call no function with a state are local. -/
theorem local_stmts (fuel : Nat) {body : List Stmt}
    (stateless : ∀ n ∈ stmtsNodes body, n.CallsStateless)
    : Local (stmts fuel body) :=
  composes_local.stmts fuel body fun n member => local_of_stateless (stateless n member)

end Eval

end MapAlgebra
