import MapAlgebra.Proofs.Eval.Composition
import MapAlgebra.Proofs.Eval.Frame

/-! What an evaluation may change: of every destination the sample at its own pixel and band, and the
variables that it assigns. All other samples and variables stay as they are.
-/

namespace MapAlgebra

open Option

variable {α : Type} {r s : Raster}

variable {R : α → α → Prop} {a b : Option α}

theorem rel_refl (refl : ∀ a, R a a) (a : Option α) : Rel R a a := by
  cases a with
  | none => exact .none
  | some a => exact .some (refl a)

theorem rel_trans (trans : ∀ {a b c}, R a b → R b c → R a c) {c} (first : Rel R a b)
    (second : Rel R b c)
    : Rel R a c := by
  cases first with
  | none =>
    cases second
    exact .none
  | some first =>
    cases second with
    | some second => exact .some (trans first second)

theorem rel_symm (symm : ∀ {a b}, R a b → R b a) (related : Rel R a b)
    : Rel R b a := by
  cases related with
  | none => exact .none
  | some holds => exact .some (symm holds)

theorem rel_mono {R'} (weaker : ∀ {a b}, R a b → R' a b) (related : Rel R a b)
    : Rel R' a b := by
  cases related with
  | none => exact .none
  | some holds => exact .some (weaker holds)

theorem rel_isSome (related : Rel R a b) : b.isSome = a.isSome := by
  cases related <;> rfl

theorem exists_of_rel {β : Type} {R : α → β → Prop} {b b'} (related : Rel R a b)
    (there : b = some b')
    : ∃ a', a = some a' ∧ R a' b' := by
  cases related with
  | none => cases there
  | some holds => exact ⟨_, rfl, some.inj there ▸ holds⟩

theorem rel_cases {β : Type} {R : α → β → Prop} {b} (related : Rel R a b)
    : a = none ∧ b = none ∨ ∃ a' b', a = some a' ∧ b = some b' ∧ R a' b' := by
  cases related with
  | none => exact Or.inl ⟨rfl, rfl⟩
  | some holds => exact Or.inr ⟨_, _, rfl, rfl, holds⟩

variable {places more : List (Int × Int × Int)} {kept : Nat → Prop}

/-- At most the samples at some pixels and bands have changed. -/
structure Raster.TouchedIn (places : List (Int × Int × Int)) (r r' : Raster) : Prop where
  shape : r.SameShape r'
  elsewhere : ∀ k : Nat,
    (∀ x y band, (x, y, band) ∈ places → r.contains x y band = true → r.offset x y band ≠ k)
    → r'.samples[k]? = r.samples[k]?

theorem Raster.TouchedIn.refl (r : Raster) : r.TouchedIn places r :=
  ⟨.refl r, fun _ _ => rfl⟩

theorem Raster.TouchedIn.trans {t} (first : r.TouchedIn places s) (second : s.TouchedIn places t)
    : r.TouchedIn places t := by
  refine ⟨first.shape.trans second.shape, fun k other => ?_⟩
  refine (second.elsewhere k fun x y band member inside => ?_).trans (first.elsewhere k other)
  rw [first.shape.contains_eq] at inside
  rw [first.shape.offset_eq]
  exact other x y band member inside

theorem Raster.TouchedIn.mono (touched : r.TouchedIn places s) (within : places ⊆ more)
    : r.TouchedIn more s :=
  ⟨touched.shape, fun k other =>
    touched.elsewhere k fun x y band member => other x y band (within member)⟩

/-- Only the destination of an image is touched, and only if the image may be written. -/
structure ImageSlot.TouchedIn (places : List (Int × Int × Int)) (slot slot' : ImageSlot)
    : Prop where
  name : slot'.name = slot.name
  role : slot'.role = slot.role
  source : slot'.source = slot.source
  destination : Rel (Raster.TouchedIn places) slot.destination slot'.destination
  readOnly : slot.role.isDestination = false → slot'.destination = slot.destination

theorem ImageSlot.TouchedIn.refl (slot : ImageSlot) : slot.TouchedIn places slot :=
  ⟨rfl, rfl, rfl, rel_refl Raster.TouchedIn.refl _, fun _ => rfl⟩

theorem ImageSlot.TouchedIn.mono {r s : ImageSlot} (touched : r.TouchedIn places s)
    (within : places ⊆ more)
    : r.TouchedIn more s :=
  { touched with destination := rel_mono (fun rasters => rasters.mono within) touched.destination }

theorem ImageSlot.TouchedIn.trans {r s t : ImageSlot} (first : r.TouchedIn places s)
    (second : s.TouchedIn places t)
    : r.TouchedIn places t := by
  refine ⟨second.name.trans first.name, second.role.trans first.role,
    second.source.trans first.source, rel_trans .trans first.destination second.destination,
    fun readOnly => ?_⟩
  rw [second.readOnly (first.role ▸ readOnly), first.readOnly readOnly]

/-- States at the same pixel and band that differ only there in the samples of their destinations. Some
of the variables are kept, and the stack has the same size.
-/
structure Env.Touched (kept : Nat → Prop) (env env' : Env) : Prop where
  x : env'.x = env.x
  y : env'.y = env.y
  band : env'.band = env.band
  width : env'.width = env.width
  height : env'.height = env.height
  outside : env'.outside = env.outside
  loopLimit : env'.loopLimit = env.loopLimit
  stack : env'.stack.size = env.stack.size
  count : env'.vars.size = env.vars.size
  vars : ∀ slot, kept slot → env'.vars[slot]? = env.vars[slot]?
  images : ∀ i : Nat, Rel (ImageSlot.TouchedIn [(env.x, env.y, env.band)])
    env.images[i]? env'.images[i]?

namespace Env.Touched

variable {env env' : Env}

/-- Counters, the stack and variables that are not kept may change. -/
theorem of_images (x : env'.x = env.x) (y : env'.y = env.y) (band : env'.band = env.band)
    (width : env'.width = env.width) (height : env'.height = env.height)
    (outside : env'.outside = env.outside) (loopLimit : env'.loopLimit = env.loopLimit)
    (stack : env'.stack.size = env.stack.size) (count : env'.vars.size = env.vars.size)
    (vars : ∀ slot, kept slot → env'.vars[slot]? = env.vars[slot]?)
    (images : env'.images = env.images)
    : env.Touched kept env' :=
  ⟨x, y, band, width, height, outside, loopLimit, stack, count, vars, fun i => by
    rw [images]
    exact rel_refl ImageSlot.TouchedIn.refl _⟩

theorem refl (env : Env) : env.Touched kept env :=
  of_images rfl rfl rfl rfl rfl rfl rfl rfl rfl (fun _ _ => rfl) rfl

theorem trans {r s t : Env} (first : r.Touched kept s) (second : s.Touched kept t)
    : r.Touched kept t where
  x := second.x.trans first.x
  y := second.y.trans first.y
  band := second.band.trans first.band
  width := second.width.trans first.width
  height := second.height.trans first.height
  outside := second.outside.trans first.outside
  loopLimit := second.loopLimit.trans first.loopLimit
  stack := second.stack.trans first.stack
  count := second.count.trans first.count
  vars := fun slot keeps => (second.vars slot keeps).trans (first.vars slot keeps)
  images := fun i => by
    have later := second.images i
    rw [first.x, first.y, first.band] at later
    exact rel_trans .trans (first.images i) later

theorem sameShape (touched : env.Touched kept env') : env.SameShape env' := by
  have count : env'.images.size = env.images.size := by
    have here := rel_isSome (touched.images env.images.size)
    have there := rel_isSome (touched.images env'.images.size)
    rw [Bool.eq_iff_iff, isSome_getElem?, isSome_getElem?] at here there
    omega
  refine ⟨touched.x, touched.y, touched.band, touched.count, touched.outside, touched.loopLimit, count,
    fun i slot' here => ?_⟩
  obtain ⟨slot, found, slots⟩ := exists_of_rel (touched.images i) here
  refine ⟨slot, found, slots.name, slots.role, slots.source, fun r' bound => ?_,
    rel_isSome slots.destination⟩
  obtain ⟨r, given, raster⟩ := exists_of_rel slots.destination bound
  exact ⟨r, given, raster.shape⟩

end Env.Touched

namespace EvalM

variable {β : Type}

/-- An evaluation that changes nothing but the samples at its own place and variables that are not
kept.
-/
def Touches (kept : Nat → Prop) (m : EvalM α) : Prop :=
  ∀ env : Env, env.Touched kept (left (m.run env))

variable {m : EvalM α}

theorem Touches.keeps (touches : Touches kept m) : Keeps m :=
  fun env => (touches env).sameShape

theorem Touches.of_left (unchanged : ∀ env, left (m.run env) = env) : Touches kept m :=
  fun env => (unchanged env).symm ▸ .refl env

theorem Touches.pure (a : α) : Touches kept (Pure.pure a : EvalM α) :=
  fun env => .refl env

theorem Touches.stop (stop : Stop) : Touches kept (throw stop : EvalM α) :=
  fun env => .refl env

theorem Touches.orCrash (a : Option α) : Touches kept (EvalM.orCrash a) := by
  intro env
  cases a <;> exact .refl env

theorem Touches.bind {next : α → EvalM β} (first : Touches kept m)
    (later : ∀ a, Touches kept (next a))
    : Touches kept (m >>= next) := by
  intro env
  have touched := first env
  rw [EStateM.run_bind]
  cases ran : m.run env with
  | ok a env' =>
    rw [ran] at touched
    exact touched.trans (later a env')
  | error stop env' =>
    rw [ran] at touched
    exact touched

theorem Touches.writeVar {slot} (free : ¬ kept slot) (v : Sample)
    : Touches kept (EvalM.writeVar slot v) := by
  intro env
  rw [run_writeVar]
  split
  · refine .of_images rfl rfl rfl rfl rfl rfl rfl rfl (by simp [left]) (fun other keeps => ?_) rfl
    have different : slot ≠ other := fun same => free (same ▸ keeps)
    exact Array.getElem?_setIfInBounds_ne different
  · exact .refl env

theorem touchedIn_setIfInBounds {x y band} (inside : r.contains x y band = true)
    (place : 0 ≤ r.offset x y band) (v)
    : r.TouchedIn [(x, y, band)]
        { r with samples := r.samples.setIfInBounds (r.offset x y band).toNat v } := by
  refine ⟨⟨rfl, rfl, by simp, rfl⟩, fun k other => ?_⟩
  have distinct := other x y band List.mem_cons_self inside
  exact Array.getElem?_setIfInBounds_ne (by omega)

theorem Touches.writeImage (i v) : Touches kept (EvalM.writeImage i v) := by
  intro env
  change env.Touched kept (left ((EvalM.writeAt i env.x env.y env.band v).run env))
  rw [run_writeAt]
  cases here : env.images[i]? with
  | none => exact .refl env
  | some slot =>
    dsimp only
    split
    · exact .refl env
    · next writable =>
      cases bound : slot.destination with
      | none => exact .refl env
      | some raster =>
        dsimp only
        split
        · next inside =>
          split
          · next place =>
            refine ⟨rfl, rfl, rfl, rfl, rfl, rfl, rfl, rfl, rfl, fun _ _ => rfl, fun j => ?_⟩
            simp only [left, setDestination, Array.getElem?_modify]
            split
            · next same =>
              subst same
              rw [here]
              refine .some ⟨rfl, rfl, rfl, ?_, fun readOnly => ?_⟩
              · simp only [bound, map_some]
                exact .some (touchedIn_setIfInBounds inside place.1 v)
              · simp [readOnly] at writable
            · exact rel_refl ImageSlot.TouchedIn.refl _
          · exact .refl env
        · exact .refl env

theorem Touches.tick : Touches kept EvalM.tick := by
  intro env
  rw [run_tick]
  split <;> exact .of_images rfl rfl rfl rfl rfl rfl rfl rfl rfl (fun _ _ => rfl) rfl

theorem Touches.call (f args) : Touches kept (EvalM.call f args) := by
  intro env
  rw [run_call]
  split <;> exact .of_images rfl rfl rfl rfl rfl rfl rfl rfl rfl (fun _ _ => rfl) rfl

theorem Touches.load (symbol) : Touches kept (Eval.load symbol) := by
  refine .bind (.orCrash symbol) fun s => ?_
  split
  · exact .of_left (left_readImage s.slot)
  · exact .of_left (left_readVar s.slot)

/-- Writing what a symbol stands for touches no variable that is kept, unless the symbol is one. -/
theorem Touches.store {symbol}
    (free : ∀ s, symbol = some s → s.role.isImage = false → ¬ kept s.slot) (v : Sample)
    : Touches kept (Eval.store symbol v) := by
  cases symbol with
  | none => exact .stop .crash
  | some s =>
    cases image : s.role.isImage with
    | true =>
      have stores : Eval.store (some s) v = EvalM.writeImage s.slot v := by
        simp [Eval.store, EvalM.orCrash, image]
      exact stores ▸ .writeImage s.slot v
    | false =>
      have stores : Eval.store (some s) v = EvalM.writeVar s.slot v := by
        simp [Eval.store, EvalM.orCrash, image]
      exact stores ▸ .writeVar (free s rfl image) v

end EvalM

/-- The symbol that a node assigns. -/
def Expr.assigned? : Expr → Option Symbol
  | .assign _ _ _ _ symbol | .update _ _ _ _ symbol => symbol
  | _ => none

/-- A node assigns no variable that is kept. -/
def Expr.Spares (kept : Nat → Prop) (n : Expr) : Prop :=
  ∀ s, n.assigned? = some s → s.role.isImage = false → ¬ kept s.slot

theorem Expr.spares_false (n : Expr) : n.Spares fun _ => False :=
  fun _ _ _ => not_false

namespace Eval

open EvalM (Touches)

theorem composes_touches : Composes fun _ => Touches kept where
  pure := .pure
  bind := .bind
  tick := .tick
  unfinished := .stop _

/-- A node that assigns no variable that is kept touches none. -/
theorem touches_of_spares {n : Expr} (spares : n.Spares kept) : n.Runs fun _ => Touches kept := by
  cases n with
  | literal | binary | unary => trivial
  | read span name symbol => exact .load symbol
  | assign span target step value symbol | update span target decrement before symbol =>
    exact ⟨.load symbol, .store spares⟩
  | builtin span name which args => exact .of_left (EvalM.left_builtin which)
  | call span name args function =>
    exact composes_touches.runs_call fun vs => .bind (.orCrash function) fun f => .call f vs

theorem touches_stmts (fuel) {body : List Stmt} (spares : ∀ n ∈ stmtsNodes body, n.Spares kept)
    : Touches kept (stmts fuel body) :=
  composes_touches.stmts fuel body fun n member => touches_of_spares (spares n member)

end Eval

end MapAlgebra
