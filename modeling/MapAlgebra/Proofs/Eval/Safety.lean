import MapAlgebra.Proofs.Eval.Footprint
import MapAlgebra.Proofs.Raster.Store
import MapAlgebra.Proofs.Scope.Resolved

/-! Safety of resolved scripts. In a state that has what the names stand for, a resolved script
stops early only for a cause that lies outside of the script.
-/

namespace MapAlgebra

/-- Why an evaluation may stop at the pixel of a state. An image is read where its raster has no
sample and there is no value for such reads, a function gives no value for as many arguments as it
takes, the loops reach their limit, or the fuel does not suffice. The evaluation crashes only if a
function does, or if a raster has no place for a sample within its bounds and bands.
-/
inductive Explained (registry : Registry) (env : Env) : Stop → Prop where
  | outside {slot raster} (bound : slot ∈ env.images)
    (reads : EvalM.readable slot = some raster)
    (beyond : raster.contains env.x env.y env.band = false) (noValue : env.outside = none)
    : Explained registry env (.error {
        image := slot.name, x := env.x, y := env.y, band := env.band
        fault := .image (.outside slot.name raster.bounds raster.bands) })
  | refused {f counts args reason}
    (known : f ∈ registry.functions) (count : args.length = f.arity)
    (refuses : (f.call counts args).1 = .error (.refused reason))
    : Explained registry env (.error {
        image := "", x := env.x, y := env.y, band := env.band
        fault := .callRefused f.name reason })
  | raised {f counts args text}
    (known : f ∈ registry.functions) (count : args.length = f.arity)
    (raises : (f.call counts args).1 = .error (.evaluation text))
    : Explained registry env (.error {
        image := "", x := env.x, y := env.y, band := env.band, fault := .raised text })
  | loopLimit (limited : 0 < env.loopLimit)
    : Explained registry env (.error {
        image := "", x := env.x, y := env.y, band := env.band
        fault := .loopLimit env.loopLimit })
  | unfinished : Explained registry env .unfinished
  | functionCrash {f counts args}
    (known : f ∈ registry.functions) (count : args.length = f.arity)
    (crashes : (f.call counts args).1 = .error .crashed)
    : Explained registry env .crash
  | shortStore {slot raster} (bound : slot ∈ env.images)
    (uses : slot.source = some raster ∨ slot.destination = some raster)
    (within : raster.contains env.x env.y env.band = true)
    (short : ¬ raster.HasPlace env.x env.y env.band)
    : Explained registry env .crash

variable {registry : Registry} {names : Names} {start env env' : Env}

theorem Raster.SameShape.hasPlace_iff {r r' : Raster} (same : r.SameShape r') (x y band)
    : r'.HasPlace x y band ↔ r.HasPlace x y band := by
  rw [Raster.HasPlace, same.offset_eq, same.size, Raster.HasPlace]

variable {slot slot' : ImageSlot} {i : Nat}

theorem ImageSlot.SameShape.readable (same : slot.SameShape slot') {raster'}
    (reads : EvalM.readable slot' = some raster')
    : ∃ raster, EvalM.readable slot = some raster ∧ raster.SameShape raster' := by
  unfold EvalM.readable at reads ⊢
  rw [same.role, same.source] at reads
  split
  · next isSource =>
    rw [if_pos isSource] at reads
    exact ⟨raster', reads, .refl raster'⟩
  · next notSource =>
    rw [if_neg notSource] at reads
    exact same.destination raster' reads

theorem ImageSlot.SameShape.isSome_readable (same : slot.SameShape slot')
    : (EvalM.readable slot').isSome = (EvalM.readable slot).isSome := by
  unfold EvalM.readable
  rw [same.role, same.source]
  split
  · rfl
  · exact same.bound

theorem Env.SameShape.getElem?_images (same : env.SameShape env')
    (here : env.images[i]? = some slot)
    : ∃ slot', env'.images[i]? = some slot' ∧ slot.SameShape slot' := by
  obtain ⟨inside, -⟩ := Array.getElem?_eq_some_iff.mp here
  have inside' : i < env'.images.size := same.count ▸ inside
  have there := Array.getElem?_eq_getElem inside'
  obtain ⟨slot0, here0, shape⟩ := same.images i _ there
  cases here.symm.trans here0
  exact ⟨_, there, shape⟩

theorem Env.SameShape.mem_images (same : env.SameShape env') (bound : slot' ∈ env'.images)
    : ∃ slot ∈ env.images, slot.SameShape slot' := by
  obtain ⟨i, here⟩ := Array.mem_iff_getElem?.mp bound
  obtain ⟨slot, there, shape⟩ := same.images i slot' here
  exact ⟨slot, Array.mem_of_getElem? there, shape⟩

theorem Explained.of_sameShape {stop : Stop} (explained : Explained registry env' stop)
    (same : env.SameShape env')
    : Explained registry env stop := by
  cases explained with
  | outside bound reads beyond noValue =>
    obtain ⟨slot, bound, shape⟩ := same.mem_images bound
    obtain ⟨raster, reads, raster_shape⟩ := shape.readable reads
    rw [raster_shape.contains_eq] at beyond
    rw [shape.name, raster_shape.bounds, raster_shape.bands, same.x, same.y, same.band]
    rw [same.x, same.y, same.band] at beyond
    exact .outside bound reads beyond (same.outside ▸ noValue)
  | refused known count refuses =>
    rw [same.x, same.y, same.band]
    exact .refused known count refuses
  | raised known count raises =>
    rw [same.x, same.y, same.band]
    exact .raised known count raises
  | loopLimit limited =>
    rw [same.x, same.y, same.band, same.loopLimit]
    exact .loopLimit (same.loopLimit ▸ limited)
  | unfinished => exact .unfinished
  | functionCrash known count crashes => exact .functionCrash known count crashes
  | shortStore bound uses within short =>
    obtain ⟨slot, bound, shape⟩ := same.mem_images bound
    rw [same.x, same.y, same.band] at within short
    rcases uses with source | destination
    · exact .shortStore bound (Or.inl (shape.source ▸ source)) within short
    · obtain ⟨raster, found, raster_shape⟩ := shape.destination _ destination
      rw [raster_shape.contains_eq] at within
      rw [raster_shape.hasPlace_iff] at short
      exact .shortStore bound (Or.inr found) within short

/-- A state has what names stand for: a place for every variable and for every image a raster to read
from, and one to write to if it may be written.
-/
structure Ready (names : Names) (env : Env) : Prop where
  vars : ∀ s ∈ names.locals, s.role.isImage = false ∧ s.slot < env.vars.size
  images : ∀ s ∈ names.images, s.role.isImage = true ∧ ∃ slot, env.images[s.slot]? = some slot
    ∧ (EvalM.readable slot).isSome
    ∧ (s.role.isDestination = true → slot.role.isDestination = true ∧ slot.destination.isSome)

namespace EvalM

variable {α β : Type} {post : α → Prop} {post' : β → Prop} {allowed : Stop → Prop}

/-- From every state of the same shape as a first one an evaluation ends in such a state. It gives a
value with a property, or stops as it is allowed to.
-/
def Safe (start : Env) (allowed : Stop → Prop) (m : EvalM α) (post : α → Prop) : Prop :=
  ∀ env, start.SameShape env →
    match m.run env with
    | .ok a env' => start.SameShape env' ∧ post a
    | .error stop env' => start.SameShape env' ∧ allowed stop

theorem Safe.pure {a} (holds : post a) : Safe start allowed (Pure.pure a : EvalM α) post :=
  fun _ same => ⟨same, holds⟩

variable {m : EvalM α}

variable {next : α → EvalM β} {v : Sample}

theorem Safe.bind (first : Safe start allowed m post)
    (later : ∀ a, post a → Safe start allowed (next a) post')
    : Safe start allowed (m >>= next) post' := by
  intro env same
  have safe := first env same
  rw [EStateM.run_bind]
  cases ran : m.run env with
  | ok a env' =>
    rw [ran] at safe
    exact later a safe.2 env' safe.1
  | error stop env' =>
    rw [ran] at safe
    exact safe

theorem Safe.andThen (first : Safe start allowed m fun _ => True)
    (later : ∀ a, Safe start allowed (next a) post')
    : Safe start allowed (m >>= next) post' :=
  first.bind fun a _ => later a

theorem Safe.gives (safe : Safe start allowed m fun _ => True)
    (given : ∀ env a env', m.run env = .ok a env' → post a)
    : Safe start allowed m post := by
  intro env same
  have ended := safe env same
  cases ran : m.run env with
  | ok a env' =>
    rw [ran] at ended
    exact ⟨ended.1, given env a env' ran⟩
  | error stop env' =>
    rw [ran] at ended
    exact ended

/-- An operation that changes only values is safe when every stop of it is allowed. -/
theorem Safe.of_touches (touches : Touches (fun _ => False) m)
    (stops : ∀ env stop env', start.SameShape env → m.run env = .error stop env' → allowed stop)
    : Safe start allowed m fun _ => True := by
  intro env same
  have kept := touches.keeps env
  cases ran : m.run env with
  | ok a env' =>
    rw [ran] at kept
    exact ⟨same.trans kept, trivial⟩
  | error stop env' =>
    rw [ran] at kept
    exact ⟨same.trans kept, stops env stop env' same ran⟩

/-- An operation that changes only values is explained when the state it starts from explains why it
stops.
-/
theorem Safe.of_explained (touches : Touches (fun _ => False) m)
    (explained : ∀ env stop env', start.SameShape env → m.run env = .error stop env' → Explained registry env stop)
    : Safe start (Explained registry start) m fun _ => True :=
  .of_touches touches fun env stop env' same stopped =>
    (explained env stop env' same stopped).of_sameShape same

theorem Safe.readVar {slot} (inside : slot < start.vars.size)
    : Safe start (Explained registry start) (EvalM.readVar slot) fun _ => True := by
  refine .of_explained (.of_left (left_readVar slot)) fun env stop env' same stopped => ?_
  have here : slot < env.vars.size := same.vars ▸ inside
  rw [run_readVar, Array.getElem?_eq_getElem here] at stopped
  exact nomatch stopped

theorem Safe.writeVar {slot} (inside : slot < start.vars.size)
    : Safe start (Explained registry start) (EvalM.writeVar slot v) fun _ => True := by
  refine .of_explained (.writeVar not_false v) fun env stop env' same stopped => ?_
  have here : slot < env.vars.size := same.vars ▸ inside
  rw [run_writeVar, if_pos here] at stopped
  exact nomatch stopped

theorem eq_some_of_readable {raster} (reads : readable slot = some raster)
    : slot.source = some raster ∨ slot.destination = some raster := by
  unfold readable at reads
  split at reads
  · exact Or.inl reads
  · exact Or.inr reads

/-- Reading an image that is there stops only outside of its raster, or where the raster has no place
for a sample.
-/
theorem Safe.readImage (here : start.images[i]? = some slot) (reads : (readable slot).isSome)
    : Safe start (Explained registry start) (EvalM.readImage i) fun _ => True := by
  refine .of_explained (.of_left (left_readImage i)) fun env stop env' same stopped => ?_
  obtain ⟨slot', here', shape⟩ := same.getElem?_images here
  have bound := Array.mem_of_getElem? here'
  rw [← shape.isSome_readable] at reads
  obtain ⟨raster, reads⟩ := Option.isSome_iff_exists.mp reads
  change (readAt i env.x env.y env.band).run env = _ at stopped
  simp only [run_readAt, here', reads] at stopped
  split at stopped
  · next within =>
    split at stopped
    · exact nomatch stopped
    · next lost =>
      cases stopped
      exact .shortStore bound (eq_some_of_readable reads) within
        (Raster.not_hasPlace_of_get? within lost)
  · next beyond =>
    split at stopped
    · exact nomatch stopped
    · next noValue =>
      cases stopped
      exact .outside bound reads (by simpa using beyond) noValue

/-- Writing an image that may be written stops only where its raster has no place for a sample. -/
theorem Safe.writeImage (here : start.images[i]? = some slot)
    (writes : slot.role.isDestination = true) (bound : slot.destination.isSome)
    : Safe start (Explained registry start) (EvalM.writeImage i v) fun _ => True := by
  refine .of_explained (.writeImage i v) fun env stop env' same stopped => ?_
  obtain ⟨slot', here', shape⟩ := same.getElem?_images here
  rw [← shape.bound] at bound
  rw [← shape.role] at writes
  obtain ⟨raster, destination⟩ := Option.isSome_iff_exists.mp bound
  change (writeAt i env.x env.y env.band v).run env = _ at stopped
  simp only [run_writeAt, here', writes, destination, Bool.not_true, Bool.false_eq_true,
    if_false] at stopped
  split at stopped
  · next within =>
    split at stopped
    · exact nomatch stopped
    · next short =>
      cases stopped
      exact .shortStore (Array.mem_of_getElem? here') (Or.inr destination) within short
  · exact nomatch stopped

theorem Safe.builtin {which}
    : Safe start (Explained registry start) (EvalM.builtin which) fun _ => True := by
  refine .of_explained (.of_left (left_builtin which)) fun env stop env' _ stopped => ?_
  cases which <;> exact nomatch stopped

theorem Safe.tick : Safe start (Explained registry start) EvalM.tick fun _ => True := by
  refine .of_explained .tick fun env stop env' _ stopped => ?_
  rw [run_tick] at stopped
  split at stopped
  · next past =>
    cases stopped
    exact .loopLimit (by grind)
  · exact nomatch stopped

theorem Safe.call {f args} (known : f ∈ registry.functions) (count : args.length = f.arity)
    : Safe start (Explained registry start) (EvalM.call f args) fun _ => True := by
  refine .of_explained (.call f args) fun env stop env' _ stopped => ?_
  rw [run_call] at stopped
  split at stopped
  · exact nomatch stopped
  · next refuses =>
    cases stopped
    exact .refused known count refuses
  · next raises =>
    cases stopped
    exact .raised known count raises
  · next crashes =>
    cases stopped
    exact .functionCrash known count crashes

end EvalM

open EvalM (Safe)

namespace Eval

variable {symbol : Option Symbol}

theorem composes_safe
    : Composes fun _ m => Safe start (Explained registry start) m fun _ => True where
  pure := fun _ => .pure trivial
  bind := .andThen
  tick := .tick
  unfinished := fun _ same => ⟨same, .unfinished⟩

section

variable (ready : Ready names start)
include ready

theorem safe_load (found : ∃ s, symbol = some s ∧ names.Reads s)
    : Safe start (Explained registry start) (load symbol) fun _ => True := by
  obtain ⟨s, rfl, isLocal | ⟨-, isImage⟩⟩ := found
  · obtain ⟨isVar, inside⟩ := ready.vars s isLocal
    have loads : load (some s) = EvalM.readVar s.slot := by simp [load, EvalM.orCrash, isVar]
    rw [loads]
    exact .readVar inside
  · obtain ⟨image, slot, here, reads, -⟩ := ready.images s isImage
    have loads : load (some s) = EvalM.readImage s.slot := by simp [load, EvalM.orCrash, image]
    rw [loads]
    exact .readImage here reads

theorem safe_store (found : ∃ s, symbol = some s ∧ names.Writes s) (v)
    : Safe start (Explained registry start) (store symbol v) fun _ => True := by
  obtain ⟨s, rfl, isLocal | ⟨-, isImage, writes⟩⟩ := found
  · obtain ⟨isVar, inside⟩ := ready.vars s isLocal
    have stores : store (some s) v = EvalM.writeVar s.slot v := by
      simp [store, EvalM.orCrash, isVar]
    rw [stores]
    exact .writeVar inside
  · obtain ⟨image, slot, here, -, written⟩ := ready.images s isImage
    have stores : store (some s) v = EvalM.writeImage s.slot v := by
      simp [store, EvalM.orCrash, image]
    rw [stores]
    exact .writeImage here (written writes).1 (written writes).2

theorem runs_of_resolved {n : Expr} (resolved : n.Resolved names)
    : n.Runs fun _ m => Safe start (Explained names.registry start) m fun _ => True := by
  cases n with
  | literal | binary | unary => trivial
  | read span name symbol =>
    obtain ⟨s, found, -, reads⟩ := resolved
    exact safe_load ready ⟨s, found, reads⟩
  | assign span target step value symbol | update span target decrement before symbol =>
    obtain ⟨s, found, -, writes⟩ := resolved
    exact ⟨safe_load ready ⟨s, found, writes.reads⟩, safe_store ready ⟨s, found, writes⟩⟩
  | builtin span name which args => exact .builtin
  | call span name args function =>
    obtain ⟨f, rfl, known, count⟩ := resolved
    intro safeArgs
    exact (safeArgs.gives fun _ _ _ => length_of_exprs).bind fun vs length =>
      .call (List.mem_of_find?_eq_some known) (length.trans count.symm)

/-- Resolved statements stop only for causes that the state they start from explains. -/
theorem safe_of_resolved (fuel : Nat) {body : List Stmt}
    (resolved : ∀ n ∈ stmtsNodes body, n.Resolved names)
    : Safe start (Explained names.registry start) (stmts fuel body) fun _ => True :=
  composes_safe.stmts fuel body fun n member => runs_of_resolved ready (resolved n member)

end

end Eval

end MapAlgebra
