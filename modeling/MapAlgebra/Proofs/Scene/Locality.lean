import MapAlgebra.Proofs.Code.Landing
import MapAlgebra.Proofs.Code.Locality
import MapAlgebra.Proofs.Scene.Safety

/-! One evaluation of a compiled script. It depends on nothing that other evaluations change, and it
changes nothing that other evaluations depend on.
-/

namespace MapAlgebra

open EvalM (Agreed left)
open List
open ImageSlot

namespace Code

/-- The state with the stack that a run of the code starts with. -/
def ready (code : Code) (env : Env) : Env :=
  match code with
  | .chunk c => env.withStack (Machine.reserved c.maxStack env)
  | .tree _ => env

/-- A run starts with another stack, if any other one, and all else the same. -/
theorem exists_ready_eq (code : Code) (env : Env) : ∃ stack, code.ready env = env.withStack stack := by
  cases code with
  | chunk c => exact ⟨_, rfl⟩
  | tree body => exact ⟨env.stack, rfl⟩

/-- A stack of the size that a run has started with is large enough for the next run. -/
theorem size_ready_of_size {code : Code} {env env'}
    (same : env'.stack.size = (code.ready env).stack.size)
    : (code.ready env').stack.size = (code.ready env).stack.size := by
  cases code with
  | tree body => exact same
  | chunk c =>
    have enough := Machine.le_size_reserved c.maxStack env
    simp only [ready, Env.withStack] at same ⊢
    rw [← same] at enough ⊢
    rw [Machine.reserved, if_neg (by omega)]

/-- Runs of the code end the same from states that look alike, with stacks of the same size. -/
def Local (code : Code) : Prop :=
  ∀ fuel env env', env.Alike env' → (code.ready env').stack.size = (code.ready env).stack.size
    → Agreed (fun _ => Env.Alike) ((code.run fuel).run env) ((code.run fuel).run env')

/-- Runs of the code change nothing but the samples at their own place and variables that are not
kept, and use the stack that they start with.
-/
def Touches (kept : Nat → Prop) (code : Code) : Prop :=
  ∀ fuel env, (code.ready env).Touched kept (left ((code.run fuel).run env))

/-- The code of statements: the statements as they are, or their chunk. -/
inductive Codes (table : SymbolTable) (body : List Stmt) : Code → Prop where
  | tree : Codes table body (.tree body)
  | chunk {name chunk} (lowered : Lower.chunk name table body = .ok chunk)
    : Codes table body (.chunk chunk)

variable {table : SymbolTable} {body : List Stmt} {code : Code} {names : Names}

theorem stateless_of_chunk {name chunk} (lowered : Lower.chunk name table body = .ok chunk)
    (resolved : ∀ n ∈ stmtsNodes body, n.Resolved names)
    (stateless : ∀ f ∈ names.registry.functions, f.Stateless)
    : ∀ f ∈ chunk.functions, f.Stateless := by
  obtain ⟨items, -, -, -, functions, -⟩ := Lower.chunk_eq_ok lowered
  have registered := (Lower.collects_bodyPools resolved).registered
  intro f member
  rw [functions] at member
  exact stateless f (mem_of_find?_eq_some (registered f member))

theorem callsStateless_of_resolved {n : Expr} (resolved : n.Resolved names)
    (stateless : ∀ f ∈ names.registry.functions, f.Stateless)
    : n.CallsStateless := by
  cases n with
  | call span name args function =>
    obtain ⟨f, rfl, known, -⟩ := resolved
    exact stateless f (mem_of_find?_eq_some known)
  | _ => trivial

/-- Code that calls no function with a state is local. -/
theorem Codes.isLocal (codes : Codes table body code)
    (resolved : ∀ n ∈ stmtsNodes body, n.Resolved names)
    (stateless : ∀ f ∈ names.registry.functions, f.Stateless)
    : code.Local := by
  intro fuel env env' alike size
  cases codes with
  | tree =>
    exact Eval.local_stmts fuel
      (fun n member => callsStateless_of_resolved (resolved n member) stateless) alike
  | @chunk name chunk lowered =>
    change Agreed _ ((Machine.run chunk fuel).run env) ((Machine.run chunk fuel).run env')
    rw [Machine.run_run, Machine.run_run]
    have level : Machine.Level (fun _ => True) 0 (Machine.entry chunk env).env
        (Machine.entry chunk env').env :=
      ⟨{ alike with }, fun k _ => iff_of_eq (congrArg (k < ·) size), fun k below => absurd below (by omega)⟩
    have anywhere : (fun _ : Machine.Frame => True) ⟨0, 0⟩ := trivial
    exact Machine.relates_runFrom (stateless_of_chunk lowered resolved stateless)
      (fun _ _ => ⟨fun _ _ _ _ => trivial, fun _ _ _ _ => trivial⟩) fuel anywhere level

/-- Code touches no variable that its statements do not assign. -/
theorem Codes.touches {kept} (codes : Codes table body code)
    (spares : ∀ n ∈ stmtsNodes body, n.Spares kept)
    : code.Touches kept := by
  intro fuel env
  cases codes with
  | tree => exact Eval.touches_stmts fuel spares env
  | @chunk name chunk lowered =>
    change Env.Touched kept _ (left ((Machine.run chunk fuel).run env))
    rw [Machine.run_run]
    exact Machine.touches_chunk lowered spares fuel _

end Code

/-- The code of a script is that of its init block, if it has one, and that of its body. -/
theorem Strategy.code_eq_ok {strategy : Strategy} {resolution init body}
    (coded : strategy.code resolution = .ok (init, body))
    : Option.Rel (fun block => Code.Codes resolution.table block.body) resolution.program.init init
      ∧ body.Codes resolution.table resolution.program.body := by
  cases strategy with
  | other number => cases coded
  | tree =>
    cases coded
    refine ⟨?_, .tree⟩
    cases resolution.program.init with
    | none => exact .none
    | some block => exact .some .tree
  | bytecode =>
    simp only [Strategy.code] at coded
    split at coded
    · next code lowered =>
      cases coded
      obtain ⟨init, body⟩ := lower_eq_ok lowered
      refine ⟨?_, .chunk body⟩
      rcases init with ⟨none, none'⟩ | ⟨block, chunk, isBlock, isChunk, lowered⟩
      · rw [none, none']
        exact .none
      · rw [isBlock, isChunk]
        exact .some (.chunk lowered)
    · cases coded

/-- The body assigns no variable that the init block declares. -/
def Program.SparesInit (p : Program) : Prop :=
  ∀ n ∈ stmtsNodes p.body, ∀ s, n.assigned? = some s → s.persistent = false

namespace Executable

/-- A variable has the same value in the next evaluation, unless it is assigned. -/
def Lasting (program : Executable) (slot : Nat) : Prop :=
  program.persistent[slot]? ≠ some false

/-- A program whose code depends on what it may look at and changes what it may change: the body no
variable that lasts.
-/
structure Independent (program : Executable) : Prop where
  initLocal : ∀ code ∈ program.init, code.Local
  initTouches : ∀ code ∈ program.init, code.Touches fun _ => False
  bodyLocal : program.body.Local
  bodyTouches : program.body.Touches program.Lasting

end Executable

variable {script : Script} {strategy : Strategy} {compiled : Compiled} {bindings : Bindings}
  {registry : Registry}

theorem persistent_of_compileScript
    (made : compileScript script bindings registry strategy = .ok compiled)
    : compiled.program.persistent
      = (resolve bindings registry script.program).table.locals.toList.map (·.persistent) := by
  obtain ⟨valid, accepted, coded, -⟩ := compileScript_eq_ok made
  simp only [compileScript, valid, accepted, coded] at made
  exact (congrArg (·.program.persistent) (Except.ok.inj made)).symm

/-- A node that assigns no variable of the init block assigns no variable that lasts. -/
theorem Expr.spares_of_resolved {names} {n : Expr} (resolved : n.Resolved names)
    (images : ∀ i ∈ names.images, i.role.isImage = true) (dense : Dense names.locals)
    (fresh : ∀ s, n.assigned? = some s → s.persistent = false)
    : n.Spares fun slot => (names.locals.toList.map (·.persistent))[slot]? ≠ some false := by
  intro s assigned isVar
  have writes : names.Writes s := by
    cases n with
    | assign span target step value symbol | update span target decrement before symbol =>
      obtain ⟨s', found, -, writes⟩ := resolved
      cases found.symm.trans assigned
      exact writes
    | _ => exact nomatch assigned
  rcases writes with isLocal | ⟨-, isImage, -⟩
  · obtain ⟨slot, found⟩ := Array.mem_iff_getElem?.mp isLocal
    have same := (dense slot s found).1
    rw [same]
    simp [found, fresh s assigned]
  · exact nomatch isVar.symm.trans (images s isImage)

/-- An accepted script whose functions have no state is independent if its body assigns no variable of
the init block.
-/
theorem independent_of_compileScript
    (made : compileScript script bindings registry strategy = .ok compiled)
    (fresh : (resolve bindings registry script.program).program.SparesInit)
    (stateless : ∀ f ∈ registry.functions, f.Stateless)
    : compiled.program.Independent := by
  obtain ⟨valid, accepted, coded, -⟩ := compileScript_eq_ok made
  obtain ⟨resolved, dense⟩ := resolve_allResolved registry valid accepted
  obtain ⟨init, body⟩ := Strategy.code_eq_ok coded
  refine ⟨fun code member => ?_, fun code member => ?_, body.isLocal resolved.body stateless, ?_⟩
  · obtain ⟨block, given, codes⟩ := exists_of_rel init member
    exact codes.isLocal (resolved.init block given) stateless
  · obtain ⟨block, given, codes⟩ := exists_of_rel init member
    exact codes.touches fun _ _ _ _ _ => not_false
  · refine body.touches fun n member => ?_
    unfold Executable.Lasting
    rw [persistent_of_compileScript made]
    exact Expr.spares_of_resolved (resolved.body n member) (Scope.isImage_imageSymbols valid) dense
      (fresh n member)

namespace Executable

/-- Variables from a slot on are set to zero or kept as the flags say, by induction on the flags. -/
theorem getElem?_foldl_fresh (flags : List Bool) (start : Nat) (vars : Array Sample) (slot : Nat)
    : ((flags.zipIdx start).foldl (fun vars (keeps, slot) =>
          if keeps then vars else vars.setIfInBounds slot .zero) vars)[slot]?
      = if start ≤ slot ∧ flags[slot - start]? = some false then vars[slot]?.map fun _ => .zero
        else vars[slot]? := by
  induction flags generalizing start vars with
  | nil => simp
  | cons keeps flags ih =>
    rw [zipIdx_cons, foldl_cons, ih]
    rcases Nat.lt_trichotomy slot start with before | rfl | behind
    · have out : ¬ start ≤ slot := by omega
      have out' : ¬ start + 1 ≤ slot := by omega
      cases keeps <;> simp [out, out', Array.getElem?_setIfInBounds_ne (by omega : start ≠ slot)]
    · have out' : ¬ slot + 1 ≤ slot := by omega
      cases keeps with
      | true => simp [out']
      | false =>
        simp only [out', false_and, if_false, Nat.sub_self, List.getElem?_cons_zero, Nat.le_refl,
          and_self, if_true, Bool.false_eq_true, Array.getElem?_setIfInBounds_self]
        by_cases inside : slot < vars.size <;> simp [inside]
    · have next : slot - start = slot - (start + 1) + 1 := by omega
      have inside : start ≤ slot ∧ start + 1 ≤ slot := by omega
      rw [next]
      cases keeps <;>
        simp [inside, Array.getElem?_setIfInBounds_ne (by omega : start ≠ slot)]

/-- Variables that do not last are set to zero and the others kept. -/
theorem getElem?_freshVars (persistent : List Bool) (vars : Array Sample) (slot : Nat)
    : (freshVars persistent vars)[slot]?
      = if persistent[slot]? = some false then vars[slot]?.map fun _ => .zero
        else vars[slot]? := by
  simpa [freshVars] using getElem?_foldl_fresh persistent 0 vars slot

end Executable

variable {places : List (Int × Int × Int)} {x y band : Int}

/-- No two samples of a raster share a place in its store. -/
def Raster.Apart (r : Raster) : Prop :=
  ∀ x y band x' y' band', r.contains x y band = true → r.contains x' y' band' = true
    → r.offset x y band = r.offset x' y' band' → (x, y, band) = (x', y', band')

/-- Two samples of a raster share a place in its store. -/
def Raster.Shares (r : Raster) (x y band x' y' band' : Int) : Prop :=
  r.contains x y band = true ∧ r.contains x' y' band' = true
  ∧ r.offset x y band = r.offset x' y' band'

/-- A raster looks as before at every place that shares none with those that were touched. -/
theorem Raster.TouchedIn.alikeAt {r r' : Raster} (touched : r.TouchedIn places r')
    (clear : ∀ x' y' band', (x', y', band') ∈ places → ¬ r.Shares x' y' band' x y band)
    : r.AlikeAt x y band r' := by
  refine ⟨touched.shape.bounds, touched.shape.bands, ?_⟩
  rw [get?, get?, touched.shape.contains_eq, touched.shape.offset_eq]
  split
  · next inside =>
    unfold stored?
    split
    · refine touched.elsewhere _ fun x' y' band' member inside' same => ?_
      exact clear x' y' band' member ⟨inside', inside, by omega⟩
    · rfl
  · rfl

/-- No two samples of a destination share a place. -/
def Env.Apart (env : Env) : Prop :=
  ∀ (i : Nat) slot, env.images[i]? = some slot → ∀ r, slot.destination = some r → r.Apart

/-- Two samples share a place in no destination. -/
def Env.Clear (env : Env) (x y band x' y' band' : Int) : Prop :=
  ∀ (i : Nat) slot, env.images[i]? = some slot
    → ∀ r, slot.destination = some r → ¬ r.Shares x y band x' y' band'

theorem Env.Apart.clear {env : Env} (apart : env.Apart) {x' y' band'}
    (other : (x', y', band') ≠ (x, y, band))
    : env.Clear x y band x' y' band' := by
  rintro i slot here r bound ⟨inside, inside', same⟩
  exact other (apart i slot here r bound x y band x' y' band' inside inside' same).symm

theorem Env.apart_of_clear {env : Env}
    (clear : ∀ x y band x' y' band', (x', y', band') ≠ (x, y, band) → env.Clear x y band x' y' band')
    : env.Apart := by
  intro i slot here r bound x y band x' y' band' inside inside' same
  by_contra other
  exact clear x y band x' y' band' (Ne.symm other) i slot here r bound ⟨inside, inside', same⟩

/-- The images of a state look as before at every place that shares none with those that were touched. -/
theorem Env.alikeAt_of_touched {env env' : Env}
    (clear : ∀ x' y' band', (x', y', band') ∈ places → env.Clear x' y' band' x y band)
    (touched : ∀ i : Nat, Option.Rel (TouchedIn places) env.images[i]? env'.images[i]?)
    (i : Nat)
    : Option.Rel (AlikeAt x y band) env.images[i]? env'.images[i]? := by
  rcases rel_cases (touched i) with ⟨here, there⟩ | ⟨slot, slot', here, there, slots⟩
  · rw [here, there]
    exact .none
  · rw [here, there]
    refine .some ⟨slots.name, slots.role, ?_, ?_⟩
    · rw [slots.source]
      exact rel_refl Raster.AlikeAt.refl _
    · rcases rel_cases slots.destination with ⟨bound, bound'⟩ | ⟨r, r', bound, bound', rasters⟩
      · rw [bound, bound']
        exact .none
      · rw [bound, bound']
        exact .some (rasters.alikeAt fun x' y' band' member => clear x' y' band' member i slot here r bound)

namespace Env.Clear

variable {env after : Env} {x' y' band' : Int}

section

variable (clear : env.Clear x y band x' y' band')
include clear

theorem symm : env.Clear x' y' band' x y band :=
  fun i slot here r bound ⟨inside, inside', same⟩ =>
    clear i slot here r bound ⟨inside', inside, same.symm⟩

theorem touched
    (touched : ∀ i : Nat, Option.Rel (TouchedIn places) env.images[i]? after.images[i]?)
    : after.Clear x y band x' y' band' := by
  rintro i slot' there r' bound' ⟨inside, inside', same⟩
  obtain ⟨slot, here, slots⟩ := exists_of_rel (touched i) there
  obtain ⟨r, bound, rasters⟩ := exists_of_rel slots.destination bound'
  rw [rasters.shape.contains_eq] at inside inside'
  rw [rasters.shape.offset_eq, rasters.shape.offset_eq] at same
  exact clear i slot here r bound ⟨inside, inside', same⟩

theorem alikeAt
    (touched : ∀ i : Nat, Option.Rel (TouchedIn [(x, y, band)]) env.images[i]? after.images[i]?)
    (i : Nat)
    : Option.Rel (AlikeAt x' y' band') env.images[i]? after.images[i]? := by
  refine Env.alikeAt_of_touched (fun x1 y1 band1 member => ?_) touched i
  cases mem_singleton.mp member
  exact clear

end

end Env.Clear

theorem EvalM.Agreed.left {α : Type} {result result' : EStateM.Result Stop Env α}
    (agreed : Agreed (fun _ => Env.Alike) result result')
    : (EvalM.left result).Alike (EvalM.left result') := by
  cases agreed with
  | ok alike | error alike => exact alike

namespace Code.Touches

variable {code : Code} {kept : Nat → Prop} {env : Env} {fuel : Nat}

/-- Runs of code touch the images at their own place only. -/
theorem images (touches : code.Touches kept) (fuel : Nat) (env : Env) (i : Nat)
    : Option.Rel (TouchedIn [(env.x, env.y, env.band)]) env.images[i]?
        (left ((code.run fuel).run env)).images[i]? := by
  have touched := touches fuel env
  obtain ⟨stack, ready⟩ := code.exists_ready_eq env
  rw [ready] at touched
  exact touched.images i

theorem images_of_agreed (touches : code.Touches kept) {result : EStateM.Result Stop Env Unit}
    (agreed : Agreed (fun _ => Env.Alike) ((code.run fuel).run env) result) (i : Nat)
    : Option.Rel (AlikeAt env.x env.y env.band)
        (left ((code.run fuel).run env)).images[i]? (left result).images[i]? := by
  have touched := touches fuel env
  obtain ⟨stack, ready⟩ := code.exists_ready_eq env
  rw [ready] at touched
  have images := agreed.left.images i
  rw [touched.x, touched.y, touched.band] at images
  exact images

end Code.Touches

namespace Executable

variable {program : Executable} {env env' : Env} {fuel : Nat}

/-- From two states an evaluation at a pixel and band starts with all it looks at the same. -/
structure SameView (program : Executable) (x y band : Int) (env env' : Env) : Prop where
  alike : (program.pixelEnv env x y band).Alike (program.pixelEnv env' x y band)
  stack : (program.body.ready env').stack.size = (program.body.ready env).stack.size

theorem ready_pixelEnv (program : Executable) (env x y band)
    : (program.body.ready (program.pixelEnv env x y band)).stack = (program.body.ready env).stack := by
  cases program.body <;> rfl

theorem Independent.agreed (independent : program.Independent)
    (view : program.SameView x y band env env') (fuel : Nat)
    : Agreed (fun _ => Env.Alike) ((program.evaluate fuel x y band).run env)
        ((program.evaluate fuel x y band).run env') := by
  rw [run_evaluate, run_evaluate]
  refine independent.bodyLocal fuel _ _ view.alike ?_
  rw [ready_pixelEnv, ready_pixelEnv]
  exact view.stack

/-- What an evaluation touches: its own place in the images, and no variable that lasts. -/
theorem Independent.touched (independent : program.Independent) (fuel : Nat) (x y band : Int)
    (env : Env)
    : ∃ stack, stack.size = (program.body.ready env).stack.size
      ∧ ((program.pixelEnv env x y band).withStack stack).Touched program.Lasting
          (left ((program.evaluate fuel x y band).run env)) := by
  have touched := independent.bodyTouches fuel (program.pixelEnv env x y band)
  obtain ⟨stack, ready⟩ := program.body.exists_ready_eq (program.pixelEnv env x y band)
  have size : stack.size = (program.body.ready env).stack.size := by
    rw [← program.ready_pixelEnv env x y band, ready]
    rfl
  rw [ready] at touched
  exact ⟨stack, size, touched⟩

theorem freshVars_of_touched {stack}
    (touched : ((program.pixelEnv env x y band).withStack stack).Touched program.Lasting env')
    : freshVars program.persistent env'.vars = freshVars program.persistent env.vars := by
  have size : env'.vars.size = env.vars.size :=
    touched.count.trans (size_freshVars program.persistent env.vars)
  refine Array.ext_getElem? fun slot => ?_
  have fresh := getElem?_freshVars program.persistent env.vars slot
  rw [getElem?_freshVars, fresh]
  split
  · by_cases inside : slot < env.vars.size
    · simp [inside, size]
    · simp [inside, size]
  · next lasting =>
    rw [if_neg lasting] at fresh
    exact (touched.vars slot lasting).trans fresh

section

variable (independent : program.Independent)
include independent

/-- An evaluation changes nothing that an evaluation at another place looks at. -/
theorem Independent.sameView {x' y' band' : Int} (clear : env.Clear x y band x' y' band')
    (fuel : Nat)
    : program.SameView x' y' band' env (left ((program.evaluate fuel x y band).run env)) := by
  obtain ⟨stack, size, touched⟩ := independent.touched fuel x y band env
  exact ⟨⟨rfl, rfl, rfl, touched.width, touched.height, touched.outside, touched.loopLimit, rfl,
    freshVars_of_touched touched, clear.alikeAt touched.images⟩,
    Code.size_ready_of_size (touched.stack.trans size)⟩

theorem Independent.agreed_after {x' y' band'} (clear : env.Clear x y band x' y' band') (fuel fuel')
    : Agreed (fun _ => Env.Alike) ((program.evaluate fuel' x' y' band').run env)
        ((program.evaluate fuel' x' y' band').run
          (left ((program.evaluate fuel x y band).run env))) :=
  independent.agreed (independent.sameView clear fuel) fuel'

theorem Independent.images_touched (fuel x y band env) (i : Nat)
    : Option.Rel (TouchedIn [(x, y, band)]) env.images[i]?
        (left ((program.evaluate fuel x y band).run env)).images[i]? :=
  independent.bodyTouches.images fuel (program.pixelEnv env x y band) i

/-- Evaluations that end the same leave images that look alike at their own place. -/
theorem Independent.images_of_agreed {result}
    (agreed : Agreed (fun _ => Env.Alike) ((program.evaluate fuel x y band).run env) result)
    (i : Nat)
    : Option.Rel (AlikeAt x y band)
        (left ((program.evaluate fuel x y band).run env)).images[i]? (left result).images[i]? :=
  independent.bodyTouches.images_of_agreed agreed i

end

end Executable

end MapAlgebra
