import MapAlgebra.Proofs.Code.Room
import MapAlgebra.Proofs.Job.Tiling

/-! One evaluation and its pixel. It depends on nothing but the variables that last, the options and the
samples at its own pixel and band, and it changes no other sample; so evaluations at different places can
be exchanged.
-/

namespace MapAlgebra

open EvalM (Agreed left)
open List
open Scene
open ImageSlot

variable {x y band x' y' band' : Int}

/-- Runs of the code start from two states with stacks of the same size. -/
def Code.SameRoom (code : Code) (env env' : Env) : Prop :=
  (code.ready env').stack.size = (code.ready env).stack.size

/-- Runs of the code end the same from states that look alike: always if the code is a tree, with any two
stacks if no call has too many arguments, and else with stacks of the same size.
-/
theorem Code.Codes.agreed {table body code names} (codes : Codes table body code)
    (resolved : ∀ n ∈ stmtsNodes body, n.Resolved names)
    (stateless : ∀ f ∈ names.registry.functions, f.Stateless) {env env'} (alike : env.Alike env')
    (room : code = .tree body ∨ (∀ n ∈ stmtsNodes body, n.FewArguments) ∨ code.SameRoom env env')
    (fuel : Nat)
    : Agreed (fun _ => Env.Alike) ((code.run fuel).run env) ((code.run fuel).run env') := by
  have tree : EvalM.Local (Eval.stmts fuel body) :=
    Eval.local_stmts fuel fun n member => callsStateless_of_resolved (resolved n member) stateless
  rcases room with rfl | few | same
  · exact tree alike
  · cases codes with
    | tree => exact tree alike
    | chunk lowered =>
      exact Machine.relates_chunk lowered few (stateless_of_chunk lowered resolved stateless) fuel alike
  · exact codes.isLocal resolved stateless fuel env env' alike same

namespace Scene

variable {α : Type} {scene scene' : Scene}

theorem env_run (scene : Scene) (m : EvalM α) : (scene.run m).2.env = left (m.run scene.env) := by
  unfold run
  cases m.run scene.env <;> rfl

theorem program_run (scene : Scene) (m : EvalM α) : (scene.run m).2.program = scene.program := by
  unfold run
  cases m.run scene.env <;> rfl

theorem result_of_agreed {m} {post : α → Env → Env → Prop}
    (agreed : Agreed post (m.run scene.env) (m.run scene'.env))
    : (scene'.run m).1 = (scene.run m).1 := by
  unfold run
  generalize m.run scene.env = result at agreed ⊢
  generalize m.run scene'.env = result' at agreed ⊢
  cases agreed <;> rfl

/-- Scenes of one program agree on all that an evaluation at a pixel and band looks at: the variables
that last, the size, the options, and of every raster the bounds, the bands and the sample there.
-/
structure AgreesAt (x y band : Int) (scene scene' : Scene) : Prop where
  program : scene'.program = scene.program
  width : scene'.env.width = scene.env.width
  height : scene'.env.height = scene.env.height
  outside : scene'.env.outside = scene.env.outside
  loopLimit : scene'.env.loopLimit = scene.env.loopLimit
  count : scene'.env.vars.size = scene.env.vars.size
  vars : ∀ slot, scene.program.Lasting slot → scene'.env.vars[slot]? = scene.env.vars[slot]?
  images : ∀ i : Nat, Option.Rel (AlikeAt x y band) scene.env.images[i]? scene'.env.images[i]?

/-- Scenes that agree look alike once an evaluation has set its variables to zero. -/
theorem AgreesAt.alike (agrees : scene.AgreesAt x y band scene')
    : (scene.program.pixelEnv scene.env x y band).Alike
        (scene.program.pixelEnv scene'.env x y band) := by
  refine ⟨rfl, rfl, rfl, agrees.width, agrees.height, agrees.outside, agrees.loopLimit, rfl, ?_,
    agrees.images⟩
  refine Array.ext_getElem? fun slot => ?_
  simp only [Executable.pixelEnv, Executable.getElem?_freshVars]
  split
  · by_cases inside : slot < scene.env.vars.size <;> simp [inside, agrees.count]
  · next lasting => exact agrees.vars slot lasting

end Scene

/-- An image keeps all but the sample of its destination at one pixel and band, and the samples that
share the place of that one. A raster that is only read is kept as a whole.
-/
structure ImageSlot.ChangesAt (x y band : Int) (slot slot' : ImageSlot) : Prop where
  name : slot'.name = slot.name
  role : slot'.role = slot.role
  source : slot'.source = slot.source
  readOnly : slot.role.isDestination = false → slot'.destination = slot.destination
  elsewhere : Option.Rel
    (fun r r' => ∀ x' y' band', ¬ r.Shares x y band x' y' band' → r.AlikeAt x' y' band' r')
    slot.destination slot'.destination

theorem ImageSlot.TouchedIn.changesAt {slot slot' : ImageSlot}
    (touched : slot.TouchedIn [(x, y, band)] slot')
    : slot.ChangesAt x y band slot' := by
  refine ⟨touched.name, touched.role, touched.source, touched.readOnly,
    rel_mono (fun rasters x' y' band' clear => ?_) touched.destination⟩
  refine rasters.alikeAt fun x1 y1 band1 member => ?_
  cases mem_singleton.mp member
  exact clear

variable {places : List (Int × Int × Int)}

/-- Rasters that come from the same one by touching the same places, where they look alike, are the
same.
-/
theorem Raster.TouchedIn.eq_of_alike {r s t : Raster} (touched : r.TouchedIn places s)
    (touched' : r.TouchedIn places t)
    (looks : ∀ x y band, (x, y, band) ∈ places → s.AlikeAt x y band t)
    : t = s := by
  have untiled := touched.untiled_eq touched' rfl (fun _ => Iff.rfl) looks
  obtain ⟨bounds, bands, samples⟩ := untiled_eq_iff.mp untiled
  exact Raster.ext bounds bands samples (touched'.shape.tile.trans touched.shape.tile.symm)

attribute [ext] ImageSlot

theorem ImageSlot.TouchedIn.eq_of_alike {r s t : ImageSlot} (touched : r.TouchedIn places s)
    (touched' : r.TouchedIn places t)
    (looks : ∀ x y band, (x, y, band) ∈ places → s.AlikeAt x y band t)
    : t = s := by
  have destination : t.destination.map id = s.destination.map id :=
    map_eq_of_changes touched.destination touched'.destination rfl
      (fun x y band member => (looks x y band member).destination) fun rasters rasters' same alike => by
        cases same
        exact rasters.eq_of_alike rasters' alike
  rw [Option.map_id, id, id] at destination
  exact ImageSlot.ext (touched'.name.trans touched.name.symm) (touched'.role.trans touched.role.symm)
    (touched'.source.trans touched.source.symm) destination

theorem images_eq_of_touched {env after after' : Env}
    (touched : ∀ i : Nat, Option.Rel (TouchedIn places) env.images[i]? after.images[i]?)
    (touched' : ∀ i : Nat, Option.Rel (TouchedIn places) env.images[i]? after'.images[i]?)
    (looks : ∀ x y band, (x, y, band) ∈ places
      → ∀ i : Nat, Option.Rel (AlikeAt x y band) after.images[i]? after'.images[i]?)
    : after'.images = after.images := by
  refine Array.ext_getElem? fun i => ?_
  have same : after'.images[i]?.map id = after.images[i]?.map id :=
    map_eq_of_changes (touched i) (touched' i) rfl (fun x y band member => looks x y band member i)
      fun slots slots' same alike => by
        cases same
        exact slots.eq_of_alike slots' alike
  rwa [Option.map_id, id, id] at same

namespace Executable.Independent

variable {program : Executable} {env : Env}

/-- What an evaluation leaves at its own place it leaves there after one at another place too. -/
theorem images_after (independent : program.Independent) (clear : env.Clear x y band x' y' band')
    (fuel fuel' : Nat) (i : Nat)
    : Option.Rel (AlikeAt x' y' band')
        (left ((program.evaluate fuel' x' y' band').run env)).images[i]?
        (left ((program.evaluate fuel' x' y' band').run
          (left ((program.evaluate fuel x y band).run env)))).images[i]? :=
  independent.images_of_agreed (independent.agreed_after clear fuel fuel') i

/-- Two evaluations leave the same images in both orders: each place looks as its own evaluation alone
leaves it, and all others are as before.
-/
theorem images_comm (independent : program.Independent) (clear : env.Clear x y band x' y' band')
    (fuel fuel' : Nat)
    : (left ((program.evaluate fuel' x' y' band').run
          (left ((program.evaluate fuel x y band).run env)))).images
      = (left ((program.evaluate fuel x y band).run
          (left ((program.evaluate fuel' x' y' band').run env)))).images := by
  have first := independent.images_touched fuel x y band env
  have second := independent.images_touched fuel' x' y' band' env
  have later := independent.images_touched fuel' x' y' band'
    (left ((program.evaluate fuel x y band).run env))
  have later' := independent.images_touched fuel x y band
    (left ((program.evaluate fuel' x' y' band').run env))
  have own := independent.images_after clear.symm fuel' fuel
  have own' := independent.images_after clear fuel fuel'
  have kept := (clear.touched first).symm.alikeAt later
  have kept' := (clear.touched second).alikeAt later'
  have widen {p : Int × Int × Int} (member : p ∈ [(x, y, band), (x', y', band')])
      {a b : Option ImageSlot} (touched : Option.Rel (TouchedIn [p]) a b)
      : Option.Rel (TouchedIn [(x, y, band), (x', y', band')]) a b :=
    rel_mono (fun slots => slots.mono (cons_subset.mpr ⟨member, nil_subset _⟩)) touched
  have here : (x, y, band) ∈ [(x, y, band), (x', y', band')] := mem_cons_self
  have there : (x', y', band') ∈ [(x, y, band), (x', y', band')] :=
    mem_cons_of_mem _ mem_cons_self
  refine (images_eq_of_touched
    (fun i => rel_trans .trans (widen here (first i)) (widen there (later i)))
    (fun i => rel_trans .trans (widen there (second i)) (widen here (later' i)))
    fun x1 y1 band1 member i => ?_).symm
  rcases mem_pair.mp member with here | there
  · cases here
    exact rel_trans .trans (rel_symm .symm (kept i)) (own i)
  · cases there
    exact rel_trans .trans (rel_symm .symm (own' i)) (kept' i)

end Executable.Independent

variable {script : Script} {strategy : Strategy} {compiled : Compiled} {bindings : Bindings}
  {registry : Registry}

theorem code_of_tree (made : compileScript script bindings registry .tree = .ok compiled)
    : (resolve bindings registry script.program).program.init.map (fun block => .tree block.body)
        = compiled.program.init
      ∧ .tree (resolve bindings registry script.program).program.body = compiled.program.body := by
  obtain ⟨-, -, coded, -⟩ := compileScript_eq_ok made
  exact Prod.mk.inj (Except.ok.inj coded)

/-- An evaluation of an accepted script whose functions have no state keeps to its pixel and band.

From scenes that agree there it gives the same result, leaves the same variables and writes the same
samples, whatever else they hold, as long as no call of a chunk has more arguments than its operand can
tell or the stacks are of the same size. It changes no sample but the one there, unless they share a
place in the store, and no raster that is only read. If the body assigns no variable of the init block,
evaluations at places that share none can be exchanged. In a raster whose number of samples is a word no
two samples share a place.
-/
theorem evaluate_keepsToPixel
    (made : compileScript script bindings registry strategy = .ok compiled)
    (stateless : ∀ f ∈ registry.functions, f.Stateless) {scene : Scene}
    (own : scene.program = compiled.program) (fuel : Nat) (x y band : Int)
    : (∀ scene', scene.AgreesAt x y band scene'
        → strategy = .tree
          ∨ (∀ n ∈ stmtsNodes (resolve bindings registry script.program).program.body, n.FewArguments)
          ∨ scene.program.body.SameRoom scene.env scene'.env
        → (scene'.evaluate fuel x y band).1 = (scene.evaluate fuel x y band).1
          ∧ (scene'.evaluate fuel x y band).2.env.vars = (scene.evaluate fuel x y band).2.env.vars
          ∧ ∀ i : Nat, Option.Rel (AlikeAt x y band)
            (scene.evaluate fuel x y band).2.env.images[i]?
            (scene'.evaluate fuel x y band).2.env.images[i]?)
      ∧ (∀ i : Nat, Option.Rel (ChangesAt x y band) scene.env.images[i]?
          (scene.evaluate fuel x y band).2.env.images[i]?)
      ∧ ((resolve bindings registry script.program).program.SparesInit
        → ∀ fuel' x' y' band', scene.env.Clear x y band x' y' band'
        → ((scene.evaluate fuel x y band).2.evaluate fuel' x' y' band').1
            = (scene.evaluate fuel' x' y' band').1
          ∧ ((scene.evaluate fuel' x' y' band').2.evaluate fuel x y band).1
            = (scene.evaluate fuel x y band).1
          ∧ ((scene.evaluate fuel x y band).2.evaluate fuel' x' y' band').2.env.images
            = ((scene.evaluate fuel' x' y' band').2.evaluate fuel x y band).2.env.images)
      ∧ ∀ r : Raster, r.InWords → ∀ x' y' band', r.Shares x y band x' y' band'
        → (x', y', band') = (x, y, band) := by
  obtain ⟨valid, accepted, coded, -⟩ := compileScript_eq_ok made
  obtain ⟨resolved, -⟩ := resolve_allResolved registry valid accepted
  obtain ⟨-, codes⟩ := Strategy.code_eq_ok coded
  rw [← own] at codes
  have touches : scene.program.body.Touches fun _ => False :=
    codes.touches fun _ _ _ _ _ => not_false
  refine ⟨fun scene' agrees room => ?_, fun i => ?_, fun fresh fuel' x' y' band' clear => ?_, ?_⟩
  · have room' : scene.program.body = .tree (resolve bindings registry script.program).program.body
        ∨ (∀ n ∈ stmtsNodes (resolve bindings registry script.program).program.body, n.FewArguments)
        ∨ scene.program.body.SameRoom (scene.program.pixelEnv scene.env x y band)
            (scene.program.pixelEnv scene'.env x y band) := by
      rcases room with rfl | few | same
      · exact Or.inl (own ▸ (code_of_tree made).2.symm)
      · exact Or.inr (Or.inl few)
      · refine Or.inr (Or.inr ?_)
        rw [Code.SameRoom, Executable.ready_pixelEnv, Executable.ready_pixelEnv]
        exact same
    have agreed := codes.agreed resolved.body stateless agrees.alike room' fuel
    rw [evaluate, evaluate, agrees.program, env_run, env_run]
    exact ⟨result_of_agreed agreed, agreed.left.vars, touches.images_of_agreed agreed⟩
  · rw [evaluate, env_run]
    exact rel_mono TouchedIn.changesAt
      (touches.images fuel (scene.program.pixelEnv scene.env x y band) i)
  · have independent := independent_of_compileScript made fresh stateless
    rw [← own] at independent
    simp only [evaluate, program_run]
    refine ⟨?_, ?_, ?_⟩
    · apply result_of_agreed
      rw [env_run]
      exact independent.agreed_after clear fuel fuel'
    · apply result_of_agreed
      rw [env_run]
      exact independent.agreed_after clear.symm fuel' fuel
    · rw [env_run, env_run, env_run, env_run]
      exact independent.images_comm clear fuel fuel'
  · rintro r small x' y' band' ⟨inside, inside', same⟩
    exact (small.apart x y band x' y' band' inside inside' same).symm

theorem evaluate_keepsToPixel_halving
    : ∃ compiled scene scene', halving.Staged .bytecode compiled scene
        ∧ scene' = { scene with env :=
            { scene.env with vars := #[.zero, .one], iterations := 7, stack := #[.one] } }
        ∧ (scene'.evaluate 99 1 1 0).1 = (scene.evaluate 99 1 1 0).1
        ∧ (scene'.evaluate 99 1 1 0).2.env.vars = (scene.evaluate 99 1 1 0).2.env.vars
        ∧ ((scene.evaluate 99 1 1 0).2.evaluate 99 2 1 0).2.env.images
          = ((scene.evaluate 99 2 1 0).2.evaluate 99 1 1 0).2.env.images := by
  obtain ⟨compiled, scene, here, own, lasting, count, first, small⟩ :
      ∃ compiled scene, halving.Staged .bytecode compiled scene ∧ scene.program = compiled.program
        ∧ scene.program.persistent = [true, false] ∧ scene.env.vars.size = 2
        ∧ scene.env.vars[0]? = some .zero ∧ scene.InWords ⟨0, 0⟩ :=
    ⟨_, _, ⟨_, _, rfl, rfl, rfl, rfl⟩, rfl, rfl, rfl, rfl, by decide +kernel⟩
  have few : ∀ n ∈ stmtsNodes (resolve halving.bindings halving.registry halving).program.body,
      n.FewArguments := by decide +kernel
  refine ⟨compiled, scene, _, here, rfl, ?_⟩
  obtain ⟨raster, bound, made, -⟩ := here
  obtain ⟨same, -, exchanged, -⟩ := evaluate_keepsToPixel made halving.stateless own 99 1 1 0
  have agrees : scene.AgreesAt 1 1 0 { scene with env :=
      { scene.env with vars := #[.zero, .one], iterations := 7, stack := #[.one] } } := by
    refine ⟨rfl, rfl, rfl, rfl, rfl, count.symm, fun slot lasts => ?_, fun i => ?_⟩
    · rw [Executable.Lasting, lasting] at lasts
      match slot with
      | 0 => exact first.symm
      | 1 => exact absurd rfl lasts
      | slot + 2 => exact (Array.getElem?_eq_none (by omega)).symm
    · exact rel_refl AlikeAt.refl _
  have apart : scene.env.Apart := fun i slot here r bound =>
    (small.rasters slot (Array.mem_of_getElem? here) r bound).apart
  obtain ⟨result, vars, -⟩ := same _ agrees (Or.inr (Or.inl few))
  obtain ⟨-, -, images⟩ := exchanged halving.sparesInit 99 2 1 0 (apart.clear (by decide))
  exact ⟨result, vars, images⟩

/-- The number of samples of a raster may be past the words. Different samples can then share a place in
its store, and an evaluation at one pixel changes another.
-/
theorem painting_overwrites
    : ∃ compiled raster scene,
        (painting ["out"]).OnRaster .bytecode (.ofSize (2 ^ 62 + 1) 4) 1 compiled raster scene
        ∧ (scene.read "out" 3 0 0).1 = .ok .zero
        ∧ (scene.evaluate 9 (2 ^ 62) 3 0).1 = .ok ()
        ∧ ((scene.evaluate 9 (2 ^ 62) 3 0).2.read "out" 3 0 0).1 = .ok .one :=
  ⟨_, _, _, ⟨rfl, rfl, rfl⟩, rfl, rfl, rfl⟩

end MapAlgebra
