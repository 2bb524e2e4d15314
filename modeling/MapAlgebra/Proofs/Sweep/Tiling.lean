import MapAlgebra.Proofs.Sweep.Independence

/-! Runs over the same rasters with other tiles. What a raster prefers does not matter to an evaluation,
and neither does the order in which a sweep comes to its places.
-/

namespace MapAlgebra

open EvalM (Agreed left)
open ImageSlot
open Executable

variable {places places' : List (Int × Int × Int)} {x y band : Int}

/-- A raster that prefers no tile size. -/
def Raster.untiled (r : Raster) : Raster :=
  { r with tile := none }

/-- An image whose rasters prefer no tile size. -/
def ImageSlot.untiled (slot : ImageSlot) : ImageSlot :=
  { slot with
    source := slot.source.map Raster.untiled
    destination := slot.destination.map Raster.untiled }

variable {α β : Type} {r r' : Raster} {slot slot' : ImageSlot}

theorem rel_of_map_eq {f : α → β} {a b} (same : b.map f = a.map f)
    : Option.Rel (fun a b => f b = f a) a b := by
  cases a <;> cases b
  · exact .none
  · exact nomatch same
  · exact nomatch same
  · exact .some (Option.some.inj same)

/-- Options that agree before and after a change, if what they may hold does. -/
theorem map_eq_of_changes {f : α → β} {T T'} {A : Int → Int → Int → α → α → Prop}
    {a a' b b'} (touched : Option.Rel T a b) (touched' : Option.Rel T' a' b')
    (same : a'.map f = a.map f)
    (looks : ∀ x y band, (x, y, band) ∈ places → Option.Rel (A x y band) b b')
    (each : ∀ {r r' s s'}, T r s → T' r' s' → f r' = f r
      → (∀ x y band, (x, y, band) ∈ places → A x y band s s') → f s' = f s)
    : b'.map f = b.map f := by
  rcases rel_cases touched with ⟨rfl, rfl⟩ | ⟨r, s, rfl, rfl, change⟩ <;>
    rcases rel_cases touched' with ⟨rfl, rfl⟩ | ⟨r', s', rfl, rfl, change'⟩
  · rfl
  · exact nomatch same
  · exact nomatch same
  · refine congrArg some (each change change' (Option.some.inj same) fun x y band member => ?_)
    cases looks x y band member with
    | some alike => exact alike

theorem Raster.untiled_eq_iff
    : r'.untiled = r.untiled
      ↔ r'.bounds = r.bounds ∧ r'.bands = r.bands ∧ r'.samples = r.samples := by
  simp [untiled]

theorem ImageSlot.untiled_eq_iff
    : slot'.untiled = slot.untiled
      ↔ slot'.name = slot.name ∧ slot'.role = slot.role
        ∧ slot'.source.map Raster.untiled = slot.source.map Raster.untiled
        ∧ slot'.destination.map Raster.untiled = slot.destination.map Raster.untiled := by
  simp [untiled]

theorem Raster.alikeAt_of_untiled (same : r'.untiled = r.untiled) : r.AlikeAt x y band r' := by
  obtain ⟨bounds, bands, -⟩ := untiled_eq_iff.mp same
  refine ⟨bounds, bands, ?_⟩
  change r'.untiled.get? x y band = r.untiled.get? x y band
  rw [same]

theorem ImageSlot.alikeAt_of_untiled (same : slot'.untiled = slot.untiled)
    : slot.AlikeAt x y band slot' := by
  obtain ⟨name, role, source, destination⟩ := untiled_eq_iff.mp same
  exact ⟨name, role, rel_mono Raster.alikeAt_of_untiled (rel_of_map_eq source),
    rel_mono Raster.alikeAt_of_untiled (rel_of_map_eq destination)⟩

theorem Raster.get?_of_offset {k : Nat} (inside : r.contains x y band = true)
    (place : r.offset x y band = k)
    : r.get? x y band = r.samples[k]? := by
  rw [get?, if_pos inside, place, stored?, if_pos (by omega), Int.toNat_natCast]

/-- Rasters with the same samples still have the same when the same places were touched and look
alike, since no other sample has changed.
-/
theorem Raster.TouchedIn.untiled_eq {s s'} (touched : r.TouchedIn places s)
    (touched' : r'.TouchedIn places' s') (same : r'.untiled = r.untiled)
    (members : ∀ place, place ∈ places' ↔ place ∈ places)
    (looks : ∀ x y band, (x, y, band) ∈ places → s.AlikeAt x y band s')
    : s'.untiled = s.untiled := by
  obtain ⟨bounds, bands, samples⟩ := untiled_eq_iff.mp same
  refine untiled_eq_iff.mpr ⟨?_, ?_, Array.ext_getElem? fun k => ?_⟩
  · rw [touched'.shape.bounds, bounds, touched.shape.bounds]
  · rw [touched'.shape.bands, bands, touched.shape.bands]
  · by_cases hit : ∃ x y band, (x, y, band) ∈ places ∧ s.contains x y band = true
        ∧ s.offset x y band = k
    · obtain ⟨x, y, band, member, inside, place⟩ := hit
      have alike := looks x y band member
      rw [← get?_of_offset inside place,
        ← get?_of_offset (alike.contains_eq.trans inside) (alike.offset_eq.trans place), alike.sample]
    · have missed (x y band : Int) (member : (x, y, band) ∈ places)
          (inside : r.contains x y band = true)
          : r.offset x y band ≠ k := by
        intro place
        refine hit ⟨x, y, band, member, ?_, ?_⟩
        · rw [touched.shape.contains_eq, inside]
        · rw [touched.shape.offset_eq, place]
      have missed' (x y band : Int) (member : (x, y, band) ∈ places')
          (inside : r'.contains x y band = true)
          : r'.offset x y band ≠ k := by
        have there : r.AlikeAt x y band r' := alikeAt_of_untiled same
        rw [there.offset_eq]
        exact missed x y band ((members _).mp member) (there.contains_eq ▸ inside)
      rw [touched.elsewhere k missed, touched'.elsewhere k missed', samples]

theorem ImageSlot.TouchedIn.untiled_eq {t t' : ImageSlot} (touched : slot.TouchedIn places t)
    (touched' : slot'.TouchedIn places' t') (same : slot'.untiled = slot.untiled)
    (members : ∀ place, place ∈ places' ↔ place ∈ places)
    (looks : ∀ x y band, (x, y, band) ∈ places → t.AlikeAt x y band t')
    : t'.untiled = t.untiled := by
  obtain ⟨name, role, source, destination⟩ := untiled_eq_iff.mp same
  refine untiled_eq_iff.mpr ⟨?_, ?_, ?_, ?_⟩
  · rw [touched'.name, name, touched.name]
  · rw [touched'.role, role, touched.role]
  · rw [touched'.source, source, touched.source]
  · exact map_eq_of_changes touched.destination touched'.destination destination
      (fun x y band member => (looks x y band member).destination)
      fun rasters rasters' same alike => rasters.untiled_eq rasters' same members alike

variable {env env' after after' : Env} {program : Executable} {fuel : Nat}

/-- States that differ in the tile sizes that rasters prefer, in counters, in their position and in what
is left on the stack.
-/
structure Env.Matches (env env' : Env) : Prop where
  width : env'.width = env.width
  height : env'.height = env.height
  outside : env'.outside = env.outside
  loopLimit : env'.loopLimit = env.loopLimit
  vars : env'.vars = env.vars
  stack : env'.stack.size = env.stack.size
  images : ∀ i : Nat, env'.images[i]?.map untiled = env.images[i]?.map untiled

theorem Env.Matches.alikeAt (matched : env.Matches env') (x y band) (i : Nat)
    : Option.Rel (AlikeAt x y band) env.images[i]? env'.images[i]? :=
  rel_mono alikeAt_of_untiled (rel_of_map_eq (matched.images i))

theorem Env.Matches.size_ready (matched : env.Matches env') (code : Code)
    : (code.ready env').stack.size = (code.ready env).stack.size := by
  cases code with
  | tree body => exact matched.stack
  | chunk c =>
    simp only [Code.ready, Env.withStack, Machine.reserved, matched.stack]
    split
    · rfl
    · exact matched.stack

/-- Images with the same samples still have the same when the same places were touched and look
alike.
-/
theorem untiled_images_eq_of_touched
    (same : ∀ i : Nat, env'.images[i]?.map untiled = env.images[i]?.map untiled)
    (touched : ∀ i : Nat, Option.Rel (TouchedIn places) env.images[i]? after.images[i]?)
    (touched' : ∀ i : Nat, Option.Rel (TouchedIn places') env'.images[i]? after'.images[i]?)
    (members : ∀ place, place ∈ places' ↔ place ∈ places)
    (looks : ∀ x y band, (x, y, band) ∈ places
      → ∀ i : Nat, Option.Rel (AlikeAt x y band) after.images[i]? after'.images[i]?)
    (i : Nat)
    : after'.images[i]?.map untiled = after.images[i]?.map untiled :=
  map_eq_of_changes (touched i) (touched' i) (same i)
    (fun x y band member => looks x y band member i)
    fun slots slots' same alike => slots.untiled_eq slots' same members alike

/-- Runs of code from states that match end the same, and leave states that match. -/
theorem Code.run_matches {code : Code} {kept} (isLocal : code.Local) (touches : code.Touches kept)
    (matched : env.Matches env') (alike : env.Alike env') (fuel : Nat)
    : Agreed (fun _ => Env.Matches) ((code.run fuel).run env) ((code.run fuel).run env') := by
  have size := matched.size_ready code
  have agreed := isLocal fuel _ _ alike size
  have touched := touches fuel env
  have touched' := touches fuel env'
  obtain ⟨stack, ready⟩ := code.exists_ready_eq env
  obtain ⟨stack', ready'⟩ := code.exists_ready_eq env'
  rw [ready, ready'] at size
  rw [ready] at touched
  rw [ready'] at touched'
  generalize (code.run fuel).run env = result at agreed touched ⊢
  generalize (code.run fuel).run env' = result' at agreed touched' ⊢
  cases agreed with
  | error alike => exact .error alike
  | @ok _ after after' after_alike =>
    dsimp only [left] at touched touched'
    refine .ok ⟨after_alike.width, after_alike.height, after_alike.outside, after_alike.loopLimit,
      after_alike.vars, touched'.stack.trans (size.trans touched.stack.symm), ?_⟩
    refine untiled_images_eq_of_touched matched.images touched.images touched'.images ?_ ?_
    · simp only [Env.withStack, alike.x, alike.y, alike.band, implies_true]
    · intro x y band member i
      cases List.mem_singleton.mp member
      have images := after_alike.images i
      rw [touched.x, touched.y, touched.band] at images
      exact images

/-- Init blocks end the same, and leave states that match. -/
theorem start_matches (independent : program.Independent) (matched : env.Matches env') (fuel : Nat)
    : Agreed (fun _ => Env.Matches) ((program.start fuel).run env)
        ((program.start fuel).run env') := by
  have vars : (startEnv env').vars = (startEnv env).vars := by
    simp only [startEnv, matched.vars]
  have started : (startEnv env).Matches (startEnv env') :=
    { matched with vars }
  have alike : (startEnv env).Alike (startEnv env') :=
    ⟨rfl, rfl, rfl, matched.width, matched.height, matched.outside, matched.loopLimit, rfl, vars,
      matched.alikeAt 0 0 0⟩
  rw [run_start, run_start]
  cases init : program.init with
  | none => exact .ok started
  | some code =>
    exact Code.run_matches (independent.initLocal code init) (independent.initTouches code init)
      started alike fuel

theorem Env.Matches.sameView (matched : env.Matches env') (x y band : Int)
    : program.SameView x y band env env' := by
  refine ⟨⟨rfl, rfl, rfl, matched.width, matched.height, matched.outside, matched.loopLimit, rfl, ?_,
    matched.alikeAt x y band⟩, matched.size_ready program.body⟩
  simp only [pixelEnv, matched.vars]

/-- From states that match, sweeps over the same places both succeed and leave the same samples, in
whatever order they come to the places.
-/
theorem Sweep.evaluateAll_matches (independent : program.Independent) (matched : env.Matches env')
    (apart : env.Apart) (apart' : env'.Apart) (different : places.Nodup) (different' : places'.Nodup)
    (members : ∀ place, place ∈ places' ↔ place ∈ places)
    (done : (evaluateAll program fuel places).run env = .ok () after)
    : ∃ after', (evaluateAll program fuel places').run env' = .ok () after'
      ∧ ∀ i : Nat, after'.images[i]?.map untiled = after.images[i]?.map untiled := by
  have settled := evaluateAll_settles fuel independent apart different
  have settled' := evaluateAll_settles fuel independent apart' different'
  have agreed (x y band : Int) := independent.agreed (matched.sameView x y band) fuel
  rw [done] at settled
  cases ran : (evaluateAll program fuel places').run env' with
  | error stop after' =>
    rw [ran] at settled'
    obtain ⟨x, y, band, member, fails⟩ := settled'
    obtain ⟨alone, evaluated, -⟩ := settled.each x y band ((members _).mp member)
    have same := agreed x y band
    rw [evaluated] at same
    obtain ⟨alone', evaluated', -⟩ := same.of_ok
    exact (fails alone' evaluated').elim
  | ok _ after' =>
    rw [ran] at settled'
    refine ⟨after', rfl, untiled_images_eq_of_touched matched.images settled.touched settled'.touched
      members fun x y band member i => ?_⟩
    obtain ⟨alone, evaluated, looks⟩ := settled.each x y band member
    obtain ⟨alone', evaluated', looks'⟩ := settled'.each x y band ((members _).mpr member)
    have same := independent.images_of_agreed (agreed x y band) i
    rw [evaluated, evaluated'] at same
    exact rel_trans .trans (rel_symm .symm (looks i)) (rel_trans .trans same (looks' i))

end MapAlgebra
