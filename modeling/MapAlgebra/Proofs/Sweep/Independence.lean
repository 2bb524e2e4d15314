import MapAlgebra.Proofs.Scene.Locality
import MapAlgebra.Sweep

/-! Sweeps in any order. The evaluations of a sweep do not get in each other's way, so each of them ends
as it would right after the init block, and what they leave does not depend on their order.
-/

namespace MapAlgebra

open EvalM (Agreed left)
open List

variable {places places' : List (Int × Int × Int)} {x y band : Int}

theorem Raster.AlikeAt.trans {r s t : Raster} (first : r.AlikeAt x y band s)
    (second : s.AlikeAt x y band t)
    : r.AlikeAt x y band t :=
  ⟨second.bounds.trans first.bounds, second.bands.trans first.bands,
    second.sample.trans first.sample⟩

theorem Raster.AlikeAt.symm {r s : Raster} (alike : r.AlikeAt x y band s) : s.AlikeAt x y band r :=
  ⟨alike.bounds.symm, alike.bands.symm, alike.sample.symm⟩

theorem ImageSlot.AlikeAt.refl (slot : ImageSlot) : slot.AlikeAt x y band slot :=
  ⟨rfl, rfl, rel_refl Raster.AlikeAt.refl _, rel_refl Raster.AlikeAt.refl _⟩

theorem ImageSlot.AlikeAt.trans {r s t : ImageSlot} (first : r.AlikeAt x y band s)
    (second : s.AlikeAt x y band t)
    : r.AlikeAt x y band t :=
  ⟨second.name.trans first.name, second.role.trans first.role,
    rel_trans .trans first.source second.source,
    rel_trans .trans first.destination second.destination⟩

theorem ImageSlot.AlikeAt.symm {r s : ImageSlot} (alike : r.AlikeAt x y band s)
    : s.AlikeAt x y band r :=
  ⟨alike.name.symm, alike.role.symm, rel_symm .symm alike.source, rel_symm .symm alike.destination⟩

namespace Sweep

variable {program : Executable} {fuel : Nat} {env env' after : Env}

/-- What is left when some places were evaluated: images that are touched at these places, and look there
as they would after the evaluation of that place alone.
-/
structure Settles (program : Executable) (fuel : Nat) (places : List (Int × Int × Int))
    (env after : Env) : Prop where
  touched : ∀ i : Nat, Option.Rel (ImageSlot.TouchedIn places) env.images[i]? after.images[i]?
  each : ∀ x y band, (x, y, band) ∈ places
    → ∃ alone, (program.evaluate fuel x y band).run env = .ok () alone
      ∧ ∀ i : Nat, Option.Rel (ImageSlot.AlikeAt x y band) alone.images[i]? after.images[i]?

theorem apart_of_touched (apart : env.Apart)
    (touched : ∀ i : Nat, Option.Rel (ImageSlot.TouchedIn places) env.images[i]? after.images[i]?)
    : after.Apart :=
  Env.apart_of_clear fun _ _ _ _ _ _ other => (apart.clear other).touched touched

variable {rest : List (Int × Int × Int)}

section

variable (independent : program.Independent)
include independent

theorem agreed_after (apart : env.Apart)
    (first : (program.evaluate fuel x y band).run env = .ok () env') (new : (x, y, band) ∉ rest)
    {x' y' band'} (member : (x', y', band') ∈ rest)
    : Agreed (fun _ => Env.Alike) ((program.evaluate fuel x' y' band').run env)
        ((program.evaluate fuel x' y' band').run env') := by
  have agreed := independent.agreed_after (apart.clear fun same => new (same ▸ member)) fuel fuel
  rw [first] at agreed
  exact agreed

theorem images_touched (ran : (program.evaluate fuel x y band).run env = .ok () after) (i : Nat)
    : Option.Rel (ImageSlot.TouchedIn [(x, y, band)]) env.images[i]? after.images[i]? := by
  have touched := independent.images_touched fuel x y band env i
  rw [ran] at touched
  exact touched

/-- A place is settled by its evaluation, and stays so while others are evaluated; and those are settled
as if it had not been evaluated before.
-/
theorem Settles.cons (apart : env.Apart)
    (first : (program.evaluate fuel x y band).run env = .ok () env') (new : (x, y, band) ∉ rest)
    (settled : Settles program fuel rest env' after)
    : Settles program fuel ((x, y, band) :: rest) env after := by
  have images := images_touched independent first
  refine ⟨fun i => ?_, fun x' y' band' member => ?_⟩
  · exact rel_trans .trans (rel_mono (fun slots => slots.mono (by simp)) (images i))
      (rel_mono (fun slots => slots.mono (subset_cons_self _ _)) (settled.touched i))
  · rcases mem_cons.mp member with here | later
    · cases here
      refine ⟨env', first, Env.alikeAt_of_touched (fun x' y' band' later => ?_) settled.touched⟩
      exact (apart_of_touched apart images).clear fun same => new (same ▸ later)
    · obtain ⟨alone', ran', looks⟩ := settled.each x' y' band' later
      have agreed := agreed_after independent apart first new later
      rw [ran'] at agreed
      have same := independent.images_of_agreed agreed
      obtain ⟨alone, ran, -⟩ := agreed.of_ok'
      rw [ran] at same
      exact ⟨alone, ran, fun i => rel_trans .trans (same i) (looks i)⟩

end

/-- A sweep over different places leaves all of them settled, or one of them cannot be evaluated, by
induction on the places.
-/
theorem evaluateAll_settles (fuel : Nat) (independent : program.Independent) (apart : env.Apart)
    (different : places.Nodup)
    : match (evaluateAll program fuel places).run env with
      | .ok _ after => Settles program fuel places env after
      | .error _ _ => ∃ x y band, (x, y, band) ∈ places
          ∧ ∀ alone, (program.evaluate fuel x y band).run env ≠ .ok () alone := by
  induction places generalizing env with
  | nil => exact ⟨fun i => rel_refl ImageSlot.TouchedIn.refl _, nofun⟩
  | cons place rest ih =>
    obtain ⟨x, y, band⟩ := place
    obtain ⟨new, different⟩ := nodup_cons.mp different
    rw [evaluateAll, EStateM.run_bind]
    cases first : (program.evaluate fuel x y band).run env with
    | error stop env1 =>
      exact ⟨x, y, band, mem_cons_self, fun alone ran => nomatch first.symm.trans ran⟩
    | ok _ env1 =>
      have settled := ih (apart_of_touched apart (images_touched independent first)) different
      dsimp only
      cases later : (evaluateAll program fuel rest).run env1 with
      | ok _ env2 =>
        rw [later] at settled
        exact settled.cons independent apart first new
      | error stop env2 =>
        rw [later] at settled
        obtain ⟨x', y', band', member, fails⟩ := settled
        refine ⟨x', y', band', mem_cons_of_mem _ member, fun alone ran => ?_⟩
        have agreed := agreed_after independent apart first new member
        rw [ran] at agreed
        obtain ⟨alone', ran', -⟩ := agreed.of_ok
        exact fails alone' ran'

end Sweep

end MapAlgebra
