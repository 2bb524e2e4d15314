import MapAlgebra.Proofs.Sweep.ExactlyOnce
import MapAlgebra.Proofs.Tile.Exact

/-! For which tile sizes the tiles partition the bounds, and a job evaluates every pixel. -/

namespace MapAlgebra

open Sweep
open TileGrid

/-- If the grids of all passes are partitions, everything is evaluated once. -/
theorem Sweep.evaluatesOnce_of_partitions {scene tile}
    (words : ∀ t ∈ targets scene,
      t.2.WellFormed ∧ t.2.bounds.InWords ∧ (tileFor tile t.2).InWords)
    (partitions : ∀ p ∈ plan scene tile, p.grid.Partitions)
    : EvaluatesOnce (targets scene) (calls (plan scene tile)) := by
  have covering (p : Pass) (member : p ∈ plan scene tile)
      : p.grid.Covering ∧ ∀ x y, p.grid.bounds.contains x y = true → p.grid.sweeps x y = true := by
    obtain ⟨t, there, -, grid⟩ := mem_planAfter member
    obtain ⟨wellFormed, bounds, sides⟩ := words t there
    have here := partitions p member
    rw [grid] at here ⊢
    exact here.covering (wellFormed.ordered.symm ▸ bounds) sides
  refine (evaluatesOnce_iff (fun t there => (words t there).1.ordered)
    fun p member => (covering p member).1).mpr fun p member => Pass.missed_eq_nil_iff.mpr ?_
  intro x y band taken
  simp only [Pass.takes, Bool.and_eq_true] at taken
  exact (covering p member).2 x y taken.1.1

/-- The tiles of a grid partition its bounds if no sum of bounds and sides and no number of tiles leaves
the words. In general they do so if the bounds are empty or the grid has the tiles that are needed, and
only then. A job whose grids are partitions evaluates everything that its destinations have exactly once.
-/
theorem tiles_partition (bounds : Rect) (tile : TileSize) (words : bounds.canon.InWords)
    (sides : tile.InWords)
    : ((create bounds tile).Partitions
        ↔ bounds.canon.isEmpty = true ∨ (create bounds tile).Exact)
      ∧ ((create bounds tile).InWords
        → (create bounds tile).neededColumns * (create bounds tile).neededRows
          < 2 ^ 63
        → (create bounds tile).Partitions)
      ∧ ∀ scene : Scene,
        (∀ t ∈ targets scene,
          t.2.WellFormed ∧ t.2.bounds.InWords ∧ (tileFor tile t.2).InWords)
        → (∀ p ∈ plan scene tile, p.grid.Partitions)
        → EvaluatesOnce (targets scene) (calls (plan scene tile))
          ∧ ∀ (job : Job) (signal : Job.StopSignal) (fuel : Nat), job.scene = some scene
            → scene.unbound = [] → (scene.start fuel).1 = .ok () → (∀ n, signal n = none)
            → (job.process tile signal fuel).ending
              = .ofResult ((evaluateAll scene.program fuel
                  (calls (plan scene tile))).run (scene.start fuel).2.env) := by
  refine ⟨partitions_create_iff words sides, partitions_create, ?_⟩
  intro scene inWords partitions
  refine ⟨evaluatesOnce_of_partitions inWords partitions, ?_⟩
  intro job signal fuel given bound started live
  exact (Job.process_live live given bound started tile).1

theorem tiles_partition_ragged
    : ∃ compiled raster scene,
        (painting ["out"]).OnRaster .bytecode (.ofCorners (-2) 1 3 4) 2 compiled raster scene
        ∧ (create raster.bounds ⟨2, 2⟩).Partitions
        ∧ (create raster.bounds ⟨2, 2⟩).Exact
        ∧ EvaluatesOnce (targets scene) (calls (plan scene ⟨2, 2⟩))
        ∧ (Job.process (.ofScene ⟨[]⟩ (some scene)) ⟨2, 2⟩ (fun _ => none) 9).ending
          = .ofResult ((evaluateAll scene.program 9
              (calls (plan scene ⟨2, 2⟩))).run (scene.start 9).2.env) := by
  obtain ⟨compiled, raster, scene, here, targets, bound, started, bounds⟩ :
      ∃ compiled raster scene,
        (painting ["out"]).OnRaster .bytecode (.ofCorners (-2) 1 3 4) 2 compiled raster scene
        ∧ targets scene = [("out", raster)] ∧ scene.unbound = []
        ∧ (scene.start 9).1 = .ok () ∧ raster.bounds = .ofCorners (-2) 1 3 4 :=
    ⟨_, _, _, ⟨rfl, rfl, rfl⟩, rfl, rfl, rfl, rfl⟩
  have wellFormed := Raster.create_wellFormed here.2.1
  have words : raster.bounds.InWords := by
    rw [bounds]
    exact ⟨by decide, by decide, by decide, by decide, by decide, by decide⟩
  have sides : TileSize.InWords ⟨2, 2⟩ := ⟨by decide, by decide⟩
  obtain ⟨exactly, small, run⟩ := tiles_partition raster.bounds ⟨2, 2⟩
    (wellFormed.ordered.symm ▸ words) sides
  have partitions : (create raster.bounds ⟨2, 2⟩).Partitions :=
    small (by rw [bounds]; decide) (by rw [bounds]; decide)
  have inside : ¬ raster.bounds.canon.isEmpty = true := by
    rw [bounds]
    decide
  obtain ⟨once, process⟩ := run scene
    (fun t there => by
      cases List.mem_singleton.mp (targets ▸ there)
      exact ⟨wellFormed, words, sides⟩)
    (fun p member => by
      obtain ⟨t, there, -, grid⟩ := mem_planAfter member
      cases List.mem_singleton.mp (targets ▸ there)
      exact grid ▸ partitions)
  exact ⟨compiled, raster, scene, here, partitions,
    (exactly.mp partitions).resolve_left inside, once, process _ _ 9 rfl bound started fun _ => rfl⟩

/-- A tile may be so wide that the number of columns is not positive. Then the grid has no tiles, and
the job completes without evaluating anything. Or the end of the last tile may be past the words. Then
the tile is empty, and the last pixel lies in no tile.
-/
theorem painting_untiled
    : (∃ compiled raster scene,
        (painting ["out"]).OnRaster .bytecode (.ofSize 2 1) 1 compiled raster scene
        ∧ raster.bounds.InWords
        ∧ (create raster.bounds ⟨2 ^ 63 - 1, 1⟩).tiles = []
        ∧ ¬ (create raster.bounds ⟨2 ^ 63 - 1, 1⟩).Partitions
        ∧ raster.contains 0 0 0 = true
        ∧ calls (plan scene ⟨2 ^ 63 - 1, 1⟩) = []
        ∧ (Job.process (.ofScene ⟨[]⟩ (some scene)) ⟨2 ^ 63 - 1, 1⟩ (fun _ => none) 9).ending
          = .completed)
      ∧ let strip : Rect := .ofCorners (2 ^ 63 - 4) 0 (2 ^ 63 - 1) 1
        strip.InWords
        ∧ (create strip ⟨2, 1⟩).tiles
          = [.ofCorners (2 ^ 63 - 4) 0 (2 ^ 63 - 2) 1, .ofCorners 0 0 0 0]
        ∧ ¬ (create strip ⟨2, 1⟩).Partitions := by
  refine ⟨⟨_, _, _, ⟨rfl, rfl, rfl⟩, ⟨by decide, by decide, by decide, by decide, by decide, by decide⟩,
    rfl, fun partitions => ?_, rfl, rfl, rfl⟩,
    ⟨by decide, by decide, by decide, by decide, by decide, by decide⟩, by decide +kernel,
    fun partitions => ?_⟩
  · obtain ⟨t, member, -⟩ := (partitions.union 0 0).mpr rfl
    cases member
  · have empty : Rect.ofCorners 0 0 0 0 ∈ (create (.ofCorners (2 ^ 63 - 4) 0 (2 ^ 63 - 1) 1)
      ⟨2, 1⟩).tiles := by decide +kernel
    exact absurd (partitions.nonempty _ empty) (by decide)

end MapAlgebra
