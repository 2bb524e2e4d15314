import MapAlgebra.Proofs.Tile.Partition
import MapAlgebra.Sweep

/-! The places that the passes of a sweep evaluate. Of the passes over rasters that overlap, a place
is left to the first one whose raster has it.
-/

namespace MapAlgebra

open List

/-- An earlier pass has left a place to the later ones. -/
def Coverage.leaves (c : Coverage) (x y band : Int) : Bool :=
  !c.bounds.contains x y || decide (c.bands ≤ band)

namespace Pass

variable {p : Pass} {area : Rect} {x y band : Int}

/-- A place lies in the bounds and bands of a pass, and the earlier ones have left it. -/
def takes (p : Pass) (x y band : Int) : Bool :=
  p.grid.bounds.contains x y && decide (p.firstBand x y ≤ band) && decide (band < p.bands)

/-- The pixels that are left to a pass but lie in none of the tiles that are swept. -/
def missed (p : Pass) : List (Int × Int) :=
  (p.pixelsIn p.grid.bounds).filter fun (x, y) => !p.grid.sweeps x y

/-- The first band is the least that every earlier pass has left, by induction on those passes. -/
theorem firstBand_le_iff
    : p.firstBand x y ≤ band ↔ 0 ≤ band ∧ p.covered.all (·.leaves x y band) = true := by
  have from_start (covered : List Coverage) (start : Nat)
      : ((covered.foldl (fun first c =>
            if c.bands > first ∧ c.bounds.contains x y then c.bands else first) start : Nat) : Int)
          ≤ band
        ↔ (start : Int) ≤ band ∧ covered.all (·.leaves x y band) = true := by
    induction covered generalizing start with
    | nil => simp
    | cons c covered ih =>
      rw [foldl_cons, ih, all_cons, Coverage.leaves]
      cases c.bounds.contains x y with
      | false => simp
      | true =>
        split <;> grind
  exact from_start p.covered 0

theorem mem_bandsAt : band ∈ p.bandsAt x y ↔ p.firstBand x y ≤ band ∧ band < p.bands := by
  simp only [bandsAt, mem_map, mem_range]
  constructor
  · rintro ⟨i, below, rfl⟩
    omega
  · rintro ⟨low, high⟩
    exact ⟨(band - p.firstBand x y).toNat, by omega, by omega⟩

theorem mem_placesIn
    : (x, y, band) ∈ p.placesIn area
      ↔ area.contains x y = true ∧ p.firstBand x y ≤ band ∧ band < p.bands := by
  simp only [placesIn, pixelsIn, mem_flatMap, mem_filter, mem_map, Prod.exists,
    Prod.mk.injEq, Rect.mem_pixels, visits, decide_eq_true_eq, mem_bandsAt]
  constructor
  · rintro ⟨x, y, ⟨inside, -⟩, band, bands, rfl, rfl, rfl⟩
    exact ⟨inside, bands⟩
  · rintro ⟨inside, low, high⟩
    exact ⟨x, y, ⟨inside, by omega⟩, band, ⟨low, high⟩, rfl, rfl, rfl⟩

theorem nodup_placesIn (p : Pass) (area) : (p.placesIn area).Nodup := by
  refine nodup_flatMap_of_key (fun place => (place.1, place.2.1)) (area.nodup_pixels.filter _) ?_ ?_
  · rintro ⟨x, y⟩ -
    have bands : (p.bandsAt x y).Nodup := nodup_range.map fun i j same => by omega
    exact bands.map fun band band' same => congrArg (·.2.2) same
  · rintro ⟨x, y⟩ - b member
    obtain ⟨band, -, rfl⟩ := mem_map.mp member
    rfl

/-- A pass evaluates a place that it takes once if the tile there is swept, and no other place. -/
theorem count_tiles (covering : p.grid.Covering) (x y band : Int)
    : (p.grid.tiles.flatMap p.placesIn).count (x, y, band)
      = if p.takes x y band && p.grid.sweeps x y then 1 else 0 := by
  have each : ∀ t ∈ p.grid.tiles, (p.placesIn t).count (x, y, band)
      = if t.contains x y && decide (p.firstBand x y ≤ band ∧ band < p.bands) then 1 else 0 := by
    intro t _
    rw [(p.nodup_placesIn t).count]
    exact if_congr (by simp [mem_placesIn]) rfl rfl
  rw [count_flatMap_of_indicator each]
  by_cases bands : p.firstBand x y ≤ band ∧ band < p.bands
  · simp [takes, bands, covering x y]
  · have none : p.takes x y band = false := by
      simp only [takes]
      grind
    simp [none, bands]

/-- The pixels that a pass comes to and those that it misses are together those that are left to it. -/
theorem length_pixelsIn (covering : p.grid.Covering)
    : (p.pixelsIn p.grid.bounds).length
      = (p.grid.tiles.map fun t => (p.pixelsIn t).length).sum + p.missed.length := by
  have swept := (covering.pixels_perm.filter fun (x, y) => p.visits x y).length_eq
  rw [filter_flatMap, length_flatMap, filter_comm] at swept
  rw [length_eq_length_filter_add fun (x, y) => p.grid.sweeps x y]
  exact congrArg (· + p.missed.length) swept.symm

/-- A pass misses nothing if every place that it takes lies in a tile that is swept. -/
theorem missed_eq_nil_iff
    : p.missed = [] ↔ ∀ x y band, p.takes x y band = true → p.grid.sweeps x y = true := by
  simp only [missed, filter_eq_nil_iff, Prod.forall, pixelsIn, mem_filter, Rect.mem_pixels,
    visits, takes, Bool.and_eq_true, decide_eq_true_eq, Bool.not_eq_true', Bool.not_eq_false]
  constructor
  · rintro none x y band ⟨⟨inside, low⟩, high⟩
    exact none x y ⟨inside, by omega⟩
  · rintro all x y ⟨inside, some⟩
    exact all x y (p.firstBand x y) ⟨⟨inside, by omega⟩, by omega⟩

end Pass

/-- The bounds of a raster are in order, and it has a band. -/
structure Raster.WellFormed (r : Raster) : Prop where
  ordered : r.bounds.canon = r.bounds
  bands : 1 ≤ r.bands

theorem Raster.create_wellFormed {bounds bands r} (made : create bounds bands = .ok r)
    : r.WellFormed := by
  obtain ⟨some, inOrder, count, -⟩ := create_eq_ok made
  exact ⟨inOrder ▸ bounds.canon_canon, by omega⟩

namespace Sweep

variable {forced : TileSize} {covered : List Coverage} {rasters : List (String × Raster)}
variable {passes : List Pass}

/-- The places that passes evaluate, in order. -/
def calls (passes : List Pass) : List (Int × Int × Int) :=
  (stretches passes).flatMap (·.places)

/-- Places that list everything that one of the rasters has, each once, and nothing else. -/
def EvaluatesOnce (rasters : List (String × Raster)) (places : List (Int × Int × Int)) : Prop :=
  ∀ x y band, places.count (x, y, band) = if rasters.any (·.2.contains x y band) then 1 else 0

theorem mem_planAfter {p} (member : p ∈ planAfter forced covered rasters)
    : ∃ t ∈ rasters, p.bands = t.2.bands
      ∧ p.grid = TileGrid.create t.2.bounds (tileFor forced t.2) := by
  induction rasters generalizing covered with
  | nil => exact nomatch member
  | cons t rasters ih =>
    rcases mem_cons.mp member with rfl | later
    · exact ⟨t, mem_cons_self, rfl, rfl⟩
    · obtain ⟨t', there, same⟩ := ih later
      exact ⟨t', mem_cons_of_mem t there, same⟩

/-- A place is left to one of the passes if one of the rasters has it and no earlier pass had, by
induction on the rasters.
-/
theorem countP_takes_planAfter (ordered : ∀ t ∈ rasters, t.2.bounds.canon = t.2.bounds)
    (x y band : Int)
    : (planAfter forced covered rasters).countP (·.takes x y band)
      = if covered.all (·.leaves x y band) && rasters.any (·.2.contains x y band) then 1 else 0 := by
  induction rasters generalizing covered with
  | nil => simp [planAfter]
  | cons t rasters ih =>
    obtain ⟨image, raster⟩ := t
    obtain ⟨first, rest⟩ := forall_mem_cons.mp ordered
    have head : Pass.takes
        { image, bands := raster.bands, covered
          grid := TileGrid.create raster.bounds (tileFor forced raster) } x y band
        = (covered.all (·.leaves x y band) && raster.contains x y band) := by
      rw [Bool.eq_iff_iff]
      simp only [Pass.takes, TileGrid.create_bounds, first, Bool.and_eq_true, decide_eq_true_eq,
        Pass.firstBand_le_iff, Raster.contains]
      grind
    rw [planAfter, countP_cons, ih rest, head, all_append, any_cons, all_cons,
      all_nil, Bool.and_true]
    by_cases nonneg : 0 ≤ band
    · -- What the raster has is left to its own pass, and all else to the later ones.
      have next : Coverage.leaves { bounds := raster.bounds, bands := raster.bands } x y band
          = !raster.contains x y band := by
        rw [Bool.eq_iff_iff]
        simp only [Coverage.leaves, Raster.contains, nonneg]
        grind
      rw [next]
      cases covered.all (·.leaves x y band) <;> cases raster.contains x y band <;> rfl
    · simp [Raster.contains, nonneg]

theorem count_calls (covering : ∀ p ∈ passes, p.grid.Covering) (x y band)
    : (calls passes).count (x, y, band)
      = passes.countP fun p => p.takes x y band && p.grid.sweeps x y := by
  have places : calls passes = passes.flatMap fun p => p.grid.tiles.flatMap p.placesIn := by
    simp [calls, stretches, flatMap_assoc, flatMap_map]
  rw [places]
  exact count_flatMap_of_indicator fun p member => p.count_tiles (covering p member) x y band

/-- Nothing is evaluated twice, and nothing that no raster has. -/
theorem count_calls_le (ordered : ∀ t ∈ rasters, t.2.bounds.canon = t.2.bounds)
    (covering : ∀ p ∈ planAfter forced [] rasters, p.grid.Covering) (x y band : Int)
    : (calls (planAfter forced [] rasters)).count (x, y, band)
      ≤ if rasters.any (·.2.contains x y band) then 1 else 0 := by
  calc (calls (planAfter forced [] rasters)).count (x, y, band)
      = (planAfter forced [] rasters).countP fun p => p.takes x y band && p.grid.sweeps x y :=
        count_calls covering x y band
    _ ≤ (planAfter forced [] rasters).countP (·.takes x y band) :=
        countP_mono_left fun p _ both => (Bool.and_eq_true_iff.mp both).1
    _ = _ := countP_takes_planAfter ordered x y band

/-- Everything is evaluated once if no pass misses a pixel, and only then. -/
theorem evaluatesOnce_iff (ordered : ∀ t ∈ rasters, t.2.bounds.canon = t.2.bounds)
    (covering : ∀ p ∈ planAfter forced [] rasters, p.grid.Covering)
    : EvaluatesOnce rasters (calls (planAfter forced [] rasters))
      ↔ ∀ p ∈ planAfter forced [] rasters, p.missed = [] := by
  have left (x y band : Int)
      : (planAfter forced [] rasters).countP (·.takes x y band)
        = if rasters.any (·.2.contains x y band) then 1 else 0 :=
    countP_takes_planAfter ordered x y band
  simp only [EvaluatesOnce, count_calls covering, ← left, Pass.missed_eq_nil_iff]
  constructor
  · intro same p member x y band taken
    have parts := countP_eq_countP_filter_add (planAfter forced [] rasters)
      (·.takes x y band) (·.grid.sweeps x y)
    rw [countP_filter, countP_filter, same x y band] at parts
    have none : (planAfter forced [] rasters).countP
        (fun p => p.takes x y band && !p.grid.sweeps x y) = 0 := by omega
    simpa [taken] using countP_eq_zero.mp none p member
  · intro all x y band
    refine countP_congr fun p member => ?_
    simpa using all p member x y band

/-- The number of pixels that a pass is planned with is the number of those that are left to it, as a
word. The first pass takes its area instead of counting.
-/
theorem wrap_pixelCount {p : Pass} (ordered : p.grid.bounds.canon = p.grid.bounds)
    (bands : 1 ≤ p.bands)
    : wrap p.pixelCount = wrap (p.pixelsIn p.grid.bounds).length := by
  unfold Pass.pixelCount
  split
  · next first =>
    have all : p.pixelsIn p.grid.bounds = p.grid.bounds.pixels := by
      refine filter_eq_self.mpr fun (x, y) _ => ?_
      simp only [Pass.visits, Pass.firstBand, first, foldl_nil, decide_eq_true_eq]
      omega
    have sides : p.grid.bounds.minX ≤ p.grid.bounds.maxX
        ∧ p.grid.bounds.minY ≤ p.grid.bounds.maxY :=
      ordered ▸ p.grid.bounds.canon_ordered
    rw [all, Rect.length_pixels, Int.natCast_mul, Int.toNat_of_nonneg (by omega),
      Int.toNat_of_nonneg (by omega), Int.mul_comm]
    simp only [wrap, Rect.width, Rect.height, Int.bmod_bmod, Int.bmod_mul_bmod, Int.mul_bmod_bmod]
  · rfl

/-- The total that passes are planned with is the number of the pixels that they come to and of those
that they miss, as a word, by induction on the passes.
-/
theorem total_eq
    (each : ∀ p ∈ passes, p.grid.Covering ∧ p.grid.bounds.canon = p.grid.bounds ∧ 1 ≤ p.bands)
    : total passes
      = wrap (((stretches passes).map (·.pixels)).sum + (passes.map (·.missed.length)).sum : Nat) := by
  induction passes with
  | nil => rfl
  | cons p passes ih =>
    obtain ⟨⟨covering, ordered, bands⟩, rest⟩ := forall_mem_cons.mp each
    have here := wrap_pixelCount ordered bands
    rw [p.length_pixelsIn covering] at here
    have counts
        : ((stretches (p :: passes)).map (·.pixels)).sum
            + ((p :: passes).map (·.missed.length)).sum
          = (p.grid.tiles.map fun t => (p.pixelsIn t).length).sum + p.missed.length
            + (((stretches passes).map (·.pixels)).sum + (passes.map (·.missed.length)).sum) := by
      simp only [stretches, flatMap_cons, map_append, map_map, Function.comp_def,
        sum_append, map_cons, sum_cons]
      omega
    rw [counts, Int.natCast_add, total, map_cons, sum_cons]
    exact wrap_add_congr here (ih rest)

end Sweep

end MapAlgebra
