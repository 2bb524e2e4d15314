import MapAlgebra.Proofs.Eval.Frame
import MapAlgebra.Proofs.Raster.Pixels
import MapAlgebra.Proofs.Raster.Store
import Mathlib.Data.Set.Function

/-! How the samples of a raster are addressed. In a raster whose number of samples is a word they correspond
to the places of the store one to one, so a write changes one sample. Filling goes by the places: it writes
a whole band, but with the number of a band that the raster does not have it writes into another one.
-/

namespace MapAlgebra

open List

/-- The numbers below a product come row by row, by induction on the rows. -/
theorem range_mul (rows columns : Nat)
    : List.range (rows * columns)
      = (List.range rows).flatMap fun row => (List.range columns).map (row * columns + ·) := by
  induction rows with
  | zero => simp
  | succ rows ih =>
    rw [Nat.succ_mul, range_add, ih, range_succ, flatMap_append, flatMap_singleton]

theorem Rect.number_nonneg {r : Rect} {x y} (inside : r.contains x y = true)
    : 0 ≤ r.number x y := by
  rw [contains_iff] at inside
  have rows : 0 ≤ (y - r.minY) * (r.maxX - r.minX) := Int.mul_nonneg (by omega) (by omega)
  rw [number]
  omega

namespace Raster

variable {r s t : Raster} {x y band : Int} {v : Sample}

section

variable (full : r.Full)
include full

theorem Full.of_sameShape (same : r.SameShape s) : s.Full := by
  obtain ⟨columns, rows, banded, small, size⟩ := full
  constructor <;> simpa only [same.bounds, same.bands, same.size]

theorem Full.with {samples} (filled : samples.size = r.samples.size) (tile)
    : Full { r with samples, tile } :=
  { full with size := (congrArg Int.ofNat filled).trans full.size, addressed := filled ▸ full.addressed }

theorem Full.get?_eq (x y band)
    : r.get? x y band
      = if r.contains x y band = true then r.samples[(r.offset x y band).toNat]? else some .nan := by
  rw [get?]
  split
  · next within => exact if_pos (full.hasPlace within).1
  · rfl

theorem Full.get?_with {samples} (filled : samples.size = r.samples.size) (x y band)
    : get? { r with samples } x y band
      = if r.contains x y band = true then samples[(r.offset x y band).toNat]? else some .nan :=
  (full.with filled r.tile).get?_eq x y band

/-- Every place is that of a sample: its remainder by the number of bands is the band, and the quotient is
the number of the pixel.
-/
theorem Full.exists_offset {i : Int} (low : 0 ≤ i) (high : i < r.samples.size)
    : ∃ x y band, r.contains x y band = true ∧ r.offset x y band = i := by
  have bands : (0 : Int) < r.bands := Int.ofNat_lt.mpr full.banded
  have columns := full.columns
  have pixel : i / r.bands
      < (r.bounds.maxY - r.bounds.minY) * (r.bounds.maxX - r.bounds.minX) :=
    Int.ediv_lt_of_lt_mul bands (full.size ▸ high)
  have number := Int.ediv_nonneg low (Int.le_of_lt bands)
  have width : 0 < r.bounds.maxX - r.bounds.minX := by
    by_contra none
    rw [show r.bounds.maxX - r.bounds.minX = 0 by omega, Int.mul_zero] at pixel
    omega
  have top := Int.ediv_nonneg number (Int.le_of_lt width)
  have bottom := Int.ediv_lt_of_lt_mul width pixel
  have left := Int.emod_nonneg (i / r.bands) (Int.ne_of_gt width)
  have right := Int.emod_lt_of_pos (i / r.bands) width
  have first := Int.emod_nonneg i (Int.ne_of_gt bands)
  have last := Int.emod_lt_of_pos i bands
  have within : r.contains (i / r.bands % (r.bounds.maxX - r.bounds.minX) + r.bounds.minX)
      (i / r.bands / (r.bounds.maxX - r.bounds.minX) + r.bounds.minY) (i % r.bands) = true := by
    rw [contains_iff, Rect.contains_iff]
    omega
  refine ⟨_, _, _, within, ?_⟩
  rw [(offset_eq full.small within).1, Rect.number, Int.add_sub_cancel, Int.add_sub_cancel,
    Int.ediv_mul_add_emod, Int.ediv_mul_add_emod]

theorem Full.bijOn_offset
    : Set.BijOn (fun p : Int × Int × Int => r.offset p.1 p.2.1 p.2.2)
        {p | r.contains p.1 p.2.1 p.2.2 = true} {i | 0 ≤ i ∧ i < r.samples.size} := by
  refine ⟨fun p within => ?_, fun p within p' within' same => ?_, fun i inside => ?_⟩
  · obtain ⟨low, high⟩ := full.hasPlace within
    exact ⟨low, (Int.toNat_lt low).mp high⟩
  · exact offset_unique full.small within within' same
  · obtain ⟨x, y, band, within, place⟩ := full.exists_offset inside.1 inside.2
    exact ⟨(x, y, band), within, place⟩

/-- Rasters of one shape with the same samples are the same. -/
theorem Full.eq_of_get? (same : r.SameShape s) (same' : r.SameShape t)
    (seen : ∀ x y band, s.get? x y band = t.get? x y band)
    : s = t := by
  have samples : s.samples = t.samples := by
    refine Array.ext_getElem? fun i => ?_
    by_cases inside : i < r.samples.size
    · obtain ⟨x, y, band, within, place⟩ :=
        full.exists_offset (Int.natCast_nonneg i) (Int.ofNat_lt.mpr inside)
      have here := seen x y band
      rwa [(full.of_sameShape same).get?_eq, (full.of_sameShape same').get?_eq, same.contains_eq,
        same'.contains_eq, same.offset_eq, same'.offset_eq, if_pos within, if_pos within, place,
        Int.toNat_natCast] at here
    · rw [Array.getElem?_eq_none (same.size ▸ Nat.le_of_not_lt inside),
        Array.getElem?_eq_none (same'.size ▸ Nat.le_of_not_lt inside)]
  exact Raster.ext (same.bounds.trans same'.bounds.symm) (same.bands.trans same'.bands.symm) samples
    (same.tile.trans same'.tile.symm)

/-- A write is seen where it is made, if the raster has the sample, and nowhere else. -/
theorem Full.set?_eq (x y band : Int) (v : Sample)
    : ∃ s, r.set? x y band v = some s ∧ r.SameShape s
      ∧ ∀ x' y' band', s.get? x' y' band'
        = if (x', y', band') = (x, y, band) ∧ r.contains x y band = true then some v
          else r.get? x' y' band' := by
  cases within : r.contains x y band with
  | false => exact ⟨r, if_neg (by simp [within]), .refl r, fun x' y' band' => by simp⟩
  | true =>
    have place := full.hasPlace within
    have filled : (r.samples.setIfInBounds (r.offset x y band).toNat v).size = r.samples.size :=
      Array.size_setIfInBounds
    refine ⟨_, (if_pos within).trans (if_pos place), ⟨rfl, rfl, filled, rfl⟩, fun x' y' band' => ?_⟩
    rw [full.get?_with filled, full.get?_eq, Array.getElem?_setIfInBounds, if_pos place.2]
    by_cases same : (x', y', band') = (x, y, band)
    · cases same
      exact (if_pos within).trans ((if_pos rfl).trans (if_pos ⟨rfl, rfl⟩).symm)
    · rw [if_neg (not_and_of_not_left _ same)]
      refine if_ctx_congr Iff.rfl (fun within' => if_neg fun overlap => ?_) fun _ => rfl
      have low := place.1
      have low' := (full.hasPlace within').1
      exact same (offset_unique full.small within' within (by omega))

/-- After writes at some places each of them has its sample and all others are as before, by induction on
the places.
-/
theorem Full.set?_each (sample : Int → Int → Int → Option Sample) (places : List (Int × Int × Int))
    (given : ∀ p ∈ places, ∃ v, sample p.1 p.2.1 p.2.2 = some v)
    : ∃ s, places.foldlM (fun (r : Raster) (x, y, band) => do
          let v ← sample x y band
          r.set? x y band v) r = some s
      ∧ r.SameShape s
      ∧ ∀ x y band, s.get? x y band
        = if (x, y, band) ∈ places ∧ r.contains x y band = true then sample x y band
          else r.get? x y band := by
  induction places generalizing r with
  | nil => exact ⟨r, rfl, .refl r, fun x y band => by simp⟩
  | cons p places ih =>
    obtain ⟨⟨v, known⟩, others⟩ := forall_mem_cons.mp given
    obtain ⟨next, written, shape, seen⟩ := full.set?_eq p.1 p.2.1 p.2.2 v
    obtain ⟨after, folded, shape', seen'⟩ := ih (full.of_sameShape shape) others
    refine ⟨after, ?_, shape.trans shape', fun x y band => ?_⟩
    · rw [foldlM_cons]
      simp only [known, Option.bind_eq_bind, Option.bind_some, written]
      exact folded
    · rw [seen', seen, shape.contains_eq]
      by_cases here : (x, y, band) = p
      · cases here
        by_cases within : r.contains x y band = true <;> simp [within, known]
      · simp [here]

end

theorem mem_places : (x, y, band) ∈ r.places ↔ r.contains x y band = true := by
  simp only [places, mem_flatMap, Prod.exists, Rect.mem_pixels, mem_map, mem_range,
    Prod.mk.injEq, contains_iff]
  constructor
  · rintro ⟨x, y, inside, k, few, rfl, rfl, rfl⟩
    exact ⟨inside, by omega, by omega⟩
  · rintro ⟨inside, low, high⟩
    exact ⟨x, y, inside, band.toNat, by omega, rfl, rfl, by omega⟩

/-- The places of a band are those of its samples, row by row. -/
theorem Full.bandPlaces_eq (full : r.Full) {band} (inside : band < r.bands)
    : r.bandPlaces band = r.bounds.pixels.map fun (x, y) => (r.offset x y band).toNat := by
  obtain ⟨w, width⟩ := Int.eq_ofNat_of_zero_le (Int.sub_nonneg.mpr full.columns)
  obtain ⟨h, height⟩ := Int.eq_ofNat_of_zero_le (Int.sub_nonneg.mpr full.rows)
  have size : r.samples.size = h * w * r.bands := by
    have size := full.size
    rw [width, height] at size
    exact_mod_cast size
  have count : (r.samples.size - band + r.bands - 1) / r.bands = h * w := by
    rw [size]
    cases h * w with
    | zero => exact Nat.div_eq_of_lt (by omega)
    | succ n =>
      rw [Nat.succ_mul, show n * r.bands + r.bands - band + r.bands - 1
        = r.bands - band - 1 + (n + 1) * r.bands by rw [Nat.succ_mul]; omega,
        Nat.add_mul_div_right _ _ (by omega), Nat.div_eq_of_lt (by omega), Nat.zero_add]
  rw [bandPlaces, count, range_mul, map_flatMap, Rect.pixels, Rect.rows, Rect.columns, width, height,
    flatMap_map, map_flatMap]
  refine flatMap_congr fun row below => ?_
  simp only [map_map, Int.toNat_natCast]
  refine map_congr_left fun column inside' => ?_
  have within : r.contains (r.bounds.minX + column) (r.bounds.minY + row) band = true := by
    rw [mem_range] at below inside'
    rw [contains_iff, Rect.contains_iff]
    omega
  have place : r.offset (r.bounds.minX + column) (r.bounds.minY + row) band
      = (band + (row * w + column) * r.bands : Nat) := by
    rw [(offset_eq full.small within).1, Rect.number, width, Int.add_comm _ (band : Int),
      Int.add_comm r.bounds.minY, Int.add_sub_cancel, Int.add_comm r.bounds.minX, Int.add_sub_cancel]
    rfl
  exact (congrArg Int.toNat place).symm

theorem lt_of_mem_bandPlaces {band k} (banded : 1 ≤ r.bands) (listed : k ∈ r.bandPlaces band)
    : k < r.samples.size := by
  obtain ⟨i, few, rfl⟩ := mem_map.mp listed
  have most := (Nat.le_div_iff_mul_le banded).mp (mem_range.mp few)
  rw [Nat.succ_mul] at most
  omega

/-- No step from place to place wraps around, since the bands of one pixel are not more than the samples
of all.
-/
theorem Full.bandPlaces?_eq (full : r.Full) (low : 0 ≤ band)
    : r.bandPlaces? band = some (r.bandPlaces band.toNat) := by
  refine if_neg ?_
  simp only [Bool.or_eq_true, decide_eq_true_eq, any_eq_true, not_or, not_exists, not_and]
  refine ⟨by omega, fun k listed wraps => ?_⟩
  have inside := lt_of_mem_bandPlaces full.banded listed
  have least : (r.bands : Int) ≤ r.samples.size := by
    have size := full.size
    generalize (r.bounds.maxY - r.bounds.minY) * (r.bounds.maxX - r.bounds.minX) = area at size
    have some : 1 ≤ area := by
      by_contra few
      have none : area * r.bands ≤ 0 := Int.mul_nonpos_of_nonpos_of_nonneg (by omega) (by omega)
      omega
    have once := Int.mul_le_mul_of_nonneg_right some (Int.natCast_nonneg r.bands)
    omega
  have addressed := full.addressed
  omega

/-- The area of a raster is a length that a list can have. -/
theorem Full.area_le (full : r.Full)
    : 0 ≤ wrap (r.bounds.width * r.bounds.height) ∧ wrap (r.bounds.width * r.bounds.height) ≤ 2 ^ 45 := by
  have low : 0 ≤ (r.bounds.maxY - r.bounds.minY) * (r.bounds.maxX - r.bounds.minX) :=
    Int.mul_nonneg (Int.sub_nonneg.mpr full.rows) (Int.sub_nonneg.mpr full.columns)
  have area := Int.mul_le_mul_of_nonneg_left (Int.ofNat_le.mpr full.banded) low
  have size := full.size
  have addressed := full.addressed
  rw [area_eq full.columns full.rows (by omega)]
  omega

/-- A band lists its samples row by row. -/
theorem Full.band?_eq (full : r.Full) (low : 0 ≤ band) (high : band < r.bands)
    : ∃ samples, r.band? band = some samples
      ∧ samples.map some = r.bounds.pixels.map fun (x, y) => r.get? x y band := by
  have within : ∀ p ∈ r.bounds.pixels, r.contains p.1 p.2 band = true := fun p member =>
    contains_iff.mpr ⟨Rect.mem_pixels.mp member, low, high⟩
  rw [band?, guard, if_pos full.area_le, full.bandPlaces?_eq low]
  refine ⟨_, rfl, ?_⟩
  rw [full.bandPlaces_eq (by omega), filterMap_map, Int.toNat_of_nonneg low,
    map_filterMap_some_eq_filter_map_isSome, filter_eq_self.mpr]
  · refine map_congr_left fun p member => ?_
    exact ((full.get?_eq ..).trans (if_pos (within p member))).symm
  · intro a listed
    obtain ⟨p, member, rfl⟩ := mem_map.mp listed
    exact congrArg Option.isSome (Array.getElem?_eq_getElem (full.hasPlace (within p member)).2)

/-- The samples of a raster correspond to the places of its store one to one. -/
structure Addressed (r : Raster) : Prop where
  places : Set.BijOn (fun p : Int × Int × Int => r.offset p.1 p.2.1 p.2.2)
    {p | r.contains p.1 p.2.1 p.2.2 = true} {i | 0 ≤ i ∧ i < r.samples.size}
  /-- A write is seen where it is made, if the raster has the sample, and nowhere else. -/
  written : ∀ x y band v, ∃ s, r.set? x y band v = some s
    ∧ ∀ x' y' band', s.get? x' y' band'
      = if (x', y', band') = (x, y, band) ∧ r.contains x y band = true then some v
        else r.get? x' y' band'
  /-- What the raster does not have is not a number, and writing it changes nothing. -/
  outside : ∀ x y band, r.contains x y band = false
    → r.get? x y band = some .nan ∧ ∀ v, r.set? x y band v = some r
  /-- A band lists its samples row by row. -/
  bands : ∀ band : Int, 0 ≤ band → band < r.bands → ∃ samples, r.band? band = some samples
    ∧ samples.map some = r.bounds.pixels.map fun (x, y) => r.get? x y band

/-- A raster whose number of samples is a word is addressed so, whatever was written since it was new, and
one that is made of the samples of any other has them.
-/
theorem create_addressed {bounds : Rect} {bands : Int} {blank : Raster}
    (made : create bounds bands = .ok blank)
    (small : (blank.bounds.maxY - blank.bounds.minY) * (blank.bounds.maxX - blank.bounds.minX)
      * blank.bands < 2 ^ 63)
    : (∀ (samples : Array Sample) (tile : Option TileSize), samples.size = blank.samples.size
        → Addressed { blank with samples, tile })
      ∧ ∀ sample : Int → Int → Int → Option Sample,
        (∀ x y band, blank.contains x y band = true → ∃ v, sample x y band = some v)
        → ∃ r, tabulate bounds bands sample = some r ∧ blank.SameShape r
          ∧ ∀ x y band, blank.contains x y band = true → r.get? x y band = sample x y band := by
  have full := create_full made small
  refine ⟨fun samples tile filled => ?_, fun sample given => ?_⟩
  · have full := full.with filled tile
    refine ⟨full.bijOn_offset, fun x y band v => ?_, fun x y band outside => ?_,
      fun band low high => full.band?_eq low high⟩
    · obtain ⟨s, written, -, seen⟩ := full.set?_eq x y band v
      exact ⟨s, written, seen⟩
    · have none : ¬ contains { blank with samples, tile } x y band = true := by simp [outside]
      exact ⟨if_neg none, fun v => if_neg none⟩
  · obtain ⟨r, folded, shape, seen⟩ := full.set?_each sample blank.places fun p member =>
      given p.1 p.2.1 p.2.2 (mem_places.mp member)
    refine ⟨r, ?_, shape, fun x y band within => ?_⟩
    · rw [tabulate, made]
      exact folded
    · rw [seen, if_pos ⟨mem_places.mpr within, within⟩]

theorem create_addressed_shifted
    : ∃ blank, create (.ofCorners 3 4 (-2) 1) 2 = .ok blank
      ∧ Addressed { blank with samples := .replicate 30 .one, tile := none }
      ∧ ∃ r, tabulate (.ofCorners 3 4 (-2) 1) 2 (fun x y band => some (.ofInt (x * y + band))) = some r
        ∧ r.get? (-1) 3 1 = some (.ofInt (-2)) := by
  obtain ⟨addressed, copies⟩ :=
    @create_addressed (.ofCorners 3 4 (-2) 1) 2 _ rfl (by decide)
  obtain ⟨r, made, -, seen⟩ := copies (fun x y band => some (.ofInt (x * y + band)))
    fun _ _ _ _ => ⟨_, rfl⟩
  exact ⟨_, rfl, addressed _ none (by decide), r, made, seen (-1) 3 1 (by decide)⟩

/-- Setting places to one value, by induction on the places. -/
theorem foldl_setIfInBounds (places : List Nat) (samples : Array Sample) (v : Sample)
    : (places.foldl (fun samples i => samples.setIfInBounds i v) samples).size = samples.size
      ∧ ∀ k, (places.foldl (fun samples i => samples.setIfInBounds i v) samples)[k]?
        = if k ∈ places ∧ k < samples.size then some v else samples[k]? := by
  induction places generalizing samples with
  | nil => simp
  | cons i places ih =>
    obtain ⟨size, set⟩ := ih (samples.setIfInBounds i v)
    refine ⟨size.trans Array.size_setIfInBounds, fun k => ?_⟩
    rw [foldl_cons, set, Array.size_setIfInBounds, Array.getElem?_setIfInBounds]
    by_cases here : i = k
    · subst here
      by_cases inside : i < samples.size <;> simp [inside]
    · simp [here, Ne.symm here]

/-- A place is written if it is in the band that the number is by its remainder, and the number by its
quotient is not past the pixel.
-/
theorem mem_bandPlaces (banded : 1 ≤ r.bands) {band k} (inside : k < r.samples.size)
    : k ∈ r.bandPlaces band ↔ k % r.bands = band % r.bands ∧ band / r.bands ≤ k / r.bands := by
  simp only [bandPlaces, mem_map, mem_range]
  constructor
  · rintro ⟨i, few, rfl⟩
    rw [Nat.add_mul_mod_self_right, Nat.add_mul_div_right _ _ (by omega)]
    exact ⟨rfl, Nat.le_add_right _ _⟩
  · rintro ⟨same, later⟩
    have split := Nat.div_add_mod' k r.bands
    have split' := Nat.div_add_mod' band r.bands
    have before := Nat.mul_le_mul_right r.bands later
    have steps := Nat.sub_mul (k / r.bands) (band / r.bands) r.bands
    refine ⟨k / r.bands - band / r.bands, ?_, by omega⟩
    rw [← Nat.succ_le_iff, Nat.le_div_iff_mul_le banded, Nat.succ_mul]
    omega

/-- The sample is of the band that a number is by its remainder, and its pixel is not in front of the
quotient.
-/
def FilledBy (r : Raster) (band x y k : Int) : Prop :=
  r.contains x y k = true ∧ k = band % r.bands ∧ band / r.bands ≤ r.bounds.number x y

instance (r : Raster) (band x y k : Int) : Decidable (r.FilledBy band x y k) :=
  inferInstanceAs (Decidable (_ ∧ _ ∧ _))

theorem Full.fill?_eq (full : r.Full) (low : 0 ≤ band) (v)
    : ∃ s, r.fill? band v = some s ∧ r.SameShape s
      ∧ ∀ x y k, s.get? x y k = if r.FilledBy band x y k then some v else r.get? x y k := by
  obtain ⟨band, rfl⟩ := Int.eq_ofNat_of_zero_le low
  obtain ⟨filled, set⟩ := foldl_setIfInBounds (r.bandPlaces band) r.samples v
  rw [fill?, full.bandPlaces?_eq low]
  refine ⟨_, rfl, ⟨rfl, rfl, filled, rfl⟩, fun x y k => ?_⟩
  rw [Int.toNat_natCast, full.get?_with filled, full.get?_eq]
  split
  · next within =>
    obtain ⟨low, high⟩ := full.hasPlace within
    obtain ⟨-, first, last⟩ := contains_iff.mp within
    obtain ⟨pixel, rest⟩ := place_decoded (r.bounds.number x y) first last
    rw [← (offset_eq full.small within).1, ← Int.toNat_of_nonneg low] at pixel rest
    refine (set _).trans (if_congr ?_ rfl rfl)
    simp only [mem_bandPlaces full.banded high, FilledBy, within, true_and, high, and_true]
    generalize (r.offset x y k).toNat = m at *
    rw [← pixel, ← rest]
    norm_cast
  · next outside => rw [if_neg fun filled => outside filled.1]

/-- Sets the sample of a band at every pixel, one after the other. -/
def setAll? (r : Raster) (band : Int) (v : Sample) : Option Raster :=
  r.bounds.pixels.foldlM (fun (r : Raster) (x, y) => r.set? x y band v) r

theorem Full.setAll?_eq (full : r.Full) (band v)
    : ∃ s, r.setAll? band v = some s ∧ r.SameShape s
      ∧ ∀ x y k, s.get? x y k
        = if r.contains x y k = true ∧ k = band then some v else r.get? x y k := by
  obtain ⟨s, folded, shape, seen⟩ := full.set?_each (fun _ _ _ => some v)
    (r.bounds.pixels.map fun (x, y) => (x, y, band)) fun _ _ => ⟨v, rfl⟩
  rw [foldlM_map] at folded
  refine ⟨s, folded, shape, fun x y k => ?_⟩
  rw [seen]
  refine if_congr ?_ rfl rfl
  simp only [mem_map, Prod.exists, Prod.mk.injEq, Rect.mem_pixels]
  constructor
  · rintro ⟨⟨x, y, -, rfl, rfl, rfl⟩, within⟩
    exact ⟨within, rfl⟩
  · rintro ⟨within, rfl⟩
    exact ⟨⟨x, y, (contains_iff.mp within).1, rfl, rfl, rfl⟩, within⟩

/-- Filling a band that the raster has is setting it at every pixel, so it changes no other band. With the
number of a band that the raster does not have nothing is set, but filling writes into the band of the
remainder; it changes nothing exactly if that has the value already.
-/
theorem fill_agrees (full : r.Full) (low : 0 ≤ band) (v : Sample)
    : ∃ s, r.fill? band v = some s
      ∧ (∀ x y k, s.get? x y k = if r.FilledBy band x y k then some v else r.get? x y k)
      ∧ (band < r.bands → r.setAll? band v = some s
        ∧ ∀ x y k, k ≠ band → s.get? x y k = r.get? x y k)
      ∧ (r.bands ≤ band → r.setAll? band v = some r
        ∧ (s = r ↔ ∀ x y k, r.FilledBy band x y k → r.get? x y k = some v)) := by
  obtain ⟨s, filled, shape, seen⟩ := full.fill?_eq low v
  obtain ⟨t, set, shape', seen'⟩ := full.setAll?_eq band v
  refine ⟨s, filled, seen, fun inside => ⟨?_, fun x y k other => ?_⟩, fun beyond => ⟨?_, ?_⟩⟩
  · rw [set, full.eq_of_get? shape' shape fun x y k => ?_]
    rw [seen, seen']
    refine if_congr ?_ rfl rfl
    rw [FilledBy, Int.emod_eq_of_lt low inside, Int.ediv_eq_zero_of_lt low inside]
    refine and_congr_right fun within => ?_
    simp [Rect.number_nonneg (contains_iff.mp within).1]
  · rw [seen, if_neg fun filled => other ?_]
    rw [filled.2.1, Int.emod_eq_of_lt low inside]
  · rw [set, full.eq_of_get? shape' (.refl r) fun x y k => ?_]
    rw [seen', if_neg]
    rintro ⟨within, rfl⟩
    exact Int.not_lt.mpr beyond (contains_iff.mp within).2.2
  · constructor
    · rintro rfl x y k here
      rw [seen, if_pos here]
    · intro same
      refine full.eq_of_get? shape (.refl r) fun x y k => ?_
      rw [seen]
      split
      · next here => exact (same x y k here).symm
      · rfl

theorem fill_agrees_strip
    : ∃ blank, create (.ofSize 3 1) 2 = .ok blank ∧ blank.Full
      ∧ ∃ s, blank.fill? 1 .one = some s ∧ blank.setAll? 1 .one = some s
        ∧ s.samples = #[.zero, .one, .zero, .one, .zero, .one] := by
  have full : ∀ blank, create (.ofSize 3 1) 2 = .ok blank → blank.Full :=
    fun blank made => create_full made (by cases made; decide)
  obtain ⟨s, filled, -, inside, -⟩ := @fill_agrees _ 1 (full _ rfl) (by decide) .one
  refine ⟨_, rfl, full _ rfl, s, filled, (inside (by decide)).1, ?_⟩
  cases filled
  decide

/-- With a number past the bands of two pixels, filling writes the second pixel and setting writes
nothing.
-/
theorem strip_fills_other
    : ∃ blank, create (.ofSize 2 1) 1 = .ok blank
      ∧ blank.setAll? 1 .one = some blank ∧ blank.fill? 1 .one ≠ some blank :=
  ⟨_, rfl, by decide, by decide⟩

end Raster

end MapAlgebra
