import MapAlgebra.Proofs.Word
import MapAlgebra.Raster

/-! Where a raster keeps its samples. A new raster has a place for every sample within its bounds and
bands, as long as the number of its samples is a word.
-/

namespace MapAlgebra

variable {n length place row : Int}

/-- The number of a place in rows of equal length is below the number of all places. -/
theorem place_bounds {rows} (row_low : 0 ≤ row) (row_high : row < rows) (place_low : 0 ≤ place)
    (place_high : place < length)
    : 0 ≤ row * length + place ∧ row * length + place < rows * length := by
  have next : (row + 1) * length ≤ rows * length :=
    Int.mul_le_mul_of_nonneg_right (by omega) (by omega)
  have nonneg : 0 ≤ row * length := Int.mul_nonneg row_low (by omega)
  rw [Int.add_mul] at next
  omega

/-- The number of a place in rows of equal length tells its row and where it is in it. -/
theorem place_decoded (row : Int) (low : 0 ≤ place) (high : place < length)
    : (row * length + place) / length = row ∧ (row * length + place) % length = place :=
  (Int.ediv_emod_unique (by omega)).mpr ⟨by rw [Int.mul_comm, Int.add_comm], low, high⟩

theorem place_unique {row' place'} (low : 0 ≤ place) (high : place < length) (low' : 0 ≤ place')
    (high' : place' < length) (same : row * length + place = row' * length + place')
    : row = row' ∧ place = place' := by
  obtain ⟨quotient, rest⟩ := place_decoded row low high
  obtain ⟨quotient', rest'⟩ := place_decoded row' low' high'
  rw [same] at quotient rest
  exact ⟨quotient.symm.trans quotient', rest.symm.trans rest'⟩

/-- No factor of a product of positive numbers is greater than the product. -/
theorem factors_le {w h} (wide : 1 ≤ w) (high : 1 ≤ h) (many : 1 ≤ n)
    : w ≤ h * w ∧ h ≤ h * w ∧ h * w ≤ h * w * n := by
  have area : h * w * 1 ≤ h * w * n :=
    Int.mul_le_mul_of_nonneg_left many (Int.mul_nonneg (by omega) (by omega))
  have row : 1 * w ≤ h * w := Int.mul_le_mul_of_nonneg_right high (by omega)
  have column : h * 1 ≤ h * w := Int.mul_le_mul_of_nonneg_left wide (by omega)
  omega

theorem Rect.contains_iff {r : Rect} {x y}
    : r.contains x y = true ↔ r.minX ≤ x ∧ x < r.maxX ∧ r.minY ≤ y ∧ y < r.maxY := by
  simp [contains, and_assoc]

/-- The number of a pixel, counted row by row. -/
def Rect.number (r : Rect) (x y : Int) : Int :=
  (y - r.minY) * (r.maxX - r.minX) + (x - r.minX)

attribute [ext] Raster

namespace Raster

/-- The sample at a pixel and band has its place in the store. -/
def HasPlace (r : Raster) (x y band : Int) : Prop :=
  0 ≤ r.offset x y band ∧ (r.offset x y band).toNat < r.samples.size

variable {r : Raster}

variable {band x y bands : Int} {bounds : Rect}

theorem contains_iff
    : r.contains x y band = true ↔ r.bounds.contains x y = true ∧ 0 ≤ band ∧ band < r.bands := by
  simp [contains, and_assoc]

theorem not_hasPlace_of_get? (within : r.contains x y band = true) (lost : r.get? x y band = none)
    : ¬ r.HasPlace x y band := by
  rintro ⟨low, high⟩
  rw [get?, if_pos within, stored?, if_pos low, Array.getElem?_eq_getElem high] at lost
  exact nomatch lost

/-- A new raster has the bounds in order and as many samples as its shape says, as a word. -/
theorem create_eq_ok (made : create bounds bands = .ok r)
    : 1 ≤ bands ∧ r.bounds = bounds.canon ∧ (r.bands : Int) = bands
      ∧ (r.samples.size : Int) = sampleCount r.bounds bands ∧ r.samples.size ≤ 2 ^ 45 := by
  unfold create at made
  split at made
  · exact nomatch made
  · next some =>
    dsimp only at made
    split at made
    · exact nomatch made
    · next countable =>
      cases made
      simp only [Bool.or_eq_true, decide_eq_true_eq, not_or] at countable
      refine ⟨by omega, rfl, by simp; omega, ?_⟩
      simp only [Array.size_replicate]
      omega

/-- The area of a rectangle is the product of its sides, if that is a word. -/
theorem area_eq (columns : bounds.minX ≤ bounds.maxX) (rows : bounds.minY ≤ bounds.maxY)
    (small : (bounds.maxY - bounds.minY) * (bounds.maxX - bounds.minX) < 2 ^ 63)
    : wrap (bounds.width * bounds.height)
      = (bounds.maxY - bounds.minY) * (bounds.maxX - bounds.minX) := by
  have wide : 0 ≤ bounds.maxX - bounds.minX := by omega
  have high : 0 ≤ bounds.maxY - bounds.minY := by omega
  rw [Rect.width, Rect.height]
  generalize bounds.maxX - bounds.minX = w at *
  generalize bounds.maxY - bounds.minY = h at *
  by_cases empty : w = 0 ∨ h = 0
  · obtain rfl | rfl := empty <;> simp [wrap]
  · obtain ⟨row, column, -⟩ := factors_le (w := w) (h := h) (by omega) (by omega) (Int.le_refl 1)
    rw [wrap_eq_self (n := w) (by omega) (by omega), wrap_eq_self (n := h) (by omega) (by omega),
      Int.mul_comm w h, wrap_eq_self (n := h * w) (by omega) (by omega)]

/-- The number of samples of a shape is the product of its extents, if that is a word. -/
theorem sampleCount_eq (columns : bounds.minX ≤ bounds.maxX) (rows : bounds.minY ≤ bounds.maxY)
    (banded : 1 ≤ bands)
    (small : (bounds.maxY - bounds.minY) * (bounds.maxX - bounds.minX) * bands < 2 ^ 63)
    : sampleCount bounds bands
      = (bounds.maxY - bounds.minY) * (bounds.maxX - bounds.minX) * bands := by
  have low : 0 ≤ (bounds.maxY - bounds.minY) * (bounds.maxX - bounds.minX) :=
    Int.mul_nonneg (by omega) (by omega)
  have area := Int.mul_le_mul_of_nonneg_left banded low
  have count := Int.mul_nonneg low (Int.le_trans (by decide) banded)
  rw [sampleCount, area_eq columns rows (by omega), wrap_eq_self (by omega) small]

section

variable
  (small : (r.bounds.maxY - r.bounds.minY) * (r.bounds.maxX - r.bounds.minX) * r.bands < 2 ^ 63)
include small

/-- The samples of a raster whose number is a word are numbered without gaps: the rows come one after
the other, and in a row the bands of a pixel do.
-/
theorem offset_eq (within : r.contains x y band = true)
    : r.offset x y band = r.bounds.number x y * r.bands + band
      ∧ 0 ≤ r.offset x y band
      ∧ r.offset x y band
        < (r.bounds.maxY - r.bounds.minY) * (r.bounds.maxX - r.bounds.minX) * r.bands := by
  rw [contains_iff, Rect.contains_iff] at within
  obtain ⟨⟨left, right, top, bottom⟩, first, last⟩ := within
  rw [offset, Rect.width, Rect.number]
  generalize width : r.bounds.maxX - r.bounds.minX = w at *
  generalize height : r.bounds.maxY - r.bounds.minY = h at *
  have pixel : _ ∧ _ < h * w := place_bounds (show 0 ≤ y - r.bounds.minY by omega) (by omega)
    (show 0 ≤ x - r.bounds.minX by omega) (by omega)
  have place := place_bounds pixel.1 pixel.2 first last
  -- No product on the way is greater than the number of samples.
  obtain ⟨row, -, area⟩ := factors_le (w := w) (h := h) (n := r.bands) (by omega) (by omega) (by omega)
  have rows : 0 ≤ (y - r.bounds.minY) * w := Int.mul_nonneg (by omega) (by omega)
  rw [wrap_eq_self (n := w) (by omega) (by omega),
    wrap_eq_self (n := (y - r.bounds.minY) * w) (by omega) (by omega),
    wrap_eq_self (by omega) (by omega)]
  exact ⟨rfl, place⟩

/-- The place of a sample tells its band, its column and its row. -/
theorem offset_unique {x' y' band' : Int} (within : r.contains x y band = true)
    (within' : r.contains x' y' band' = true) (same : r.offset x y band = r.offset x' y' band')
    : (x, y, band) = (x', y', band') := by
  rw [(offset_eq small within).1, (offset_eq small within').1] at same
  rw [contains_iff, Rect.contains_iff] at within within'
  obtain ⟨pixel, bands⟩ := place_unique within.2.1 within.2.2 within'.2.1 within'.2.2 same
  obtain ⟨row, column⟩ := place_unique (by omega) (by omega) (by omega) (by omega) pixel
  rw [Prod.mk.injEq, Prod.mk.injEq]
  omega

end

/-- The shape of a new raster whose number of samples is a word. No store is longer than addresses go. -/
structure Full (r : Raster) : Prop where
  columns : r.bounds.minX ≤ r.bounds.maxX
  rows : r.bounds.minY ≤ r.bounds.maxY
  banded : 1 ≤ r.bands
  small : (r.bounds.maxY - r.bounds.minY) * (r.bounds.maxX - r.bounds.minX) * r.bands < 2 ^ 63
  size : (r.samples.size : Int)
    = (r.bounds.maxY - r.bounds.minY) * (r.bounds.maxX - r.bounds.minX) * r.bands
  addressed : r.samples.size ≤ 2 ^ 45

theorem Full.hasPlace (full : r.Full) (within : r.contains x y band = true)
    : r.HasPlace x y band := by
  obtain ⟨-, low, high⟩ := offset_eq full.small within
  rw [← full.size] at high
  unfold HasPlace
  omega

theorem create_full (made : create bounds bands = .ok r)
    (small : (r.bounds.maxY - r.bounds.minY) * (r.bounds.maxX - r.bounds.minX) * r.bands < 2 ^ 63)
    : r.Full := by
  obtain ⟨banded, ordered, count, size, addressed⟩ := create_eq_ok made
  have columns : r.bounds.minX ≤ r.bounds.maxX := by
    rw [ordered]
    exact Int.le_trans (Int.min_le_left ..) (Int.le_max_left ..)
  have rows : r.bounds.minY ≤ r.bounds.maxY := by
    rw [ordered]
    exact Int.le_trans (Int.min_le_left ..) (Int.le_max_left ..)
  rw [← count] at banded size
  exact ⟨columns, rows, by omega, small, size.trans (sampleCount_eq columns rows banded small), addressed⟩

/-- A new raster whose number of samples is a word has a place for each of them. -/
theorem hasPlace_of_create (made : create bounds bands = .ok r)
    (small : (r.bounds.maxY - r.bounds.minY) * (r.bounds.maxX - r.bounds.minX) * r.bands < 2 ^ 63)
    (within : r.contains x y band = true)
    : r.HasPlace x y band :=
  (create_full made small).hasPlace within

end Raster

end MapAlgebra
