import MapAlgebra.Proofs.Raster.Pixels
import MapAlgebra.Proofs.Raster.Store
import MapAlgebra.Tile

/-! Grids cut a rectangle into tiles. As long as no coordinate leaves the words, every pixel lies in the
one tile that has its number.
-/

namespace MapAlgebra

open List
open Rect

/-- How many pieces of a length an extent needs. -/
def TileGrid.needed (extent length : Int) : Int :=
  (extent + length - 1) / length

/-- A stretch of coordinates that is cut into pieces of a length. Its ends, its extent and the length
are words.
-/
structure WordSide (low high length : Int) : Prop where
  ordered : low < high
  positive : 0 < length
  short : length < 2 ^ 63
  lower : -2 ^ 63 ≤ low
  upper : high < 2 ^ 63
  extent : high - low < 2 ^ 63

namespace WordSide

open TileGrid (needed)

variable {low high length piece v : Int}

section

variable (side : WordSide low high length)
include side

/-- The pieces reach the end of the stretch, and all but the last end before it. -/
theorem needed_bounds
    : 0 < needed (high - low) length ∧ needed (high - low) length ≤ high - low
      ∧ high - low ≤ needed (high - low) length * length
      ∧ needed (high - low) length * length < high - low + length := by
  obtain ⟨ordered, positive, -⟩ := side
  have most : needed (high - low) length * length ≤ high - low + length - 1 :=
    Int.ediv_mul_le _ (by omega)
  have least : high - low + length - 1 < (needed (high - low) length + 1) * length :=
    Int.lt_ediv_add_one_mul_self _ positive
  rw [Int.add_mul] at least
  have some : 0 < needed (high - low) length := by
    by_contra none
    have nothing : needed (high - low) length * length ≤ 0 * length :=
      Int.mul_le_mul_of_nonneg_right (by omega) (by omega)
    omega
  refine ⟨some, ?_, by omega, by omega⟩
  have pieces : (needed (high - low) length - 1) * 1 ≤ (needed (high - low) length - 1) * length :=
    Int.mul_le_mul_of_nonneg_left (by omega) (by omega)
  rw [Int.mul_one, Int.sub_mul] at pieces
  omega

theorem piece_start (first : 0 ≤ piece) (last : piece < needed (high - low) length)
    : 0 ≤ piece * length ∧ piece * length < high - low
      ∧ wrap (low + piece * length) = low + piece * length := by
  obtain ⟨-, -, -, most⟩ := side.needed_bounds
  obtain ⟨ordered, positive, -, lower, upper, -⟩ := side
  have start : 0 ≤ piece * length := Int.mul_nonneg first (by omega)
  have stop : (piece + 1) * length ≤ needed (high - low) length * length :=
    Int.mul_le_mul_of_nonneg_right (by omega) (by omega)
  rw [Int.add_mul] at stop
  exact ⟨start, by omega, wrap_eq_self (by omega) (by omega)⟩

theorem piece_bounds (left : low ≤ v) (right : v < high)
    : 0 ≤ (v - low) / length ∧ (v - low) / length < needed (high - low) length := by
  have positive := side.positive
  refine ⟨Int.ediv_nonneg (by omega) (by omega), ?_⟩
  have below : (v - low) / length * length ≤ v - low := Int.ediv_mul_le _ (by omega)
  have next : ((v - low) / length + 1) * length ≤ high - low + length - 1 := by
    rw [Int.add_mul]
    omega
  exact Int.add_one_le_iff.mp ((Int.le_ediv_iff_mul_le positive).mpr next)

theorem last_piece
    : (high - 1 - low) / length = needed (high - low) length - 1 := by
  obtain ⟨-, -, least, most⟩ := side.needed_bounds
  rw [Int.ediv_eq_iff_of_pos side.positive, Int.sub_mul]
  omega

/-- A coordinate lies in the piece whose number it has, if the end of the piece is a word; else nothing
lies in it.
-/
theorem mem_piece_iff (first : 0 ≤ piece) (last : piece < needed (high - low) length)
    : wrap (low + piece * length) ≤ v ∧ v < wrap (wrap (low + piece * length) + length)
      ↔ (v - low) / length = piece ∧ low + (piece + 1) * length < 2 ^ 63 := by
  obtain ⟨start, inside, starts⟩ := side.piece_start first last
  obtain ⟨ordered, positive, short, lower, upper, -⟩ := side
  rw [starts, Int.ediv_eq_iff_of_pos positive, Int.add_mul]
  by_cases ends : low + (piece * length + length) < 2 ^ 63
  · rw [wrap_eq_self (by omega) (by omega)]
    omega
  · have wrapped : wrap (low + piece * length + length) = low + piece * length + length - 2 ^ 64 := by
      rw [wrap, Int.bmod_def]
      omega
    rw [wrapped]
    omega

/-- The number of pieces is the one that is needed, if the sum that it is computed from is a word. -/
theorem pieces_eq (small : high - low + length ≤ 2 ^ 63)
    : TileGrid.pieces (wrap (high - low)) length = needed (high - low) length := by
  obtain ⟨least, most, -, -⟩ := side.needed_bounds
  obtain ⟨ordered, positive, -, -, -, extent⟩ := side
  rw [TileGrid.pieces, wrap_eq_self (n := high - low) (by omega) (by omega),
    wrap_eq_self (n := high - low + length - 1) (by omega) (by omega),
    Int.tdiv_eq_ediv_of_nonneg (by omega), ← needed]
  exact wrap_eq_self (by omega) (by omega)

/-- If the sum that it is computed from is past the words, the number of pieces is not positive, and no
further from zero than the one that is needed.
-/
theorem pieces_cases
    : TileGrid.pieces (wrap (high - low)) length = needed (high - low) length
      ∨ TileGrid.pieces (wrap (high - low)) length ≤ 0
        ∧ -TileGrid.pieces (wrap (high - low)) length ≤ needed (high - low) length := by
  rcases Int.lt_or_le (high - low + length - 1) (2 ^ 63) with small | large
  · exact Or.inl (side.pieces_eq (by omega))
  · obtain ⟨ordered, positive, short, -, -, extent⟩ := side
    have wrapped : wrap (high - low + length - 1) = -(2 ^ 64 - (high - low + length - 1)) := by
      rw [wrap, Int.bmod_def]
      omega
    have least : 0 ≤ (2 ^ 64 - (high - low + length - 1)) / length :=
      Int.ediv_nonneg (by omega) (by omega)
    have most : (2 ^ 64 - (high - low + length - 1)) / length ≤ 2 ^ 64 - (high - low + length - 1) :=
      Int.ediv_le_self _ (by omega)
    have fewer : (2 ^ 64 - (high - low + length - 1)) / length ≤ needed (high - low) length :=
      Int.ediv_le_ediv positive (by omega)
    refine Or.inr ?_
    rw [TileGrid.pieces, wrap_eq_self (n := high - low) (by omega) (by omega), wrapped,
      Int.neg_tdiv, Int.tdiv_eq_ediv_of_nonneg (by omega), wrap_eq_self (by omega) (by omega)]
    omega

end

end WordSide

/-- The end of the last piece is a word as well. -/
structure WordSpan (low high length : Int) : Prop extends WordSide low high length where
  fits : low + TileGrid.needed (high - low) length * length < 2 ^ 63

namespace WordSpan

variable {low high length piece v : Int}

theorem piece_stop (span : WordSpan low high length) (last : piece < TileGrid.needed (high - low) length)
    : low + (piece + 1) * length < 2 ^ 63 := by
  have fits := span.fits
  have stop : (piece + 1) * length ≤ TileGrid.needed (high - low) length * length :=
    Int.mul_le_mul_of_nonneg_right (by omega) (Int.le_of_lt span.positive)
  omega

theorem mem_piece (span : WordSpan low high length) (first : 0 ≤ piece)
    (last : piece < TileGrid.needed (high - low) length)
    : wrap (low + piece * length) ≤ v ∧ v < wrap (wrap (low + piece * length) + length)
      ↔ (v - low) / length = piece := by
  rw [span.mem_piece_iff first last]
  exact and_iff_left (span.piece_stop last)

end WordSpan

/-- The pixels inside both rectangles, also when there are none. -/
theorem Rect.contains_intersect (r s : Rect) (x y : Int)
    : (r.intersect s).contains x y = true ↔ r.contains x y = true ∧ s.contains x y = true := by
  unfold intersect
  dsimp only
  split
  · next empty =>
    simp only [isEmpty, Bool.or_eq_true, decide_eq_true_eq] at empty
    simp only [contains_iff]
    omega
  · simp only [contains_iff]
    omega

theorem Rect.canon_ordered (r : Rect) : r.canon.minX ≤ r.canon.maxX ∧ r.canon.minY ≤ r.canon.maxY := by
  simp only [canon, ofCorners]
  omega

theorem Rect.canon_canon (r : Rect) : r.canon.canon = r.canon := by
  simp only [canon, ofCorners, mk.injEq]
  omega

theorem Rect.ordered_of_not_isEmpty {r : Rect} (inside : r.isEmpty = false)
    : r.minX < r.maxX ∧ r.minY < r.maxY := by
  simp only [isEmpty, Bool.or_eq_false_iff, decide_eq_false_iff_not] at inside
  omega

theorem Rect.not_contains_of_isEmpty {r : Rect} (empty : r.isEmpty = true) (x y)
    : r.contains x y = false := by
  simp only [isEmpty, Bool.or_eq_true, decide_eq_true_eq] at empty
  simp only [contains]
  grind

/-- The corners of a rectangle are words, and so is how far they are apart. -/
structure Rect.InWords (r : Rect) : Prop where
  left : -2 ^ 63 ≤ r.minX
  top : -2 ^ 63 ≤ r.minY
  right : r.maxX < 2 ^ 63
  bottom : r.maxY < 2 ^ 63
  wide : r.maxX - r.minX < 2 ^ 63
  high : r.maxY - r.minY < 2 ^ 63

namespace TileGrid

variable {g : TileGrid} {bounds : Rect} {tile : TileSize} {x y : Int}

/-- The bounds of a grid together with the sides of a tile do not leave the words. -/
structure InWords (g : TileGrid) : Prop where
  left : -2 ^ 63 ≤ g.bounds.minX
  top : -2 ^ 63 ≤ g.bounds.minY
  right : g.bounds.maxX + g.tile.width < 2 ^ 63
  bottom : g.bounds.maxY + g.tile.height < 2 ^ 63
  wide : g.bounds.maxX - g.bounds.minX + g.tile.width ≤ 2 ^ 63
  high : g.bounds.maxY - g.bounds.minY + g.tile.height ≤ 2 ^ 63

instance (g : TileGrid) : Decidable g.InWords :=
  decidable_of_iff
    (-2 ^ 63 ≤ g.bounds.minX ∧ -2 ^ 63 ≤ g.bounds.minY
      ∧ g.bounds.maxX + g.tile.width < 2 ^ 63 ∧ g.bounds.maxY + g.tile.height < 2 ^ 63
      ∧ g.bounds.maxX - g.bounds.minX + g.tile.width ≤ 2 ^ 63
      ∧ g.bounds.maxY - g.bounds.minY + g.tile.height ≤ 2 ^ 63)
    ⟨fun ⟨left, top, right, bottom, wide, high⟩ => ⟨left, top, right, bottom, wide, high⟩,
      fun small => ⟨small.left, small.top, small.right, small.bottom, small.wide, small.high⟩⟩

/-- The number of the tile at a pixel. -/
def number (g : TileGrid) (x y : Int) : Int :=
  (y - g.bounds.minY) / g.tile.height * g.columns + (x - g.bounds.minX) / g.tile.width

/-- A grid with as many columns and rows as its bounds need. -/
structure Regular (g : TileGrid) : Prop where
  across : WordSpan g.bounds.minX g.bounds.maxX g.tile.width
  down : WordSpan g.bounds.minY g.bounds.maxY g.tile.height
  columns : g.columns = needed (g.bounds.maxX - g.bounds.minX) g.tile.width
  rows : g.rows = needed (g.bounds.maxY - g.bounds.minY) g.tile.height

@[simp] theorem create_bounds : (create bounds tile).bounds = bounds.canon := by
  simp only [create]
  split <;> rfl

@[simp] theorem create_tile : (create bounds tile).tile = tile.normalized := by
  simp only [create]
  split <;> rfl

theorem create_regular (small : (create bounds tile).InWords) (inside : bounds.canon.isEmpty = false)
    : (create bounds tile).Regular := by
  obtain ⟨left, top, right, bottom, wide, high⟩ := small
  have sides : 0 < tile.normalized.width ∧ 0 < tile.normalized.height := by
    simp only [TileSize.normalized, TileSize.defaultSide]
    omega
  have pixels := ordered_of_not_isEmpty inside
  simp only [create_bounds, create_tile] at left top right bottom wide high
  have across : WordSide bounds.canon.minX bounds.canon.maxX tile.normalized.width :=
    ⟨pixels.1, sides.1, by omega, left, by omega, by omega⟩
  have down : WordSide bounds.canon.minY bounds.canon.maxY tile.normalized.height :=
    ⟨pixels.2, sides.2, by omega, top, by omega, by omega⟩
  obtain ⟨-, -, -, last⟩ := across.needed_bounds
  obtain ⟨-, -, -, lowest⟩ := down.needed_bounds
  refine ⟨⟨by simpa using across, ?_⟩, ⟨by simpa using down, ?_⟩, ?_, ?_⟩
  · simp only [create_bounds, create_tile]
    omega
  · simp only [create_bounds, create_tile]
    omega
  · simpa [create, inside, width] using across.pieces_eq wide
  · simpa [create, inside, height] using down.pieces_eq high

section

variable (regular : g.Regular)
include regular

/-- A tile of a regular grid has the pixels of the bounds that fall into its column and row. -/
theorem Regular.contains_cell {column row} (column_low : 0 ≤ column)
    (column_high : column < g.columns) (row_low : 0 ≤ row) (row_high : row < g.rows)
    : (g.cell column row).contains x y = true
      ↔ g.bounds.contains x y = true ∧ (x - g.bounds.minX) / g.tile.width = column
        ∧ (y - g.bounds.minY) / g.tile.height = row := by
  rw [regular.columns] at column_high
  rw [regular.rows] at row_high
  have across := regular.across.mem_piece (v := x) column_low column_high
  have down := regular.down.mem_piece (v := y) row_low row_high
  rw [cell, contains_intersect, ← across, ← down]
  simp only [contains_iff]
  omega

theorem Regular.columns_pos : 0 < g.columns :=
  regular.columns ▸ regular.across.needed_bounds.1

theorem Regular.rows_pos : 0 < g.rows :=
  regular.rows ▸ regular.down.needed_bounds.1

section

variable (inside : g.bounds.contains x y = true)
include inside

theorem Regular.tile_bounds
    : (0 ≤ (x - g.bounds.minX) / g.tile.width ∧ (x - g.bounds.minX) / g.tile.width < g.columns)
      ∧ 0 ≤ (y - g.bounds.minY) / g.tile.height
      ∧ (y - g.bounds.minY) / g.tile.height < g.rows := by
  simp only [contains_iff] at inside
  rw [regular.columns, regular.rows]
  exact ⟨regular.across.piece_bounds (by omega) (by omega),
    regular.down.piece_bounds (by omega) (by omega)⟩

theorem Regular.number_bounds : 0 ≤ g.number x y ∧ g.number x y < g.rows * g.columns := by
  obtain ⟨across, down⟩ := regular.tile_bounds inside
  exact place_bounds down.1 down.2 across.1 across.2

theorem Regular.number_eq_iff {i} (some : 0 < g.columns)
    : g.number x y = i
      ↔ (x - g.bounds.minX) / g.tile.width = i % g.columns
        ∧ (y - g.bounds.minY) / g.tile.height = i / g.columns := by
  obtain ⟨across, -⟩ := regular.tile_bounds inside
  have unique := Int.ediv_emod_unique (a := i) (r := (x - g.bounds.minX) / g.tile.width)
    (q := (y - g.bounds.minY) / g.tile.height) some
  rw [number, Int.add_comm, Int.mul_comm]
  constructor
  · intro same
    obtain ⟨row, column⟩ := unique.mpr ⟨same, across⟩
    exact ⟨column.symm, row.symm⟩
  · rintro ⟨column, row⟩
    exact (unique.mp ⟨row.symm, column.symm⟩).1

end

end

/-- The tile with a number stands in the row that the quotient by the number of columns gives, and in the
column that the remainder gives.
-/
theorem tile?_of_pos (positive : 0 < g.columns) {i : Nat} (word : (i : Int) < 2 ^ 63)
    : g.tile? i = some (g.cell (i % g.columns) (i / g.columns)) := by
  have least : 0 ≤ (i : Int) / g.columns := Int.ediv_nonneg (by omega) (by omega)
  have most : (i : Int) / g.columns ≤ i := Int.ediv_le_self _ (by omega)
  rw [tile?, if_neg (by omega), Int.tmod_eq_emod_of_nonneg (by omega),
    Int.tdiv_eq_ediv_of_nonneg (by omega), wrap_eq_self (by omega) (by omega)]

/-- The number of tiles that are swept is at most the number of tiles there are. -/
theorem Regular.count_le (regular : g.Regular) : g.count ≤ g.rows * g.columns := by
  have least := Int.mul_pos regular.rows_pos regular.columns_pos
  rw [count, wrap, Int.bmod_def, Int.mul_comm]
  omega

theorem Regular.tile?_eq (regular : g.Regular) {i : Nat} (below : (i : Int) < g.count)
    : g.tile? i = some (g.cell (i % g.columns) (i / g.columns))
      ∧ (0 ≤ (i : Int) % g.columns ∧ (i : Int) % g.columns < g.columns)
      ∧ 0 ≤ (i : Int) / g.columns ∧ (i : Int) / g.columns < g.rows := by
  have positive := regular.columns_pos
  have most := regular.count_le
  have word := (wrap_bounds (g.columns * g.rows)).2
  rw [← count] at word
  have row_high : (i : Int) / g.columns < g.rows := Int.ediv_lt_of_lt_mul positive (by omega)
  exact ⟨tile?_of_pos positive (by omega), ⟨Int.emod_nonneg _ (by omega), Int.emod_lt_of_pos _ positive⟩,
    Int.ediv_nonneg (by omega) (by omega), row_high⟩

theorem Regular.contains_tile (regular : g.Regular) {i : Nat} (below : (i : Int) < g.count)
    : ∃ t, g.tile? i = some t
      ∧ (t.contains x y = true ↔ g.bounds.contains x y = true ∧ g.number x y = i) := by
  obtain ⟨found, ⟨column_low, column_high⟩, row_low, row_high⟩ := regular.tile?_eq below
  refine ⟨_, found, ?_⟩
  rw [regular.contains_cell column_low column_high row_low row_high]
  exact and_congr_right fun inside => (regular.number_eq_iff inside regular.columns_pos).symm

/-- The tile at a pixel is among those that are swept: the number of tiles, which is a word, reaches its
number.
-/
def sweeps (g : TileGrid) (x y : Int) : Bool :=
  g.number x y < g.count

/-- A pixel lies in one of the tiles if it is inside of the bounds and its tile is swept, else in none. -/
def Covering (g : TileGrid) : Prop :=
  ∀ x y, g.tiles.countP (·.contains x y)
    = if g.bounds.contains x y = true ∧ g.sweeps x y = true then 1 else 0

theorem Regular.covering (regular : g.Regular) : g.Covering := by
  intro x y
  have each : ∀ i ∈ List.range g.count.toNat,
      ((g.tile? i).map (·.contains x y)).getD false = true
        ↔ decide (g.bounds.contains x y = true ∧ g.number x y = i) = true := by
    intro i member
    have below := mem_range.mp member
    obtain ⟨t, found, contains⟩ := regular.contains_tile (x := x) (y := y) (i := i) (by omega)
    rw [found, Option.map_some, Option.getD_some, contains, decide_eq_true_eq]
  rw [tiles, countP_filterMap, countP_congr each]
  by_cases inside : g.bounds.contains x y = true
  · have least := (regular.number_bounds inside).1
    have here : ∀ i ∈ List.range g.count.toNat,
        decide (g.bounds.contains x y = true ∧ g.number x y = i) = true
          ↔ (i == (g.number x y).toNat) = true := by
      simp only [inside, true_and, decide_eq_true_eq, beq_iff_eq]
      omega
    rw [countP_congr here, ← count_eq_countP', count_range]
    exact if_congr (by simp only [inside, true_and, sweeps, decide_eq_true_eq]; omega) rfl rfl
  · simp [inside]

theorem tiles_create_of_isEmpty (empty : bounds.canon.isEmpty = true)
    : (create bounds tile).tiles = [] := by
  simp [tiles, count, create, empty, wrap]

theorem covering_create (small : (create bounds tile).InWords) : (create bounds tile).Covering := by
  cases empty : bounds.canon.isEmpty with
  | false => exact (create_regular small empty).covering
  | true =>
    intro x y
    simp [tiles_create_of_isEmpty empty, not_contains_of_isEmpty empty]

/-- If the number of its tiles is a word, a new grid is swept as a whole. -/
theorem sweeps_create (small : (create bounds tile).InWords)
    (few : (create bounds tile).columns * (create bounds tile).rows < 2 ^ 63)
    (inside : bounds.canon.contains x y = true)
    : (create bounds tile).sweeps x y = true := by
  have pixels : bounds.canon.isEmpty = false := by
    cases empty : bounds.canon.isEmpty with
    | false => rfl
    | true => exact nomatch inside.symm.trans (not_contains_of_isEmpty empty x y)
  have regular := create_regular small pixels
  have least := Int.mul_pos regular.columns_pos regular.rows_pos
  obtain ⟨-, below⟩ := regular.number_bounds (x := x) (y := y) (by simpa using inside)
  rw [sweeps, count, wrap_eq_self (by omega) (by omega), Int.mul_comm]
  exact decide_eq_true below

/-- The tiles list the pixels of the bounds that are swept, each of them once. -/
theorem Covering.pixels_perm (covering : g.Covering)
    : (g.tiles.flatMap pixels).Perm (g.bounds.pixels.filter fun (x, y) => g.sweeps x y) := by
  refine perm_iff_count.mpr fun (x, y) => ?_
  rw [count_flatMap_of_indicator fun t _ => t.count_pixels x y, covering x y,
    (g.bounds.nodup_pixels.filter _).count]
  exact if_congr (by rw [mem_filter, mem_pixels]) rfl rfl

end TileGrid

end MapAlgebra
