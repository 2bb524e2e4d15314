import MapAlgebra.Proofs.Tile.Partition

/-! When the tiles of a grid partition its bounds. Three results may leave the words: the sum that the
number of columns or rows is computed from, the end of the tiles in the last column or row, and the
number of all tiles. The tiles partition the bounds exactly if these results come to what is needed.
-/

namespace MapAlgebra

open List
open Rect

/-- No side of a tile is past the words. -/
structure TileSize.InWords (t : TileSize) : Prop where
  wide : t.width < 2 ^ 63
  high : t.height < 2 ^ 63

namespace TileGrid

variable {g : TileGrid} {bounds : Rect} {tile : TileSize} {x y : Int}

/-- The tiles cut the bounds into parts that are not empty and not too large, row by row. -/
structure Partitions (g : TileGrid) : Prop where
  nonempty : ∀ t ∈ g.tiles, t.isEmpty = false
  limited : ∀ t ∈ g.tiles, t.maxX - t.minX ≤ g.tile.width ∧ t.maxY - t.minY ≤ g.tile.height
  disjoint : g.tiles.Pairwise fun t t' =>
    ∀ x y, ¬ (t.contains x y = true ∧ t'.contains x y = true)
  rowMajor : g.tiles.Pairwise fun t t' =>
    t.minY < t'.minY ∨ t.minY = t'.minY ∧ t.minX < t'.minX
  union : ∀ x y, (∃ t ∈ g.tiles, t.contains x y = true) ↔ g.bounds.contains x y = true

/-- How many columns the bounds need. -/
def neededColumns (g : TileGrid) : Int :=
  needed (g.bounds.maxX - g.bounds.minX) g.tile.width

/-- How many rows the bounds need. -/
def neededRows (g : TileGrid) : Int :=
  needed (g.bounds.maxY - g.bounds.minY) g.tile.height

/-- The grid counts the tiles that its bounds need, and the ends of the last ones are words. When there
is one row, the number of columns may be the negative of what is needed.
-/
structure Exact (g : TileGrid) : Prop where
  count : g.count = g.neededColumns * g.neededRows
  columns : g.columns = g.neededColumns ∨ g.columns = -g.neededColumns ∧ g.neededRows = 1
  right : g.bounds.minX + g.neededColumns * g.tile.width < 2 ^ 63
  bottom : g.bounds.minY + g.neededRows * g.tile.height < 2 ^ 63

theorem mem_tiles {t} : t ∈ g.tiles ↔ ∃ i : Nat, (i : Int) < g.count ∧ g.tile? i = some t := by
  simp only [tiles, mem_filterMap, mem_range]
  exact exists_congr fun i => and_congr_left fun _ => by omega

theorem pairwise_tiles {R}
    (each : ∀ (i j : Nat) (t t' : Rect), i < j → (j : Int) < g.count → g.tile? i = some t
      → g.tile? j = some t' → R t t')
    : g.tiles.Pairwise R := by
  refine pairwise_filterMap.mpr (pairwise_lt_range.imp_of_mem ?_)
  intro i j _ last before t found t' found'
  have inside := mem_range.mp last
  exact each i j t t' before (by omega) found found'

/-- A tile starts where its column and row say, and ends with its sides or with the bounds. -/
theorem Regular.cell_eq (regular : g.Regular) {column row} (column_low : 0 ≤ column)
    (column_high : column < g.columns) (row_low : 0 ≤ row) (row_high : row < g.rows)
    : g.cell column row
      = { minX := g.bounds.minX + column * g.tile.width
          minY := g.bounds.minY + row * g.tile.height
          maxX := min (g.bounds.minX + (column + 1) * g.tile.width) g.bounds.maxX
          maxY := min (g.bounds.minY + (row + 1) * g.tile.height) g.bounds.maxY } := by
  rw [regular.columns] at column_high
  rw [regular.rows] at row_high
  obtain ⟨left, inside, starts⟩ := regular.across.piece_start column_low column_high
  obtain ⟨top, inside', starts'⟩ := regular.down.piece_start row_low row_high
  have ends := regular.across.piece_stop column_high
  have ends' := regular.down.piece_stop row_high
  obtain ⟨-, positive, -, lower, -⟩ := regular.across.toWordSide
  obtain ⟨-, positive', -, lower', -⟩ := regular.down.toWordSide
  rw [Int.add_mul, Int.one_mul, ← Int.add_assoc] at ends ends'
  have pixels : Rect.isEmpty
      { minX := g.bounds.minX + column * g.tile.width
        minY := g.bounds.minY + row * g.tile.height
        maxX := min (g.bounds.minX + (column + 1) * g.tile.width) g.bounds.maxX
        maxY := min (g.bounds.minY + (row + 1) * g.tile.height) g.bounds.maxY } = false := by
    simp only [Rect.isEmpty, Bool.or_eq_false_iff, decide_eq_false_iff_not, Int.add_mul]
    omega
  simp only [cell, starts, starts', wrap_eq_self (show _ ≤ _ by omega) ends,
    wrap_eq_self (show _ ≤ _ by omega) ends', Rect.intersect,
    Int.max_eq_left (show g.bounds.minX ≤ g.bounds.minX + column * g.tile.width by omega),
    Int.max_eq_left (show g.bounds.minY ≤ g.bounds.minY + row * g.tile.height by omega)]
  simp only [Int.add_mul, Int.one_mul, ← Int.add_assoc] at pixels ⊢
  exact if_neg (Bool.eq_false_iff.mp pixels)

/-- A grid with as many columns and rows as its bounds need partitions them, if it counts all tiles. -/
theorem Regular.partitions (regular : g.Regular) (all : g.count = g.rows * g.columns)
    : g.Partitions := by
  have positive := regular.across.positive
  have positive' := regular.down.positive
  have each (t : Rect) (member : t ∈ g.tiles)
      : t.isEmpty = false
        ∧ t.maxX - t.minX ≤ g.tile.width ∧ t.maxY - t.minY ≤ g.tile.height := by
    obtain ⟨i, below, found⟩ := mem_tiles.mp member
    obtain ⟨here, columns, rows⟩ := regular.tile?_eq below
    cases here.symm.trans found
    rw [regular.cell_eq columns.1 columns.2 rows.1 rows.2]
    obtain ⟨-, inside, -⟩ := regular.across.piece_start columns.1 (regular.columns ▸ columns.2)
    obtain ⟨-, inside', -⟩ := regular.down.piece_start rows.1 (regular.rows ▸ rows.2)
    simp only [Rect.isEmpty, Bool.or_eq_false_iff, decide_eq_false_iff_not, Int.add_mul]
    omega
  refine ⟨fun t member => (each t member).1, fun t member => (each t member).2, ?_, ?_,
    fun x y => ?_⟩
  · -- A pixel tells the number of its tile, so tiles of different numbers share none.
    refine pairwise_tiles fun i j t t' before last found found' x y shared => ?_
    obtain ⟨u, here, number⟩ := regular.contains_tile (x := x) (y := y) (i := i) (by omega)
    obtain ⟨u', here', number'⟩ := regular.contains_tile (x := x) (y := y) (i := j) (by omega)
    cases here.symm.trans found
    cases here'.symm.trans found'
    have same := (number.mp shared.1).2.symm.trans (number'.mp shared.2).2
    omega
  · -- The number of a tile is split into its row and its column, and rows come first.
    refine pairwise_tiles fun i j t t' before last found found' => ?_
    obtain ⟨here, columns, rows⟩ := regular.tile?_eq (i := i) (by omega)
    obtain ⟨here', columns', rows'⟩ := regular.tile?_eq (i := j) (by omega)
    cases here.symm.trans found
    cases here'.symm.trans found'
    rw [regular.cell_eq columns.1 columns.2 rows.1 rows.2,
      regular.cell_eq columns'.1 columns'.2 rows'.1 rows'.2]
    have split := Int.mul_ediv_add_emod i g.columns
    have split' := Int.mul_ediv_add_emod j g.columns
    have ordered : (i : Int) / g.columns ≤ j / g.columns :=
      Int.ediv_le_ediv regular.columns_pos (by omega)
    rcases Int.lt_or_eq_of_le ordered with above | level
    · exact Or.inl (Int.add_lt_add_left (Int.mul_lt_mul_of_pos_right above positive') _)
    · rw [level] at split ⊢
      exact Or.inr ⟨rfl, Int.add_lt_add_left (Int.mul_lt_mul_of_pos_right (by omega) positive) _⟩
  · constructor
    · rintro ⟨t, member, inside⟩
      obtain ⟨i, below, found⟩ := mem_tiles.mp member
      obtain ⟨u, here, number⟩ := regular.contains_tile (x := x) (y := y) (i := i) (by omega)
      cases here.symm.trans found
      exact (number.mp inside).1
    · intro inside
      obtain ⟨low, high⟩ := regular.number_bounds inside
      obtain ⟨i, number⟩ := Int.eq_ofNat_of_zero_le low
      obtain ⟨t, found, contains⟩ := regular.contains_tile (x := x) (y := y) (i := i) (by omega)
      exact ⟨t, mem_tiles.mpr ⟨i, by omega, found⟩, contains.mpr ⟨inside, number⟩⟩

/-- A grid over a rectangle of words with pixels inside. Whatever its number of columns is, it is the one
that is needed, or not positive and no further from zero.
-/
structure Measured (g : TileGrid) : Prop where
  across : WordSide g.bounds.minX g.bounds.maxX g.tile.width
  down : WordSide g.bounds.minY g.bounds.maxY g.tile.height
  columns : g.columns = g.neededColumns ∨ g.columns ≤ 0 ∧ -g.columns ≤ g.neededColumns

namespace Measured

theorem of_create (words : bounds.canon.InWords) (sides : tile.InWords)
    (inside : bounds.canon.isEmpty = false)
    : (create bounds tile).Measured := by
  obtain ⟨wide, high⟩ := sides
  have across : WordSide bounds.canon.minX bounds.canon.maxX tile.normalized.width := by
    refine ⟨(ordered_of_not_isEmpty inside).1, ?_, ?_, words.left, words.right, words.wide⟩
    all_goals
      simp only [TileSize.normalized, TileSize.defaultSide]
      omega
  have down : WordSide bounds.canon.minY bounds.canon.maxY tile.normalized.height := by
    refine ⟨(ordered_of_not_isEmpty inside).2, ?_, ?_, words.top, words.bottom, words.high⟩
    all_goals
      simp only [TileSize.normalized, TileSize.defaultSide]
      omega
  refine ⟨by simpa using across, by simpa using down, ?_⟩
  simpa [create, inside, neededColumns, width] using across.pieces_cases

section

variable (measured : g.Measured)
include measured

/-- A tile in one of the columns and rows that are needed has the pixels of the bounds that fall into
them, if its ends are words; else it has none.
-/
theorem contains_cell {column row} (column_low : 0 ≤ column)
    (column_high : column < g.neededColumns) (row_low : 0 ≤ row) (row_high : row < g.neededRows)
    : (g.cell column row).contains x y = true
      ↔ g.bounds.contains x y = true
        ∧ ((x - g.bounds.minX) / g.tile.width = column
          ∧ g.bounds.minX + (column + 1) * g.tile.width < 2 ^ 63)
        ∧ (y - g.bounds.minY) / g.tile.height = row
        ∧ g.bounds.minY + (row + 1) * g.tile.height < 2 ^ 63 := by
  have across := measured.across.mem_piece_iff (v := x) column_low column_high
  have down := measured.down.mem_piece_iff (v := y) row_low row_high
  rw [cell, contains_intersect, ← across, ← down]
  simp only [contains_iff]
  omega

/-- The last pixel of the bounds falls into the last column and row that are needed. -/
theorem last_pixel
    : g.bounds.contains (g.bounds.maxX - 1) (g.bounds.maxY - 1) = true
      ∧ (g.bounds.maxX - 1 - g.bounds.minX) / g.tile.width = g.neededColumns - 1
      ∧ (g.bounds.maxY - 1 - g.bounds.minY) / g.tile.height = g.neededRows - 1 := by
  have wide := measured.across.ordered
  have high := measured.down.ordered
  refine ⟨?_, measured.across.last_piece, measured.down.last_piece⟩
  simp only [contains_iff]
  omega

/-- The row after those that are needed has no pixels, if the end of the last one is a word. -/
theorem not_contains_after (column : Int)
    (bottom : g.bounds.minY + g.neededRows * g.tile.height < 2 ^ 63)
    : ¬ (g.cell column g.neededRows).contains x y = true := by
  obtain ⟨-, -, reach, -⟩ := measured.down.needed_bounds
  have lower := measured.down.lower
  have ordered := measured.down.ordered
  rw [← neededRows] at reach
  rw [cell, contains_intersect, wrap_eq_self (n := g.bounds.minY + _) (by omega) bottom]
  simp only [contains_iff]
  omega

theorem not_contains_before (column) : ¬ (g.cell column (-1)).contains x y = true := by
  obtain ⟨ordered, -, -, lower, upper, -⟩ := measured.down
  have ends : wrap (wrap (g.bounds.minY + -1 * g.tile.height) + g.tile.height) = g.bounds.minY := by
    rw [wrap, wrap, Int.bmod_add_bmod, Int.bmod_def]
    omega
  rw [cell, contains_intersect, ends]
  simp only [contains_iff]
  omega

end

end Measured

theorem count_lt (g : TileGrid) : g.count < 2 ^ 63 :=
  (wrap_bounds _).2

/-- When the number of columns is negative, tiles are numbered from the first row upwards. -/
theorem tile?_of_neg {size} (columns : g.columns = -size) (positive : 0 < size) {i : Nat}
    (word : (i : Int) < 2 ^ 63)
    : g.tile? i = some (g.cell (i % size) (-(i / size))) := by
  have least : 0 ≤ (i : Int) / size := Int.ediv_nonneg (by omega) (by omega)
  have most : (i : Int) / size ≤ i := Int.ediv_le_self _ (by omega)
  rw [tile?, if_neg (by omega), columns, Int.tmod_neg, Int.tdiv_neg,
    Int.tmod_eq_emod_of_nonneg (by omega), Int.tdiv_eq_ediv_of_nonneg (by omega),
    wrap_eq_self (by omega) (by omega)]

namespace Partitions

variable (partitions : g.Partitions)
include partitions

theorem exists_pixel {t} (member : t ∈ g.tiles) : ∃ x y, t.contains x y = true := by
  obtain ⟨wide, high⟩ := ordered_of_not_isEmpty (partitions.nonempty t member)
  refine ⟨t.minX, t.minY, ?_⟩
  simp only [contains_iff]
  omega

theorem last_tile (measured : g.Measured)
    : ∃ (i : Nat) (t : Rect), (i : Int) < g.count ∧ g.tile? i = some t
      ∧ t.contains (g.bounds.maxX - 1) (g.bounds.maxY - 1) = true := by
  obtain ⟨t, member, inside⟩ := (partitions.union _ _).mpr measured.last_pixel.1
  obtain ⟨i, below, found⟩ := mem_tiles.mp member
  exact ⟨i, t, below, found, inside⟩

/-- In the columns that are needed, a tile that is counted has a pixel. -/
theorem exists_pixel_cell (columns : g.columns = g.neededColumns) (column row : Int)
    (column_low : 0 ≤ column) (column_high : column < g.neededColumns) (row_low : 0 ≤ row)
    (below : column + g.neededColumns * row < g.count)
    : ∃ x y, (g.cell column row).contains x y = true := by
  have word := g.count_lt
  have least : 0 ≤ g.neededColumns * row := Int.mul_nonneg (by omega) row_low
  obtain ⟨i, number⟩ := Int.eq_ofNat_of_zero_le (show 0 ≤ column + g.neededColumns * row by omega)
  have found := tile?_of_pos (g := g) (i := i) (by omega) (by omega)
  obtain ⟨row_eq, column_eq⟩ := (Int.ediv_emod_unique (b := g.neededColumns) (by omega)).mpr
    ⟨number, column_low, column_high⟩
  rw [columns, row_eq, column_eq] at found
  exact partitions.exists_pixel (mem_tiles.mpr ⟨i, by omega, found⟩)

/-- With the columns that are needed, a partition counts the tiles that are needed: the last pixel lies
in one that is counted, and the row after the last one has no pixels.
-/
theorem exact_of_pos (measured : g.Measured) (columns : g.columns = g.neededColumns)
    : g.Exact := by
  have some : 0 < g.neededColumns := measured.across.needed_bounds.1
  have some' : 0 < g.neededRows := measured.down.needed_bounds.1
  have least : g.neededColumns * g.neededRows ≤ g.count := by
    rcases Int.lt_or_le g.count (g.neededColumns * g.neededRows) with few | enough
    · have word := g.count_lt
      obtain ⟨i, t, below, found, inside⟩ := partitions.last_tile measured
      obtain ⟨-, column, row⟩ := measured.last_pixel
      have row_high : (i : Int) / g.neededColumns < g.neededRows :=
        Int.ediv_lt_of_lt_mul some (by rw [Int.mul_comm]; omega)
      rw [tile?_of_pos (by omega) (by omega), columns] at found
      cases found
      obtain ⟨-, ⟨here, -⟩, here', -⟩ := (measured.contains_cell (Int.emod_nonneg _ (by omega))
        (Int.emod_lt_of_pos _ some) (Int.ediv_nonneg (by omega) (by omega)) row_high).mp inside
      have number := Int.mul_ediv_add_emod i g.neededColumns
      rw [← here, ← here', column, row, Int.mul_sub, Int.mul_one] at number
      omega
    · exact enough
  have ends : g.bounds.minX + g.neededColumns * g.tile.width < 2 ^ 63
      ∧ g.bounds.minY + g.neededRows * g.tile.height < 2 ^ 63 := by
    obtain ⟨x, y, inside⟩ := partitions.exists_pixel_cell columns (g.neededColumns - 1)
      (g.neededRows - 1) (by omega) (by omega) (by omega)
      (by rw [Int.mul_sub, Int.mul_one]; omega)
    obtain ⟨-, ⟨-, right⟩, -, bottom⟩ := (measured.contains_cell (by omega) (by omega) (by omega)
      (by omega)).mp inside
    rw [Int.sub_add_cancel] at right bottom
    exact ⟨right, bottom⟩
  refine ⟨Int.le_antisymm ?_ least, Or.inl columns, ends.1, ends.2⟩
  by_contra more
  obtain ⟨x, y, inside⟩ := partitions.exists_pixel_cell columns 0 g.neededRows (by omega) some
    (by omega) (by omega)
  exact measured.not_contains_after 0 ends.2 inside

/-- With fewer columns than none, a partition has one row: the row before the first one has no pixels,
and so the last pixel lies in the first row.
-/
theorem exact_of_nonpos (measured : g.Measured) (none : g.columns ≤ 0)
    (fewer : -g.columns ≤ g.neededColumns)
    : g.Exact := by
  have word := g.count_lt
  obtain ⟨i, t, below, found, inside⟩ := partitions.last_tile measured
  have negative : 0 < -g.columns := by
    by_contra zero
    rw [tile?, if_pos (by omega)] at found
    cases found
  have most : g.count ≤ -g.columns := by
    by_contra more
    obtain ⟨n, number⟩ := Int.eq_ofNat_of_zero_le (Int.le_of_lt negative)
    have first : (n : Int) % -g.columns = 0 ∧ (n : Int) / -g.columns = 1 := by
      rw [← number, Int.emod_self, Int.ediv_self (by omega)]
      exact ⟨rfl, rfl⟩
    have found := tile?_of_neg (g := g) (i := n) (Int.neg_neg _).symm negative (by omega)
    rw [first.1, first.2] at found
    obtain ⟨x, y, inside⟩ := partitions.exists_pixel (mem_tiles.mpr ⟨n, by omega, found⟩)
    exact measured.not_contains_before 0 inside
  obtain ⟨-, column, row⟩ := measured.last_pixel
  rw [tile?_of_neg (Int.neg_neg _).symm negative (by omega),
    Int.emod_eq_of_lt (by omega) (by omega), Int.ediv_eq_zero_of_lt (by omega) (by omega)] at found
  cases found
  have some' : 0 < g.neededRows := measured.down.needed_bounds.1
  obtain ⟨-, ⟨here, right⟩, here', bottom⟩ := (measured.contains_cell (by omega) (by omega) (by omega)
    (by omega)).mp inside
  have rows : g.neededRows = 1 := by omega
  have columns : g.neededColumns = i + 1 := by omega
  refine ⟨?_, Or.inr ⟨by omega, rows⟩, columns ▸ right, rows ▸ bottom⟩
  rw [rows, Int.mul_one]
  omega

theorem exact (measured : g.Measured) : g.Exact :=
  measured.columns.elim (partitions.exact_of_pos measured)
    fun nonpos => partitions.exact_of_nonpos measured nonpos.1 nonpos.2

end Partitions

/-- The grid with the columns and rows that its bounds need. -/
def squared (g : TileGrid) : TileGrid :=
  { g with columns := g.neededColumns, rows := g.neededRows }

namespace Exact

variable (exact : g.Exact)
include exact

theorem regular_squared (measured : g.Measured) : g.squared.Regular :=
  ⟨⟨measured.across, exact.right⟩, ⟨measured.down, exact.bottom⟩, rfl, rfl⟩

theorem count_squared : g.squared.count = g.count := by
  have counted : g.squared.count = wrap g.count := congrArg wrap exact.count.symm
  rw [counted]
  exact wrap_eq_self (wrap_bounds _).1 (wrap_bounds _).2

section

variable (measured : g.Measured)
include measured

/-- With one row, the tiles are the same for both signs of the number of columns. -/
theorem tiles_squared : g.squared.tiles = g.tiles := by
  rw [tiles, tiles, exact.count_squared]
  refine filterMap_congr fun i member => ?_
  rcases exact.columns with columns | ⟨columns, rows⟩
  · rw [tile?, tile?, columns]
    rfl
  · have word := g.count_lt
    have some : 0 < g.neededColumns := measured.across.needed_bounds.1
    have count := exact.count
    rw [rows, Int.mul_one] at count
    have below := mem_range.mp member
    rw [tile?_of_neg columns some (by omega), tile?_of_pos some (by omega)]
    simp only [squared, cell, Int.ediv_eq_zero_of_lt (show 0 ≤ (i : Int) by omega)
      (show (i : Int) < g.neededColumns by omega), Int.neg_zero]

theorem partitions : g.Partitions := by
  obtain ⟨nonempty, limited, disjoint, rowMajor, union⟩ :=
    (exact.regular_squared measured).partitions
      (by rw [exact.count_squared, exact.count, Int.mul_comm]; rfl)
  rw [exact.tiles_squared measured] at nonempty limited disjoint rowMajor union
  exact ⟨nonempty, limited, disjoint, rowMajor, union⟩

theorem number_squared_lt (inside : g.bounds.contains x y = true)
    : g.squared.number x y < g.count := by
  rw [exact.count, Int.mul_comm]
  exact ((exact.regular_squared measured).number_bounds inside).2

theorem sweeps (inside : g.bounds.contains x y = true) : g.sweeps x y = true := by
  have number : g.number x y = g.squared.number x y := by
    rcases exact.columns with columns | ⟨columns, rows⟩
    · rw [number, columns]
      rfl
    · have row := ((exact.regular_squared measured).tile_bounds inside).2
      simp only [squared, rows] at row
      have first : (y - g.bounds.minY) / g.tile.height = 0 := by omega
      simp only [number, squared, first, Int.zero_mul]
  exact decide_eq_true (number ▸ exact.number_squared_lt measured inside)

theorem covering : g.Covering := by
  intro x y
  have covered := (exact.regular_squared measured).covering x y
  rw [exact.tiles_squared measured] at covered
  rw [covered]
  refine if_congr (and_congr_right fun inside => ?_) rfl rfl
  have below := exact.number_squared_lt measured inside
  rw [exact.sweeps measured inside, TileGrid.sweeps, exact.count_squared, decide_eq_true below]

end

end Exact

/-- A grid without pixels has no tiles, and so partitions its bounds. -/
theorem partitions_of_isEmpty (empty : bounds.canon.isEmpty = true)
    : (create bounds tile).Partitions := by
  have none : (create bounds tile).tiles = [] := tiles_create_of_isEmpty empty
  refine ⟨?_, ?_, ?_, ?_, ?_⟩
  all_goals simp [none, not_contains_of_isEmpty empty]

/-- A new grid partitions its bounds if they are empty or have the tiles that are needed. -/
theorem partitions_create_iff (words : bounds.canon.InWords) (sides : tile.InWords)
    : (create bounds tile).Partitions
      ↔ bounds.canon.isEmpty = true ∨ (create bounds tile).Exact := by
  cases empty : bounds.canon.isEmpty with
  | true => exact iff_of_true (partitions_of_isEmpty empty) (Or.inl rfl)
  | false =>
    have measured := Measured.of_create words sides empty
    rw [Bool.false_eq_true, false_or]
    exact ⟨fun partitions => partitions.exact measured, fun exact => exact.partitions measured⟩

/-- The pixels of a partition each lie in one tile, which is counted. -/
theorem Partitions.covering (partitions : (create bounds tile).Partitions)
    (words : bounds.canon.InWords) (sides : tile.InWords)
    : (create bounds tile).Covering
      ∧ ∀ x y, (create bounds tile).bounds.contains x y = true
        → (create bounds tile).sweeps x y = true := by
  cases empty : bounds.canon.isEmpty with
  | true =>
    refine ⟨fun x y => ?_, fun x y inside => ?_⟩
    · simp [tiles_create_of_isEmpty empty, not_contains_of_isEmpty empty]
    · rw [create_bounds, not_contains_of_isEmpty empty] at inside
      cases inside
  | false =>
    have measured := Measured.of_create words sides empty
    have exact := partitions.exact measured
    exact ⟨exact.covering measured, fun x y => exact.sweeps measured⟩

/-- A new grid partitions its bounds if no sum of bounds and sides leaves the words, and the number of
tiles does not either.
-/
theorem partitions_create (small : (create bounds tile).InWords)
    (few : (create bounds tile).neededColumns * (create bounds tile).neededRows < 2 ^ 63)
    : (create bounds tile).Partitions := by
  cases empty : bounds.canon.isEmpty with
  | true => exact partitions_of_isEmpty empty
  | false =>
    have regular := create_regular small empty
    have some := Int.mul_pos regular.columns_pos regular.rows_pos
    refine regular.partitions ?_
    rw [neededColumns, neededRows, ← regular.columns, ← regular.rows] at few
    rw [count, wrap_eq_self (by omega) few, Int.mul_comm]

end TileGrid

end MapAlgebra
