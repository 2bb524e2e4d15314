import MapAlgebra.Proofs.Codec.Rules
import MapAlgebra.Proofs.Sample.Narrowing
import MapAlgebra.Proofs.Tile.Partition
import MapAlgebra.Raster.Container

/-! The container keeps a raster as it is: its bounds, its bands and every bit of its samples. -/

namespace MapAlgebra

open List
open Cbor

namespace Cbor

open FloatFormat

theorem toInt?_ofInt {n} (low : -2 ^ 63 ≤ n) (high : n < 2 ^ 63) : (ofInt n).toInt? = some n := by
  unfold ofInt
  split
  · rw [toInt?, if_pos (by omega)]
    exact congrArg some (by omega)
  · rw [toInt?, if_pos (by omega)]
    exact congrArg some (by omega)

theorem readable_ofInt {n} (low : -2 ^ 63 ≤ n) (high : n < 2 ^ 63) (levels)
    : Readable levels (ofInt n) := by
  unfold ofInt
  split
  · exact .negative (by omega)
  · exact .unsigned (by omega)

/-- The item has the value of the sample in the narrowest format that has it, and what is not a number
in the widest.
-/
inductive Shortest (s : Sample) : Cbor → Prop where
  | half {p} (number : FloatFormat.half.IsNumber p) (value : FloatFormat.half.widen p = s)
    : Shortest s (half p)
  | single {p} (number : FloatFormat.single.IsNumber p) (value : FloatFormat.single.widen p = s)
    (notHalf : ∀ q, FloatFormat.half.IsNumber q → FloatFormat.half.widen q ≠ s)
    : Shortest s (single p)
  | double (notHalf : ∀ q, FloatFormat.half.IsNumber q → FloatFormat.half.widen q ≠ s)
    (notSingle : ∀ q, FloatFormat.single.IsNumber q → FloatFormat.single.widen q ≠ s)
    : Shortest s (double s.bits.toNat)

theorem shortest_ofSample (s) : Shortest s (ofSample s) := by
  have absent {f : FloatFormat} (within : f.Within) (none : f.narrow? s = none) (q : Nat)
      (number : f.IsNumber q)
      : f.widen q ≠ s := by
    intro value
    rw [(narrow?_eq_some_iff within).mpr ⟨number, value⟩] at none
    exact nomatch none
  unfold ofSample
  split
  · next p found =>
    obtain ⟨number, value⟩ := (narrow?_eq_some_iff half_within).mp found
    exact .half number value
  · next noHalf =>
    split
    · next p found =>
      obtain ⟨number, value⟩ := (narrow?_eq_some_iff single_within).mp found
      exact .single number value (absent half_within noHalf)
    · next noSingle => exact .double (absent half_within noHalf) (absent single_within noSingle)

theorem Shortest.toSample? {s item} (shortest : Shortest s item) : item.toSample? = some s := by
  cases shortest with
  | half number value => exact congrArg some value
  | single number value notHalf => exact congrArg some value
  | double notHalf notSingle =>
    show some (Sample.mk s.bits.toNat.toUInt64) = some s
    rw [Nat.toUInt64, UInt64.ofNat_toNat]

theorem Shortest.readable {s item} (shortest : Shortest s item) (levels)
    : Readable levels item := by
  cases shortest with
  | half number value => exact .half number.1
  | single number value notHalf => exact .single number.1
  | double notHalf notSingle => exact .double s.bits.toNat_lt

theorem toSamples?_array (samples) : (array (samples.map ofSample)).toSamples? = some samples := by
  rw [toSamples?]
  induction samples with
  | nil => rfl
  | cons s samples ih => simp [(shortest_ofSample s).toSample?, ih]

end Cbor

theorem Rect.InWords.extents {r : Rect} (words : r.InWords) (ordered : r.canon = r)
    : 0 ≤ r.width ∧ r.width < 2 ^ 63 ∧ wrap (r.minX + r.width) = r.maxX
      ∧ 0 ≤ r.height ∧ r.height < 2 ^ 63 ∧ wrap (r.minY + r.height) = r.maxY := by
  obtain ⟨left, top, right, bottom, wide, high⟩ := words
  have order := r.canon_ordered
  rw [ordered] at order
  have width : r.width = r.maxX - r.minX := wrap_eq_self (by omega) wide
  have height : r.height = r.maxY - r.minY := wrap_eq_self (by omega) high
  rw [width, height, wrap_eq_self (n := r.minX + _) (by omega) (by omega),
    wrap_eq_self (n := r.minY + _) (by omega) (by omega)]
  omega

/-- The corners of a rectangle are words. -/
structure Rect.CornersInWords (r : Rect) : Prop where
  left : -2 ^ 63 ≤ r.minX ∧ r.minX < 2 ^ 63
  top : -2 ^ 63 ≤ r.minY ∧ r.minY < 2 ^ 63
  right : -2 ^ 63 ≤ r.maxX ∧ r.maxX < 2 ^ 63
  bottom : -2 ^ 63 ≤ r.maxY ∧ r.maxY < 2 ^ 63

theorem Rect.InWords.corners {r : Rect} (words : r.InWords) (ordered : r.canon = r)
    : r.CornersInWords := by
  obtain ⟨left, top, right, bottom, -, -⟩ := words
  have order := r.canon_ordered
  rw [ordered] at order
  exact ⟨by omega, by omega, by omega, by omega⟩

namespace Container

variable {r : Raster}

/-- What stands in a record in front of the samples. -/
def heading (r : Raster) : List Cbor :=
  [.unsigned 1, .ofInt currentVersion, .unsigned 2, .ofInt r.bounds.minX,
    .unsigned 3, .ofInt r.bounds.minY, .unsigned 4, .ofInt r.bounds.width,
    .unsigned 5, .ofInt r.bounds.height, .unsigned 6, .ofInt r.bands, .unsigned 7]

theorem record_eq (r)
    : record r = .map (heading r ++ [.array (r.samples.toList.map ofSample)]) :=
  rfl

theorem readable_heading (corners : r.bounds.CornersInWords) (bands : (r.bands : Int) < 2 ^ 63)
    (levels)
    : ∀ item ∈ heading r, Readable levels item := by
  have number {n : Int} (low : -2 ^ 63 ≤ n) (high : n < 2 ^ 63)
      : Readable levels (.ofInt n) := readable_ofInt low high levels
  have width := wrap_bounds (r.bounds.maxX - r.bounds.minX)
  have height := wrap_bounds (r.bounds.maxY - r.bounds.minY)
  simp only [heading, forall_mem_cons, not_mem_nil, false_implies, implies_true, and_true]
  exact ⟨.unsigned (by omega), number (by decide) (by decide), .unsigned (by omega),
    number corners.left.1 corners.left.2, .unsigned (by omega),
    number corners.top.1 corners.top.2, .unsigned (by omega), number width.1 width.2,
    .unsigned (by omega), number height.1 height.2, .unsigned (by omega),
    number (by omega) bands, .unsigned (by omega)⟩

theorem readable_samples {samples : List Sample} (few : samples.length ≤ maxElements) (levels)
    : Readable (levels + 1) (.array (samples.map ofSample)) := by
  refine .array (by simpa using few) fun item member => ?_
  obtain ⟨s, -, rfl⟩ := mem_map.mp member
  exact (shortest_ofSample s).readable levels

theorem readable_record (corners : r.bounds.CornersInWords)
    (bands : (r.bands : Int) < 2 ^ 63) (few : r.samples.size ≤ maxElements)
    : Readable maxLevels (record r) := by
  have samples : Readable 31 (.array (r.samples.toList.map ofSample)) :=
    readable_samples few 30
  rw [record_eq]
  refine Readable.map (show _ = 2 * 7 from rfl) (by decide) fun item member => ?_
  rcases mem_append.mp member with front | last
  · exact readable_heading corners bands 31 item front
  · obtain rfl := mem_singleton.mp last
    exact samples

/-- The fields that the record of a raster has. -/
def Fields.ofRaster (r : Raster) : Fields where
  version := currentVersion
  minX := r.bounds.minX
  minY := r.bounds.minY
  width := r.bounds.width
  height := r.bounds.height
  bands := r.bands
  samples := r.samples.toList

theorem ofItem?_record (corners : r.bounds.CornersInWords) (bands : (r.bands : Int) < 2 ^ 63)
    : Fields.ofItem? (record r) = some (.ofRaster r) := by
  have width := wrap_bounds (r.bounds.maxX - r.bounds.minX)
  have height := wrap_bounds (r.bounds.maxY - r.bounds.minY)
  have number {n : Int} (low : -2 ^ 63 ≤ n) (high : n < 2 ^ 63) := toInt?_ofInt low high
  have samples := toSamples?_array r.samples.toList
  simp [record, Fields.ofRaster, Fields.ofItem?, toRecord?, pairs, isKey, field,
    fieldNumber?, samples, number (n := currentVersion) (by decide) (by decide),
    number corners.left.1 corners.left.2, number corners.top.1 corners.top.2,
    number (n := r.bounds.width) width.1 width.2, number (n := r.bounds.height) height.1 height.2,
    number (n := r.bands) (by omega) bands]

/-- A record with as many samples as an array may have items is read as its fields tell. -/
theorem decode_of_few (corners : r.bounds.CornersInWords) (bands : (r.bands : Int) < 2 ^ 63)
    (few : r.samples.size ≤ maxElements)
    : decode (encode r) = (Fields.ofRaster r).raster := by
  rw [decode, encode, decode_encode (readable_record corners bands few), Option.bind_some,
    ofItem?_record corners bands]

/-- The product of three extents as the container takes it is the one that a new raster takes. -/
theorem wrap_product (a b c : Int) : wrap (a * b * c) = wrap (wrap (a * b) * c) := by
  rw [wrap, wrap, wrap, Int.bmod_mul_bmod]

/-- The fields of a raster with the shape of a new one make it again, with the tile that nobody
chose.
-/
theorem raster_of_fields {bounds bands blank samples} (made : Raster.create bounds bands = .ok blank)
    (words : blank.bounds.InWords) (count : samples.size = blank.samples.size) (tile)
    : (Fields.ofRaster { blank with samples, tile }).raster = .ok { blank with samples } := by
  obtain ⟨some, canonical, few, size, -⟩ := Raster.create_eq_ok made
  have ordered : blank.bounds.canon = blank.bounds := by rw [canonical, Rect.canon_canon]
  have again : Raster.create blank.bounds blank.bands = .ok blank := by
    rw [few, ← made]
    simp only [Raster.create, canonical, Rect.canon_canon]
  obtain ⟨width, -, right, height, -, bottom⟩ := words.extents ordered
  have bounds : Rect.ofCorners blank.bounds.minX blank.bounds.minY blank.bounds.maxX
      blank.bounds.maxY = blank.bounds := ordered
  unfold Fields.raster Fields.ofRaster
  dsimp only
  have shaped : ¬ (decide (blank.bounds.width < 0) || decide (blank.bounds.height < 0)
      || decide ((blank.bands : Int) < 1)) = true := by
    simp only [Bool.or_eq_true, decide_eq_true_eq]
    omega
  have counted : ¬ (samples.toList.length : Int)
      ≠ wrap (blank.bounds.width * blank.bounds.height * blank.bands) := by
    rw [not_not, wrap_product, ← Raster.sampleCount, few, ← size, Array.length_toList, count]
  have all : samples.toList.take blank.samples.size = samples.toList := by
    rw [← count, ← Array.length_toList, take_length]
  have enough : blank.samples.size - samples.toList.length = 0 := by
    rw [Array.length_toList, count, Nat.sub_self]
  rw [right, bottom, bounds, again, if_neg (by decide), if_neg shaped, if_neg counted]
  dsimp only
  rw [all, enough, replicate_zero, append_nil, Array.toArray_toList]
  rfl

/-- The container of a raster spells the raster: a new one of any shape whose corners and extents are
words, with any samples put into it and any tile preferred, comes back with its bounds, its bands and
every bit of its samples.
-/
theorem decode_encode_container {bounds : Rect} {bands : Int} {blank : Raster}
    (made : Raster.create bounds bands = .ok blank) (words : blank.bounds.InWords)
    (word : bands < 2 ^ 63) (samples : Array Sample) (tile : Option TileSize)
    (filled : samples.size = blank.samples.size) (few : samples.size ≤ 131072)
    : decode (encode { blank with samples, tile }) = .ok { blank with samples } := by
  obtain ⟨-, canonical, count, -⟩ := Raster.create_eq_ok made
  have ordered : blank.bounds.canon = blank.bounds := by rw [canonical, Rect.canon_canon]
  have bandWord : (blank.bands : Int) < 2 ^ 63 := by rwa [count]
  rw [decode_of_few (r := { blank with samples, tile }) (words.corners ordered) bandWord few]
  exact raster_of_fields made words filled tile

/-- A raster west of the origin, with a value that is not a number and its payload, a negative zero,
the least value and one of each width.
-/
theorem decode_encode_container_patterns
    : let blank : Raster :=
        { bounds := ⟨-3, -2, 0, 0⟩, bands := 1, samples := Array.replicate 6 .zero
          tile := some .default }
      let samples : Array Sample :=
        #[⟨0x7FF0000000000001⟩, ⟨0x8000000000000000⟩, ⟨1⟩, .one, ⟨0x3FF0000020000000⟩,
          ⟨0xFFF0000000000000⟩]
      Raster.create ⟨0, 0, -3, -2⟩ 1 = .ok blank ∧ blank.bounds.InWords ∧ (1 : Int) < 2 ^ 63
        ∧ samples.size = blank.samples.size ∧ samples.size ≤ 131072
        ∧ decode (encode { blank with samples, tile := none }) = .ok { blank with samples } := by
  have made : Raster.create ⟨0, 0, -3, -2⟩ 1
      = .ok { bounds := ⟨-3, -2, 0, 0⟩, bands := 1, samples := Array.replicate 6 .zero
              tile := some .default } := by decide
  have words : Rect.InWords ⟨-3, -2, 0, 0⟩ :=
    ⟨by decide, by decide, by decide, by decide, by decide, by decide⟩
  exact ⟨made, words, by decide, by decide, by decide,
    decode_encode_container made words (by decide) _ none (by decide) (by decide)⟩

end Container

end MapAlgebra
