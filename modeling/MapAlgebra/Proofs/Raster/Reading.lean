import MapAlgebra.Proofs.Eval.Safety
import MapAlgebra.Proofs.Raster.Container

/-! Reading a raster from bytes of any origin. The sums and products in the checks are those of words,
so a container can describe a shape that its raster does not have. It does exactly if the corners or
the number of samples leave the range of words.
-/

namespace MapAlgebra

open List
open Raster

namespace Raster

/-- A sample to be written. -/
structure Write where
  x : Int
  y : Int
  band : Int
  value : Sample

/-- Writes a sample. -/
def write? (r : Raster) (w : Write) : Option Raster :=
  r.set? w.x w.y w.band w.value

/-- After any writes, none of which leaves the store, no read leaves the store. -/
def Serves (r : Raster) : Prop :=
  ∀ writes : List Write, ∃ after, writes.foldlM write? r = some after
    ∧ ∀ x y band, ∃ v, after.get? x y band = some v

/-- Every sample within the bounds and bands has its place in the store. -/
def Whole (r : Raster) : Prop :=
  ∀ x y band, r.contains x y band = true → r.HasPlace x y band

variable {r : Raster}

theorem Whole.of_sameShape {r'} (whole : r.Whole) (same : r.SameShape r') : r'.Whole := by
  intro x y band within
  rw [same.contains_eq] at within
  exact (same.hasPlace_iff x y band).mpr (whole _ _ _ within)

theorem Whole.get? (whole : r.Whole) (x y band) : ∃ v, r.get? x y band = some v := by
  cases found : r.get? x y band with
  | some v => exact ⟨v, rfl⟩
  | none =>
    cases within : r.contains x y band with
    | true => exact absurd (whole _ _ _ within) (not_hasPlace_of_get? within found)
    | false =>
      rw [Raster.get?, within] at found
      cases found

theorem Whole.write? (whole : r.Whole) (w)
    : ∃ after, r.write? w = some after ∧ r.SameShape after := by
  unfold Raster.write? Raster.set?
  split
  · next within =>
    exact ⟨_, if_pos (whole _ _ _ within), rfl, rfl, Array.size_setIfInBounds, rfl⟩
  · exact ⟨r, rfl, .refl r⟩

theorem Whole.serves (whole : r.Whole) : r.Serves := by
  intro writes
  induction writes generalizing r with
  | nil => exact ⟨r, rfl, whole.get?⟩
  | cons w writes ih =>
    obtain ⟨next, written, same⟩ := whole.write? w
    obtain ⟨after, others, reads⟩ := ih (whole.of_sameShape same)
    exact ⟨after, by rw [foldlM_cons, written]; exact others, reads⟩

end Raster

namespace Container

/-- The fields that bytes spell. -/
def fields? (bytes : Bytes) : Option Fields :=
  (Cbor.decode bytes).bind Fields.ofItem?

variable {bytes : Bytes}

theorem decode_of_fields {f} (spelled : fields? bytes = some f) : decode bytes = f.raster := by
  rw [decode, ← fields?, spelled]

theorem decode_of_no_fields (garbage : fields? bytes = none)
    : decode bytes = .error .malformed := by
  rw [decode, ← fields?, garbage]

namespace Fields

variable {f : Fields}

/-- The numbers are words, and there are few samples. -/
structure InWords (f : Fields) : Prop where
  left : -2 ^ 63 ≤ f.minX ∧ f.minX < 2 ^ 63
  top : -2 ^ 63 ≤ f.minY ∧ f.minY < 2 ^ 63
  width : f.width < 2 ^ 63
  height : f.height < 2 ^ 63
  few : f.samples.length ≤ Cbor.maxElements

/-- The fields pass every check. -/
structure Checked (f : Fields) : Prop where
  version : f.version ≤ currentVersion
  width : 0 ≤ f.width
  height : 0 ≤ f.height
  bands : 1 ≤ f.bands
  count : (f.samples.length : Int) = wrap (f.width * f.height * f.bands)

/-- The corners and the number of samples stay within the range of words. -/
structure Unwrapped (f : Fields) : Prop where
  right : f.minX + f.width < 2 ^ 63
  bottom : f.minY + f.height < 2 ^ 63
  count : f.width * f.height * f.bands < 2 ^ 63

/-- The raster is the one that the fields describe, with all sums and products taken exactly. -/
structure Describes (f : Fields) (r : Raster) : Prop where
  banded : 1 ≤ r.bands
  bands : (r.bands : Int) = f.bands
  bounds : r.bounds
    = { minX := f.minX, minY := f.minY, maxX := f.minX + f.width, maxY := f.minY + f.height }
  size : (r.samples.size : Int) = f.width * f.height * f.bands
  samples : r.samples.toList = f.samples

theorem limited_pairs {items} (each : ∀ item ∈ items, item.Limited)
    : ∀ pair ∈ Cbor.pairs items, pair.2.Limited := by
  fun_induction Cbor.pairs items with
  | case1 key value rest ih =>
    obtain ⟨-, value, rest⟩ : key.Limited ∧ value.Limited ∧ ∀ item ∈ rest, item.Limited := by
      simpa only [forall_mem_cons] using each
    exact forall_mem_cons.mpr ⟨value, ih rest⟩
  | case2 => exact forall_mem_nil _

variable {fields : List (Cbor × Cbor)} {item : Cbor}

theorem limited_record (limited : item.Limited) (record : item.toRecord? = some fields)
    : ∀ pair ∈ fields, pair.2.Limited := by
  induction limited with
  | map each =>
    rw [Cbor.toRecord?] at record
    split at record
    · obtain rfl := Option.some.inj record
      exact limited_pairs each
    · cases record
  | simple byte =>
    rw [Cbor.toRecord?] at record
    split at record
    · obtain rfl := Option.some.inj record
      exact forall_mem_nil _
    · cases record
  | tag inside ih =>
    rw [Cbor.toRecord?] at record
    split at record
    · cases record
    · exact ih record
  | unsigned | negative | octets | text | array | half | single | double => cases record

theorem limited_field (limited : item.Limited) (record : item.toRecord? = some fields) (number)
    : (Cbor.field fields number).Limited := by
  unfold Cbor.field
  split
  · next found => exact limited_record limited record _ (mem_of_find?_eq_some found)
  · exact .simple (by decide)

/-- The fields that bytes spell are words, whatever the bytes are. -/
theorem inWords_of_spelled (spelled : fields? bytes = some f) : f.InWords := by
  obtain ⟨item, decoded, taken⟩ := Option.bind_eq_some_iff.mp spelled
  obtain ⟨fields, record, taken⟩ := Option.bind_eq_some_iff.mp taken
  have limited := limited_field (Cbor.limited_of_decode decoded) record
  obtain ⟨version, -, taken⟩ := Option.bind_eq_some_iff.mp taken
  obtain ⟨minX, left, taken⟩ := Option.bind_eq_some_iff.mp taken
  obtain ⟨minY, top, taken⟩ := Option.bind_eq_some_iff.mp taken
  obtain ⟨width, wide, taken⟩ := Option.bind_eq_some_iff.mp taken
  obtain ⟨height, high, taken⟩ := Option.bind_eq_some_iff.mp taken
  obtain ⟨bands, -, taken⟩ := Option.bind_eq_some_iff.mp taken
  obtain ⟨samples, many, made⟩ := Option.bind_eq_some_iff.mp taken
  obtain rfl := Option.some.inj made
  exact ⟨(limited 2).toInt?_bounds left, (limited 3).toInt?_bounds top,
    ((limited 4).toInt?_bounds wide).2, ((limited 5).toInt?_bounds high).2,
    (limited 7).length_toSamples? many⟩

/-- The bounds that the raster gets, with sums of words. -/
def bounds (f : Fields) : Rect :=
  .ofCorners f.minX f.minY (wrap (f.minX + f.width)) (wrap (f.minY + f.height))

theorem raster_of_not_checked (fails : ¬ f.Checked)
    : ∃ e, f.raster = .error e ∧ e ≠ .unholdable := by
  unfold raster
  by_cases newer : f.version > currentVersion
  · exact ⟨.newer f.version, by rw [if_pos newer]; rfl, by rintro ⟨⟩⟩
  · by_cases shapeless : f.width < 0 ∨ f.height < 0 ∨ f.bands < 1
    · refine ⟨.shape f.width f.height f.bands, ?_, by rintro ⟨⟩⟩
      rw [if_neg newer, if_pos (by simpa [or_assoc] using shapeless)]
      rfl
    · have counted : (f.samples.length : Int) ≠ wrap (f.width * f.height * f.bands) := fun count =>
        fails ⟨by omega, by omega, by omega, by omega, count⟩
      refine ⟨.sampleCount f.samples.length (wrap (f.width * f.height * f.bands)), ?_, by rintro ⟨⟩⟩
      rw [if_neg newer, if_neg (by simpa [or_assoc] using shapeless)]
      rw [if_pos counted]
      rfl

/-- Fields that pass the checks make a new raster, if there can be one, and fill it. -/
theorem raster_of_checked (checked : f.Checked)
    : (∃ e, create f.bounds f.bands = .error e ∧ f.raster = .error .unholdable)
      ∨ ∃ blank samples, create f.bounds f.bands = .ok blank
          ∧ f.raster = .ok { blank with samples } ∧ samples.size = blank.samples.size
          ∧ (blank.samples.size = f.samples.length → samples.toList = f.samples) := by
  obtain ⟨version, width, height, bands, count⟩ := checked
  have shaped : ¬ (decide (f.width < 0) || decide (f.height < 0) || decide (f.bands < 1)) = true := by
    simp only [Bool.or_eq_true, decide_eq_true_eq]
    omega
  unfold raster
  rw [if_neg (by omega), if_neg shaped]
  dsimp only
  rw [if_neg (not_not.mpr count)]
  cases made : create f.bounds f.bands with
  | error e => exact .inl ⟨e, rfl, by rw [← bounds, made]; rfl⟩
  | ok blank =>
    refine .inr ⟨blank, _, rfl, by rw [← bounds, made]; rfl, ?_, fun enough => ?_⟩
    · rw [size_toArray, length_append, length_replicate, length_take]
      omega
    · rw [enough, take_length, Nat.sub_self, replicate_zero, append_nil]

section

variable (words : f.InWords) (checked : f.Checked)
include words checked

section

variable (unwrapped : f.Unwrapped)
include unwrapped

theorem bounds_of_unwrapped
    : f.bounds
      = { minX := f.minX, minY := f.minY, maxX := f.minX + f.width, maxY := f.minY + f.height } := by
  obtain ⟨left, top, -, -, -⟩ := words
  obtain ⟨-, width, height, -, -⟩ := checked
  obtain ⟨right, bottom, -⟩ := unwrapped
  rw [bounds, wrap_eq_self (n := f.minX + f.width) (by omega) right,
    wrap_eq_self (n := f.minY + f.height) (by omega) bottom, Rect.ofCorners,
    Int.min_eq_left (by omega), Int.min_eq_left (by omega), Int.max_eq_right (by omega),
    Int.max_eq_right (by omega)]

theorem sampleCount_of_unwrapped
    : sampleCount f.bounds f.bands = f.width * f.height * f.bands
      ∧ (f.samples.length : Int) = f.width * f.height * f.bands := by
  have corners := bounds_of_unwrapped words checked unwrapped
  obtain ⟨-, width, height, bands, count⟩ := checked
  have extent {low length : Int} (nonneg : 0 ≤ length) (word : length < 2 ^ 63)
      : wrap (low + length - low) = length := by
    rw [show low + length - low = length by omega, wrap_eq_self (by omega) word]
  have exact : wrap (f.width * f.height * f.bands) = f.width * f.height * f.bands := by
    have nonneg : 0 ≤ f.width * f.height * f.bands :=
      Int.mul_nonneg (Int.mul_nonneg width height) (by omega)
    exact wrap_eq_self (by omega) unwrapped.count
  refine ⟨?_, count.trans exact⟩
  rw [sampleCount, ← wrap_product, corners, Rect.width, Rect.height,
    extent width words.width, extent height words.height, exact]

theorem create_of_unwrapped
    : ∃ blank, create f.bounds f.bands = .ok blank := by
  obtain ⟨count, few⟩ := sampleCount_of_unwrapped words checked unwrapped
  have canonical : f.bounds.canon = f.bounds := Rect.canon_canon ⟨f.minX, f.minY, _, _⟩
  have holdable : ¬ (decide (sampleCount f.bounds f.bands < 0)
      || decide (sampleCount f.bounds f.bands > 2 ^ 45)) = true := by
    have limit : (f.samples.length : Int) ≤ 131072 := Int.ofNat_le.mpr words.few
    simp only [Bool.or_eq_true, decide_eq_true_eq]
    omega
  unfold create
  rw [if_neg (Int.not_lt.mpr checked.bands), canonical]
  rw [if_neg holdable]
  exact ⟨_, rfl⟩

/-- The raster that fields describe within the range of words is read, and it serves. -/
theorem raster_of_unwrapped
    : ∃ r, f.raster = .ok r ∧ f.Describes r ∧ r.Serves := by
  have corners := bounds_of_unwrapped words checked unwrapped
  obtain ⟨count, few⟩ := sampleCount_of_unwrapped words checked unwrapped
  obtain ⟨blank, made⟩ := create_of_unwrapped words checked unwrapped
  obtain ⟨banded, canonical, bands, size, -⟩ := create_eq_ok made
  have bounds : blank.bounds = f.bounds :=
    canonical.trans (Rect.canon_canon ⟨f.minX, f.minY, _, _⟩)
  rw [bounds, count] at size
  rcases raster_of_checked checked with ⟨e, failed, -⟩ | ⟨again, samples, remade, read, filled, all⟩
  · rw [made] at failed
    cases failed
  · obtain rfl := Except.ok.inj (made.symm.trans remade)
    have banded : 1 ≤ blank.bands := by omega
    have describes : f.Describes { blank with samples } :=
      ⟨banded, bands, bounds.trans corners, by rw [filled, size], all (by omega)⟩
    have same : blank.SameShape { blank with samples } := ⟨rfl, rfl, filled, rfl⟩
    have whole : blank.Whole := by
      intro x y band
      refine hasPlace_of_create made ?_
      rw [bounds, corners, bands, show f.minY + f.height - f.minY = f.height by omega,
        show f.minX + f.width - f.minX = f.width by omega, Int.mul_comm f.height]
      exact unwrapped.count
    exact ⟨_, read, describes, (whole.of_sameShape same).serves⟩

end

/-- A raster has its corners and its number of samples within the range of words. -/
theorem unwrapped_of_describes {r} (read : f.raster = .ok r) (describes : f.Describes r)
    : f.Unwrapped := by
  rcases raster_of_checked checked with ⟨e, -, failed⟩ | ⟨blank, samples, made, filled, same, -⟩
  · rw [read] at failed
    cases failed
  · obtain rfl := Except.ok.inj (read.symm.trans filled)
    obtain ⟨-, canonical, -, size, -⟩ := create_eq_ok made
    have bounds : blank.bounds = f.bounds :=
      canonical.trans (Rect.canon_canon ⟨f.minX, f.minY, _, _⟩)
    have corners := bounds.symm.trans describes.bounds
    have right : f.bounds.maxX < 2 ^ 63 :=
      max_lt words.left.2 (wrap_bounds (f.minX + f.width)).2
    have bottom : f.bounds.maxY < 2 ^ 63 :=
      max_lt words.top.2 (wrap_bounds (f.minY + f.height)).2
    rw [corners] at right bottom
    refine ⟨right, bottom, ?_⟩
    rw [← describes.size]
    rw [same, size]
    exact (wrap_bounds _).2

end

end Fields

/-- Reading the bytes gives an error, or the raster that they describe, which serves every read and
write. A raster that cannot be held is no error of the bytes but a crash.
-/
def ReadSafely (bytes : Bytes) : Prop :=
  (∃ e, decode bytes = .error e ∧ e ≠ .unholdable)
  ∨ ∃ f r, fields? bytes = some f ∧ decode bytes = .ok r ∧ f.Describes r ∧ r.Serves

/-- Bytes are read safely exactly if they do not pass the checks with a corner or a number of samples
that leaves the range of words.
-/
theorem readSafely_iff (bytes : Bytes)
    : ReadSafely bytes ↔ ∀ f, fields? bytes = some f → f.Checked → f.Unwrapped := by
  cases spelled : fields? bytes with
  | none =>
    constructor
    · intro _ f none
      cases none
    · intro _
      exact Or.inl ⟨.malformed, decode_of_no_fields spelled, by rintro ⟨⟩⟩
  | some f =>
    have words := Fields.inWords_of_spelled spelled
    have read := decode_of_fields spelled
    constructor
    · rintro safe f' same checked
      obtain rfl := Option.some.inj same
      rcases safe with ⟨e, failed, proper⟩ | ⟨f', r, same, found, describes, -⟩
      · rw [read] at failed
        rcases Fields.raster_of_checked checked with ⟨-, -, crashed⟩ | ⟨_, _, -, made, -⟩
        · rw [failed] at crashed
          exact absurd (Except.error.inj crashed) proper
        · rw [failed] at made
          cases made
      · obtain rfl := Option.some.inj (spelled.symm.trans same)
        exact Fields.unwrapped_of_describes words checked (read ▸ found) describes
    · intro unwrapped
      by_cases checked : f.Checked
      · obtain ⟨r, made, describes, serves⟩ :=
          Fields.raster_of_unwrapped words checked (unwrapped f rfl checked)
        exact .inr ⟨f, r, spelled, read.trans made, describes, serves⟩
      · obtain ⟨e, refused, proper⟩ := Fields.raster_of_not_checked checked
        exact .inl ⟨e, read.trans refused, proper⟩

/-- The container of a raster of 2^32 by 2^32 pixels without a sample. -/
def vast : Bytes :=
  [0xA7, 0x01, 0x01, 0x02, 0x00, 0x03, 0x00, 0x04, 0x1B, 0, 0, 0, 1, 0, 0, 0, 0,
    0x05, 0x1B, 0, 0, 0, 1, 0, 0, 0, 0, 0x06, 0x01, 0x07, 0x80]

/-- The container of a pixel at the eastern edge of the words. -/
def edge : Bytes :=
  [0xA7, 0x01, 0x01, 0x02, 0x1B, 0x7F, 0xFF, 0xFF, 0xFF, 0xFF, 0xFF, 0xFF, 0xFF, 0x03, 0x00,
    0x04, 0x01, 0x05, 0x01, 0x06, 0x01, 0x07, 0x81, 0x00]

/-- The vast raster is read, but a read of its first pixel leaves the store, and reading the edge
crashes: the eastern corner wraps around, and a width of minus one has no store.
-/
theorem vast_unsafe
    : ¬ ReadSafely vast ∧ (∃ r, decode vast = .ok r ∧ r.get? 0 0 0 = none)
      ∧ decode edge = .error .unholdable := by
  have read : decode vast
      = .ok { bounds := ⟨0, 0, 2 ^ 32, 2 ^ 32⟩, bands := 1, samples := #[], tile := some .default } := by
    decide +kernel
  refine ⟨?_, ⟨_, read, rfl⟩, by decide +kernel⟩
  rintro (⟨e, failed, -⟩ | ⟨f, r, -, found, -, serves⟩)
  · rw [read] at failed
    cases failed
  · obtain rfl := Except.ok.inj (read.symm.trans found)
    obtain ⟨after, unchanged, reads⟩ := serves []
    obtain rfl := Option.some.inj unchanged
    obtain ⟨v, first⟩ := reads 0 0 0
    cases first

end Container

end MapAlgebra
