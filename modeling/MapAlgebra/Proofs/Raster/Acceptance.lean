import MapAlgebra.Proofs.Raster.Container

/-! Which rasters are read back. A container is written for every raster, but read only up to a number
of samples, and only if the extents that it tells are not negative.
-/

namespace MapAlgebra

theorem Rect.CornersInWords.canon {r : Rect} (words : r.CornersInWords)
    : r.canon.CornersInWords := by
  obtain ⟨left, top, right, bottom⟩ := words
  simp only [Rect.canon, Rect.ofCorners]
  exact ⟨by dsimp only; omega, by dsimp only; omega, by dsimp only; omega, by dsimp only; omega⟩

/-- Extents that are not negative as words are those that the corners have. -/
theorem Rect.CornersInWords.inWords {r : Rect} (words : r.CornersInWords) (width : 0 ≤ r.width)
    (height : 0 ≤ r.height)
    : r.InWords := by
  obtain ⟨left, top, right, bottom⟩ := words
  rw [Rect.width, wrap, Int.bmod_def] at width
  rw [Rect.height, wrap, Int.bmod_def] at height
  exact ⟨left.1, top.1, right.2, bottom.2, by omega, by omega⟩

namespace Container

variable {r : Raster}

/-- A record with more samples than an array may have items is not read. -/
theorem decode_of_many (corners : r.bounds.CornersInWords) (bands : (r.bands : Int) < 2 ^ 63)
    (many : Cbor.maxElements < r.samples.size) (fits : r.samples.size < 2 ^ 64)
    : decode (encode r) = .error .malformed := by
  have unread := Cbor.rules.refuses (show _ = 2 * 7 from rfl) (by decide)
    (readable_heading corners bands 31)
    (show _ < (r.samples.toList.map Cbor.ofSample).length by simpa using many)
    (by simpa using fits) []
  rw [← record_eq, List.append_nil] at unread
  rw [decode, encode, Cbor.decode, unread]
  rfl

/-- What reading the container of a raster gives, for every shape that a new raster can have: it is no
item from 131073 samples on, extents that are negative as words are refused, and every other raster
comes back.
-/
theorem decode_encode_outcome {bounds : Rect} {bands : Int} {blank : Raster}
    (words : bounds.CornersInWords) (word : bands < 2 ^ 63)
    (made : Raster.create bounds bands = .ok blank) (samples : Array Sample)
    (filled : samples.size = blank.samples.size) (tile : Option TileSize)
    : decode (encode { blank with samples, tile })
      = if 131072 < samples.size then .error .malformed
        else if blank.bounds.width < 0 ∨ blank.bounds.height < 0 then
          .error (.shape blank.bounds.width blank.bounds.height bands)
        else .ok { blank with samples } := by
  obtain ⟨-, canonical, count, size, -⟩ := Raster.create_eq_ok made
  have corners : blank.bounds.CornersInWords := canonical ▸ words.canon
  have bandWord : (blank.bands : Int) < 2 ^ 63 := by rwa [count]
  split
  · next many =>
      have fits : samples.size < 2 ^ 64 := by
        have bound := (wrap_bounds (wrap (blank.bounds.width * blank.bounds.height) * bands)).2
        rw [Raster.sampleCount] at size
        omega
      exact decode_of_many (r := { blank with samples, tile }) corners bandWord many fits
  · next few =>
      rw [decode_of_few (r := { blank with samples, tile }) corners bandWord (Nat.not_lt.mp few)]
      split
      · next negative =>
          have shaped : (decide (blank.bounds.width < 0) || decide (blank.bounds.height < 0)
              || decide ((blank.bands : Int) < 1)) = true := by
            simp only [Bool.or_eq_true, decide_eq_true_eq]
            exact Or.inl negative
          unfold Fields.raster Fields.ofRaster
          dsimp only
          rw [if_neg (by decide), if_pos shaped, count]
          rfl
      · next positive =>
          exact raster_of_fields made (corners.inWords (by omega) (by omega)) filled tile

/-- The widest rectangle of words is a pixel wide and high in the negative, which makes one sample. -/
theorem decode_encode_outcome_widest
    : let bounds : Rect := ⟨-2 ^ 63, -2 ^ 63, 2 ^ 63 - 1, 2 ^ 63 - 1⟩
      let blank : Raster := { bounds, bands := 1, samples := #[.zero], tile := some .default }
      bounds.CornersInWords ∧ Raster.create bounds 1 = .ok blank
        ∧ decode (encode { blank with samples := #[.one], tile := none })
          = .error (.shape (-1) (-1) 1) := by
  have words : Rect.CornersInWords ⟨-2 ^ 63, -2 ^ 63, 2 ^ 63 - 1, 2 ^ 63 - 1⟩ :=
    ⟨by decide, by decide, by decide, by decide⟩
  have made : Raster.create ⟨-2 ^ 63, -2 ^ 63, 2 ^ 63 - 1, 2 ^ 63 - 1⟩ 1
      = .ok { bounds := ⟨-2 ^ 63, -2 ^ 63, 2 ^ 63 - 1, 2 ^ 63 - 1⟩, bands := 1
              samples := #[.zero], tile := some .default } := by decide
  exact ⟨words, made, decode_encode_outcome words (by decide) made #[.one] rfl none⟩

/-- A strip that is one pixel too long is written, but not read back. -/
theorem strip_unreadable
    : ∃ strip, Raster.create (.ofSize 131073 1) 1 = .ok strip
        ∧ decode (encode strip) = .error .malformed := by
  refine ⟨{ bounds := ⟨0, 0, 131073, 1⟩, bands := 1, samples := Array.replicate 131073 .zero
            tile := some .default }, rfl, ?_⟩
  refine decode_of_many ⟨by decide, by decide, by decide, by decide⟩ (by decide) ?_ ?_
  · rw [Array.size_replicate]
    decide
  · rw [Array.size_replicate]
    decide

end Container

end MapAlgebra
