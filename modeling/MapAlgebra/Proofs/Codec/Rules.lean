import MapAlgebra.Proofs.Codec.Limits

/-! The rules that a codec has to keep to. Containers and event streams are read back by these alone,
so nothing about them hangs on how the items are written.
-/

namespace MapAlgebra

open List
open Option

namespace Cbor

/-- The rules of a way to write an item and of a way to read one. -/
structure Rules (encode : Cbor → Bytes) (read : Step Cbor) : Prop where
  /-- An item within the limits is read, whatever follows it. -/
  reads {item} (readable : Readable maxLevels item) (rest : Bytes)
    : read (encode item ++ rest) = some (item, rest)
  /-- An item whose end is missing is not read. -/
  cut {item front missing} (readable : Readable maxLevels item)
    (parts : encode item = front ++ missing) (cut : missing ≠ [])
    : read front = none
  /-- A map is not read if its last value has more items than an array may have. -/
  refuses {pairs front items} (paired : (front ++ [array items]).length = 2 * pairs)
    (few : pairs ≤ maxElements) (each : ∀ item ∈ front, Readable (maxLevels - 1) item)
    (many : maxElements < items.length) (fits : items.length < 2 ^ 64) (rest : Bytes)
    : read (encode (map (front ++ [array items])) ++ rest) = none
  /-- What is read keeps to the limits. -/
  limits {bytes item rest} (found : read bytes = some (item, rest)) : item.Limited

/-- The codec keeps to the rules. -/
theorem rules : Rules encode read where
  reads := maybeTagged_encode
  cut readable := read_eq_none_of_cut readable
  refuses paired few each many fits := refused_map paired few each (refused_array many fits _)
  limits := maybeTagged_yields (content_yields maxLevels)

theorem decode_encode {item} (readable : Readable maxLevels item)
    : decode (encode item) = some item := by
  have read := rules.reads readable []
  rw [append_nil] at read
  rw [decode, read]
  rfl

theorem limited_of_decode {bytes item} (spelled : decode bytes = some item) : item.Limited := by
  obtain ⟨⟨found, rest⟩, read, whole⟩ := bind_eq_some_iff.mp spelled
  dsimp only at whole
  split at whole
  · obtain rfl := Option.some.inj whole
    exact rules.limits read
  · cases whole

end Cbor

end MapAlgebra
