import MapAlgebra.Codec.Cbor

/-! What is written is read. An item within the limits on heads, nesting and elements is read off the
front of any bytes that start with its own.
-/

namespace MapAlgebra

open List

namespace Cbor

theorem length_bigEndian (count n) : (bigEndian count n).length = count := by
  induction count with
  | zero => rfl
  | succ count ih => rw [bigEndian, length_cons, ih]

theorem foldl_bigEndian (count n start)
    : (bigEndian count n).foldl (fun n b => n * 256 + b.toNat) start
      = start * 256 ^ count + n % 256 ^ count := by
  induction count generalizing start with
  | zero => simp [bigEndian, Nat.mod_one]
  | succ count ih =>
    have digit : (n / 256 ^ count % 256).toUInt8.toNat = n / 256 ^ count % 256 := by
      rw [Nat.toUInt8, UInt8.toNat_ofNat', Nat.mod_mod]
    rw [bigEndian, foldl_cons, ih, digit, Nat.pow_succ, Nat.mod_mul (x := n), Nat.add_mul,
      Nat.mul_assoc, Nat.mul_comm 256, Nat.add_assoc, Nat.mul_comm (256 ^ count) (_ % 256),
      Nat.add_comm (n % 256 ^ count)]

variable {count n info major : Nat}

theorem ofBigEndian_bigEndian (fits : n < 256 ^ count) : ofBigEndian (bigEndian count n) = n := by
  rw [ofBigEndian, foldl_bigEndian, Nat.zero_mul, Nat.zero_add, Nat.mod_eq_of_lt fits]

variable {bytes : Bytes}

theorem take_append (length : bytes.length = count) (rest)
    : take count (bytes ++ rest) = some (bytes, rest) := by
  rw [take, take_left' length, drop_left' length]
  exact if_pos length

theorem toNat_first (kind : major < 8) (short : info < 32)
    : (major * 32 + info).toUInt8.toNat / 32 = major
      ∧ (major * 32 + info).toUInt8.toNat % 32 = info := by
  rw [Nat.toUInt8, UInt8.toNat_ofNat']
  omega

/-- A value that follows the first byte is read with as many bytes as the information says. -/
theorem readHead_wide (kind : major < 8)
    (width : (info, count) ∈ [(24, 1), (25, 2), (26, 4), (27, 8)]) (fits : n < 256 ^ count)
    (rest : Bytes)
    : readHead ((major * 32 + info).toUInt8 :: (bigEndian count n ++ rest))
      = some (⟨major, info, n⟩, rest) := by
  have short : info < 32 := by simp at width; omega
  obtain ⟨upper, lower⟩ := toNat_first kind short
  have value := ofBigEndian_bigEndian fits
  have taken := take_append (length_bigEndian count n) rest
  unfold readHead
  dsimp only
  rw [upper, lower]
  simp only [mem_cons, Prod.mk.injEq, not_mem_nil, or_false] at width
  rcases width with ⟨rfl, rfl⟩ | ⟨rfl, rfl⟩ | ⟨rfl, rfl⟩ | ⟨rfl, rfl⟩ <;>
    simp [taken, value]

/-- A head gives back its major type and value, and never looks like an indefinite length. -/
theorem readHead_head (kind : major < 8) (fits : n < 2 ^ 64) (rest : Bytes)
    : ∃ info, info ≠ 31 ∧ (info < 24 ↔ n < 24) ∧ (info < 25 ↔ n < 2 ^ 8)
      ∧ readHead (head major n ++ rest) = some (⟨major, info, n⟩, rest) := by
  unfold head
  split
  · next small =>
    obtain ⟨upper, lower⟩ := toNat_first kind (show n < 32 by omega)
    refine ⟨n, by omega, Iff.rfl, by omega, ?_⟩
    rw [singleton_append, readHead]
    rw [upper, lower, if_pos small]
  · next large =>
    split
    · exact ⟨24, by omega, by omega, by omega,
        readHead_wide kind (by simp) (by omega) rest⟩
    · split
      · exact ⟨25, by omega, by omega, by omega,
          readHead_wide kind (by simp) (by omega) rest⟩
      · split
        · exact ⟨26, by omega, by omega, by omega,
            readHead_wide kind (by simp) (by omega) rest⟩
        · exact ⟨27, by omega, by omega, by omega,
            readHead_wide kind (by simp) (by omega) rest⟩

theorem startsWithTag_head (kind : major < 8) (n rest)
    : startsWithTag (head major n ++ rest) = decide (major = 6) := by
  have first {info : Nat} (short : info < 32) (bytes : Bytes)
      : startsWithTag ((major * 32 + info).toUInt8 :: bytes) = decide (major = 6) := by
    rw [startsWithTag, (toNat_first kind short).1]
  unfold head
  split
  · exact first (by omega) _
  · split
    · exact first (by omega) _
    · split
      · exact first (by omega) _
      · split <;> exact first (by omega) _

/-- The item is a tag with its content. -/
def isTag : Cbor → Bool
  | tag .. => true
  | _ => false

/-- The item can be read where so many levels are left for what is inside of it. Simple values from 24
to 31 have no head of their own, and a tag right behind a tag takes a level.
-/
inductive Readable : Nat → Cbor → Prop where
  | unsigned {levels n} (fits : n < 2 ^ 64) : Readable levels (unsigned n)
  | negative {levels n} (fits : n < 2 ^ 64) : Readable levels (negative n)
  | octets {levels bytes} (fits : bytes.length < 2 ^ 64)
    : Readable levels (octets [bytes])
  | text {levels bytes} (fits : bytes.length < 2 ^ 64)
    : Readable levels (text [bytes])
  | array {levels items} (few : items.length ≤ maxElements)
    (each : ∀ item ∈ items, Readable levels item)
    : Readable (levels + 1) (array items)
  | map {levels pairs items} (paired : items.length = 2 * pairs)
    (few : pairs ≤ maxElements) (each : ∀ item ∈ items, Readable levels item)
    : Readable (levels + 1) (map items)
  | tag {levels number content} (fits : number < 2 ^ 64)
    (plain : content.isTag = false) (inside : Readable levels content)
    : Readable levels (tag number content)
  | tagTag {levels number content} (fits : number < 2 ^ 64)
    (tagged : content.isTag = true) (inside : Readable levels content)
    : Readable (levels + 1) (tag number content)
  | simple {levels n} (has : n < 24 ∨ 32 ≤ n ∧ n < 2 ^ 8) : Readable levels (simple n)
  | half {levels p} (fits : p < 2 ^ 16) : Readable levels (half p)
  | single {levels p} (fits : p < 2 ^ 32) : Readable levels (single p)
  | double {levels p} (fits : p < 2 ^ 64) : Readable levels (double p)

theorem startsWithTag_encode (item rest) : startsWithTag (encode item ++ rest) = item.isTag := by
  cases item with
  | unsigned | negative | simple =>
    rw [encode]
    exact startsWithTag_head (by decide) _ _
  | octets | text | array | map | tag =>
    rw [encode, append_assoc]
    exact startsWithTag_head (by decide) _ _
  | half | single | double =>
    rw [encode]
    rfl

theorem repeated_encodeAll {step items}
    (each : ∀ item ∈ items, ∀ rest, step (encode item ++ rest) = some (item, rest)) (read rest)
    : repeated step items.length read (encodeAll items ++ rest)
      = some (read.reverse ++ items, rest) := by
  induction items generalizing read with
  | nil => simp [repeated, encodeAll]
  | cons item items ih =>
    obtain ⟨first, others⟩ := forall_mem_cons.mp each
    rw [length_cons, encodeAll, append_assoc, repeated, first]
    show repeated step items.length (item :: read) (encodeAll items ++ rest) = _
    rw [ih others, reverse_cons, append_assoc, singleton_append]

variable {levels : Nat}

/-- An item that is no tag is read the same way behind a tag and elsewhere. -/
theorem maybeTagged_of_plain (plain : startsWithTag bytes = false)
    : maybeTagged (content levels) bytes = content levels bytes := by
  rw [maybeTagged, plain]
  rfl

theorem maybeTagged_of_tag (tag : startsWithTag bytes = true)
    : maybeTagged (content levels) bytes = tagged (content levels) bytes := by
  rw [maybeTagged, if_pos tag]

theorem maybeTagged_inside (plain : startsWithTag bytes = false)
    : maybeTagged (content (levels + 1)) bytes
      = untagged (some (maybeTagged (content levels))) bytes := by
  rw [maybeTagged_of_plain plain, content, plain]
  rfl

variable {item : Cbor}

/-- An item that is no tag is read the same way on every level if nothing inside of it is read. -/
theorem maybeTagged_of_untagged {result rest} (plain : item.isTag = false)
    (reads : ∀ child, untagged child (encode item ++ rest) = result)
    : maybeTagged (content levels) (encode item ++ rest) = result := by
  have plain := (startsWithTag_encode item rest).trans plain
  rw [maybeTagged_of_plain plain]
  cases levels with
  | zero => rw [content, plain]; exact reads none
  | succ levels => rw [content, plain]; exact reads _

theorem untagged_string (fits : bytes.length < 2 ^ 64)
    (kind : major = 2 ∧ item = octets [bytes] ∨ major = 3 ∧ item = text [bytes]) (child rest)
    : untagged child (head major bytes.length ++ (bytes ++ rest)) = some (item, rest) := by
  obtain ⟨info, definite, -, -, read⟩ :=
    readHead_head (show major < 8 by omega) fits (bytes ++ rest)
  have taken := take_append (rfl : bytes.length = _) rest
  rw [untagged, read]
  rcases kind with ⟨rfl, rfl⟩ | ⟨rfl, rfl⟩ <;> simp [pieces, definite, taken]

theorem untagged_float (info count : Nat) {p} (width : (info, count) ∈ [(25, 2), (26, 4), (27, 8)])
    (fits : p < 256 ^ count) (kind : primitive? ⟨7, info, p⟩ = some item)
    (child : Option (Step Cbor)) (rest : Bytes)
    : untagged child ((7 * 32 + info).toUInt8 :: (bigEndian count p ++ rest)) = some (item, rest) := by
  have wide := readHead_wide (show 7 < 8 by decide) (mem_cons_of_mem (24, 1) width) fits rest
  rw [untagged, wide]
  simp [kind]

/-- An item is read with all that is inside of it, and the rest is left. -/
theorem maybeTagged_encode (readable : Readable levels item) (rest : Bytes)
    : maybeTagged (content levels) (encode item ++ rest) = some (item, rest) := by
  induction readable generalizing rest with
  | unsigned fits =>
    refine maybeTagged_of_untagged rfl fun child => ?_
    obtain ⟨info, definite, -, -, read⟩ := readHead_head (show 0 < 8 by decide) fits rest
    rw [encode, untagged, read]
    exact if_neg definite
  | negative fits =>
    refine maybeTagged_of_untagged rfl fun child => ?_
    obtain ⟨info, definite, -, -, read⟩ := readHead_head (show 1 < 8 by decide) fits rest
    rw [encode, untagged, read]
    exact if_neg definite
  | octets fits =>
    refine maybeTagged_of_untagged rfl fun child => ?_
    rw [encode, flatten_singleton, append_assoc]
    exact untagged_string fits (Or.inl ⟨rfl, rfl⟩) child rest
  | text fits =>
    refine maybeTagged_of_untagged rfl fun child => ?_
    rw [encode, flatten_singleton, append_assoc]
    exact untagged_string fits (Or.inr ⟨rfl, rfl⟩) child rest
  | @array levels items few each ih =>
    have inside := repeated_encodeAll ih [] rest
    have short : items.length < 2 ^ 64 := by rw [maxElements] at few; omega
    obtain ⟨info, definite, -, -, read⟩ :=
      readHead_head (show 4 < 8 by decide) short (encodeAll items ++ rest)
    rw [maybeTagged_inside (startsWithTag_encode (.array items) rest), encode, append_assoc,
      untagged, read]
    simp [elements, definite, Nat.not_lt.mpr few, inside]
  | @map levels pairs items paired few each ih =>
    have inside := repeated_encodeAll ih [] rest
    have half : items.length / 2 = pairs := by omega
    have short : pairs < 2 ^ 64 := by rw [maxElements] at few; omega
    obtain ⟨info, definite, -, -, read⟩ :=
      readHead_head (show 5 < 8 by decide) short (encodeAll items ++ rest)
    rw [maybeTagged_inside (startsWithTag_encode (.map items) rest), encode, append_assoc, half,
      untagged, read]
    simp [elements, definite, Nat.not_lt.mpr few, ← paired, inside]
  | @tag levels number content fits plain inside ih =>
    obtain ⟨info, definite, -, -, read⟩ :=
      readHead_head (show 6 < 8 by decide) fits (encode content ++ rest)
    have here := (startsWithTag_encode content rest).trans plain
    rw [maybeTagged_of_tag (startsWithTag_encode (.tag number content) rest), encode,
      append_assoc, tagged, read]
    simp [definite, ← maybeTagged_of_plain here, ih]
  | @tagTag levels number content fits tagged inside ih =>
    obtain ⟨info, definite, -, -, read⟩ :=
      readHead_head (show 6 < 8 by decide) fits (encode content ++ rest)
    have here := (startsWithTag_encode content rest).trans tagged
    rw [maybeTagged_of_tag (startsWithTag_encode (.tag number content) rest), encode,
      append_assoc, Cbor.tagged, read]
    simp [definite, Cbor.content, here, ← maybeTagged_of_tag here, ih]
  | @simple levels n has =>
    refine maybeTagged_of_untagged rfl fun child => ?_
    obtain ⟨info, -, small, byte, read⟩ :=
      readHead_head (show 7 < 8 by decide) (show n < 2 ^ 64 by omega) rest
    have kind : primitive? ⟨7, info, n⟩ = some (.simple n) := by
      unfold primitive?
      dsimp only
      split
      · rfl
      · rw [if_pos (by omega), if_neg (by omega)]
    rw [encode, untagged, read]
    simp [kind]
  | half fits =>
    refine maybeTagged_of_untagged rfl fun child => ?_
    rw [encode]
    exact untagged_float 25 2 (by simp) fits rfl child rest
  | single fits =>
    refine maybeTagged_of_untagged rfl fun child => ?_
    rw [encode]
    exact untagged_float 26 4 (by simp) fits rfl child rest
  | double fits =>
    refine maybeTagged_of_untagged rfl fun child => ?_
    rw [encode]
    exact untagged_float 27 8 (by simp) fits rfl child rest

end Cbor

end MapAlgebra
