import MapAlgebra.Proofs.Codec.Refusal

/-! What is read keeps to the limits, whatever the bytes are: an array has no more items than it may
have, and the numbers of a record are words.
-/

namespace MapAlgebra

open List
open Option

namespace Cbor

/-- The arrays in the item have as many items as they may have at most, and its simple values are
bytes.
-/
inductive Limited : Cbor → Prop where
  | unsigned (n : Nat) : Limited (unsigned n)
  | negative (n : Nat) : Limited (negative n)
  | octets (pieces : List Bytes) : Limited (octets pieces)
  | text (pieces : List Bytes) : Limited (text pieces)
  | array {items} (few : items.length ≤ maxElements)
    (each : ∀ item ∈ items, Limited item)
    : Limited (array items)
  | map {items} (each : ∀ item ∈ items, Limited item) : Limited (map items)
  | tag {number content} (inside : Limited content) : Limited (tag number content)
  | simple {n} (byte : n < 2 ^ 8) : Limited (simple n)
  | half (pattern : Nat) : Limited (half pattern)
  | single (pattern : Nat) : Limited (single pattern)
  | double (pattern : Nat) : Limited (double pattern)

/-- Whatever the step reads has the property. -/
def Yields {α : Type} (step : Step α) (property : α → Prop) : Prop :=
  ∀ {bytes : Bytes} {a : α} {rest : Bytes}, step bytes = some (a, rest) → property a

theorem ofBigEndian_lt (bytes) : ofBigEndian bytes < 256 ^ bytes.length := by
  have shifted (start : Nat) (bytes : Bytes)
      : bytes.foldl (fun n b => n * 256 + b.toNat) start < (start + 1) * 256 ^ bytes.length := by
    induction bytes generalizing start with
    | nil => simp
    | cons b bytes ih =>
      have byte := b.toNat_lt
      calc (b :: bytes).foldl (fun n b => n * 256 + b.toNat) start
        _ < (start * 256 + b.toNat + 1) * 256 ^ bytes.length := ih _
        _ ≤ (start + 1) * 256 * 256 ^ bytes.length := Nat.mul_le_mul_right _ (by omega)
        _ = (start + 1) * 256 ^ (b :: bytes).length := by
            rw [length_cons, Nat.pow_succ, Nat.mul_assoc, Nat.mul_comm 256]
  have whole := shifted 0 bytes
  rwa [Nat.zero_add, Nat.one_mul] at whole

theorem take_yields (count) : Yields (take count) fun value => ofBigEndian value < 256 ^ count := by
  intro bytes value rest read
  unfold take at read
  dsimp only at read
  split at read
  · next length =>
    obtain ⟨rfl, -⟩ := Prod.mk.inj (Option.some.inj read)
    have bound := ofBigEndian_lt (bytes.take count)
    rwa [length] at bound
  · cases read

/-- A value within the first byte or in the one behind it is a byte. -/
theorem readHead_yields : Yields readHead fun head => head.info ≤ 24 → head.value < 2 ^ 8 := by
  intro bytes head rest read short
  cases bytes with
  | nil => cases read
  | cons first bytes =>
    have wide {count major info : Nat}
        (taken : (do
          let taken ← take count bytes
          return (({ major, info, value := ofBigEndian taken.1 } : Head), taken.2))
            = some (head, rest))
        : head.info = info ∧ head.value < 256 ^ count := by
      obtain ⟨⟨value, behind⟩, enough, made⟩ := bind_eq_some_iff.mp taken
      obtain ⟨rfl, -⟩ := Prod.mk.inj (Option.some.inj made)
      exact ⟨rfl, take_yields count enough⟩
    unfold readHead at read
    dsimp only at read
    split at read
    · next small =>
      obtain ⟨rfl, -⟩ := Prod.mk.inj (Option.some.inj read)
      exact Nat.lt_trans small (by decide)
    · split at read
      · exact (wide read).2
      · next small one =>
        have long {count : Nat} {info : Nat} (large : 24 < info)
            (taken : head.info = info ∧ head.value < 256 ^ count)
            : head.value < 2 ^ 8 := by
          omega
        split at read
        · exact long (by omega) (wide read)
        · split at read
          · exact long (by omega) (wide read)
          · split at read
            · exact long (by omega) (wide read)
            · split at read
              · obtain ⟨rfl, -⟩ := Prod.mk.inj (Option.some.inj read)
                exact absurd short (by dsimp only; omega)
              · cases read

section Several

variable {α : Type} {step : Step α} {property : α → Prop}

theorem repeated_yields (each : Yields step property) {count front}
    (before : ∀ a ∈ front, property a)
    : Yields (repeated step count front) fun items =>
        items.length = front.length + count ∧ ∀ a ∈ items, property a := by
  intro bytes items rest read
  induction count generalizing front bytes with
  | zero =>
    obtain ⟨rfl, -⟩ := Prod.mk.inj (Option.some.inj read)
    exact ⟨length_reverse, fun a member => before a (mem_reverse.mp member)⟩
  | succ count ih =>
    obtain ⟨⟨a, between⟩, first, others⟩ := bind_eq_some_iff.mp read
    obtain ⟨length, all⟩ := ih (forall_mem_cons.mpr ⟨each first, before⟩) others
    exact ⟨by rw [length, length_cons]; omega, all⟩

theorem untilBreak_yields (each : Yields step property) {count front}
    (before : ∀ a ∈ front, property a)
    : Yields (untilBreak step count front) fun items =>
        items.length ≤ front.length + count ∧ ∀ a ∈ items, property a := by
  intro bytes items rest read
  fun_induction untilBreak step count front bytes with
  | case1 count front bytes =>
    obtain ⟨rfl, -⟩ := Prod.mk.inj (Option.some.inj read)
    rw [length_reverse]
    exact ⟨Nat.le_add_right _ _, fun a member => before a (mem_reverse.mp member)⟩
  | case2 => cases read
  | case3 count front bytes goesOn ih =>
    obtain ⟨⟨a, between⟩, first, others⟩ := bind_eq_some_iff.mp read
    obtain ⟨length, all⟩ := ih a between (forall_mem_cons.mpr ⟨each first, before⟩) others
    rw [length_cons] at length
    exact ⟨by omega, all⟩

end Several

theorem elements_yields {child} (each : Yields child Limited) (itemsEach head)
    : Yields (elements child itemsEach head) fun items =>
        items.length ≤ itemsEach * maxElements ∧ ∀ item ∈ items, Limited item := by
  intro bytes items rest read
  have none (item : Cbor) (member : item ∈ []) : Limited item := by cases member
  unfold elements at read
  split at read
  · obtain ⟨⟨found, between⟩, first, whole⟩ := bind_eq_some_iff.mp read
    dsimp only at whole
    split at whole
    · obtain ⟨rfl, -⟩ := Prod.mk.inj (Option.some.inj whole)
      have yields := untilBreak_yields each none first
      rwa [length_nil, Nat.zero_add] at yields
    · cases whole
  · split at read
    · cases read
    · next few =>
      obtain ⟨length, all⟩ := repeated_yields each none read
      rw [length_nil, Nat.zero_add] at length
      exact ⟨length ▸ Nat.mul_le_mul_left itemsEach (Nat.not_lt.mp few), all⟩

theorem limited_primitive {head} (short : head.info ≤ 24 → head.value < 2 ^ 8) {item}
    (found : primitive? head = some item)
    : item.Limited := by
  unfold primitive? at found
  split at found
  · next small =>
    cases found
    exact .simple (short (Nat.le_of_lt small))
  · split at found
    · next one =>
      split at found
      · cases found
      · cases found
        exact .simple (short (Nat.le_of_eq one))
    · split at found
      · cases found
        exact .half _
      · split at found
        · cases found
          exact .single _
        · split at found
          · cases found
            exact .double _
          · cases found

theorem untagged_yields {child} (each : ∀ step, child = some step → Yields step Limited)
    : Yields (untagged child) Limited := by
  intro bytes item rest read
  obtain ⟨⟨head, tail⟩, before, after⟩ := bind_eq_some_iff.mp read
  dsimp only at after
  split at after
  · split at after
    · cases after
    · cases after
      exact .unsigned _
  · split at after
    · cases after
    · cases after
      exact .negative _
  · obtain ⟨⟨pieces, between⟩, -, made⟩ := bind_eq_some_iff.mp after
    cases made
    exact .octets _
  · obtain ⟨⟨pieces, between⟩, -, made⟩ := bind_eq_some_iff.mp after
    cases made
    exact .text _
  · obtain ⟨step, inside, after⟩ := bind_eq_some_iff.mp after
    obtain ⟨⟨items, between⟩, elements, made⟩ := bind_eq_some_iff.mp after
    obtain ⟨few, all⟩ := elements_yields (each step inside) 1 head elements
    cases made
    exact .array (by rwa [Nat.one_mul] at few) all
  · obtain ⟨step, inside, after⟩ := bind_eq_some_iff.mp after
    obtain ⟨⟨items, between⟩, elements, made⟩ := bind_eq_some_iff.mp after
    cases made
    exact .map (elements_yields (each step inside) 2 head elements).2
  · obtain ⟨single, primitive, made⟩ := bind_eq_some_iff.mp after
    cases made
    exact limited_primitive (readHead_yields before) primitive
  · cases after

theorem tagged_yields {content} (inside : Yields content Limited)
    : Yields (tagged content) Limited := by
  intro bytes item rest read
  obtain ⟨⟨head, tail⟩, -, after⟩ := bind_eq_some_iff.mp read
  dsimp only at after
  split at after
  · cases after
  · obtain ⟨⟨content, between⟩, found, made⟩ := bind_eq_some_iff.mp after
    cases made
    exact .tag (inside found)

theorem maybeTagged_yields {content} (inside : Yields content Limited)
    : Yields (maybeTagged content) Limited := by
  intro bytes item rest read
  unfold maybeTagged at read
  split at read
  · exact tagged_yields inside read
  · exact inside read

theorem content_yields (levels) : Yields (content levels) Limited := by
  induction levels with
  | zero =>
    intro bytes item rest read
    rw [content] at read
    split at read
    · cases read
    · refine untagged_yields (fun step child => ?_) read
      cases child
  | succ levels ih =>
    intro bytes item rest read
    rw [content] at read
    split at read
    · exact tagged_yields ih read
    · refine untagged_yields (fun step child => ?_) read
      obtain rfl := Option.some.inj child
      exact maybeTagged_yields ih

theorem length_of_mapM {α β : Type} {f} {l : List α} {found : List β} (each : l.mapM f = some found)
    : found.length = l.length := by
  induction l generalizing found with
  | nil =>
    cases each
    rfl
  | cons a l ih =>
    rw [mapM_cons] at each
    obtain ⟨b, -, rest⟩ := bind_eq_some_iff.mp each
    obtain ⟨others, more, made⟩ := bind_eq_some_iff.mp rest
    cases made
    rw [length_cons, length_cons, ih more]

namespace Limited

variable {item : Cbor}

theorem toInt?_bounds (limited : item.Limited) {n} (found : item.toInt? = some n)
    : -2 ^ 63 ≤ n ∧ n < 2 ^ 63 := by
  have small {k : Nat} {made : Int}
      (found : (if k < 2 ^ 63 then some made else none) = some n)
      (word : k < 2 ^ 63 → -2 ^ 63 ≤ made ∧ made < 2 ^ 63)
      : -2 ^ 63 ≤ n ∧ n < 2 ^ 63 := by
    split at found
    · next fits => exact Option.some.inj found ▸ word fits
    · cases found
  induction limited with
  | unsigned k => exact small found (by omega)
  | negative k => exact small found (by omega)
  | simple byte =>
    rw [toInt?] at found
    split at found
    · obtain rfl := Option.some.inj found
      decide
    · split at found
      · cases found
      · obtain rfl := Option.some.inj found
        omega
  | tag inside ih =>
    unfold toInt? at found
    split at found
    · cases found
    iterate 3
      · split at found
        · exact small found (by omega)
        · exact small found (by omega)
        · cases found
    · exact ih found
  | octets | text | array | map | half | single | double => cases found

/-- There are no more samples than an array may have items. -/
theorem length_toSamples? (limited : item.Limited) {samples}
    (found : item.toSamples? = some samples)
    : samples.length ≤ maxElements := by
  induction limited with
  | array few each ih =>
    rw [toSamples?] at found
    rwa [length_of_mapM found]
  | simple byte =>
    rw [toSamples?] at found
    split at found
    · obtain rfl := Option.some.inj found
      exact Nat.zero_le _
    · cases found
  | tag inside ih =>
    rw [toSamples?] at found
    split at found
    · cases found
    · exact ih found
  | unsigned | negative | octets | text | map | half | single | double => cases found

end Limited

end Cbor

end MapAlgebra
