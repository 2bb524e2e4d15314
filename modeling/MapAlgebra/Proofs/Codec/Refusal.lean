import MapAlgebra.Proofs.Codec.Reading

/-! What is not read: an item with more elements than the limit and whatever holds one, and an item
whose end is missing.
-/

namespace MapAlgebra

open List
open Option

namespace Cbor

/-- The bytes of the item are not read, whatever follows them, where so many levels are left. -/
def Refused (levels : Nat) (item : Cbor) : Prop :=
  ∀ rest, maybeTagged (content levels) (encode item ++ rest) = none

theorem refused_array {items} (many : maxElements < items.length) (fits : items.length < 2 ^ 64)
    (levels)
    : Refused levels (array items) := by
  intro rest
  refine maybeTagged_of_untagged rfl fun child => ?_
  obtain ⟨info, definite, -, -, read⟩ :=
    readHead_head (show 4 < 8 by decide) fits (encodeAll items ++ rest)
  rw [encode, append_assoc, untagged, read]
  cases child with
  | none => rfl
  | some child => simp [elements, definite, many]

variable {item : Cbor}

/-- Reading a count of items stops at the first that is refused. -/
theorem repeated_encodeAll_refused {step front}
    (each : ∀ item ∈ front, ∀ rest, step (encode item ++ rest) = some (item, rest))
    (refused : ∀ rest, step (encode item ++ rest) = none) (read : List Cbor) (rest : Bytes)
    : repeated step (front ++ [item]).length read (encodeAll (front ++ [item]) ++ rest) = none := by
  induction front generalizing read with
  | nil =>
    rw [nil_append, length_cons, encodeAll, append_assoc, repeated, refused]
    rfl
  | cons first front ih =>
    obtain ⟨here, others⟩ := forall_mem_cons.mp each
    rw [cons_append, length_cons, encodeAll, append_assoc, repeated, here]
    exact ih others (first :: read)

theorem refused_map {levels pairs front} (paired : (front ++ [item]).length = 2 * pairs)
    (few : pairs ≤ maxElements) (each : ∀ item ∈ front, Readable levels item)
    (refused : Refused levels item)
    : Refused (levels + 1) (map (front ++ [item])) := by
  intro rest
  have inside := repeated_encodeAll_refused
    (fun item member rest => maybeTagged_encode (each item member) rest) refused [] rest
  have half : (front ++ [item]).length / 2 = pairs := by omega
  have short : pairs < 2 ^ 64 := by rw [maxElements] at few; omega
  obtain ⟨info, definite, -, -, read⟩ :=
    readHead_head (show 5 < 8 by decide) short (encodeAll (front ++ [item]) ++ rest)
  rw [paired] at inside
  rw [maybeTagged_inside (startsWithTag_encode (.map _) rest), encode, append_assoc, half,
    untagged, read]
  simp [elements, definite, Nat.not_lt.mpr few, inside]

/-- What the step reads does not hang on the bytes that it leaves. -/
structure Leaves {α : Type} (step : Step α) : Prop where
  append : ∀ {bytes : Bytes} {a : α} {rest : Bytes}, step bytes = some (a, rest) →
    ∀ more, step (bytes ++ more) = some (a, rest ++ more)

variable {α : Type}

theorem leaves_none : Leaves fun _ => (none : Option (α × Bytes)) :=
  ⟨fun read => nomatch read⟩

theorem leaves_some (a : α) : Leaves fun bytes => some (a, bytes) := by
  refine ⟨fun read more => ?_⟩
  obtain ⟨rfl, rfl⟩ := Prod.mk.inj (Option.some.inj read)
  rfl

theorem Leaves.ite {step other : Step α} {c} [Decidable c] (left : Leaves step)
    (right : Leaves other)
    : Leaves fun bytes => if c then step bytes else other bytes := by
  split
  · exact left
  · exact right

theorem Leaves.bind {α β : Type} {step} {f : α → Step β} (first : Leaves step)
    (second : ∀ a, Leaves (f a))
    : Leaves fun bytes => step bytes >>= fun (a, rest) => f a rest := by
  refine ⟨fun {bytes b rest} read more => ?_⟩
  obtain ⟨⟨a, between⟩, before, after⟩ := bind_eq_some_iff.mp read
  rw [first.append before more]
  exact (second a).append after more

theorem take_leaves (count) : Leaves (take count) := by
  refine ⟨fun {bytes taken rest} read more => ?_⟩
  unfold take at read
  dsimp only at read
  split at read
  · next enough =>
    obtain ⟨rfl, rfl⟩ := Prod.mk.inj (Option.some.inj read)
    have front := take_append enough (bytes.drop count ++ more)
    rwa [← append_assoc, take_append_drop] at front
  · exact nomatch read

theorem readHead_leaves : Leaves readHead := by
  refine ⟨fun {bytes head rest} read more => ?_⟩
  cases bytes with
  | nil => cases read
  | cons first bytes =>
    have wide (count major info : Nat) : Leaves fun bytes => do
        let taken ← take count bytes
        return (({ major, info, value := ofBigEndian taken.1 } : Head), taken.2) :=
      (take_leaves count).bind fun value => leaves_some (Head.mk major info (ofBigEndian value))
    have behind : Leaves fun bytes => readHead (first :: bytes) :=
      .ite (leaves_some _) <| .ite (wide 1 _ _) <| .ite (wide 2 _ _) <| .ite (wide 4 _ _) <|
        .ite (wide 8 _ _) <| .ite (leaves_some _) leaves_none
    exact behind.append read more

theorem repeated_leaves {step} (each : Leaves step) (count) (read : List α)
    : Leaves (repeated step count read) := by
  induction count generalizing read with
  | zero => exact leaves_some _
  | succ count ih => exact each.bind fun a => ih (a :: read)

/-- A step that reads nothing off no bytes meets the end of an indefinite length where it stands. -/
theorem untilBreak_leaves {step} (each : Leaves step) (empty : step [] = none) {count}
    {front items : List α} {bytes rest}
    (read : untilBreak step count front bytes = some (items, rest)) (extra : Nat) (more : Bytes)
    : untilBreak step (count + extra) front (bytes ++ more) = some (items, rest ++ more) := by
  fun_induction untilBreak step count front bytes with
  | case1 count front bytes =>
    obtain ⟨rfl, rfl⟩ := Prod.mk.inj (Option.some.inj read)
    rw [cons_append, untilBreak]
  | case2 => exact nomatch read
  | case3 count front bytes goesOn ih =>
    obtain ⟨⟨a, between⟩, before, after⟩ := bind_eq_some_iff.mp read
    have longer : ∀ tail, bytes ++ more ≠ 255 :: tail := by
      intro tail same
      cases bytes with
      | nil => rw [empty] at before; exact nomatch before
      | cons first bytes => exact goesOn bytes (by rw [(List.cons.inj same).1])
    rw [Nat.succ_add, untilBreak.eq_3 _ _ _ _ longer, each.append before more]
    exact ih a between after

theorem piece_leaves (major) : Leaves (piece major) :=
  readHead_leaves.bind (f := fun (head : Head) bytes =>
    if head.major = major ∧ head.info ≠ 31 then take head.value bytes else none)
    fun head => (take_leaves head.value).ite leaves_none

theorem pieces_leaves (head) : Leaves (pieces head) := by
  refine ⟨fun {bytes strings rest} read more => ?_⟩
  unfold pieces at read ⊢
  split at read
  · next indefinite =>
    rw [if_pos indefinite, length_append]
    exact untilBreak_leaves (piece_leaves head.major) rfl read more.length more
  · next definite =>
    rw [if_neg definite]
    exact ((take_leaves head.value).bind fun only => leaves_some [only]).append read more

theorem elements_leaves {child : Step Cbor} (each : Leaves child) (empty : child [] = none)
    (itemsEach head)
    : Leaves (elements child itemsEach head) := by
  unfold elements
  generalize maxElements = limit
  have whole : Leaves (untilBreak child (itemsEach * limit) []) :=
    ⟨fun read more => untilBreak_leaves each empty read 0 more⟩
  refine .ite ?_ (leaves_none.ite (repeated_leaves each _ []))
  exact whole.bind (f := fun (items : List Cbor) bytes =>
    if items.length % itemsEach = 0 then some (items, bytes) else none)
    fun items => (leaves_some items).ite leaves_none

theorem untagged_leaves {child : Option (Step Cbor)}
    (each : ∀ step, child = some step → Leaves step ∧ step [] = none)
    : Leaves (untagged child) := by
  refine ⟨fun {bytes item rest} read more => ?_⟩
  obtain ⟨⟨head, tail⟩, before, after⟩ := bind_eq_some_iff.mp read
  rw [untagged, readHead_leaves.append before more]
  dsimp only [bind_eq_bind, bind_some] at after ⊢
  split at after
  · exact (leaves_none.ite (leaves_some (unsigned head.value))).append after more
  · exact (leaves_none.ite (leaves_some (negative head.value))).append after more
  · exact ((pieces_leaves head).bind fun pieces => leaves_some (octets pieces)).append after more
  · exact ((pieces_leaves head).bind fun pieces => leaves_some (text pieces)).append after more
  · cases child with
    | none => cases after
    | some child =>
      obtain ⟨leaves, empty⟩ := each child rfl
      exact ((elements_leaves leaves empty 1 head).bind fun items =>
        leaves_some (array items)).append after more
  · cases child with
    | none => cases after
    | some child =>
      obtain ⟨leaves, empty⟩ := each child rfl
      exact ((elements_leaves leaves empty 2 head).bind fun items =>
        leaves_some (map items)).append after more
  · cases alone : primitive? head with
    | none => rw [alone] at after; cases after
    | some single =>
      rw [alone] at after
      exact (leaves_some single).append after more
  · cases after

theorem tagged_leaves {content : Step Cbor} (inside : Leaves content) : Leaves (tagged content) :=
  readHead_leaves.bind (f := fun (head : Head) bytes =>
    if head.info = 31 then none else content bytes >>= fun read =>
      some (tag head.value read.1, read.2))
    fun head => leaves_none.ite (inside.bind fun item => leaves_some (tag head.value item))

/-- Whether a tag starts is told by the first byte. -/
theorem leaves_of_startsWithTag {tagged plain : Step Cbor} (left : Leaves tagged)
    (right : Leaves plain) (empty : plain [] = none)
    : Leaves fun bytes => if startsWithTag bytes then tagged bytes else plain bytes := by
  refine ⟨fun {bytes item rest} read more => ?_⟩
  cases bytes with
  | nil => exact nomatch empty.symm.trans read
  | cons first bytes =>
    exact (left.ite right).append read more

theorem content_nil (levels) : content levels [] = none := by
  cases levels <;> rfl

theorem maybeTagged_leaves {content : Step Cbor} (inside : Leaves content)
    (empty : content [] = none)
    : Leaves (maybeTagged content) :=
  leaves_of_startsWithTag (tagged_leaves inside) inside empty

theorem content_leaves (levels) : Leaves (content levels) := by
  induction levels with
  | zero =>
    exact leaves_of_startsWithTag leaves_none (untagged_leaves fun step none => nomatch none) rfl
  | succ levels ih =>
    have empty := content_nil levels
    refine leaves_of_startsWithTag (tagged_leaves ih) (untagged_leaves fun step child => ?_) rfl
    obtain rfl := Option.some.inj child
    exact ⟨maybeTagged_leaves ih empty, empty⟩

/-- An item whose end is missing is not read. -/
theorem read_eq_none_of_cut (readable : Readable maxLevels item) {front missing}
    (parts : encode item = front ++ missing) (cut : missing ≠ [])
    : read front = none := by
  cases found : read front with
  | none => rfl
  | some first =>
    obtain ⟨other, rest⟩ := first
    have leaves := maybeTagged_leaves (content_leaves maxLevels) (content_nil maxLevels)
    have whole := maybeTagged_encode readable []
    have longer := leaves.append found missing
    rw [append_nil, parts, longer] at whole
    have left := (Prod.mk.inj (Option.some.inj whole)).2
    exact absurd (append_eq_nil_iff.mp left).2 cut

end Cbor

end MapAlgebra
