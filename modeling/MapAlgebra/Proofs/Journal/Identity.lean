import MapAlgebra.JobId
import MapAlgebra.Proofs.Text.Spelling

/-! The text of an identity spells it: two digits for each byte, with dashes between the groups. -/

namespace MapAlgebra

open List

theorem Text.toBytes_of_plain {s} (plain : ∀ c ∈ s.toList, c.toNat < 128)
    : toBytes s = s.toList.map fun c => UInt8.ofNat c.toNat := by
  rw [toBytes_eq]
  generalize s.toList = chars at plain
  induction chars with
  | nil => rfl
  | cons c chars ih =>
    obtain ⟨first, others⟩ := forall_mem_cons.mp plain
    have one : String.utf8EncodeChar c = [UInt8.ofNat c.toNat] :=
      if_pos (Nat.le_of_lt_succ first)
    rw [flatMap_cons, one, ih others, map_cons, singleton_append]

theorem Text.hexDigit?_digitChar {d} (small : d < 16)
    : hexDigit? (Nat.digitChar d) = some d ∧ (Nat.digitChar d).toNat < 128 := by
  revert d
  decide

theorem Text.toList_hexByte (b)
    : (hexByte b).toList = [Nat.digitChar (b.toNat / 16), Nat.digitChar (b.toNat % 16)] := by
  have small := b.toNat_lt
  rw [hexByte, hexLower, padLeft, String.toList_append, String.toList_ofList, String.toList_ofList,
    String.length_ofList]
  rcases Nat.lt_or_ge b.toNat 16 with short | long
  · rw [Nat.toDigits_of_lt_base short, Nat.div_eq_of_lt short, Nat.mod_eq_of_lt short]
    rfl
  · rw [Nat.toDigits_of_base_le (by decide) long, Nat.toDigits_of_lt_base (by omega)]
    rfl

theorem Text.bytesOfHex?_digits (bytes : Bytes)
    : bytesOfHex? (bytes.flatMap fun b => (hexByte b).toList) = some bytes := by
  induction bytes with
  | nil => rfl
  | cons b bytes ih =>
    have small := b.toNat_lt
    have high := (hexDigit?_digitChar (show b.toNat / 16 < 16 by omega)).1
    have low := (hexDigit?_digitChar (Nat.mod_lt b.toNat (show 16 > 0 by decide))).1
    have value : hexNat? [Nat.digitChar (b.toNat / 16), Nat.digitChar (b.toNat % 16)]
        = some b.toNat := by
      simp [hexNat?, high, low, Nat.div_add_mod']
    rw [flatMap_cons, toList_hexByte]
    simp [bytesOfHex?, value, ih]

namespace JobId

/-- The digits of an identity, without dashes. -/
def digits (id : JobId) : List Char :=
  id.bytes.flatMap fun b => (Text.hexByte b).toList

theorem length_digits (id : JobId) : id.digits.length = 2 * id.bytes.length := by
  unfold digits
  induction id.bytes with
  | nil => rfl
  | cons b bytes ih =>
    rw [flatMap_cons, length_append, ih, Text.toList_hexByte, length_cons]
    exact Nat.add_comm 2 _

theorem plain_digits {id : JobId} {c} (member : c ∈ id.digits) : c.toNat < 128 := by
  rcases mem_flatMap.mp member with ⟨b, -, inside⟩
  have small := b.toNat_lt
  rw [Text.toList_hexByte, mem_cons, mem_singleton] at inside
  rcases inside with rfl | rfl
  · exact (Text.hexDigit?_digitChar (by omega)).2
  · exact (Text.hexDigit?_digitChar (by omega)).2

theorem exists_groups {id : JobId} (identity : id.bytes.length = 16)
    : ∃ a b c d e : List Char, id.digits = a ++ b ++ c ++ d ++ e ∧ a.length = 8 ∧ b.length = 4
        ∧ c.length = 4 ∧ d.length = 4 ∧ e.length = 12
        ∧ id.render.toList = a ++ '-' :: b ++ '-' :: c ++ '-' :: d ++ '-' :: e := by
  have length := length_digits id
  rw [identity] at length
  refine ⟨id.digits.take 8, (id.digits.drop 8).take 4, (id.digits.drop 12).take 4,
    (id.digits.drop 16).take 4, (id.digits.drop 20).take 12, ?_, ?_, ?_, ?_, ?_, ?_, ?_⟩
  · have joined (i j : Nat)
        : id.digits.take i ++ (id.digits.drop i).take j = id.digits.take (i + j) :=
      take_add.symm
    rw [joined 8 4, joined 12 4, joined 16 4, joined 20 12, take_of_length_le (Nat.le_of_eq length)]
  · rw [length_take, length]
    rfl
  · rw [length_take, length_drop, length]
    rfl
  · rw [length_take, length_drop, length]
    rfl
  · rw [length_take, length_drop, length]
    rfl
  · rw [length_take, length_drop, length]
    rfl
  · rw [render, String.toList_intercalate]
    simp [groups, digits, List.intercalate]

/-- Digits that stand in groups with dashes between them are read as if they stood alone. -/
theorem ofDashed_groups {a b c d e : Bytes} (first : a.length = 8) (second : b.length = 4)
    (third : c.length = 4) (fourth : d.length = 4) (fifth : e.length = 12)
    : ofDashed (a ++ 0x2D :: b ++ 0x2D :: c ++ 0x2D :: d ++ 0x2D :: e)
      = ofDigits (a ++ b ++ c ++ d ++ e) := by
  have dashes : ([8, 13, 18, 23].all fun place =>
      (a ++ 0x2D :: b ++ 0x2D :: c ++ 0x2D :: d ++ 0x2D :: e)[place]? == some 0x2D) = true := by
    simp [List.getElem?_append, first, second, third, fourth]
  unfold ofDashed
  rw [if_pos dashes]
  simp [groups, drop_append, take_append, take_of_length_le, drop_eq_nil_of_le,
    first, second, third, fourth, fifth]

theorem ofDigits_digits (id) : ofDigits (id.digits.map fun c => UInt8.ofNat c.toNat) = .ok id := by
  have chars : plainChars (id.digits.map fun c => UInt8.ofNat c.toNat) = id.digits := by
    rw [plainChars, map_map]
    refine (map_congr_left fun c member => ?_).trans (map_id _)
    have value := UInt8.toNat_ofNat_of_lt' (Nat.lt_trans (plain_digits member) (by decide))
    exact (congrArg Char.ofNat value).trans (Char.ofNat_toNat c)
  rw [ofDigits, chars, digits, Text.bytesOfHex?_digits]

theorem ofText_render {id : JobId} (identity : id.bytes.length = 16)
    : ofText id.render = .ok id := by
  obtain ⟨a, b, c, d, e, digits, first, second, third, fourth, fifth, text⟩ :=
    exists_groups identity
  have plain : ∀ c ∈ id.render.toList, c.toNat < 128 := by
    intro c member
    have inside : c = '-' ∨ c ∈ id.digits := by
      grind
    rcases inside with rfl | digit
    · decide
    · exact plain_digits digit
  have bytes := Text.toBytes_of_plain plain
  have dash : UInt8.ofNat '-'.toNat = 0x2D := rfl
  simp only [text, map_append, map_cons, dash] at bytes
  have length : (Text.toBytes id.render).length = 36 := by
    simp [bytes, first, second, third, fourth, fifth]
  calc
    ofText id.render = ofDashed (Text.toBytes id.render) := by
      unfold ofText
      dsimp only
      rw [length]
      rfl
    _ = ofDigits (id.digits.map fun c => UInt8.ofNat c.toNat) := by
      rw [bytes, digits]
      simp only [map_append]
      exact ofDashed_groups ((length_map _).trans first) ((length_map _).trans second)
        ((length_map _).trans third) ((length_map _).trans fourth)
        ((length_map _).trans fifth)
    _ = .ok id := ofDigits_digits id

theorem render_inj {id id' : JobId} (identity : id.bytes.length = 16)
    (identity' : id'.bytes.length = 16)
    : id.render = id'.render ↔ id = id' := by
  refine ⟨fun same => ?_, congrArg render⟩
  have spelled := ofText_render identity
  rw [same, ofText_render identity'] at spelled
  exact (Except.ok.inj spelled).symm

end JobId

end MapAlgebra
