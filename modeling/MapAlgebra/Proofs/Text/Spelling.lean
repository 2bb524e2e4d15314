import MapAlgebra.Text.Scalar

/-! A text is read back from its bytes: each character is spelled by one to four of them, and those are
one scalar again.
-/

namespace MapAlgebra

open List
open UInt8

theorem Text.toList_byteArray (bytes : ByteArray) : bytes.toList = bytes.data.toList := by
  have loop (i : Nat) (front : List UInt8)
      : ByteArray.toList.loop bytes i front = front.reverse ++ bytes.data.toList.drop i := by
    induction i, front using ByteArray.toList.loop.induct bytes with
    | case1 i front more ih =>
      have here : bytes.data.toList.drop i = bytes.get! i :: bytes.data.toList.drop (i + 1) := by
        have inside : i < bytes.data.toList.length := more
        rw [drop_eq_getElem_cons inside]
        congr 1
        exact (getElem!_pos bytes.data i more).symm
      rw [ByteArray.toList.loop, if_pos more, ih, here, reverse_cons, append_assoc,
        singleton_append]
    | case2 i front done =>
      have past : bytes.data.toList.length ≤ i := Nat.not_lt.mp done
      rw [ByteArray.toList.loop, if_neg done, drop_eq_nil_of_le past, append_nil]
  exact loop 0 []

theorem Text.toBytes_eq (s : String) : toBytes s = s.toList.flatMap String.utf8EncodeChar := by
  rw [toBytes, toList_byteArray, String.toUTF8_eq_toByteArray, ← String.utf8Encode_toList,
    List.utf8Encode, toList_data_toByteArray]

namespace Scalar

/-- The lead byte announces so many bytes, and the first of them may follow it. -/
def Announces (a : UInt8) (count : Nat) (b : UInt8) : Prop :=
  ∃ least most, leadShape a = some (count, least, most) ∧ least ≤ b ∧ b ≤ most

variable {a b : UInt8}

theorem announces_one (lead : 0xC2 ≤ a.toNat ∧ a.toNat ≤ 0xDF)
    (tail : 0x80 ≤ b.toNat ∧ b.toNat ≤ 0xBF)
    : Announces a 1 b := by
  simp only [Announces, leadShape, Bool.and_eq_true, decide_eq_true_eq, beq_iff_eq,
    UInt8.le_iff_toNat_le, ← UInt8.toNat_inj, UInt8.reduceToNat]
  rw [if_pos lead]
  exact ⟨_, _, rfl, tail⟩

theorem announces_two (lead : 0xE0 ≤ a.toNat ∧ a.toNat ≤ 0xEF)
    (tail : 0x80 ≤ b.toNat ∧ b.toNat ≤ 0xBF) (long : a.toNat = 0xE0 → 0xA0 ≤ b.toNat)
    (scalar : a.toNat = 0xED → b.toNat ≤ 0x9F)
    : Announces a 2 b := by
  simp only [Announces, leadShape, Bool.and_eq_true, decide_eq_true_eq, beq_iff_eq,
    UInt8.le_iff_toNat_le, ← UInt8.toNat_inj, UInt8.reduceToNat]
  rw [if_neg (by omega)]
  split
  · next first => exact ⟨_, _, rfl, long first, tail.2⟩
  · split
    · next middle => exact ⟨_, _, rfl, tail.1, scalar middle⟩
    · rw [if_pos (by omega)]
      exact ⟨_, _, rfl, tail⟩

/-- Overlong forms and numbers past the last character are left out. -/
theorem announces_three (lead : 0xF0 ≤ a.toNat ∧ a.toNat ≤ 0xF4)
    (tail : 0x80 ≤ b.toNat ∧ b.toNat ≤ 0xBF) (long : a.toNat = 0xF0 → 0x90 ≤ b.toNat)
    (last : a.toNat = 0xF4 → b.toNat ≤ 0x8F)
    : Announces a 3 b := by
  simp only [Announces, leadShape, Bool.and_eq_true, decide_eq_true_eq, beq_iff_eq,
    UInt8.le_iff_toNat_le, ← UInt8.toNat_inj, UInt8.reduceToNat]
  rw [if_neg (by omega), if_neg (by omega), if_neg (by omega), if_neg (by omega)]
  split
  · next first => exact ⟨_, _, rfl, long first, tail.2⟩
  · split
    · exact ⟨_, _, rfl, tail⟩
    · rw [if_pos (by omega)]
      exact ⟨_, _, rfl, tail.1, last (by omega)⟩

theorem decodeAfter_length (front rest)
    : decodeAfter front.length (front ++ rest) = decodeAfter 0 rest := by
  induction front with
  | nil => rfl
  | cons b front ih =>
    rw [length_cons, cons_append, decodeAfter]
    exact ih

theorem decodeAfter_sequence (more : Bytes) {c} (lead : 0x80 ≤ a.toNat)
    (announced : Announces a (more.length + 1) b) (tails : ∀ t ∈ more, isTail t = true)
    (code : (b :: more).foldl (fun code t => code * 64 + (t.toNat - 0x80)) (leadPayload a (more.length + 1)) = c.toNat)
    (rest : Bytes)
    : decodeAfter 0 (a :: b :: more ++ rest) = ⟨c, a :: b :: more⟩ :: decodeAfter 0 rest := by
  obtain ⟨least, most, shape, low, high⟩ := announced
  have taken : (b :: more ++ rest).take (more.length + 1) = b :: more :=
    take_left' length_cons
  have formed : (decide (more.length + 1 = more.length + 1) && decide (least ≤ b)
      && decide (b ≤ most) && more.all isTail) = true := by
    simp only [decide_true, Bool.true_and, Bool.and_eq_true, decide_eq_true_eq, all_eq_true]
    exact ⟨⟨low, high⟩, tails⟩
  have read : multiByte? a (b :: more ++ rest) = some (c, more.length + 1) := by
    rw [multiByte?, shape]
    dsimp only
    rw [taken]
    dsimp only
    rw [if_pos formed, code, Char.ofNat_toNat]
  have notPlain : ¬ a < 0x80 := by
    rw [lt_iff_toNat_lt]
    exact Nat.not_lt.mpr lead
  rw [cons_append, decodeAfter, if_neg notPlain, read]
  dsimp only
  rw [taken]
  exact congrArg _ (decodeAfter_length (b :: more) rest)

theorem toNat_tail (n) : (ofNat (n % 64 + 0x80)).toNat = n % 64 + 0x80 :=
  toNat_ofNat_of_lt' (show _ < 256 by omega)

theorem isTail_tail (n) : isTail (UInt8.ofNat (n % 64 + 0x80)) = true := by
  simp only [isTail, Bool.and_eq_true, decide_eq_true_eq, UInt8.le_iff_toNat_le, toNat_tail,
    UInt8.reduceToNat]
  omega

/-- The bytes that spell a character are one scalar, whatever follows them. -/
theorem decodeAfter_utf8EncodeChar (c : Char) (rest : Bytes)
    : decodeAfter 0 (String.utf8EncodeChar c ++ rest)
      = ⟨c, String.utf8EncodeChar c⟩ :: decodeAfter 0 rest := by
  have valid : c.toNat < 0xD800 ∨ 0xDFFF < c.toNat ∧ c.toNat < 0x110000 := c.valid
  have last := toNat_tail c.toNat
  have second := toNat_tail (c.toNat / 64)
  have third := toNat_tail (c.toNat / 4096)
  unfold String.utf8EncodeChar
  rw [Char.toNat_val]
  dsimp only
  split
  · next one =>
    have value := toNat_ofNat_of_lt' (show c.toNat < 256 by omega)
    have plain : ofNat c.toNat < 0x80 := by
      rw [lt_iff_toNat_lt, value]
      exact Nat.lt_succ_of_le one
    rw [singleton_append, decodeAfter, if_pos plain, value, Char.ofNat_toNat]
  · split
    · next two =>
      have lead := toNat_ofNat_of_lt' (show c.toNat / 64 % 32 + 0xC0 < 256 by omega)
      refine decodeAfter_sequence [] (by omega) (announces_one (by omega) (by omega)) ?_ ?_ rest
      · exact fun t none => nomatch none
      · show (toNat _ - 0xC0) * 64 + (toNat _ - 0x80) = _
        rw [lead, last]
        omega
    · split
      · next three =>
        have lead := toNat_ofNat_of_lt' (show c.toNat / 4096 % 16 + 0xE0 < 256 by omega)
        refine decodeAfter_sequence [_] (by omega)
          (announces_two (by omega) (by omega) (by omega) (by omega)) ?_ ?_ rest
        · exact forall_mem_singleton.mpr (isTail_tail _)
        · show ((toNat _ - 0xE0) * 64 + (toNat _ - 0x80)) * 64
            + (toNat _ - 0x80) = _
          rw [lead, second, last]
          omega
      · next four =>
        have lead := toNat_ofNat_of_lt' (show c.toNat / 262144 % 8 + 0xF0 < 256 by omega)
        refine decodeAfter_sequence [_, _] (by omega)
          (announces_three (by omega) (by omega) (by omega) (by omega)) ?_ ?_ rest
        · exact forall_mem_cons.mpr
            ⟨isTail_tail _, forall_mem_singleton.mpr (isTail_tail _)⟩
        · show (((toNat _ - 0xF0) * 64 + (toNat _ - 0x80)) * 64
            + (toNat _ - 0x80)) * 64 + (toNat _ - 0x80) = _
          rw [lead, third, second, last]
          omega

theorem decode_toBytes (s)
    : decode (Text.toBytes s) = s.toList.map fun c => ⟨c, String.utf8EncodeChar c⟩ := by
  rw [Text.toBytes_eq, decode]
  generalize s.toList = chars
  induction chars with
  | nil => rfl
  | cons c chars ih => rw [flatMap_cons, decodeAfter_utf8EncodeChar, ih, map_cons]

end Scalar

theorem Text.ofBytes?_toBytes (s) : ofBytes? (toBytes s) = some s := by
  have spelled (c : Char)
      : (c != Scalar.replacement || (String.utf8EncodeChar c).length == 3) = true := by
    by_cases replaced : c = Scalar.replacement
    · subst replaced
      decide
    · simp [replaced]
  have formed : ((s.toList.map fun c => (⟨c, String.utf8EncodeChar c⟩ : Scalar)).all
      fun s => s.char != Scalar.replacement || s.bytes.length == 3) = true := by
    rw [all_map, all_eq_true]
    exact fun c _ => spelled c
  unfold ofBytes?
  rw [Scalar.decode_toBytes, if_pos formed, map_map]
  exact congrArg some ((congrArg String.ofList (map_id _)).trans String.ofList_toList)

end MapAlgebra
