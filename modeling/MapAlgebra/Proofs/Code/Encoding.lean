import MapAlgebra.Code.Lower
import Mathlib.Data.List.Basic

/-! Reading code back. The bytes of items, decoded at the offset of an instruction, give that
instruction again, so what a machine runs can be told from the items alone.
-/

namespace MapAlgebra

open List

theorem Opcode.ofByte?_byte (op) : ofByte? op.byte = some op := by
  cases op with
  | builtin which => cases which <;> rfl
  | arith op => cases op <;> rfl
  | _ => rfl

namespace Instr

/-- The two bytes of a number give it back: the high one is its quotient by 256, the low one its
remainder.
-/
theorem ofWord_word (n : UInt16) : ofWord (n >>> 8).toUInt8 n.toUInt8 = n := by
  apply UInt16.toNat_inj.mp
  have bound : n.toNat < 65536 := n.toNat_lt
  simp only [ofWord, UInt16.toNat_or, UInt16.toNat_shiftLeft, UInt8.toNat_toUInt16,
    UInt16.toNat_toUInt8, UInt16.toNat_shiftRight]
  simp only [UInt16.reduceToNat, Nat.reduceMod, Nat.shiftRight_eq_div_pow, Nat.reducePow]
  rw [Nat.mod_eq_of_lt (by omega : n.toNat / 256 < 256),
    Nat.mod_eq_of_lt (by rw [Nat.shiftLeft_eq]; omega),
    ← Nat.shiftLeft_add_eq_or_of_lt (by omega : n.toNat % 256 < 2 ^ 8), Nat.shiftLeft_eq]
  omega

/-- The distance of an instruction fits into its operand. -/
def Encodable : Instr → Prop
  | jump d | jumpTrue d | jumpFalse d | loop d => fitsDistance d
  | _ => True

/-- The low sixteen bits of a distance that fits tell it, sign included. -/
theorem bmod_distance {d} (fits : fitsDistance d)
    : Int.bmod (d % 65536).toNat.toUInt16.toNat 65536 = d := by
  simp only [fitsDistance, Bool.and_eq_true, decide_eq_true_eq] at fits
  have low : (d % 65536).toNat.toUInt16.toNat = (d % 65536).toNat := by
    rw [Nat.toUInt16, UInt16.toNat_ofNat']
    omega
  rw [low, Int.bmod]
  omega

/-- The two bytes of a number, read as a distance, give its signed value. -/
theorem ofDistanceWord_word (n : UInt16)
    : ofDistanceWord (n >>> 8).toUInt8 n.toUInt8 = Int.bmod n.toNat 65536 :=
  congrArg (fun word : UInt16 => Int.bmod word.toNat 65536) (ofWord_word n)

theorem ofDistanceWord_distanceWord {d} (fits : fitsDistance d)
    : ∃ high low, distanceWord d = [high, low] ∧ ofDistanceWord high low = d :=
  ⟨_, _, rfl, (ofDistanceWord_word _).trans (bmod_distance fits)⟩

theorem ofOperands?_operands {i} (encodable : i.Encodable)
    : ofOperands? i.opcode i.operands = some i := by
  cases i with
  | const n => exact congrArg (some ∘ const) (ofWord_word n)
  | loadVar n => exact congrArg (some ∘ loadVar) (ofWord_word n)
  | storeVar n => exact congrArg (some ∘ storeVar) (ofWord_word n)
  | call n argc => exact congrArg (fun n => some (call n argc)) (ofWord_word n)
  | jump d | jumpTrue d | jumpFalse d | loop d =>
    obtain ⟨high, low, bytes, distance⟩ := ofDistanceWord_distanceWord encodable
    rw [operands, bytes, ← distance]
    rfl
  | _ => rfl

theorem length_operands (i : Instr) : i.operands.length = i.opcode.operandLength := by
  cases i <;> rfl

theorem length_encode (i : Instr) : i.encode.length = i.length := by
  simp only [encode, length_cons, length_operands, length, Opcode.length]
  omega

@[simp] theorem length_truthy : truthy.length = 1 := rfl

@[simp] theorem length_jump (d : Int) : (jump d).length = 3 := rfl

@[simp] theorem length_jumpFalse (d : Int) : (jumpFalse d).length = 3 := rfl

@[simp] theorem length_loop (d : Int) : (loop d).length = 3 := rfl

theorem length_pos (i : Instr) : 0 < i.length := by
  simp only [length, Opcode.length]
  omega

theorem filterMap_range_getElem? {α : Type} (l : List α)
    : (List.range l.length).filterMap (l[·]?) = l := by
  induction l with
  | nil => rfl
  | cons a l ih =>
    rw [length_cons, range_succ_eq_map, filterMap_cons]
    simpa [filterMap_map, Function.comp_def] using ih

theorem decodeAt_append {i} (encodable : i.Encodable) (before after : List UInt8)
    : decodeAt (before ++ i.encode ++ after).toArray before.length = some (.instr i) := by
  have byte : (before ++ i.encode ++ after).toArray[before.length]? = some i.opcode.byte := by
    simp [encode]
  have bytes : (List.range i.opcode.operandLength).filterMap
      (fun k => (before ++ i.encode ++ after).toArray[before.length + 1 + k]?) = i.operands := by
    rw [← length_operands]
    refine (filterMap_congr fun k member => ?_).trans (filterMap_range_getElem? i.operands)
    have inside : k < i.operands.length := mem_range.mp member
    simp only [List.getElem?_toArray, append_assoc, encode, cons_append]
    rw [List.getElem?_append_right (by omega),
      show before.length + 1 + k - before.length = k + 1 by omega, List.getElem?_cons_succ,
      List.getElem?_append_left inside]
  simp only [decodeAt, byte, Opcode.ofByte?_byte, bytes, ofOperands?_operands encodable]

end Instr

namespace Lower

theorem Item.length_encode (item : Item) : item.encode.length = item.length := by
  cases item with
  | instr i d => exact i.length_encode
  | mark p => rfl

@[simp] theorem Item.length_instr (i : Instr) (depth : Nat)
    : (Item.instr i depth).length = i.length := rfl

@[simp] theorem Item.length_mark (p : Position) : (Item.mark p).length = 0 := rfl

@[simp] theorem size_nil : size [] = 0 := rfl

/-- The bytes of the first item come before those of the rest. -/
@[simp] theorem size_cons (item : Item) (items : List Item)
    : size (item :: items) = item.length + size items := by
  simp [size]

@[simp] theorem size_append (first second : List Item)
    : size (first ++ second) = size first + size second := by
  simp [size]

/-- Items have as many bytes as their size says, by induction. -/
theorem length_flatMap_encode (items : List Item)
    : (items.flatMap Item.encode).length = size items := by
  induction items with
  | nil => rfl
  | cons item items ih =>
    simp only [flatMap_cons, length_append, Item.length_encode, ih, size_cons]

/-- A piece of the items stands at an offset, counted in bytes. -/
def Placed (whole : List Item) (offset : Nat) (piece : List Item) : Prop :=
  ∃ before after, whole = before ++ piece ++ after ∧ size before = offset

namespace Placed

variable {whole first second rest : List Item} {offset : Nat}

theorem all (whole) : Placed whole 0 whole :=
  ⟨[], [], by simp, rfl⟩

theorem cast {offset'} (placed : Placed whole offset first) (same : offset = offset')
    : Placed whole offset' first :=
  same ▸ placed

theorem left (placed : Placed whole offset (first ++ second)) : Placed whole offset first := by
  obtain ⟨before, after, rfl, start⟩ := placed
  exact ⟨before, second ++ after, by simp, start⟩

theorem right (placed : Placed whole offset (first ++ second))
    : Placed whole (offset + size first) second := by
  obtain ⟨before, after, rfl, start⟩ := placed
  exact ⟨before ++ first, after, by simp, by simp [start]⟩

theorem tail {item} (placed : Placed whole offset (item :: rest))
    : Placed whole (offset + item.length) rest := by
  have split : Placed whole offset ([item] ++ rest) := placed
  simpa using split.right

theorem afterInstr {i depth} (placed : Placed whole offset (.instr i depth :: rest))
    : Placed whole (offset + i.length) rest :=
  placed.tail

/-- A mark takes no bytes. -/
theorem afterMark {p} (placed : Placed whole offset (.mark p :: rest)) : Placed whole offset rest :=
  placed.tail

theorem mem {item} (placed : Placed whole offset (item :: rest)) : item ∈ whole := by
  obtain ⟨before, after, rfl, -⟩ := placed
  simp

theorem decode {i depth} (placed : Placed whole offset (.instr i depth :: rest))
    (encodable : i.Encodable)
    : Instr.decodeAt (whole.flatMap Item.encode).toArray offset = some (.instr i) := by
  obtain ⟨before, after, rfl, start⟩ := placed
  have bytes : (before ++ Item.instr i depth :: rest ++ after).flatMap Item.encode
      = before.flatMap Item.encode ++ i.encode ++ (rest ++ after).flatMap Item.encode := by
    simp [Item.encode]
  rw [bytes, ← start, ← length_flatMap_encode before]
  exact Instr.decodeAt_append encodable _ _

end Placed

end Lower

end MapAlgebra
