import MapAlgebra.Proofs.Code.Refinement
import MapAlgebra.Proofs.Word

/-! Code that is emitted piece by piece: jumps before their targets are known, with operands that are
filled in later, and constants and functions as they come up. It has the bytes and the marks of code that
is put together from the sizes of its parts.
-/

namespace MapAlgebra

open List
open Lower

namespace Chunk

/-- Emits the bytes of an instruction, or a mark where the code ends. -/
def emitItem (c : Chunk) : Item → Chunk
  | .instr i _ => c.append i.encode
  | .mark p => c.addMark (.ofPosition c.code.size p)

def emit (c : Chunk) (items : List Item) : Chunk :=
  items.foldl emitItem c

variable {c : Chunk} {items : List Item} {final : Pools}

/-- Emitted items stand behind the code, by induction on the items. -/
theorem emit_eq
    : c.emit items = { c with
        code := c.code ++ (items.flatMap Item.encode).toArray
        marks := marksFrom c.marks c.code.size items } := by
  induction items generalizing c with
  | nil => simp [emit, marksFrom]
  | cons item items ih =>
    rw [emit, foldl_cons, ← emit, ih]
    cases item with
    | instr i depth => simp [emitItem, append, marksFrom, Item.encode, Instr.length_encode]
    | mark p => simp [emitItem, addMark, marksFrom, Item.encode]

theorem size_emit : (c.emit items).code.size = c.code.size + size items := by
  rw [emit_eq, ← length_flatMap_encode items, Array.size_append]
  rfl

/-- A chunk has the code and the marks that emitting its items one after the other gives. -/
theorem chunk_emitted {name table body chunk} (lowered : Lower.chunk name table body = .ok chunk)
    : ∃ items, stmts (bodyPools body) body = .ok items
      ∧ chunk.code = ((empty name).emit (items ++ [.instr .finish 0])).code
      ∧ chunk.marks = ((empty name).emit (items ++ [.instr .finish 0])).marks := by
  simp only [Lower.chunk, bind_eq_ok, pure_eq_ok] at lowered
  obtain ⟨items, made, rfl⟩ := lowered
  exact ⟨items, made, by simp [emit_eq, empty], by simp [emit_eq, empty]⟩

section

variable {jump : Int → Instr} {op : UInt8} (coded : ∀ d, (jump d).encode = op :: Instr.distanceWord d)
include coded

/-- A jump whose target is not known stands for one over -1 bytes. -/
theorem emitJump_eq (depth) : c.emitJump op = c.emit [.instr (jump (-1)) depth] := by
  rw [emit, foldl_cons, emitItem, coded]
  rfl

/-- Filling in the operand of a jump behind the items that it leads over gives the jump that spans
their size, and is refused if there is none.
-/
theorem patch_emit (depth) (short : c.code.size + 3 + size items < 2 ^ 63)
    : ((c.emitJump op).emit items).patch (c.code.size + 1)
      = match jumpOver jump depth (size items) with
        | .ok skip => .done (c.emit (skip ++ items))
        | .error _ => .refused (.jumpTooFar (size items)) := by
  have three (d : Int) : (jump d).length = 3 := by
    rw [← Instr.length_encode, coded]
    rfl
  have emitted : (c.emitJump op).emit items = c.emit (.instr (jump (-1)) depth :: items) := by
    rw [emitJump_eq coded depth]
    rfl
  have ends : (c.emit (.instr (jump (-1)) depth :: items)).code.size
      = c.code.size + 3 + size items := by
    rw [size_emit, size_cons, Item.length_instr, three, Nat.add_assoc]
  have operand : ((c.code.size : Int) + 1).toNat = c.code.size + 1 := rfl
  have behind : wrap (c.code.size + 1 + 2) = c.code.size + 3 :=
    wrap_eq_self (by omega) (by omega)
  have distance : wrap ((c.code.size + 3 + size items : Nat) - (c.code.size + 3)) = size items := by
    rw [wrap_eq_self] <;> omega
  rw [emitted, patch, patchTo, ends, behind, distance, jumpOver]
  cases fits : fitsDistance (size items) with
  | false => rfl
  | true =>
    simp only [Instr.distanceWord, Instr.word, operand, Array.size_setIfInBounds, ends]
    rw [if_neg (by simp), if_neg (by omega), if_neg (by omega)]
    simp [emit_eq, Item.encode, coded, Instr.distanceWord, Instr.word, marksFrom, three,
      Nat.add_assoc]

end

/-- A jump back to where some items start spans them and itself. -/
theorem emitLoop_emit (short : c.code.size + 3 + size items < 2 ^ 63)
    : (c.emit items).emitLoop c.code.size
      = match back (size items + 3) with
        | .ok again => .ok (c.emit (items ++ again))
        | .error _ => .error (.loopTooLong (size items + 3)) := by
  have distance : wrap (c.code.size - ((c.code.size + size items : Nat) + 3))
      = -(size items + 3 : Nat) := by
    rw [wrap_eq_self] <;> omega
  have length : wrap (-(-(size items + 3 : Nat))) = size items + 3 := by
    rw [wrap_eq_self] <;> omega
  have within : fitsDistance (-(size items + 3 : Nat))
      ↔ ¬ (-(size items + 3 : Nat) : Int) < -32768 := by
    simp [fitsDistance]
    omega
  rw [emitLoop, size_emit, distance, back]
  by_cases fits : fitsDistance (-(size items + 3 : Nat))
  · rw [if_neg (within.mp fits), if_pos fits]
    simp [emit, emitItem]
  · rw [if_pos (not_not.mp (fits ∘ within.mpr)), if_neg fits, length]

theorem extends_refl (pools) : Pools.Extends pools pools :=
  ⟨⟨#[], by simp⟩, #[], by simp⟩

/-- A reference adds to the ends of the pools at most. -/
theorem extends_withReference (pools r) : Pools.Extends pools (pools.withReference r) := by
  have same := extends_refl pools
  unfold Pools.withReference withConstant withFunction
  split
  · split
    · exact same
    · split
      · exact same
      · exact ⟨⟨#[_], Array.push_eq_append⟩, same.functions⟩
  · split
    · exact same
    · exact ⟨same.constants, #[_], Array.push_eq_append⟩
  · exact same

/-- So do any number of references, by induction. -/
theorem extends_foldl (later : List Reference) (pools)
    : Pools.Extends pools (later.foldl Pools.withReference pools) := by
  induction later generalizing pools with
  | nil => exact extends_refl pools
  | cons r later ih =>
    obtain ⟨⟨values, first⟩, table, first'⟩ := extends_withReference pools r
    obtain ⟨⟨values', rest⟩, table', rest'⟩ := ih (pools.withReference r)
    rw [first, Array.append_assoc] at rest
    rw [first', Array.append_assoc] at rest'
    exact ⟨⟨_, rest⟩, _, rest'⟩

/-- The place of an element in a table is the same once it is put in, whatever follows. -/
theorem findIdx_grown {α : Type} {p : α → Bool} {a : α} (is : p a) (xs ys : Array α)
    : ((if xs.findIdx p < xs.size then xs else xs.push a) ++ ys).findIdx p = xs.findIdx p := by
  split
  · next found => rw [Array.findIdx_append, if_pos found]
  · next missing =>
    have ends : xs.findIdx p ≤ xs.size := Array.findIdx_le_size
    rw [Array.push_eq_append, Array.append_assoc, Array.findIdx_append, if_neg missing]
    simp [Array.findIdx_append, is]
    omega

/-- The pools as they are so far. -/
def pools (c : Chunk) : Pools := ⟨c.constants, c.functions⟩

/-- An emitted constant has the code that it has with the final pools. -/
theorem emitConstant_eq {v} (wider : (c.pools.withReference (.constant v)).Extends final) (depth)
    : c.emitConstant v = { c.emit [constant final depth v] with
        constants := (c.pools.withReference (.constant v)).constants } := by
  obtain ⟨⟨values, grown⟩, -⟩ := wider
  cases short : shortConstant? v with
  | some i => simp [emitConstant, constant, Chunk.pools, Pools.withReference, short, emit, emitItem, append]
  | none =>
    have place : constantIndex (withConstant c.constants v ++ values) v = constantIndex c.constants v :=
      findIdx_grown (p := (· == v)) (beq_self_eq_true v) c.constants values
    simp [emitConstant, constant, Chunk.pools, Pools.withReference, short, emit, emitItem, append,
      addConstant, place, grown]

/-- A function that is added has the index that it has in the final pools. -/
theorem addFunction_eq {f argc} (wider : (c.pools.withReference (.call (some f) argc)).Extends final)
    : c.addFunction f = ((functionIndex final.functions f).toUInt16,
        { c with functions := (c.pools.withReference (.call (some f) argc)).functions }) := by
  obtain ⟨-, table, grown⟩ := wider
  have place : functionIndex (withFunction c.functions f ++ table) f
      = functionIndex c.functions f := by
    simp only [withFunction, functionIndex_eq]
    exact findIdx_grown (p := fun g : Function => g.name == f.name) (beq_self_eq_true f.name) _ table
  rw [addFunction, grown, ← place]
  rfl

end Chunk

end MapAlgebra
