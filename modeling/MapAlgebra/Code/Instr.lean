import MapAlgebra.Code.Opcode

/-! Instructions with their operands, and their encoding. Numbers of two bytes have the high byte
first; distances of jumps are signed and count from the end of the instruction.
-/

namespace MapAlgebra

inductive Instr where
  | nop | pop | dup
  | const (index : UInt16)
  | constZero | constOne
  | loadVar (slot : UInt16)
  | storeVar (slot : UInt16)
  | readImage (image : UInt8)
  | writeImage (image : UInt8)
  | builtin (which : Builtin)
  | arith (op : Arith)
  | neg | not | truthy
  | jump (distance : Int)
  | jumpTrue (distance : Int)
  | jumpFalse (distance : Int)
  | loop (distance : Int)
  | call (function : UInt16) (argc : UInt8)
  | finish
deriving DecidableEq

namespace Instr

def opcode : Instr → Opcode
  | nop => .nop
  | pop => .pop
  | dup => .dup
  | const _ => .const
  | constZero => .constZero
  | constOne => .constOne
  | loadVar _ => .loadVar
  | storeVar _ => .storeVar
  | readImage _ => .readImage
  | writeImage _ => .writeImage
  | builtin which => .builtin which
  | arith op => .arith op
  | neg => .neg
  | not => .not
  | truthy => .truthy
  | jump _ => .jump
  | jumpTrue _ => .jumpTrue
  | jumpFalse _ => .jumpFalse
  | loop _ => .loop
  | call .. => .call
  | finish => .finish

def word (n : UInt16) : List UInt8 :=
  [(n >>> 8).toUInt8, n.toUInt8]

/-- The two bytes of a distance; only its low sixteen bits are kept. -/
def distanceWord (distance : Int) : List UInt8 :=
  word (distance % 65536).toNat.toUInt16

def operands : Instr → List UInt8
  | const n | loadVar n | storeVar n => word n
  | readImage n | writeImage n => [n]
  | jump d | jumpTrue d | jumpFalse d | loop d => distanceWord d
  | call f argc => word f ++ [argc]
  | _ => []

def encode (i : Instr) : List UInt8 :=
  i.opcode.byte :: i.operands

def length (i : Instr) : Nat := i.opcode.length

def ofWord (high low : UInt8) : UInt16 :=
  (high.toUInt16 <<< 8) ||| low.toUInt16

def ofDistanceWord (high low : UInt8) : Int :=
  Int.bmod (ofWord high low).toNat 65536

/-- The instruction of an opcode and its operand bytes; nothing if their number is wrong. -/
def ofOperands? : Opcode → List UInt8 → Option Instr
  | .nop, [] => some nop
  | .pop, [] => some pop
  | .dup, [] => some dup
  | .const, [h, l] => some (const (ofWord h l))
  | .constZero, [] => some constZero
  | .constOne, [] => some constOne
  | .loadVar, [h, l] => some (loadVar (ofWord h l))
  | .storeVar, [h, l] => some (storeVar (ofWord h l))
  | .readImage, [n] => some (readImage n)
  | .writeImage, [n] => some (writeImage n)
  | .builtin which, [] => some (builtin which)
  | .arith op, [] => some (arith op)
  | .neg, [] => some neg
  | .not, [] => some not
  | .truthy, [] => some truthy
  | .jump, [h, l] => some (jump (ofDistanceWord h l))
  | .jumpTrue, [h, l] => some (jumpTrue (ofDistanceWord h l))
  | .jumpFalse, [h, l] => some (jumpFalse (ofDistanceWord h l))
  | .loop, [h, l] => some (loop (ofDistanceWord h l))
  | .call, [h, l, argc] => some (call (ofWord h l) argc)
  | .finish, [] => some finish
  | _, _ => none

inductive Decoded where
  | instr (i : Instr)
  /-- The operands of the opcode reach past the end. -/
  | truncated (op : Opcode)
  | unknown (byte : UInt8)
deriving DecidableEq

def decodeAt (code : Array UInt8) (offset : Nat) : Option Decoded :=
  match code[offset]? with
  | none => none
  | some byte =>
    match Opcode.ofByte? byte with
    | none => some (.unknown byte)
    | some op =>
      let operands := (List.range op.operandLength).filterMap fun i => code[offset + 1 + i]?
      match ofOperands? op operands with
      | some i => some (.instr i)
      | none => some (.truncated op)

end Instr

end MapAlgebra
