import MapAlgebra.Script.Operator
import MapAlgebra.Script.Vocabulary

/-! The instructions of the stack machine and their bytes. -/

namespace MapAlgebra

inductive Opcode where
  | nop | pop | dup
  | const | constZero | constOne
  | loadVar | storeVar
  | readImage | writeImage
  | builtin (which : Builtin)
  | arith (op : Arith)
  | neg | not | truthy
  | jump | jumpTrue | jumpFalse | loop
  | call
  | finish
deriving DecidableEq

namespace Opcode

def byte : Opcode → UInt8
  | nop => 0x00
  | pop => 0x01
  | dup => 0x02
  | const => 0x10
  | constZero => 0x11
  | constOne => 0x12
  | loadVar => 0x20
  | storeVar => 0x21
  | readImage => 0x30
  | writeImage => 0x31
  | builtin .column => 0x38
  | builtin .row => 0x39
  | builtin .width => 0x3A
  | builtin .height => 0x3B
  | arith .add => 0x50
  | arith .sub => 0x51
  | arith .mul => 0x52
  | arith .div => 0x53
  | arith .mod => 0x54
  | arith .pow => 0x55
  | neg => 0x56
  | arith .eq => 0x60
  | arith .ne => 0x61
  | arith .lt => 0x62
  | arith .le => 0x63
  | arith .gt => 0x64
  | arith .ge => 0x65
  | not => 0x68
  | truthy => 0x69
  | jump => 0x80
  | jumpTrue => 0x81
  | jumpFalse => 0x82
  | loop => 0x83
  | call => 0x90
  | finish => 0xF0

def ofByte? (b : UInt8) : Option Opcode :=
  match b.toNat with
  | 0x00 => some nop
  | 0x01 => some pop
  | 0x02 => some dup
  | 0x10 => some const
  | 0x11 => some constZero
  | 0x12 => some constOne
  | 0x20 => some loadVar
  | 0x21 => some storeVar
  | 0x30 => some readImage
  | 0x31 => some writeImage
  | 0x38 => some (builtin .column)
  | 0x39 => some (builtin .row)
  | 0x3A => some (builtin .width)
  | 0x3B => some (builtin .height)
  | 0x50 => some (arith .add)
  | 0x51 => some (arith .sub)
  | 0x52 => some (arith .mul)
  | 0x53 => some (arith .div)
  | 0x54 => some (arith .mod)
  | 0x55 => some (arith .pow)
  | 0x56 => some neg
  | 0x60 => some (arith .eq)
  | 0x61 => some (arith .ne)
  | 0x62 => some (arith .lt)
  | 0x63 => some (arith .le)
  | 0x64 => some (arith .gt)
  | 0x65 => some (arith .ge)
  | 0x68 => some not
  | 0x69 => some truthy
  | 0x80 => some jump
  | 0x81 => some jumpTrue
  | 0x82 => some jumpFalse
  | 0x83 => some loop
  | 0x90 => some call
  | 0xF0 => some finish
  | _ => none

def name : Opcode → String
  | nop => "NOP"
  | pop => "POP"
  | dup => "DUP"
  | const => "CONST"
  | constZero => "CONST_ZERO"
  | constOne => "CONST_ONE"
  | loadVar => "LOAD_VAR"
  | storeVar => "STORE_VAR"
  | readImage => "READ_IMAGE"
  | writeImage => "WRITE_IMAGE"
  | builtin .column => "X"
  | builtin .row => "Y"
  | builtin .width => "WIDTH"
  | builtin .height => "HEIGHT"
  | arith .add => "ADD"
  | arith .sub => "SUB"
  | arith .mul => "MUL"
  | arith .div => "DIV"
  | arith .mod => "MOD"
  | arith .pow => "POW"
  | neg => "NEG"
  | arith .eq => "EQ"
  | arith .ne => "NE"
  | arith .lt => "LT"
  | arith .le => "LE"
  | arith .gt => "GT"
  | arith .ge => "GE"
  | not => "NOT"
  | truthy => "TRUTHY"
  | jump => "JUMP"
  | jumpTrue => "JUMP_TRUE"
  | jumpFalse => "JUMP_FALSE"
  | loop => "LOOP"
  | call => "CALL"
  | finish => "RETURN"

def operandLength : Opcode → Nat
  | const | loadVar | storeVar | jump | jumpTrue | jumpFalse | loop => 2
  | readImage | writeImage => 1
  | call => 3
  | _ => 0

def length (op : Opcode) : Nat := 1 + op.operandLength

/-- How many values an instruction takes off the stack; minus one when its operand says so. -/
def pops : Opcode → Int
  | pop | dup | storeVar | writeImage | neg | not | truthy | jumpTrue | jumpFalse => 1
  | arith _ => 2
  | call => -1
  | _ => 0

def pushes : Opcode → Int
  | dup => 2
  | const | constZero | constOne | loadVar | readImage | builtin _ | arith _ | neg | not | truthy
  | call => 1
  | _ => 0

def isJump : Opcode → Bool
  | jump | jumpTrue | jumpFalse | loop => true
  | _ => false

def nameOfByte (b : UInt8) : String :=
  match ofByte? b with
  | some op => op.name
  | none => "UNKNOWN(0x" ++ Text.hexUpper 2 b.toNat ++ ")"

end Opcode

end MapAlgebra
