import MapAlgebra.Text.Scalar

/-! The words of a text, as an editor points at them. Lines and places in a line are counted
from zero, and places count bytes.
-/

namespace MapAlgebra.Editor

/-- A byte that may stand in a name: a letter or a digit when the byte is read as a code point,
or an underscore.
-/
def isWordByte (b : UInt8) : Bool :=
  let n := b.toNat
  let between (low high : Nat) : Bool := low ≤ n && n ≤ high
  between 0x30 0x39 || between 0x41 0x5A || n == 0x5F || between 0x61 0x7A || n == 0xAA || n == 0xB5
    || n == 0xBA || between 0xC0 0xD6 || between 0xD8 0xF6 || between 0xF8 0xFF

def cutLine (text : Bytes) (line place : Nat) : Bytes × Bytes :=
  let bytes := ((text.splitOn 0x0A)[line]?).getD []
  (bytes.take place, bytes.drop place)

def wordBefore (text : Bytes) (line place : Nat) : Bytes :=
  ((cutLine text line place).1.reverse.takeWhile isWordByte).reverse

def wordAt (text : Bytes) (line place : Nat) : Bytes :=
  wordBefore text line place ++ (cutLine text line place).2.takeWhile isWordByte

end MapAlgebra.Editor
