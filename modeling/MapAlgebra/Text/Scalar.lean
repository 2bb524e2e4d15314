/-! Script text is a byte string that need not be well-formed. Decoding splits it into scalars and
loses nothing: an ill-formed byte is read as the replacement character and keeps its one byte.
-/

namespace MapAlgebra

abbrev Bytes := List UInt8

/-- One character of a text together with the bytes that spell it. -/
structure Scalar where
  char : Char
  bytes : Bytes
deriving DecidableEq

namespace Scalar

/-- The character that stands for a byte which starts no well-formed sequence. -/
def replacement : Char := Char.ofNat 0xFFFD

def isTail (b : UInt8) : Bool :=
  0x80 ≤ b && b ≤ 0xBF

/-- How many continuation bytes follow a lead byte, and the least and greatest value of the first of
them. The narrowed ranges leave out overlong forms, surrogates and code points above 10FFFF.
-/
def leadShape (a : UInt8) : Option (Nat × UInt8 × UInt8) :=
  if 0xC2 ≤ a && a ≤ 0xDF then some (1, 0x80, 0xBF)
  else if a == 0xE0 then some (2, 0xA0, 0xBF)
  else if a == 0xED then some (2, 0x80, 0x9F)
  else if 0xE1 ≤ a && a ≤ 0xEF then some (2, 0x80, 0xBF)
  else if a == 0xF0 then some (3, 0x90, 0xBF)
  else if 0xF1 ≤ a && a ≤ 0xF3 then some (3, 0x80, 0xBF)
  else if a == 0xF4 then some (3, 0x80, 0x8F)
  else none

/-- The payload bits of a lead byte that announces `n` continuation bytes. -/
def leadPayload (a : UInt8) : Nat → Nat
  | 1 => a.toNat - 0xC0
  | 2 => a.toNat - 0xE0
  | _ => a.toNat - 0xF0

/-- The character that a lead byte and the bytes after it spell, and how many of those bytes belong
to it; nothing if the sequence is ill-formed.
-/
def multiByte? (a : UInt8) (rest : Bytes) : Option (Char × Nat) :=
  match leadShape a with
  | none => none
  | some (n, low, high) =>
    match rest.take n with
    | [] => none
    | b :: more =>
      if more.length + 1 = n && low ≤ b && b ≤ high && more.all isTail then
        let code := (b :: more).foldl (fun code t => code * 64 + (t.toNat - 0x80)) (leadPayload a n)
        some (Char.ofNat code, n)
      else none

/-- Decodes a text whose first `skip` bytes belong to a scalar that was already read. -/
def decodeAfter : (skip : Nat) → Bytes → List Scalar
  | _, [] => []
  | skip + 1, _ :: rest => decodeAfter skip rest
  | 0, a :: rest =>
    if a < 0x80 then
      { char := Char.ofNat a.toNat, bytes := [a] } :: decodeAfter 0 rest
    else
      match multiByte? a rest with
      | some (c, n) => { char := c, bytes := a :: rest.take n } :: decodeAfter n rest
      | none => { char := replacement, bytes := [a] } :: decodeAfter 0 rest

def decode (text : Bytes) : List Scalar :=
  decodeAfter 0 text

end Scalar

namespace Text

def toBytes (s : String) : Bytes :=
  s.toUTF8.toList

def ofBytes (text : Bytes) : String :=
  String.ofList ((Scalar.decode text).map (·.char))

def ofBytes? (text : Bytes) : Option String :=
  let scalars := Scalar.decode text
  if scalars.all (fun s => s.char != Scalar.replacement || s.bytes.length == 3) then
    some (String.ofList (scalars.map (·.char)))
  else none

end Text

end MapAlgebra
