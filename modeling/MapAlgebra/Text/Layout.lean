/-! Padding and hexadecimal numerals, as the listings and messages lay them out. -/

namespace MapAlgebra.Text

def padLeft (fill : Char) (width : Nat) (s : String) : String :=
  String.ofList (List.replicate (width - s.length) fill) ++ s

def padRight (fill : Char) (width : Nat) (s : String) : String :=
  s ++ String.ofList (List.replicate (width - s.length) fill)

def hexLower (width n : Nat) : String :=
  padLeft '0' width (String.ofList (Nat.toDigits 16 n))

def hexUpper (width n : Nat) : String :=
  padLeft '0' width (String.ofList ((Nat.toDigits 16 n).map Char.toUpper))

/-- A signed number in upper-case hexadecimal; a minus sign takes the place of one digit. -/
def hexUpperInt (width : Nat) (n : Int) : String :=
  if n < 0 then "-" ++ hexUpper (width - 1) n.natAbs else hexUpper width n.natAbs

def signed (n : Int) : String :=
  if n < 0 then toString n else "+" ++ toString n

def hexByte (b : UInt8) : String :=
  hexLower 2 b.toNat

def hexBytes (bytes : List UInt8) : String :=
  String.join (bytes.map hexByte)

def hexDigit? (c : Char) : Option Nat :=
  if '0' ≤ c && c ≤ '9' then some (c.toNat - '0'.toNat)
  else if 'a' ≤ c && c ≤ 'f' then some (c.toNat - 'a'.toNat + 10)
  else if 'A' ≤ c && c ≤ 'F' then some (c.toNat - 'A'.toNat + 10)
  else none

/-- The number spelled by hexadecimal digits; nothing if there is none or another character. -/
def hexNat? (digits : List Char) : Option Nat :=
  if digits.isEmpty then none
  else digits.foldlM (fun n c => (hexDigit? c).map (n * 16 + ·)) 0

def bytesOfHex? : List Char → Option (List UInt8)
  | [] => some []
  | [_] => none
  | high :: low :: rest => do
    let n ← hexNat? [high, low]
    let more ← bytesOfHex? rest
    pure (n.toUInt8 :: more)

end MapAlgebra.Text
