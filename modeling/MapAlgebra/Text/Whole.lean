import MapAlgebra.Number
import MapAlgebra.Text.Layout

/-! Numerals of whole numbers: an optional sign, an optional mark of the base and digits, which
underscores may separate.
-/

namespace MapAlgebra

inductive WholeFault where
  | malformed
  | outOfRange
deriving DecidableEq

def WholeFault.message : WholeFault → String
  | malformed => "invalid syntax"
  | outOfRange => "value out of range"

namespace Whole

def markedBase? (c : Char) : Option Nat :=
  if c = 'x' || c = 'X' then some 16
  else if c = 'o' || c = 'O' then some 8
  else if c = 'b' || c = 'B' then some 2
  else none

/-- The base of a numeral without a sign, and its digits. A leading zero alone announces eight. -/
def base : List Char → Nat × List Char
  | ['0'] => (8, [])
  | ['0', c] => (8, [c])
  | '0' :: c :: rest =>
    match markedBase? c with
    | some b => (b, rest)
    | none => (8, c :: rest)
  | digits => (10, digits)

def digitsFrom (base : Nat) : (n : Nat) → List Char → Except WholeFault Nat
  | n, [] => .ok n
  | n, '_' :: rest => digitsFrom base n rest
  | n, c :: rest =>
    match (Text.hexDigit? c).filter (· < base) with
    | none => .error .malformed
    | some d =>
      if n * base + d < 2 ^ 64 then digitsFrom base (n * base + d) rest else .error .outOfRange

/-- Every underscore follows a digit, or the mark of a base, and is followed by a digit. -/
def underscoresFit : (digitBefore : Bool) → List Char → Bool
  | digitBefore, [] => digitBefore
  | digitBefore, c :: rest =>
    if c = '_' then digitBefore && underscoresFit false rest else underscoresFit true rest

def magnitude (text : List Char) : Except WholeFault Nat := do
  if text.isEmpty then throw .malformed
  let (b, digits) := base text
  let n ← digitsFrom b 0 digits
  let marked := text.length ≥ 3 && ((text[1]?.bind markedBase?).isSome && text.head? == some '0')
  if text.contains '_' && !underscoresFit marked (if marked then digits else text) then
    throw .malformed
  return n

def parse (text : List Char) : Except WholeFault Int := do
  let (negative, digits) :=
    match text with
    | '-' :: rest => (true, rest)
    | '+' :: rest => (false, rest)
    | rest => (false, rest)
  let n ← magnitude digits
  if negative then
    if n ≤ 2 ^ 63 then return -n else throw .outOfRange
  else if n < 2 ^ 63 then return n
  else throw .outOfRange

end Whole

end MapAlgebra
