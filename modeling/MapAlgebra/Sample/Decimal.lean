import MapAlgebra.Sample
import MapAlgebra.Text.Layout

/-! Decimal numerals of samples: the fewest digits that read back as the same sample, a given number
of significant digits, and the reading of numerals. All of it is exact whole-number arithmetic.
-/

namespace MapAlgebra

/-- A positive decimal: the digits of `mantissa`, the first of which has the place `point`. -/
structure Decimal where
  mantissa : Nat
  point : Int
deriving DecidableEq

namespace Decimal

/-- Compares mantissa times two to the exponent with ten to the power `p`. -/
def reachesPower (mantissa : Nat) (exponent p : Int) : Bool :=
  10 ^ p.toNat * 2 ^ (-exponent).toNat ≤ mantissa * 2 ^ exponent.toNat * 10 ^ (-p).toNat

/-- The place of the first decimal digit of a positive binary number. The estimate from the binary
exponent is at most one off.
-/
def leadingPlace (mantissa : Nat) (exponent : Int) : Int :=
  let estimate := Int.fdiv ((exponent + mantissa.log2) * 30103) 100000
  if reachesPower mantissa exponent (estimate + 1) then estimate + 1
  else if reachesPower mantissa exponent estimate then estimate
  else estimate - 1

def inUnits (mantissa : Nat) (exponent u : Int) : Nat × Nat :=
  (mantissa * 2 ^ exponent.toNat * 10 ^ (-u).toNat, 2 ^ (-exponent).toNat * 10 ^ u.toNat)

def rounded (digits : Nat) (mantissa : Nat) (exponent : Int) : Decimal :=
  let place := leadingPlace mantissa exponent
  let (num, den) := inUnits mantissa exponent (place + 1 - digits)
  let q := Sample.roundDiv num den
  if q = 10 ^ digits then { mantissa := 10 ^ (digits - 1), point := place + 1 }
  else { mantissa := q, point := place }

/-- The decimals of `digits` digits that read back as the sample with this mantissa and
exponent, the nearest of them. All lengths are four times the true ones, so that the interval of
numbers that round to the sample has whole ends; they belong to it when the mantissa is even.
-/
def shortestOf? (digits : Nat) (mantissa : Nat) (exponent : Int) : Option Decimal :=
  let place := leadingPlace mantissa exponent
  let unit := place + 1 - digits
  let (low, den) := inUnits
    (if mantissa = 2 ^ 52 ∧ exponent > -1074 then 4 * mantissa - 1 else 4 * mantissa - 2)
    (exponent - 2) unit
  let (high, _) := inUnits (4 * mantissa + 2) (exponent - 2) unit
  let (value, _) := inUnits (4 * mantissa) (exponent - 2) unit
  let fits (q : Nat) : Bool :=
    if mantissa % 2 = 0 then low ≤ q * den && q * den ≤ high else low < q * den && q * den < high
  let down := value / den
  let up := down + 1
  let chosen :=
    match fits down, fits up with
    | true, true => some (Sample.roundDiv value den)
    | true, false => some down
    | false, true => some up
    | false, false => none
  chosen.map fun q =>
    if q = 10 ^ digits then { mantissa := 10 ^ (digits - 1), point := place + 1 }
    else { mantissa := q, point := place }

/-- The fewest digits that read back as the same sample; seventeen always do. -/
def shortest (mantissa : Nat) (exponent : Int) : Decimal :=
  ((List.range 17).findSome? fun n => shortestOf? (n + 1) mantissa exponent).getD
    (rounded 17 mantissa exponent)

def digits (d : Decimal) : List Char :=
  ((Nat.toDigits 10 d.mantissa).reverse.dropWhile (· = '0')).reverse

/-- How a numeral is laid out: positional for leading places from -4 up to below `limit`, else
with an exponent of at least two digits and its sign.
-/
def render (limit : Int) (d : Decimal) : String :=
  let ds := d.digits
  let place := d.point
  if place < -4 || place ≥ limit then
    let head := String.ofList (ds.take 1)
    let tail := ds.drop 1
    let fraction := if tail.isEmpty then "" else "." ++ String.ofList tail
    let sign := if place < 0 then "-" else "+"
    head ++ fraction ++ "e" ++ sign ++ Text.padLeft '0' 2 (toString place.natAbs)
  else if place < 0 then
    "0." ++ String.ofList (List.replicate (-place - 1).toNat '0' ++ ds)
  else
    let whole := place.toNat + 1
    if ds.length ≤ whole then String.ofList (ds ++ List.replicate (whole - ds.length) '0')
    else String.ofList (ds.take whole ++ '.' :: ds.drop whole)

end Decimal

namespace Sample

/-- The numeral of a sample, where `layout` writes a positive finite one. -/
def renderWith (layout : Nat → Int → String) (s : Sample) : String :=
  match s.shape with
  | .nan => "NaN"
  | .infinite negative => if negative then "-Inf" else "+Inf"
  | .finite negative mantissa exponent =>
    let sign := if negative then "-" else ""
    if mantissa = 0 then sign ++ "0" else sign ++ layout mantissa exponent

/-- The fewest digits that read back, with an exponent from a million on. -/
def render (s : Sample) : String :=
  s.renderWith fun mantissa exponent => (Decimal.shortest mantissa exponent).render 6

def renderDigits (digits : Nat) (s : Sample) : String :=
  s.renderWith fun mantissa exponent => (Decimal.rounded digits mantissa exponent).render digits

def renderWhole (s : Sample) : String :=
  s.renderWith fun mantissa exponent =>
    toString (roundDiv (mantissa * 2 ^ exponent.toNat) (2 ^ (-exponent).toNat))

def digitsValue (start : Nat) (ds : List Char) : Nat :=
  ds.foldl (fun n c => n * 10 + (c.toNat - '0'.toNat)) start

/-- A decimal numeral: its digits before the exponent as one number, how many of them stand behind the
point, and the sign and the digits of the exponent.
-/
structure Numeral where
  digits : Nat
  places : Nat
  negative : Bool
  power : List Char

def readFraction : List Char → List Char × List Char
  | '.' :: more => (more.takeWhile Char.isDigit, more.dropWhile Char.isDigit)
  | rest => ([], rest)

def readSign : List Char → Bool × List Char
  | '-' :: ds => (true, ds)
  | '+' :: ds => (false, ds)
  | ds => (false, ds)

/-- The sign and the digits of an exponent, which may be missing as a whole; nothing if it is
malformed.
-/
def readPower? : List Char → Option (Bool × List Char)
  | [] => some (false, [])
  | e :: more =>
    if e = 'e' || e = 'E' then
      let (negative, power) := readSign more
      if power.isEmpty || !power.all Char.isDigit then none else some (negative, power)
    else none

/-- Reads digits with an optional fraction and an optional exponent. Nothing if a character is left
over or no digit stands before the exponent.
-/
def readNumeral? (cs : List Char) : Option Numeral :=
  let whole := cs.takeWhile Char.isDigit
  let (fraction, rest) := readFraction (cs.dropWhile Char.isDigit)
  if whole.isEmpty && fraction.isEmpty then none
  else (readPower? rest).map fun (negative, power) =>
    { digits := digitsValue 0 (whole ++ fraction), places := fraction.length, negative, power }

/-- The number that the digits of an exponent spell, up to the digit with which it gets past four
digits. Numbers of such a size are too large or too small for a sample, unless very many digits stand
before the exponent.
-/
def exponentValue (ds : List Char) : Nat :=
  ds.foldl (fun n c => if n < 10000 then n * 10 + (c.toNat - '0'.toNat) else n) 0

/-- The power of ten that the last digit before the exponent is counted in. -/
def Numeral.exponent (n : Numeral) : Int :=
  let size : Int := exponentValue n.power
  (if n.negative then -size else size) - n.places

/-- Reads a numeral; nothing if it is malformed or past the largest finite sample. -/
def parse? (text : String) : Option Sample :=
  match readNumeral? text.toList with
  | none => none
  | some n =>
    let s := ofDecimal false n.digits n.exponent
    if s.isInfinite then none else some s

end Sample

end MapAlgebra
