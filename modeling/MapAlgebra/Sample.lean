import MapAlgebra.Number

/-! Samples are 64-bit floating-point patterns. Loading and storing one keeps every bit, also the
payload of a value that is not a number; arithmetic goes through the floating-point unit.
-/

namespace MapAlgebra

/-- One value of a raster, a constant or a variable: a 64-bit floating-point pattern. -/
structure Sample where
  bits : UInt64
deriving DecidableEq

namespace Sample

def toFloat (s : Sample) : Float :=
  Float.ofBits s.bits

def ofFloat (x : Float) : Sample :=
  { bits := x.toBits }

def zero : Sample := { bits := 0 }

def one : Sample := { bits := 0x3FF0000000000000 }

def nan : Sample := { bits := 0x7FF8000000000001 }

def infinity : Sample := { bits := 0x7FF0000000000000 }

def ofBool (b : Bool) : Sample :=
  if b then one else zero

def signBit : UInt64 := 0x8000000000000000

def abs (s : Sample) : Sample :=
  { bits := s.bits &&& 0x7FFFFFFFFFFFFFFF }

def neg (s : Sample) : Sample :=
  { bits := s.bits ^^^ signBit }

/-- The sign bit is set, also for negative zero. -/
def isNegative (s : Sample) : Bool :=
  s.bits &&& signBit != 0

def isNaN (s : Sample) : Bool :=
  s.abs.bits > infinity.bits

def isInfinite (s : Sample) : Bool :=
  s.abs.bits == infinity.bits

def isZero (s : Sample) : Bool :=
  s.abs.bits == 0

/-- A value counts as true unless it is zero or not a number. -/
def truthy (s : Sample) : Bool :=
  !s.isZero && !s.isNaN

/-- What a pattern stands for. A finite value is its mantissa times two to the exponent. -/
inductive Shape where
  | nan
  | infinite (negative : Bool)
  | finite (negative : Bool) (mantissa : Nat) (exponent : Int)
deriving DecidableEq

def shape (s : Sample) : Shape :=
  let raw : Nat := s.bits.toNat
  let biased : Nat := raw / 2 ^ 52 % 2 ^ 11
  let fraction : Nat := raw % 2 ^ 52
  if biased = 2047 then
    if fraction = 0 then .infinite s.isNegative else .nan
  else if biased = 0 then .finite s.isNegative fraction (-1074)
  else .finite s.isNegative (2 ^ 52 + fraction) ((biased : Int) - 1075)

/-- The quotient rounded to the nearest integer, a half to the even one. -/
def roundDiv (num den : Nat) : Nat :=
  let q := num / den
  let r := num % den
  if 2 * r > den || (2 * r = den && q % 2 = 1) then q + 1 else q

def withSign (negative : Bool) (s : Sample) : Sample :=
  if negative then { bits := s.bits ||| signBit } else s

/-- The sample nearest to mantissa times two to the exponent, a half to the even one. Values past
the largest finite sample become infinite.
-/
def ofScaled (negative : Bool) (mantissa : Nat) (exponent : Int) : Sample :=
  if mantissa = 0 then withSign negative zero
  else
    let top := exponent + mantissa.log2
    let quantum := max (top - 52) (-1074)
    let rounded :=
      if quantum ≤ exponent then mantissa * 2 ^ (exponent - quantum).toNat
      else roundDiv mantissa (2 ^ (quantum - exponent).toNat)
    let raw := (quantum + 1074).toNat * 2 ^ 52 + rounded
    withSign negative { bits := (min raw infinity.bits.toNat).toUInt64 }

/-- The sample nearest to a quotient of whole numbers. One bit below the rounding position
stands for everything that the division left over.
-/
def ofQuotient (negative : Bool) (num den : Nat) : Sample :=
  let shift := den.log2 + 66 - num.log2
  let scaled := num * 2 ^ shift
  let sticky := if scaled % den = 0 then 0 else 1
  ofScaled negative (2 * (scaled / den) + sticky) (-(shift + 1 : Int))

def ofInt (n : Int) : Sample :=
  ofScaled (n < 0) n.natAbs 0

/-- The sample nearest to `digits` times ten to the exponent. Exponents far outside the range of
samples are settled without computing the power.
-/
def ofDecimal (negative : Bool) (digits : Nat) (exponent : Int) : Sample :=
  if digits = 0 then withSign negative zero
  else if exponent > 400 then withSign negative infinity
  else if exponent < -(400 + digits.log2 : Int) then withSign negative zero
  else if exponent ≥ 0 then ofScaled negative (digits * 10 ^ exponent.toNat) 0
  else ofQuotient negative digits (10 ^ (-exponent).toNat)

def add (a b : Sample) : Sample := ofFloat (a.toFloat + b.toFloat)

def sub (a b : Sample) : Sample := ofFloat (a.toFloat - b.toFloat)

def mul (a b : Sample) : Sample := ofFloat (a.toFloat * b.toFloat)

def div (a b : Sample) : Sample := ofFloat (a.toFloat / b.toFloat)

/-- Equal numbers; zeros of both signs are equal and not a number equals nothing. -/
def eq (a b : Sample) : Bool := a.toFloat == b.toFloat

/-- Different numbers; false as soon as one side is not a number. -/
def ne (a b : Sample) : Bool := !a.eq b && !a.isNaN && !b.isNaN

def lt (a b : Sample) : Bool := a.toFloat < b.toFloat

def le (a b : Sample) : Bool := a.toFloat ≤ b.toFloat

/-- The exact remainder of a division that truncates toward zero, with the sign of the dividend. -/
def mod (a b : Sample) : Sample :=
  match a.shape, b.shape with
  | .finite negative m e, .finite _ n f =>
    if n = 0 then nan
    else
      let low := min e f
      let dividend := m * 2 ^ (e - low).toNat
      let divisor := n * 2 ^ (f - low).toNat
      ofScaled negative (dividend % divisor) low
  | .finite .., .infinite _ => a
  | _, _ => nan

end Sample

end MapAlgebra
