import MapAlgebra.Sample

/-! Narrower floating-point formats, for writing samples in fewer bits when that loses nothing. -/

namespace MapAlgebra

structure FloatFormat where
  exponentBits : Nat
  fractionBits : Nat
deriving DecidableEq

namespace FloatFormat

def half : FloatFormat := { exponentBits := 5, fractionBits := 10 }

def single : FloatFormat := { exponentBits := 8, fractionBits := 23 }

def topExponent (f : FloatFormat) : Nat := 2 ^ f.exponentBits - 1

def leastExponent (f : FloatFormat) : Int :=
  2 - 2 ^ (f.exponentBits - 1) - f.fractionBits

def signBit (f : FloatFormat) : Nat := 2 ^ (f.exponentBits + f.fractionBits)

/-- The sample with the value of a pattern. What is not a number keeps its fraction and becomes
quiet.
-/
def widen (f : FloatFormat) (pattern : Nat) : Sample :=
  let negative := pattern / f.signBit % 2 = 1
  let exponent := pattern / 2 ^ f.fractionBits % 2 ^ f.exponentBits
  let fraction := pattern % 2 ^ f.fractionBits
  if exponent = f.topExponent then
    if fraction = 0 then .withSign negative .infinity
    else
      .withSign negative
        { bits := 0x7FF8000000000000 ||| (fraction * 2 ^ (52 - f.fractionBits)).toUInt64 }
  else if exponent = 0 then .ofScaled negative fraction f.leastExponent
  else .ofScaled negative (2 ^ f.fractionBits + fraction) (f.leastExponent + exponent - 1)

/-- The pattern of a finite value that is not negative, if it is a multiple of the lowest bit it
would have.
-/
def pattern? (f : FloatFormat) (mantissa : Nat) (exponent : Int) : Option Nat :=
  if mantissa = 0 then some 0
  else
    let quantum := max (exponent + mantissa.log2 - f.fractionBits) f.leastExponent
    let scale := 2 ^ (quantum - exponent).toNat
    if mantissa % scale = 0 then
      let units := mantissa * 2 ^ (exponent - quantum).toNat / scale
      let pattern := (quantum - f.leastExponent).toNat * 2 ^ f.fractionBits + units
      if pattern < f.topExponent * 2 ^ f.fractionBits then some pattern else none
    else none

/-- The pattern of a magnitude, if the format has it. Nothing that is not a number is narrowed. -/
def magnitude? (f : FloatFormat) : Sample.Shape → Option Nat
  | .nan => none
  | .infinite _ => some (f.topExponent * 2 ^ f.fractionBits)
  | .finite _ mantissa exponent => f.pattern? mantissa exponent

def narrow? (f : FloatFormat) (s : Sample) : Option Nat :=
  (f.magnitude? s.shape).map ((if s.isNegative then f.signBit else 0) + ·)

end FloatFormat

end MapAlgebra
