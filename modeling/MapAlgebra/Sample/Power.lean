import MapAlgebra.Sample

/-! Powers, extrema and distances of samples, with the special cases of zeros, infinities and values
that are not numbers.
-/

namespace MapAlgebra.Sample

def isOddInteger (s : Sample) : Bool :=
  match s.shape with
  | .finite _ m e =>
    if e > 0 then false else m % 2 ^ (-e).toNat = 0 && m / 2 ^ (-e).toNat % 2 = 1
  | _ => false

def wholePart (s : Sample) : Nat :=
  match s.shape with
  | .finite _ m e => m * 2 ^ e.toNat / 2 ^ (-e).toNat
  | _ => 0

def fractionPart (s : Sample) : Sample :=
  match s.shape with
  | .finite _ m e => ofScaled false (m % 2 ^ (-e).toNat) e
  | _ => zero

def scale (s : Sample) (exponent : Int) : Sample :=
  match s.shape with
  | .finite negative m e =>
    -- Past this bound every finite sample is infinite or zero already.
    ofScaled negative m (e + max (-5000) (min 5000 exponent))
  | _ => s

/-- A finite sample other than zero as a factor from one half to below one and a binary exponent. -/
def split (s : Sample) : Sample × Int :=
  match s.shape with
  | .finite negative m e =>
    if m = 0 then (s, 0) else (ofScaled negative m (-(m.log2 + 1 : Int)), e + m.log2 + 1)
  | _ => (s, 0)

/-- Repeated squaring with the binary exponents kept apart: the product of the factors for the bits
of `n` and the sum of their exponents. Exponents past 4096 overflow whatever follows.
-/
def powSteps : (bits n : Nat) → (product factor : Sample) → (total exponent : Int) → Sample × Int
  | 0, _, product, _, total, _ => (product, total)
  | bits + 1, n, product, factor, total, exponent =>
    if n = 0 then (product, total)
    else if exponent < -4096 || 4096 < exponent then (product, total + exponent)
    else
      let (product, total) :=
        if n % 2 = 1 then (product.mul factor, total + exponent) else (product, total)
      let square := factor.mul factor
      if square.lt (ofScaled false 1 (-1)) then
        powSteps bits (n / 2) product (square.add square) total (exponent * 2 - 1)
      else
        powSteps bits (n / 2) product square total (exponent * 2)

/-- The exponential. The result is scaled by the power of two nearest to it, so it is infinite as
soon as that power is, a little before the largest sample is reached.
-/
def exp (s : Sample) : Sample :=
  let exponent := s.mul (ofFloat 1.4426950408889634)
  if (ofFloat 1023.5).le exponent then infinity else ofFloat s.toFloat.exp

/-- The natural logarithm. A subnormal sample is read as if its leading digit were one: the
exponent and the fraction are taken from their fields as they stand.
-/
def log (s : Sample) : Sample :=
  let fraction := s.bits.toNat
  if 0 < fraction && fraction < 2 ^ 52 then
    ofFloat (ofScaled false (2 ^ 52 + fraction) (-52)).toFloat.log |>.sub
      (ofFloat ((1023 : Float) * (2 : Float).log))
  else ofFloat s.toFloat.log

/-- The power of finite samples other than zero. The whole part of the exponent is taken by repeated
squaring and a remaining fraction by logarithm; a negative exponent inverts the result.
-/
def powFinite (x y : Sample) : Sample :=
  let magnitude := y.abs
  let whole := magnitude.wholePart
  let fraction := magnitude.fractionPart
  if !fraction.isZero && x.lt zero then nan
  else if whole ≥ 2 ^ 63 then
    if x.eq one.neg then one
    else if x.abs.lt one == zero.lt y then zero
    else infinity
  else
    let half := ofScaled false 1 (-1)
    let (whole, fraction) :=
      if half.lt fraction then (whole + 1, fraction.sub one) else (whole, fraction)
    let start :=
      if fraction.isZero then one
      else (fraction.mul x.log).exp
    let (factor, exponent) := x.split
    let (product, total) := powSteps 64 whole start factor 0 exponent
    if y.lt zero then (one.div product).scale (-total) else product.scale total

/-- The power of zero: zero or infinity, negative for an odd exponent of negative zero. -/
def powOfZero (x y : Sample) : Sample :=
  if y.lt zero then
    if x.isNegative && y.isOddInteger then infinity.neg else infinity
  else if x.isNegative && y.isOddInteger then x
  else zero

/-- The power with its special cases. Anything to the power zero and one to any power are one. -/
def pow (x y : Sample) : Sample :=
  if y.isZero || x.eq one then one
  else if y.eq one then x
  else if x.isNaN || y.isNaN then nan
  else if x.isZero then powOfZero x y
  else if y.isInfinite then
    if x.eq one.neg then one
    else if x.abs.lt one == !y.isNegative then zero
    else infinity
  else if x.isInfinite then
    if x.isNegative then powOfZero zero.neg y.neg
    else if y.isNegative then zero
    else infinity
  else if y.eq (ofScaled false 1 (-1)) then ofFloat x.toFloat.sqrt
  else if y.eq (ofScaled true 1 (-1)) then one.div (ofFloat x.toFloat.sqrt)
  else powFinite x y

/-- The larger one. Positive infinity wins over everything, a value that is not a number over all
else, and positive zero over negative zero.
-/
def max (x y : Sample) : Sample :=
  if x == infinity || y == infinity then infinity
  else if x.isNaN || y.isNaN then nan
  else if x.isZero && y.isZero then (if x.isNegative then y else x)
  else if y.lt x then x
  else y

/-- The smaller one. Negative infinity wins over everything, a value that is not a number over all
else, and negative zero over positive zero.
-/
def min (x y : Sample) : Sample :=
  if x == infinity.neg || y == infinity.neg then infinity.neg
  else if x.isNaN || y.isNaN then nan
  else if x.isZero && y.isZero then (if x.isNegative then x else y)
  else if x.lt y then x
  else y

/-- The length of a vector, scaled by its larger part so that no square overflows. -/
def hypot (x y : Sample) : Sample :=
  if x.isInfinite || y.isInfinite then infinity
  else if x.isNaN || y.isNaN then nan
  else
    let (p, q) := if x.abs.lt y.abs then (y.abs, x.abs) else (x.abs, y.abs)
    if p.isZero then zero
    else
      let ratio := q.div p
      p.mul (ofFloat (one.add (ratio.mul ratio)).toFloat.sqrt)

/-- Minus one, zero or one; a value that is not a number stays itself. -/
def sign (s : Sample) : Sample :=
  if s.isNaN then s
  else if zero.lt s then one
  else if s.lt zero then one.neg
  else zero

end MapAlgebra.Sample
