import MapAlgebra.Proofs.Sample.Rounding
import MapAlgebra.Sample.Narrow
import Mathlib.Data.Nat.Cast.Field

/-! Narrowing a sample loses nothing: the pattern that a narrower format has for a sample widens to
that sample. It also finds every pattern that does.
-/

namespace MapAlgebra

namespace FloatFormat

open Sample

variable {f : FloatFormat} {negative : Bool}

variable {p k u m : Nat} {e : Int} {s : Sample}

/-- The sign, the exponent and the fraction are read off where they were put. -/
theorem fields_compose {exponent fraction}
    (composed : p = (if negative then f.signBit else 0) + (exponent * 2 ^ f.fractionBits + fraction))
    (inRange : exponent < 2 ^ f.exponentBits) (inUnit : fraction < 2 ^ f.fractionBits)
    : decide (p / f.signBit % 2 = 1) = negative ∧ p / 2 ^ f.fractionBits % 2 ^ f.exponentBits = exponent
      ∧ p % 2 ^ f.fractionBits = fraction := by
  obtain ⟨sign, signed⟩ : ∃ sign, sign = if negative then 1 else 0 := ⟨_, rfl⟩
  have stacked : p = (sign * 2 ^ f.exponentBits + exponent) * 2 ^ f.fractionBits + fraction := by
    have bit : (if negative then f.signBit else 0)
        = sign * 2 ^ f.exponentBits * 2 ^ f.fractionBits := by
      rw [signed, signBit, Nat.pow_add]
      cases negative <;> simp
    rw [composed, bit]
    ring
  have upper : p / 2 ^ f.fractionBits = sign * 2 ^ f.exponentBits + exponent := by
    rw [stacked, Nat.add_comm, Nat.add_mul_div_right _ _ (Nat.two_pow_pos _),
      Nat.div_eq_of_lt inUnit, Nat.zero_add]
  refine ⟨?_, ?_, ?_⟩
  · rw [signBit, Nat.add_comm, Nat.pow_add, ← Nat.div_div_eq_div_mul, upper, Nat.add_comm,
      Nat.add_mul_div_right _ _ (Nat.two_pow_pos _), Nat.div_eq_of_lt inRange, signed]
    cases negative <;> rfl
  · rw [upper, Nat.mul_comm, Nat.mul_add_mod, Nat.mod_eq_of_lt inRange]
  · rw [stacked, Nat.mul_comm, Nat.mul_add_mod, Nat.mod_eq_of_lt inUnit]

/-- A pattern with an exponent that is not the top one stands for its units, which count powers of
two from the least one on. Units past a whole fraction carry into the exponent.
-/
theorem widen_compose (low : 2 ^ f.fractionBits ≤ u ∨ k = 0) (high : u < 2 * 2 ^ f.fractionBits)
    (small : k * 2 ^ f.fractionBits + u < f.topExponent * 2 ^ f.fractionBits)
    : f.widen ((if negative then f.signBit else 0) + (k * 2 ^ f.fractionBits + u))
      = ofScaled negative u (f.leastExponent + k) := by
  have positive := Nat.two_pow_pos f.fractionBits
  rcases Nat.lt_or_ge u (2 ^ f.fractionBits) with below | carried
  · obtain rfl : k = 0 := low.resolve_left (by omega)
    have topPositive : 0 < f.topExponent :=
      Nat.pos_of_ne_zero fun none => by simp [none] at small
    obtain ⟨sign, exponent, fraction⟩ := fields_compose rfl (Nat.two_pow_pos _) below
    unfold widen
    dsimp only
    rw [sign, exponent, fraction, if_neg (by omega), if_pos rfl, Int.natCast_zero, Int.add_zero]
  · obtain ⟨fraction, rfl⟩ := Nat.exists_eq_add_of_le carried
    have shifted : k * 2 ^ f.fractionBits + (2 ^ f.fractionBits + fraction)
        = (k + 1) * 2 ^ f.fractionBits + fraction := by ring
    rw [shifted] at small ⊢
    have notTop : k + 1 < f.topExponent :=
      Nat.lt_of_mul_lt_mul_right (a := 2 ^ f.fractionBits) (by omega)
    have inRange : k + 1 < 2 ^ f.exponentBits := by rw [topExponent] at notTop; omega
    obtain ⟨sign, exponent, rest⟩ := fields_compose rfl inRange (show fraction < _ by omega)
    unfold widen
    dsimp only
    rw [sign, exponent, rest, if_neg (by omega), if_neg (by omega)]
    congr 1
    omega

theorem widen_top (negative : Bool)
    : f.widen ((if negative then f.signBit else 0) + f.topExponent * 2 ^ f.fractionBits)
      = withSign negative infinity := by
  have inRange : f.topExponent < 2 ^ f.exponentBits := by
    have := Nat.two_pow_pos f.exponentBits
    rw [topExponent]
    omega
  obtain ⟨sign, exponent, fraction⟩ := fields_compose rfl inRange (Nat.two_pow_pos f.fractionBits)
  rw [Nat.add_zero] at sign exponent fraction
  unfold widen
  dsimp only
  rw [sign, exponent, fraction, if_pos rfl, if_pos rfl]

/-- A value that is a whole number of units has no more of them than there are patterns in two
binades, and above the least binade it has no fewer than in one.
-/
theorem units_bounds {quantum} (nonzero : m ≠ 0)
    (chosen : quantum = max (e + m.log2 - f.fractionBits) f.leastExponent)
    (value : (u * 2 ^ quantum : ℚ) = m * 2 ^ e)
    : (2 ^ f.fractionBits ≤ u ∨ quantum = f.leastExponent) ∧ u < 2 * 2 ^ f.fractionBits := by
  obtain ⟨low, high⟩ := log2_bounds nonzero e
  have positive := two_zpow_pos quantum
  rw [← value] at low high
  constructor
  · by_cases lowest : quantum = f.leastExponent
    · exact Or.inr lowest
    · have top : e + m.log2 = f.fractionBits + quantum := by omega
      rw [top, zpow_add₀ (by norm_num), zpow_natCast] at low
      have enough := le_of_mul_le_mul_right low positive
      exact Or.inl (by exact_mod_cast enough)
  · have top : e + m.log2 + 1 ≤ (f.fractionBits + 1 : Nat) + quantum := by omega
    have within : (u * 2 ^ quantum : ℚ) < 2 ^ (((f.fractionBits + 1 : Nat) : Int) + quantum) :=
      high.trans_le (zpow_le_zpow_right₀ (by norm_num) top)
    rw [zpow_add₀ (by norm_num), zpow_natCast] at within
    have few := lt_of_mul_lt_mul_right within positive.le
    have few : u < 2 ^ (f.fractionBits + 1) := by exact_mod_cast few
    rw [Nat.pow_succ] at few
    omega

theorem pattern?_eq_some (proper : 0 < f.topExponent) (found : f.pattern? m e = some p)
    : ∃ k u, p = k * 2 ^ f.fractionBits + u
      ∧ (2 ^ f.fractionBits ≤ u ∨ k = 0) ∧ u < 2 * 2 ^ f.fractionBits
      ∧ p < f.topExponent * 2 ^ f.fractionBits
      ∧ (u * 2 ^ (f.leastExponent + k) : ℚ) = m * 2 ^ e := by
  unfold pattern? at found
  split at found
  · next none =>
    cases found
    exact ⟨0, 0, by simp, Or.inr rfl, by positivity, by positivity, by simp [none]⟩
  · next nonzero =>
    dsimp only at found
    split at found
    · next divides =>
      split at found
      · next small =>
        cases found
        obtain ⟨quantum, chosen⟩ : ∃ quantum, quantum
            = max (e + m.log2 - f.fractionBits) f.leastExponent := ⟨_, rfl⟩
        rw [← chosen] at divides small ⊢
        have exponent : f.leastExponent + ((quantum - f.leastExponent).toNat : Int)
            = quantum := by omega
        have value : ((m * 2 ^ (e - quantum).toNat / 2 ^ (quantum - e).toNat : Nat) : ℚ)
              * 2 ^ quantum
            = m * 2 ^ e := by
          have whole : 2 ^ (quantum - e).toNat ∣ m * 2 ^ (e - quantum).toNat :=
            Dvd.dvd.mul_right (Nat.dvd_of_mod_eq_zero divides) _
          rw [Nat.cast_div whole (by positivity)]
          push_cast
          rw [← zpow_natCast, ← zpow_natCast, mul_div_assoc, ← zpow_sub₀ (by norm_num),
            mul_assoc, ← zpow_add₀ (by norm_num)]
          congr 2
          omega
        obtain ⟨low, high⟩ := units_bounds nonzero chosen value
        refine ⟨_, _, rfl, low.imp_right fun lowest => ?_, high, small, ?_⟩
        · omega
        · rw [exponent, value]
      · exact nomatch found
    · exact nomatch found

/-- The highest bit of a value is one only. -/
theorem top_unique {value : ℚ} {a b : Int} (low : 2 ^ a ≤ value) (high : value < 2 ^ (b + 1))
    : a ≤ b := by
  have less := (zpow_lt_zpow_iff_right₀ (by norm_num : (1 : ℚ) < 2)).mp (low.trans_lt high)
  omega

theorem pattern?_of_value (low : 2 ^ f.fractionBits ≤ u ∨ k = 0) (high : u < 2 * 2 ^ f.fractionBits)
    (small : k * 2 ^ f.fractionBits + u < f.topExponent * 2 ^ f.fractionBits)
    (value : (u * 2 ^ (f.leastExponent + k) : ℚ) = m * 2 ^ e)
    : f.pattern? m e = some (k * 2 ^ f.fractionBits + u) := by
  have scale := two_zpow_pos (f.leastExponent + k)
  have scale' := two_zpow_pos e
  unfold pattern?
  by_cases none : m = 0
  · have noUnits : u = 0 := by
      rw [none, Nat.cast_zero, zero_mul] at value
      exact_mod_cast (mul_eq_zero.mp value).resolve_right scale.ne'
    have positive := Nat.two_pow_pos f.fractionBits
    obtain rfl : k = 0 := low.resolve_left (by omega)
    rw [if_pos none, noUnits, Nat.zero_mul]
  · have units : u ≠ 0 := by
      rintro rfl
      rw [Nat.cast_zero, zero_mul] at value
      exact none (by exact_mod_cast (mul_eq_zero.mp value.symm).resolve_right scale'.ne')
    -- The units have the same highest bit as the value, so they are counted in the same quantum.
    have bounds := log2_bounds none e
    have bounds' := log2_bounds units (f.leastExponent + k)
    rw [value] at bounds'
    have top : e + m.log2 = f.leastExponent + k + u.log2 :=
      Int.le_antisymm (top_unique bounds.1 bounds'.2) (top_unique bounds'.1 bounds.2)
    have short : u.log2 < f.fractionBits + 1 :=
      (Nat.log2_lt units).mpr (by rw [Nat.pow_succ]; omega)
    have long : k = 0 ∨ f.fractionBits ≤ u.log2 :=
      low.symm.imp_right fun low => (Nat.le_log2 units).mpr low
    have quantum : max (e + m.log2 - f.fractionBits) f.leastExponent = f.leastExponent + k := by
      omega
    rw [if_neg none]
    rw [quantum]
    obtain ⟨q, exponent⟩ : ∃ q, q = f.leastExponent + k := ⟨_, rfl⟩
    rw [← exponent] at value ⊢
    have counted : m * 2 ^ (e - q).toNat = u * 2 ^ (q - e).toNat := by
      have same : (m * 2 ^ (e - q).toNat * 2 ^ min q e : ℚ) = u * 2 ^ (q - e).toNat * 2 ^ min q e := by
        have left : ((e - q).toNat : Int) + min q e = e := by omega
        have right : ((q - e).toNat : Int) + min q e = q := by omega
        rw [← zpow_natCast, ← zpow_natCast, mul_assoc, mul_assoc, ← zpow_add₀ (by norm_num),
          ← zpow_add₀ (by norm_num), left, right, value]
      exact_mod_cast mul_right_cancel₀ (two_zpow_pos (min q e)).ne' same
    have divides : m % 2 ^ (q - e).toNat = 0 := by
      rcases Int.le_total q e with fine | coarse
      · rw [Int.toNat_of_nonpos (by omega), Nat.pow_zero, Nat.mod_one]
      · rw [Int.toNat_of_nonpos (by omega), Nat.pow_zero, Nat.mul_one] at counted
        rw [counted, Nat.mul_mod_left]
    have binade : (q - f.leastExponent).toNat = k := by omega
    rw [if_pos divides, counted, Nat.mul_div_cancel _ (Nat.two_pow_pos _), binade, if_pos small]

/-- The format has no values that samples do not have. -/
structure Within (f : FloatFormat) : Prop where
  exponents : 2 ≤ f.topExponent
  fraction : f.fractionBits ≤ 52
  least : -1074 ≤ f.leastExponent
  most : f.topExponent + f.fractionBits + f.leastExponent ≤ 1025

theorem half_within : half.Within := ⟨by decide, by decide, by decide, by decide⟩

theorem single_within : single.Within := ⟨by decide, by decide, by decide, by decide⟩

/-- The pattern stands for a number, which may be infinite. -/
def IsNumber (f : FloatFormat) (p : Nat) : Prop :=
  p < 2 * f.signBit ∧ p % f.signBit ≤ f.topExponent * 2 ^ f.fractionBits

theorem IsNumber.compose (number : f.IsNumber p) (proper : 2 ≤ f.topExponent)
    : ∃ negative : Bool,
        p = (if negative then f.signBit else 0) + f.topExponent * 2 ^ f.fractionBits
        ∨ ∃ k u, p = (if negative then f.signBit else 0) + (k * 2 ^ f.fractionBits + u)
          ∧ (2 ^ f.fractionBits ≤ u ∨ k = 0) ∧ u < 2 * 2 ^ f.fractionBits
          ∧ k * 2 ^ f.fractionBits + u < f.topExponent * 2 ^ f.fractionBits
          ∧ k + 2 ≤ f.topExponent := by
  obtain ⟨bits, magnitude⟩ := number
  obtain ⟨n, rest⟩ : ∃ n, n = p % f.signBit := ⟨_, rfl⟩
  rw [← rest] at magnitude
  obtain ⟨negative, rfl⟩ : ∃ negative : Bool, p = (if negative then f.signBit else 0) + n := by
    rcases Nat.lt_or_ge p f.signBit with below | above
    · exact ⟨false, by simp [rest, Nat.mod_eq_of_lt below]⟩
    · refine ⟨true, ?_⟩
      rw [rest, Nat.mod_eq_sub_mod above, Nat.mod_eq_of_lt (by omega), if_pos rfl]
      omega
  refine ⟨negative, ?_⟩
  rcases Nat.lt_or_eq_of_le magnitude with finite | top
  · have positive := Nat.two_pow_pos f.fractionBits
    have division := Nat.div_add_mod' n (2 ^ f.fractionBits)
    have inside := Nat.mod_lt n positive
    have exponent : n / 2 ^ f.fractionBits < f.topExponent :=
      Nat.div_lt_of_lt_mul (by rwa [Nat.mul_comm])
    refine Or.inr ?_
    cases biased : n / 2 ^ f.fractionBits with
    | zero =>
      rw [biased, Nat.zero_mul, Nat.zero_add] at division
      rw [division] at inside
      exact ⟨0, n, by simp, Or.inr rfl, by omega, by simpa using finite, by omega⟩
    | succ k =>
      rw [biased, Nat.succ_mul] at division
      refine ⟨k, 2 ^ f.fractionBits + n % 2 ^ f.fractionBits, ?_, Or.inl ?_, ?_, ?_, ?_⟩ <;> omega
  · exact Or.inl (by rw [top])

theorem isNumber_compose {magnitude} (most : magnitude ≤ f.topExponent * 2 ^ f.fractionBits)
    : f.IsNumber ((if negative then f.signBit else 0) + magnitude) := by
  have below : magnitude < f.signBit := by
    refine most.trans_lt ?_
    rw [signBit, Nat.pow_add]
    refine Nat.mul_lt_mul_of_pos_right ?_ (Nat.two_pow_pos _)
    have := Nat.two_pow_pos f.exponentBits
    rw [topExponent]
    omega
  cases negative with
  | false =>
    rw [if_neg (by decide), Nat.zero_add]
    exact ⟨by omega, by rwa [Nat.mod_eq_of_lt below]⟩
  | true =>
    rw [if_pos rfl]
    exact ⟨by omega, by rwa [Nat.add_mod_left, Nat.mod_eq_of_lt below]⟩

/-- The pattern that a format has for a sample is that of a number and widens to the sample. -/
theorem widen_narrow? (within : f.Within) (found : f.narrow? s = some p)
    : f.IsNumber p ∧ f.widen p = s := by
  obtain ⟨magnitude, part, rfl⟩ := Option.map_eq_some_iff.mp found
  cases shaped : s.shape with
  | nan => exact nomatch shaped ▸ part
  | infinite negative =>
    rw [shaped, magnitude?] at part
    cases part
    refine ⟨isNumber_compose le_rfl, ?_⟩
    rw [widen_top]
    exact eq_withSign le_rfl rfl (shape_eq_infinite shaped).2
  | finite negative m e =>
    rw [shaped, magnitude?] at part
    have proper : 0 < f.topExponent := by have := within.exponents; omega
    obtain ⟨k, u, rfl, low, high, small, value⟩ := pattern?_eq_some proper part
    refine ⟨isNumber_compose small.le, ?_⟩
    rw [widen_compose low high small, (shape_eq_finite shaped).1]
    exact ofScaled_of_shape shaped value

/-- A sample that the pattern of a number widens to is narrowed to that pattern. -/
theorem narrow?_widen (within : f.Within) (number : f.IsNumber p)
    : f.narrow? (f.widen p) = some p := by
  obtain ⟨negative, rfl | ⟨k, u, rfl, low, high, small, below⟩⟩ := number.compose within.exponents
  · have shaped : (withSign negative infinity).shape = .infinite negative := by
      cases negative <;> decide
    rw [widen_top, narrow?, shaped, (shape_eq_infinite shaped).1]
    rfl
  · have exponents := within.most
    have units : u < 2 ^ (f.fractionBits + 1) := by rw [Nat.pow_succ]; omega
    have fits : u < 2 ^ 53 :=
      units.trans_le (Nat.pow_le_pow_right (by decide) (Nat.succ_le_succ within.fraction))
    have least := within.least
    have range : (u * 2 ^ (f.leastExponent + k) : ℚ) < 2 ^ (1024 : Int) := by
      calc (u * 2 ^ (f.leastExponent + k) : ℚ)
          < 2 ^ ((f.fractionBits + 1 : Nat) : Int) * 2 ^ (f.leastExponent + k) :=
            mul_lt_mul_of_pos_right (by exact_mod_cast units) (two_zpow_pos _)
        _ = 2 ^ (((f.fractionBits + 1 : Nat) : Int) + (f.leastExponent + k)) :=
            (zpow_add₀ (by norm_num) _ _).symm
        _ ≤ 2 ^ (1024 : Int) := zpow_le_zpow_right₀ (by norm_num) (by omega)
    obtain ⟨m, e, shaped, value⟩ := shape_ofScaled negative fits (by omega) range
    rw [widen_compose low high small, narrow?, shaped, (shape_eq_finite shaped).1, magnitude?,
      pattern?_of_value low high small value.symm]
    rfl

/-- A format has a pattern for exactly those samples that one of its numbers widens to. -/
theorem narrow?_eq_some_iff (within : f.Within)
    : f.narrow? s = some p ↔ f.IsNumber p ∧ f.widen p = s := by
  constructor
  · exact widen_narrow? within
  · rintro ⟨number, rfl⟩
    exact narrow?_widen within number

end FloatFormat

end MapAlgebra
