import MapAlgebra.Proofs.Sample.Rounding

/-! What the floating-point unit does with samples. Their quotient by one without sign is the nearest
sample to the quotient of their magnitudes and keeps the sign, and those without sign are ordered as their
numbers are.
-/

namespace MapAlgebra

open Float.Model Float.Model.UnpackedFloat
open Nat
open UnpackedFloat
open Format
open ExtendedMantissa

namespace Sample

section

variable (b : BitVec binary64.numBits)
include b

theorem toNat_unpackMantissa
    : (unpackMantissa b).toNat = b.toNat % 2 ^ 52 := by
  simp [unpackMantissa]

theorem toNat_unpackExponent
    : (unpackExponent b).toNat = b.toNat / 2 ^ 52 % 2 ^ 11 := by
  simp [unpackExponent, shiftRight_eq_div_pow]

theorem toNat_unpackSign
    : (unpackSign b).toNat = b.toNat / 2 ^ 63 % 2 := by
  delta unpackSign
  simp [shiftRight_eq_div_pow]

end

/-- The sign of a pattern as the unit has it. -/
def signOf (negative : Bool) : Sign :=
  if negative then .negative else .positive

/-- What the sign adds to the number of a pattern. -/
def signBits (negative : Bool) : Nat :=
  if negative then 2 ^ 63 else 0

theorem signBits_eq_or (negative) : signBits negative = 0 ∨ signBits negative = 2 ^ 63 := by
  cases negative with
  | false => exact Or.inl rfl
  | true => exact Or.inr rfl

theorem toNat_packComponents (negative) (e : BitVec 11) (m : BitVec 52)
    : (packComponents binary64 (signOf negative) e m).toNat
      = signBits negative + (e.toNat * 2 ^ 52 + m.toNat) := by
  show (((signOf negative).toBitVec ++ e) ++ m).toNat = _
  rw [BitVec.toNat_append, ← shiftLeft_add_eq_or_of_lt m.isLt, BitVec.toNat_append,
    ← shiftLeft_add_eq_or_of_lt e.isLt, shiftLeft_eq, shiftLeft_eq]
  cases negative with
  | false =>
    show (0 * 2 ^ 11 + e.toNat) * 2 ^ 52 + m.toNat = 0 + _
    omega
  | true =>
    show (1 * 2 ^ 11 + e.toNat) * 2 ^ 52 + m.toNat = 2 ^ 63 + _
    omega

/-- The units of a number with the power of two that they count, as the unit takes a number apart. -/
def unpacked (negative : Bool) (k u : Nat) : UnpackedFloat :=
  if h : u = 0 then .zero (signOf negative)
  else .finite (signOf negative) u ((k : Int) - 1074) (Nat.pos_of_ne_zero h)

theorem unpacked_zero (negative k) : unpacked negative k 0 = .zero (signOf negative) := rfl

theorem unpacked_of_ne_zero (negative k) {u} (some : u ≠ 0)
    : unpacked negative k u
      = .finite (signOf negative) u ((k : Int) - 1074) (Nat.pos_of_ne_zero some) :=
  dif_neg some

variable {e : Int} {m m1 m2 a b : Nat} {accuracy : Accuracy}

theorem finite_eq {s m' e' some some'} (units : m = m') (power : e = e')
    : finite s m e some = .finite s m' e' some' := by
  subst units power
  rfl

variable {k u : Nat}

theorem unpack_compose {b negative} (bits : b.toNat = signBits negative + (k * 2 ^ 52 + u))
    (low : 2 ^ 52 ≤ u ∨ k = 0) (high : u < 2 ^ 53) (finite : k * 2 ^ 52 + u < 2047 * 2 ^ 52)
    : UnpackedFloat.unpack binary64 b = unpacked negative k u := by
  have exponent : (unpackExponent b).toNat = (k * 2 ^ 52 + u) / 2 ^ 52 % 2 ^ 11 := by
    rw [toNat_unpackExponent, bits]
    rcases signBits_eq_or negative with none | set <;> omega
  have mantissa : (unpackMantissa b).toNat = (k * 2 ^ 52 + u) % 2 ^ 52 := by
    rw [toNat_unpackMantissa, bits]
    rcases signBits_eq_or negative with none | set <;> omega
  have sign : Sign.ofBitVec (unpackSign b) = signOf negative := by
    have bit := toNat_unpackSign b
    rw [bits] at bit
    cases negative with
    | false =>
      have none : unpackSign b = 0#1 :=
        BitVec.eq_of_toNat_eq (by rw [bit]; simp [signBits]; omega)
      rw [none]
      rfl
    | true =>
      have set : unpackSign b = 1#1 :=
        BitVec.eq_of_toNat_eq (by rw [bit]; simp [signBits]; omega)
      rw [set]
      rfl
  have notTop : unpackExponent b ≠ -1#11 := by
    intro top
    have field := congrArg BitVec.toNat top
    rw [exponent] at field
    have : (-1#11).toNat = 2047 := rfl
    omega
  unfold UnpackedFloat.unpack unpacked
  rw [if_neg notTop, sign]
  -- Below 2 ^ 52 units there is no hidden leading bit, and zero is among them.
  by_cases lowest : u < 2 ^ 52
  · obtain rfl : k = 0 := low.resolve_left (by omega)
    have least : unpackExponent b = 0#11 := BitVec.eq_of_toNat_eq (by rw [exponent]; simp; omega)
    have units : (unpackMantissa b).toNat = u := by rw [mantissa]; omega
    rw [if_pos least]
    by_cases zero : u = 0
    · have none : unpackMantissa b = 0#52 := BitVec.eq_of_toNat_eq (by rw [units, zero]; rfl)
      rw [dif_pos none, dif_pos zero]
    · have some : unpackMantissa b ≠ 0#52 := by
        intro none
        rw [none] at units
        exact zero units.symm
      rw [dif_neg some, dif_neg zero]
      refine finite_eq units ?_
      rw [least]
      rfl
  · have normal : unpackExponent b ≠ 0#11 := by
      intro least
      have field := congrArg BitVec.toNat least
      rw [exponent] at field
      simp at field
      omega
    have units : (1#1 ++ unpackMantissa b).toNat = u := by
      rw [BitVec.toNat_append, ← shiftLeft_add_eq_or_of_lt (unpackMantissa b).isLt, mantissa,
        shiftLeft_eq]
      show 1 * 2 ^ 52 + _ = u
      omega
    rw [if_neg normal, dif_neg (by omega)]
    refine finite_eq units ?_
    rw [exponent]
    show (_ : Int) - (1023 + 52) = _
    omega

theorem pack_unpacked (negative) (low : 2 ^ 52 ≤ u ∨ k = 0) (high : u < 2 ^ 53)
    : (UnpackedFloat.pack binary64 (unpacked negative k u)).toNat
      = signBits negative + min (k * 2 ^ 52 + u) (2047 * 2 ^ 52) := by
  by_cases zero : u = 0
  · obtain rfl : k = 0 := low.resolve_left (by omega)
    rw [zero, unpacked_zero]
    cases negative <;> rfl
  · have biased : ((k : Int) - 1074 + binary64.exponentBias
        + binary64.mantissaBitsWithoutImplicit).toNat = k + 1 := by
      show ((k : Int) - 1074 + 1023 + 52).toNat = k + 1
      omega
    rw [unpacked_of_ne_zero negative k zero]
    unfold UnpackedFloat.pack
    dsimp only
    rw [biased]
    split
    · next beyond =>
      rw [packedInfinity, toNat_packComponents]
      show signBits negative + (2047 * 2 ^ 52 + 0) = _
      have beyond : 2 ^ 11 ≤ k + 1 + 1 := beyond
      omega
    · next under =>
      have under : ¬ 2 ^ 11 ≤ k + 1 + 1 := under
      have bits : u.log2 + 1 = binary64.mantissaBits ↔ 2 ^ 52 ≤ u := by
        rw [← le_log2 zero]
        have short : u.log2 < 53 := (log2_lt zero).mpr high
        show u.log2 + 1 = 53 ↔ _
        omega
      split
      · next normal =>
        rw [toNat_packComponents, BitVec.toNat_ofNat, BitVec.toNat_ofNat]
        omega
      · next subnormal =>
        rw [toNat_packComponents, BitVec.toNat_ofNat]
        show signBits negative + (0 * 2 ^ 52 + u % 2 ^ 52) = _
        omega

theorem toNat_withSign_ofNumber (negative n)
    : (withSign negative (ofNumber n)).bits.toNat = signBits negative + min n (2047 * 2 ^ 52) := by
  have number := toNat_ofNumber n
  rw [toNat_withSign (by omega), number]
  rfl

theorem number_withSign (negative n)
    : (withSign negative (ofNumber n)).number = min n (2047 * 2 ^ 52) := by
  rw [number, toNat_withSign_ofNumber]
  rcases signBits_eq_or negative with none | set <;> omega

theorem unpack_withSign (negative) (low : 2 ^ 52 ≤ u ∨ k = 0) (high : u < 2 ^ 53)
    (finite : k * 2 ^ 52 + u < 2047 * 2 ^ 52)
    : (withSign negative (ofNumber (k * 2 ^ 52 + u))).toFloat.toModel.unpack
      = unpacked negative k u := by
  have bits : (withSign negative (ofNumber (k * 2 ^ 52 + u))).bits.toBitVec.toNat
      = signBits negative + (k * 2 ^ 52 + u) := by
    rw [UInt64.toNat_toBitVec, toNat_withSign_ofNumber]
    omega
  show unpack binary64 (UInt64.ofBitVec (pack binary64
    (unpack binary64
      (withSign negative (ofNumber (k * 2 ^ 52 + u))).bits.toBitVec))).toBitVec = _
  rw [unpack_compose bits low high finite, UInt64.toBitVec_ofBitVec]
  refine unpack_compose ?_ low high finite
  rw [pack_unpacked negative low high]
  omega

/-- A result of the unit that consists of units is the sample with their number and sign. -/
theorem ofFloat_unpacked (negative : Bool) (low : 2 ^ 52 ≤ u ∨ k = 0) (high : u < 2 ^ 53)
    : ofFloat (Float.ofModel (Float.Model.pack (unpacked negative k u)))
      = withSign negative (ofNumber (k * 2 ^ 52 + u)) := by
  have bits : (pack binary64 (unpacked negative k u)).toNat
      = (withSign negative (ofNumber (k * 2 ^ 52 + u))).bits.toNat := by
    rw [pack_unpacked negative low high, toNat_withSign_ofNumber]
  exact congrArg Sample.mk (UInt64.toNat_inj.mp bits)

/-- Finite samples without sign are ordered as their numbers are. -/
theorem le_ofNumber {n n'} (finite : n < 2047 * 2 ^ 52) (finite' : n' < 2047 * 2 ^ 52) (le : n ≤ n')
    : (ofNumber n).le (ofNumber n') = true := by
  obtain ⟨k, u, rfl, low, high⟩ := exists_compose n
  obtain ⟨k', u', rfl, low', high'⟩ := exists_compose n'
  rw [Sample.le, decide_eq_true_eq]
  show decide (Float.Model.le (ofNumber _).toFloat.toModel (ofNumber _).toFloat.toModel = true) = true
  rw [decide_eq_true_eq, Float.Model.le]
  show UnpackedFloat.le (withSign false (ofNumber _)).toFloat.toModel.unpack
    (withSign false (ofNumber _)).toFloat.toModel.unpack = true
  rw [unpack_withSign false low high finite, unpack_withSign false low' high' finite',
    UnpackedFloat.le]
  by_cases zero : u = 0
  · rw [zero, unpacked_zero]
    by_cases zero' : u' = 0
    · rw [zero', unpacked_zero]
      rfl
    · rw [unpacked_of_ne_zero false k' zero']
      rfl
  · rw [unpacked_of_ne_zero false k zero, unpacked_of_ne_zero false k' (by omega)]
    show (some ((compare ((k : Int) - 1074) (k' - 1074)).then (compare u u'))).any _ = true
    rcases Nat.lt_trichotomy k k' with less | rfl | greater
    · rw [Int.compare_eq_lt.mpr (by omega)]
      rfl
    · rw [Int.compare_eq_eq.mpr rfl]
      show (compare u u').isLE = true
      rw [Nat.isLE_compare]
      omega
    · omega

/-- A mantissa with its two residual bits tells a value as far as rounding needs it. -/
def Holds (em : ExtendedMantissa) (value : ℚ) : Prop :=
  match em.roundBit, em.stickyBit with
  | false, false => value = em.mantissa
  | false, true => em.mantissa < value ∧ 2 * value < 2 * em.mantissa + 1
  | true, false => 2 * value = 2 * em.mantissa + 1
  | true, true => 2 * (em.mantissa : ℚ) + 1 < 2 * value ∧ value < em.mantissa + 1

namespace Holds

variable {em : ExtendedMantissa} {value : ℚ}

section

variable (holds : Holds em value)
include holds

theorem bounds : em.mantissa ≤ value ∧ value < em.mantissa + 1 := by
  rcases em with ⟨m, _ | _, _ | _⟩ <;> simp only [Holds] at holds ⊢ <;> constructor <;> linarith

theorem rounds : Rounds value em.roundedMantissa := by
  have parity : (em.mantissa + em.mantissa % 2) % 2 = 0 := by omega
  rcases em with ⟨m, _ | _, _ | _⟩ <;>
    simp only [Holds, roundedMantissa, accuracy,
      Accuracy.roundToNearestEven] at holds parity ⊢
  · rw [holds]
    exact Rounds.self m
  · exact ⟨by linarith, by linarith, fun _ => ⟨by linarith, by linarith⟩⟩
  · rcases mod_two_eq_zero_or_one m with even | odd
    · rw [even, add_zero]
      exact ⟨by linarith, by linarith, fun odd => absurd even (by omega)⟩
    · rw [odd]
      refine ⟨?_, ?_, fun odd' => absurd odd (by omega)⟩ <;> push_cast <;> linarith
  · refine ⟨?_, ?_, fun _ => ⟨?_, ?_⟩⟩ <;> push_cast <;> linarith

theorem shiftRightOne : Holds em.shiftRightOne (value / 2) := by
  rcases em with ⟨m, r, s⟩
  have halves : (m : ℚ) = 2 * (m / 2 : Nat) + (m % 2 : Nat) := by
    exact_mod_cast (div_add_mod m 2).symm
  rcases mod_two_eq_zero_or_one m with even | odd
  · rw [even, cast_zero, add_zero] at halves
    cases r <;> cases s <;>
      simp only [Holds, shiftRightOne, even, bne_self_eq_false, Bool.or_false,
        Bool.or_true, Bool.or_self] at holds ⊢
    · linarith
    all_goals constructor <;> linarith
  · rw [odd, cast_one] at halves
    cases r <;> cases s <;>
      simp only [Holds, shiftRightOne, odd, Bool.or_false, Bool.or_true,
        Bool.or_self] at holds ⊢
    · show 2 * (value / 2) = _
      linarith
    all_goals refine ⟨?_, ?_⟩ <;> linarith

theorem shiftRight (n : Nat) : Holds (em >>> n) (value / 2 ^ n) := by
  show Holds (n.repeat ExtendedMantissa.shiftRightOne em) _
  induction n with
  | zero => simpa [Nat.repeat] using holds
  | succ n ih =>
    rw [Nat.repeat, pow_succ, ← div_div]
    exact ih.shiftRightOne

end

end Holds

theorem targetExponent_eq (m e)
    : binary64.targetExponent (totalExponent m e) = quantum (e + m.log2) := by
  show max ((m.log2 : Int) + 1 + e - 53) (-1074) = max (e + m.log2 - 52) (-1074)
  omega

/-- A mantissa that fits is left as it is, and the one that rounding carried into the next binade
moves there.
-/
theorem shiftToTargetExponent_rounded (low : 2 ^ 52 ≤ u ∨ k = 0) (high : u ≤ 2 ^ 53)
    : ∃ k' u', k' * 2 ^ 52 + u' = k * 2 ^ 52 + u ∧ (2 ^ 52 ≤ u' ∨ k' = 0) ∧ u' < 2 ^ 53
      ∧ shiftToTargetExponent binary64 u ((k : Int) - 1074) .exact
        = (⟨u', false, false⟩, (k' : Int) - 1074) := by
  unfold shiftToTargetExponent
  rw [targetExponent_eq]
  rcases lt_or_eq_of_le high with inside | rfl
  · refine ⟨k, u, rfl, low, inside, ?_⟩
    have short : u.log2 ≤ 52 := by
      by_cases zero : u = 0
      · simp [zero]
      · exact le_of_lt_succ ((log2_lt zero).mpr inside)
    have stays : (quantum ((k : Int) - 1074 + u.log2) - ((k : Int) - 1074)).toNat = 0 := by
      rw [quantum]
      omega
    unfold shiftToExponent
    dsimp only
    rw [stays, Int.natCast_zero, Int.add_zero]
    rfl
  · refine ⟨k + 1, 2 ^ 52, by omega, Or.inl (le_refl _), by omega, ?_⟩
    have moves : (quantum ((k : Int) - 1074 + (2 ^ 53 : Nat).log2) - ((k : Int) - 1074)).toNat = 1 := by
      rw [log2_two_pow, quantum]
      omega
    unfold shiftToExponent
    dsimp only
    rw [moves]
    refine Prod.ext rfl ?_
    omega

/-- Rounding what a mantissa and its accuracy tell of a value gives the nearest number, if the mantissa
has all the bits that count.
-/
theorem roundWithAccuracy_eq (negative : Bool) {value}
    (holds : Holds (.ofMantissaAndAccuracy m accuracy) (value / 2 ^ e))
    (enough : e ≤ quantum (e + m.log2))
    : ∃ k u, Nearest value (k * 2 ^ 52 + u) ∧ (2 ^ 52 ≤ u ∨ k = 0) ∧ u < 2 ^ 53
      ∧ roundWithAccuracy binary64 (signOf negative) m e accuracy = unpacked negative k u := by
  have positive := two_zpow_pos e
  have mantissa : (ofMantissaAndAccuracy m accuracy).mantissa = m := by
    rcases accuracy with _ | _ | _ | _ <;> rfl
  have between := holds.bounds
  rw [mantissa, le_div_iff₀ positive, div_lt_iff₀ positive] at between
  have nonneg : 0 ≤ value := by
    have : 0 ≤ (m * 2 ^ e : ℚ) := by positivity
    linarith
  -- The mantissa shows the highest bit of the value, unless it has none at all.
  have high : value < 2 ^ (e + m.log2 + 1) := by
    have most : (m : ℚ) + 1 ≤ 2 ^ (m.log2 + 1) := by exact_mod_cast lt_log2_self
    calc value < (m + 1) * 2 ^ e := between.2
      _ ≤ 2 ^ (m.log2 + 1) * 2 ^ e := mul_le_mul_of_nonneg_right most positive.le
      _ = 2 ^ (e + m.log2 + 1) := by
          rw [← zpow_natCast, ← zpow_add₀ (by norm_num)]
          congr 1
          omega
  have low : 2 ^ (e + m.log2) ≤ value ∨ e + m.log2 ≤ -1022 := by
    by_cases none : m = 0
    · right
      rw [none, log2_zero, quantum] at enough
      rw [none, log2_zero]
      omega
    · left
      exact (log2_bounds none e).1.trans between.1
  obtain ⟨t, target⟩ : ∃ t, t = quantum (e + m.log2) := ⟨_, rfl⟩
  have shift : e + ((t - e).toNat : Int) = t := by omega
  have shifted := (holds.shiftRight (t - e).toNat).rounds
  rw [← zpow_natCast, div_div, ← zpow_add₀ (by norm_num), shift, target] at shifted
  have near := nearest_of_quantum nonneg low high shifted
  obtain ⟨least, most⟩ := units_of_quantum low high
  obtain ⟨binade, carried⟩ := shifted.binade least most
  obtain ⟨k, u, number, low', high', second⟩ := shiftToTargetExponent_rounded binade carried
  rw [← number] at near
  refine ⟨k, u, near, low', high', ?_⟩
  unfold roundWithAccuracy
  have first : shiftToTargetExponent binary64 m e accuracy
      = (ofMantissaAndAccuracy m accuracy >>> (t - e).toNat, t) := by
    unfold shiftToTargetExponent shiftToExponent
    rw [targetExponent_eq, ← target]
    exact Prod.ext rfl shift
  rw [← quantum_eq, ← target] at second
  rw [first]
  dsimp only
  rw [second]
  rfl

theorem holds_accuracyOfFraction (num) {den} (positive : 0 < den)
    : Holds (.ofMantissaAndAccuracy (num / den) (accuracyOfFraction (num % den) den))
        (num / den : ℚ) := by
  have remainder := Nat.mod_lt num positive
  have denominator : (0 : ℚ) < den := by exact_mod_cast positive
  obtain ⟨r, rest⟩ : ∃ r, r = num % den := ⟨_, rfl⟩
  have value : (num / den : ℚ) = (num / den : Nat) + r / den := by
    rw [div_eq_iff denominator.ne', add_mul, div_mul_cancel₀ _ denominator.ne', rest]
    exact_mod_cast (Nat.div_add_mod' num den).symm
  rw [← rest] at remainder ⊢
  rw [value, accuracyOfFraction]
  split
  · next exact =>
    simp [Holds, ofMantissaAndAccuracy, exact]
  · next inexact =>
    have some : 0 < (r / den : ℚ) :=
      div_pos (by exact_mod_cast Nat.pos_of_ne_zero inexact) denominator
    have proper : (r / den : ℚ) < 1 :=
      (div_lt_one denominator).mpr (by exact_mod_cast remainder)
    rcases Nat.lt_trichotomy (2 * r) den with less | same | more
    · have half : 2 * (r / den : ℚ) < 1 := by
        rw [← mul_div_assoc, div_lt_one denominator]
        exact_mod_cast less
      rw [Nat.compare_eq_lt.mpr less]
      simp only [Holds, ofMantissaAndAccuracy]
      constructor <;> linarith
    · have half : 2 * (r / den : ℚ) = 1 := by
        rw [← mul_div_assoc, div_eq_one_iff_eq denominator.ne']
        exact_mod_cast same
      rw [Nat.compare_eq_eq.mpr same]
      simp only [Holds, ofMantissaAndAccuracy]
      linarith
    · have half : 1 < 2 * (r / den : ℚ) := by
        rw [← mul_div_assoc, lt_div_iff₀ denominator, one_mul]
        exact_mod_cast more
      rw [Nat.compare_eq_gt.mpr more]
      simp only [Holds, ofMantissaAndAccuracy]
      constructor <;> linarith

/-- The quotient of mantissas is taken far enough down that rounding finds all the bits that count. -/
theorem divCore_eq (e1 e2 : Int) (some1 : m1 ≠ 0) (some2 : m2 ≠ 0)
    : ∃ m e accuracy, divCore binary64 m1 e1 m2 e2 = (m, e, accuracy)
      ∧ Holds (.ofMantissaAndAccuracy m accuracy) (m1 * 2 ^ e1 / (m2 * 2 ^ e2) / 2 ^ e : ℚ)
      ∧ e ≤ quantum (e + m.log2) := by
  obtain ⟨e, chosen⟩ : ∃ e, e = min (e1 - e2)
      (binary64.targetExponent (totalExponent m1 e1 - totalExponent m2 e2)) := ⟨_, rfl⟩
  obtain ⟨s, shift⟩ : ∃ s, s = (e1 - e2 - e).toNat := ⟨_, rfl⟩
  refine ⟨m1 <<< s / m2, e, accuracyOfFraction (m1 <<< s % m2) m2, ?_, ?_, ?_⟩
  · rw [shift, chosen]
    rfl
  · have value : (m1 * 2 ^ e1 / (m2 * 2 ^ e2) / 2 ^ e : ℚ) = (m1 <<< s : Nat) / m2 := by
      have moved : (2 : ℚ) ^ e1 = 2 ^ s * (2 ^ e2 * 2 ^ e) := by
        rw [← zpow_natCast, ← zpow_add₀ (by norm_num), ← zpow_add₀ (by norm_num)]
        congr 1
        omega
      have nonzero := two_zpow_pos e
      have nonzero2 := two_zpow_pos e2
      have denominator : (m2 : ℚ) ≠ 0 := by exact_mod_cast some2
      rw [Nat.shiftLeft_eq, Nat.cast_mul, Nat.cast_pow, Nat.cast_ofNat, moved]
      field_simp
    rw [value]
    exact holds_accuracyOfFraction _ (Nat.pos_of_ne_zero some2)
  · have target : binary64.targetExponent (totalExponent m1 e1 - totalExponent m2 e2)
        = quantum (e1 + m1.log2 - (e2 + m2.log2) - 1) := by
      show max ((m1.log2 : Int) + 1 + e1 - (m2.log2 + 1 + e2) - 53) (-1074) = max _ (-1074)
      omega
    rw [target, quantum] at chosen
    by_cases least : e ≤ -1074
    · rw [quantum]
      omega
    · have long : 52 ≤ (m1 <<< s / m2).log2 := by
        have exponent : m2.log2 + 1 + 52 ≤ m1.log2 + s := by omega
        have enough : 2 ^ 52 ≤ m1 <<< s / m2 := by
          rw [Nat.le_div_iff_mul_le (Nat.pos_of_ne_zero some2), Nat.shiftLeft_eq]
          calc 2 ^ 52 * m2 ≤ 2 ^ 52 * 2 ^ (m2.log2 + 1) :=
                Nat.mul_le_mul_left _ Nat.lt_log2_self.le
            _ = 2 ^ (m2.log2 + 1 + 52) := by rw [Nat.mul_comm, ← Nat.pow_add]
            _ ≤ 2 ^ (m1.log2 + s) := Nat.pow_le_pow_right (by decide) exponent
            _ = 2 ^ m1.log2 * 2 ^ s := Nat.pow_add ..
            _ ≤ m1 * 2 ^ s := Nat.mul_le_mul_right _ (Nat.log2_self_le some1)
        exact (Nat.le_log2 (by omega)).mpr enough
      rw [quantum]
      omega

theorem div_zero_finite (s s') (some : 0 < m)
    : UnpackedFloat.div binary64 (.zero s) (.finite s' m e some) = .zero (s / s') := rfl

theorem div_finite (s s') {e1 e2} (some1 : 0 < m1) (some2 : 0 < m2)
    (core : divCore binary64 m1 e1 m2 e2 = (m, e, accuracy))
    : UnpackedFloat.div binary64 (.finite s m1 e1 some1) (.finite s' m2 e2 some2)
      = roundWithAccuracy binary64 (s / s') m e accuracy := by
  have step : UnpackedFloat.div binary64 (.finite s m1 e1 some1) (.finite s' m2 e2 some2)
      = roundWithAccuracy binary64 (s / s') (divCore binary64 m1 e1 m2 e2).1
        (divCore binary64 m1 e1 m2 e2).2.1 (divCore binary64 m1 e1 m2 e2).2.2 := rfl
  rw [step, core]

/-- The quotient of finite samples, the second of them without sign, is the nearest one with the sign of
the first.
-/
theorem div_withSign (negative : Bool) (finite : a < 2047 * 2 ^ 52) (finite' : b < 2047 * 2 ^ 52)
    (nonzero : b ≠ 0)
    : ∃ n, Nearest (magnitude a / magnitude b) n
      ∧ (withSign negative (ofNumber a)).div (ofNumber b) = withSign negative (ofNumber n) := by
  obtain ⟨k1, u1, rfl, low1, high1⟩ := exists_compose a
  obtain ⟨k2, u2, rfl, low2, high2⟩ := exists_compose b
  have some2 : u2 ≠ 0 := by omega
  have quotient : (withSign negative (ofNumber (k1 * 2 ^ 52 + u1))).div (ofNumber (k2 * 2 ^ 52 + u2))
      = ofFloat (Float.ofModel (Float.Model.pack
        (UnpackedFloat.div binary64 (unpacked negative k1 u1) (unpacked false k2 u2)))) := by
    rw [← unpack_withSign negative low1 high1 finite, ← unpack_withSign false low2 high2 finite']
    rfl
  have sign : signOf negative / signOf false = signOf negative := by cases negative <;> rfl
  rw [quotient, magnitude_compose low1 high1.le, magnitude_compose low2 high2.le]
  by_cases some1 : u1 = 0
  · refine ⟨0, by simpa [some1] using Nearest.self 0, ?_⟩
    rw [some1, unpacked_zero, unpacked_of_ne_zero false k2 some2, div_zero_finite, sign]
    exact ofFloat_unpacked negative (u := 0) (Or.inr rfl) (by decide)
  · obtain ⟨m, e, accuracy, core, holds, enough⟩ := divCore_eq ((k1 : Int) - 1074)
      ((k2 : Int) - 1074) some1 some2
    obtain ⟨k, u, near, low, high, rounded⟩ := roundWithAccuracy_eq negative holds enough
    refine ⟨k * 2 ^ 52 + u, near, ?_⟩
    rw [← ofFloat_unpacked negative low high, ← rounded, unpacked_of_ne_zero negative k1 some1,
      unpacked_of_ne_zero false k2 some2, div_finite _ _ _ _ core, sign]

end Sample

end MapAlgebra
