import MapAlgebra.Proofs.Sample.Nearest
import Mathlib.Data.Nat.Bitwise

/-! What the conversions to samples give. A scaled whole number becomes the nearest sample, and a
finite sample is its own mantissa and exponent. So a scaled number that a sample stands for becomes
that sample again.
-/

namespace MapAlgebra

open Nat

namespace Sample

/-- The pattern without its sign, as a number. -/
def number (s : Sample) : Nat := s.bits.toNat % 2 ^ 63

/-- The sample without sign whose pattern has this number; past the finite ones it is infinite. -/
def ofNumber (n : Nat) : Sample :=
  { bits := (min n infinity.bits.toNat).toUInt64 }

theorem toNat_infinity : infinity.bits.toNat = 2047 * 2 ^ 52 := rfl

theorem toNat_ofNumber (n) : (ofNumber n).bits.toNat = min n (2047 * 2 ^ 52) := by
  rw [ofNumber, toNat_infinity, toUInt64, UInt64.toNat_ofNat']
  omega

theorem isNegative_eq (s : Sample) : s.isNegative = decide (2 ^ 63 ≤ s.bits.toNat) := by
  have bound := s.bits.toNat_lt
  have bit : (s.bits &&& signBit).toNat = 2 ^ 63 * (s.bits.toNat / 2 ^ 63 % 2) := by
    rw [UInt64.toNat_and]
    show s.bits.toNat &&& 2 ^ 63 = _
    rw [and_two_pow, toNat_testBit, mul_comm]
  rw [isNegative, bne, Bool.eq_iff_iff, Bool.not_eq_true', beq_eq_false_iff_ne, ne_eq,
    ← UInt64.toNat_inj, bit, decide_eq_true_eq, UInt64.toNat_zero]
  omega

theorem toNat_abs (s : Sample) : s.abs.bits.toNat = s.number := by
  rw [abs, UInt64.toNat_and]
  exact and_two_pow_sub_one_eq_mod s.bits.toNat 63

theorem isNaN_eq (s : Sample) : s.isNaN = decide (2047 * 2 ^ 52 < s.number) := by
  rw [isNaN, ← toNat_abs, ← toNat_infinity]
  exact decide_eq_decide.mpr UInt64.lt_iff_toNat_lt

theorem isZero_eq (s : Sample) : s.isZero = decide (s.number = 0) := by
  rw [isZero, ← toNat_abs, beq_eq_decide]
  exact decide_eq_decide.mpr UInt64.toNat_inj.symm

variable {s : Sample}

theorem toNat_withSign (unsigned : s.bits.toNat < 2 ^ 63) (negative)
    : (withSign negative s).bits.toNat = (if negative then 2 ^ 63 else 0) + s.bits.toNat := by
  cases negative with
  | false => simp [withSign]
  | true =>
    rw [withSign, if_pos rfl, if_pos rfl, UInt64.toNat_or, Nat.or_comm]
    exact (Nat.two_pow_add_eq_or_of_lt unsigned 1).symm

variable {negative : Bool}

theorem eq_withSign {n} (small : n ≤ 2047 * 2 ^ 52) (sign : s.isNegative = negative)
    (same : s.number = n)
    : withSign negative (ofNumber n) = s := by
  have bound := s.bits.toNat_lt
  have value := toNat_ofNumber n
  rw [isNegative_eq] at sign
  rw [number] at same
  suffices bits : (withSign negative (ofNumber n)).bits.toNat = s.bits.toNat by
    obtain ⟨bits'⟩ := s
    exact congrArg Sample.mk (UInt64.toNat_inj.mp bits)
  rw [toNat_withSign (by omega), value]
  cases negative <;> simp at sign ⊢ <;> omega

variable {m : Nat}

/-- A finite sample has a mantissa of the right size and the number that goes with it. -/
theorem shape_eq_finite {e} (finite : s.shape = .finite negative m e)
    : s.isNegative = negative ∧ magnitude s.number = m * 2 ^ e ∧ s.number < 2047 * 2 ^ 52 := by
  unfold shape at finite
  dsimp only at finite
  split at finite
  · split at finite <;> exact nomatch finite
  · next notTop =>
    split at finite
    · next lowest =>
      cases finite
      have composed : s.number = 0 * 2 ^ 52 + s.bits.toNat % 2 ^ 52 := by rw [number]; omega
      refine ⟨rfl, ?_, by omega⟩
      rw [composed, magnitude_compose (Or.inr rfl) (by omega)]
      rfl
    · next binade =>
      cases finite
      have composed : s.number
          = (s.bits.toNat / 2 ^ 52 % 2 ^ 11 - 1) * 2 ^ 52
            + (2 ^ 52 + s.bits.toNat % 2 ^ 52) := by rw [number]; omega
      refine ⟨rfl, ?_, by omega⟩
      rw [composed, magnitude_compose (Or.inl (by omega)) (by omega)]
      congr 2
      omega

theorem exists_shape_finite (small : s.number < 2047 * 2 ^ 52)
    : ∃ m e, s.shape = .finite s.isNegative m e := by
  have notTop : s.bits.toNat / 2 ^ 52 % 2 ^ 11 ≠ 2047 := by
    rw [number] at small
    omega
  unfold shape
  rw [if_neg notTop]
  split <;> exact ⟨_, _, rfl⟩

theorem shape_eq_infinite (infinite : s.shape = .infinite negative)
    : s.isNegative = negative ∧ s.number = 2047 * 2 ^ 52 := by
  unfold shape at infinite
  dsimp only at infinite
  split at infinite
  · split at infinite
    · cases infinite
      refine ⟨rfl, ?_⟩
      rw [number]
      omega
    · cases infinite
  · split at infinite <;> cases infinite

theorem roundDiv_rounds (num : Nat) {den : Nat} (positive : 0 < den)
    : Rounds (num / den : ℚ) (roundDiv num den) := by
  have division := div_add_mod num den
  have remainder := mod_lt num positive
  obtain ⟨q, quotient⟩ : ∃ q, q = num / den := ⟨_, rfl⟩
  obtain ⟨r, rest⟩ : ∃ r, r = num % den := ⟨_, rfl⟩
  rw [← quotient, ← rest] at division
  rw [← rest] at remainder
  have denominator : (0 : ℚ) < den := by exact_mod_cast positive
  have value : (num / den : ℚ) = q + r / den := by
    rw [← division]
    push_cast
    field_simp
  have fraction : 0 ≤ (r / den : ℚ) ∧ (r / den : ℚ) < 1 :=
    ⟨by positivity, (div_lt_one denominator).mpr (by exact_mod_cast remainder)⟩
  have more : 2 * r > den ↔ 1 < 2 * (r / den : ℚ) := by
    rw [← mul_div_assoc, lt_div_iff₀ denominator, one_mul]
    exact_mod_cast Iff.rfl
  have half : 2 * r = den ↔ 2 * (r / den : ℚ) = 1 := by
    rw [← mul_div_assoc, div_eq_one_iff_eq denominator.ne']
    exact_mod_cast Iff.rfl
  rw [value]
  unfold roundDiv
  rw [← quotient, ← rest]
  simp only [Bool.or_eq_true, Bool.and_eq_true, decide_eq_true_eq, more, half]
  split
  · next up =>
    rcases up with up | ⟨up, odd⟩
    · refine ⟨?_, ?_, fun _ => ⟨?_, ?_⟩⟩ <;> push_cast <;> linarith
    · refine ⟨?_, ?_, fun _ => absurd odd (by omega)⟩ <;> push_cast <;> linarith
  · next down =>
    obtain ⟨notMore, notTie⟩ := not_or.mp down
    refine ⟨by linarith, by linarith, fun odd => ⟨by linarith, ?_⟩⟩
    have notHalf : 2 * (r / den : ℚ) ≠ 1 := fun tie => notTie ⟨tie, odd⟩
    have less := lt_of_le_of_ne (not_lt.mp notMore) notHalf
    linarith

theorem log2_bounds (nonzero : m ≠ 0) (e : Int)
    : (2 : ℚ) ^ (e + m.log2) ≤ m * 2 ^ e ∧ (m * 2 ^ e : ℚ) < 2 ^ (e + m.log2 + 1) := by
  have positive := two_zpow_pos e
  have low : (2 : ℚ) ^ m.log2 ≤ m := by exact_mod_cast log2_self_le nonzero
  have high : (m : ℚ) < 2 ^ (m.log2 + 1) := by exact_mod_cast lt_log2_self
  constructor
  · rw [zpow_add₀ (by norm_num), zpow_natCast, mul_comm]
    exact mul_le_mul_of_nonneg_right low positive.le
  · rw [add_assoc, zpow_add₀ (by norm_num), mul_comm (2 ^ e)]
    exact mul_lt_mul_of_pos_right (by exact_mod_cast high) positive

theorem ofScaled_rounds (negative) (nonzero : m ≠ 0) (e)
    : ∃ u, Rounds (m * 2 ^ e / 2 ^ quantum (e + m.log2)) u
      ∧ ofScaled negative m e
        = withSign negative (ofNumber ((quantum (e + m.log2) + 1074).toNat * 2 ^ 52 + u)) := by
  refine ⟨_, ?_, by rw [ofScaled, if_neg nonzero]; rfl⟩
  show Rounds _ (if quantum (e + m.log2) ≤ e then m * 2 ^ (e - quantum (e + m.log2)).toNat
    else roundDiv m (2 ^ (quantum (e + m.log2) - e).toNat))
  rw [mul_div_assoc, ← zpow_sub₀ (by norm_num)]
  split
  · next fine =>
    have exact : (m * 2 ^ (e - quantum (e + m.log2)) : ℚ)
        = (m * 2 ^ (e - quantum (e + m.log2)).toNat : Nat) := by
      push_cast
      rw [← zpow_natCast, Int.toNat_of_nonneg (by omega)]
    rw [exact]
    exact Rounds.self _
  · next coarse =>
    have quotient : (m * 2 ^ (e - quantum (e + m.log2)) : ℚ)
        = m / (2 ^ (quantum (e + m.log2) - e).toNat : Nat) := by
      push_cast
      rw [← zpow_natCast, Int.toNat_of_nonneg (by omega), div_eq_mul_inv, ← zpow_neg]
      congr 2
      omega
    rw [quotient]
    exact roundDiv_rounds m (by positivity)

theorem ofScaled_eq (negative) (m : Nat) (e)
    : ∃ n, Nearest (m * 2 ^ e) n ∧ ofScaled negative m e = withSign negative (ofNumber n) := by
  by_cases nonzero : m = 0
  · refine ⟨0, ?_, ?_⟩
    · simpa [nonzero] using Nearest.self 0
    · rw [ofScaled, if_pos nonzero]
      rfl
  · obtain ⟨low, high⟩ := log2_bounds nonzero e
    obtain ⟨u, rounds, result⟩ := ofScaled_rounds negative nonzero e
    exact ⟨_, nearest_of_quantum ((two_zpow_pos _).le.trans low) (Or.inl low) high rounds, result⟩

theorem ofScaled_of_shape {m m' : Nat} {e e'} (finite : s.shape = .finite negative m e)
    (same : (m' * 2 ^ e' : ℚ) = m * 2 ^ e)
    : ofScaled negative m' e' = s := by
  obtain ⟨sign, value, small⟩ := shape_eq_finite finite
  obtain ⟨n, near, result⟩ := ofScaled_eq negative m' e'
  rw [same, ← value] at near
  rw [result, near.unique (Nearest.self s.number)]
  exact eq_withSign small.le sign rfl

/-- A scaled whole number that fits into a mantissa is the magnitude of a pattern. -/
theorem exists_magnitude {e : Int} (fits : m < 2 ^ 53) (low : -1074 ≤ e)
    : ∃ n, magnitude n = m * 2 ^ e := by
  by_cases nonzero : m = 0
  · exact ⟨0, by simp [nonzero]⟩
  · have short : m.log2 < 53 := (Nat.log2_lt nonzero).mpr fits
    obtain ⟨q, quanta⟩ : ∃ q, q = quantum (e + m.log2) := ⟨_, rfl⟩
    have fine : q ≤ e := by rw [quanta, quantum]; omega
    have least : -1074 ≤ q := by rw [quanta, quantum]; omega
    have value : ((m * 2 ^ (e - q).toNat : Nat) : ℚ) * 2 ^ q = m * 2 ^ e := by
      push_cast
      rw [← zpow_natCast, Int.toNat_of_nonneg (by omega), mul_assoc, ← zpow_add₀ (by norm_num)]
      congr 2
      omega
    have exponent : ((q + 1074).toNat : Int) - 1074 = q := by omega
    refine ⟨(q + 1074).toNat * 2 ^ 52 + m * 2 ^ (e - q).toNat, ?_⟩
    rw [magnitude_compose, exponent, value]
    · by_cases lowest : q = -1074
      · exact Or.inr (by omega)
      · have shift : m.log2 + (e - q).toNat = 52 := by rw [quantum] at quanta; omega
        refine Or.inl ?_
        calc 2 ^ 52 = 2 ^ m.log2 * 2 ^ (e - q).toNat := by rw [← Nat.pow_add, shift]
          _ ≤ m * 2 ^ (e - q).toNat := Nat.mul_le_mul_right _ (Nat.log2_self_le nonzero)
    · have shift : m.log2 + 1 + (e - q).toNat ≤ 53 := by rw [quantum] at quanta; omega
      calc m * 2 ^ (e - q).toNat ≤ 2 ^ (m.log2 + 1) * 2 ^ (e - q).toNat :=
            Nat.mul_le_mul_right _ Nat.lt_log2_self.le
        _ = 2 ^ (m.log2 + 1 + (e - q).toNat) := by rw [← Nat.pow_add]
        _ ≤ 2 ^ 53 := Nat.pow_le_pow_right (by decide) shift

theorem magnitude_top : magnitude (2047 * 2 ^ 52) = 2 ^ (1024 : Int) := by
  have composed : 2047 * 2 ^ 52 = 2046 * 2 ^ 52 + 2 ^ 52 := by norm_num
  rw [composed, magnitude_compose (Or.inl le_rfl) (by norm_num)]
  rw [cast_pow, ← zpow_natCast, cast_ofNat, ← zpow_add₀ (by norm_num)]
  rfl

/-- A scaled whole number that fits into a sample becomes a sample with its value. -/
theorem shape_ofScaled (negative : Bool) {e : Int} (fits : m < 2 ^ 53) (low : -1074 ≤ e)
    (high : (m * 2 ^ e : ℚ) < 2 ^ (1024 : Int))
    : ∃ m' e', (ofScaled negative m e).shape = .finite negative m' e'
      ∧ (m' * 2 ^ e' : ℚ) = m * 2 ^ e := by
  obtain ⟨n, near, result⟩ := ofScaled_eq negative m e
  obtain ⟨n', value⟩ := exists_magnitude fits low
  obtain rfl : n' = n := (Nearest.self n').unique (value ▸ near)
  have finite : n' < 2047 * 2 ^ 52 :=
    magnitude_strictMono.lt_iff_lt.mp (by rw [value, magnitude_top]; exact high)
  have bits := toNat_withSign (s := ofNumber n') (by rw [toNat_ofNumber]; omega) negative
  rw [toNat_ofNumber, min_eq_left finite.le, ← result] at bits
  have number : (ofScaled negative m e).number = n' := by
    rw [Sample.number, bits]
    split <;> omega
  have sign : (ofScaled negative m e).isNegative = negative := by
    rw [isNegative_eq, bits]
    cases negative
    · simp
      omega
    · simp
  obtain ⟨m', e', shaped⟩ := exists_shape_finite (number ▸ finite)
  obtain ⟨-, value', -⟩ := shape_eq_finite shaped
  exact ⟨m', e', by rw [shaped, sign], by rw [← value', number, value]⟩

end Sample

end MapAlgebra
