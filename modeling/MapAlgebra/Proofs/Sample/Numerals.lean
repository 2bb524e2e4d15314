import MapAlgebra.Proofs.Sample.Rounding
import MapAlgebra.Sample.Decimal
import Mathlib.Algebra.Order.Field.Power
import Mathlib.Data.Nat.Cast.Field

/-! What decimal numerals stand for. A numeral is read as the sample nearest to its value, and refused if
that is past the finite samples, unless it is thousands of characters long.
-/

namespace MapAlgebra

open List
open Nat

namespace Sample

variable {m den num n : Nat} {x : ℚ} {cs tail whole : List Char} {s : Sample} {text : String}

/-- A bit below the rounding position that stands for a rest rounds like any such rest: `m` is odd, so
neither it nor anything up to its neighbours is halfway between two multiples of a multiple of four.
-/
theorem rounds_of_sticky {d u : Nat} (odd : m % 2 = 1) (four : 4 ∣ d) (positive : 0 < d)
    (rounds : Rounds (m / d : ℚ) u) (low : (m : ℚ) - 1 < x) (high : x < m + 1)
    : Rounds (x / d) u := by
  have unit : (0 : ℚ) < d := by exact_mod_cast positive
  have below : ((2 * u : ℚ) - 1) * d ≤ 2 * m := by
    have := rounds.low
    rw [← mul_div_assoc, le_div_iff₀ unit] at this
    exact this
  have above : (2 * m : ℚ) ≤ (2 * u + 1) * d := by
    have := rounds.high
    rw [← mul_div_assoc, div_le_iff₀ unit] at this
    exact this
  have below' : 2 * u * d ≤ 2 * m + d := by
    have : (2 * u * d : ℚ) ≤ 2 * m + d := by linarith
    exact_mod_cast this
  have above' : 2 * m ≤ (2 * u + 1) * d := by exact_mod_cast above
  obtain ⟨k, rfl⟩ := four
  have below'' : 2 * u * (4 * k) + 2 ≤ 2 * m + 4 * k := by
    have : 2 * u * (4 * k) = 4 * (2 * u * k) := by ring
    omega
  have above'' : 2 * m + 2 ≤ (2 * u + 1) * (4 * k) := by
    have : (2 * u + 1) * (4 * k) = 4 * ((2 * u + 1) * k) := by ring
    omega
  have below''' : (2 * u * (4 * k : Nat) + 2 : ℚ) ≤ 2 * m + (4 * k : Nat) := by exact_mod_cast below''
  have above''' : (2 * m + 2 : ℚ) ≤ (2 * u + 1) * (4 * k : Nat) := by exact_mod_cast above''
  have strictly : 2 * (u : ℚ) - 1 < 2 * (x / (4 * k : Nat)) ∧ 2 * (x / (4 * k : Nat)) < 2 * u + 1 := by
    rw [← mul_div_assoc, lt_div_iff₀ unit, div_lt_iff₀ unit]
    constructor <;> linarith
  exact ⟨strictly.1.le, strictly.2.le, fun _ => strictly⟩

theorem quotient_large (nonzero : num ≠ 0) (positive : 0 < den)
    : 2 ^ 65 ≤ num * 2 ^ (den.log2 + 66 - num.log2) / den := by
  rw [Nat.le_div_iff_mul_le positive]
  calc 2 ^ 65 * den ≤ 2 ^ 65 * 2 ^ (den.log2 + 1) := Nat.mul_le_mul_left _ Nat.lt_log2_self.le
    _ = 2 ^ (den.log2 + 66) := by rw [← Nat.pow_add]; congr 1; omega
    _ ≤ 2 ^ (num.log2 + (den.log2 + 66 - num.log2)) :=
        Nat.pow_le_pow_right (by decide) (by omega)
    _ = 2 ^ num.log2 * 2 ^ (den.log2 + 66 - num.log2) := Nat.pow_add ..
    _ ≤ num * 2 ^ (den.log2 + 66 - num.log2) :=
        Nat.mul_le_mul_right _ (Nat.log2_self_le nonzero)

/-- A number between two even ones whose middle becomes a sample is rounded like the middle. -/
theorem ofScaled_sticky (negative : Bool) {e : Int} (odd : m % 2 = 1) (large : 2 ^ 54 ≤ m)
    (low : (m : ℚ) - 1 < x) (high : x < m + 1)
    : ∃ n, Nearest (x * 2 ^ e) n ∧ ofScaled negative m e = withSign negative (ofNumber n) := by
  have nonzero : m ≠ 0 := by omega
  have long : 54 ≤ m.log2 := (le_log2 nonzero).mpr large
  have scale := two_zpow_pos e
  obtain ⟨u, rounds, result⟩ := ofScaled_rounds negative nonzero e
  obtain ⟨d, digits⟩ : ∃ d : Nat, quantum (e + m.log2) = e + (d + 2) :=
    ⟨(quantum (e + m.log2) - e - 2).toNat, by rw [quantum]; omega⟩
  have inUnits (y : ℚ) : y * 2 ^ e / 2 ^ quantum (e + m.log2) = y / (4 * 2 ^ d : Nat) := by
    rw [digits, zpow_add₀ (by norm_num), mul_comm y, mul_div_mul_left _ _ scale.ne']
    rw [zpow_add₀ (by norm_num), zpow_natCast]
    norm_num
    rw [mul_comm]
  rw [inUnits] at rounds
  have rounds' := rounds_of_sticky odd (dvd_mul_right 4 _) (by positivity) rounds low high
  rw [← inUnits] at rounds'
  -- The bounds by powers of two are even, so they bound the number's neighbours as well.
  have least : 2 ^ m.log2 + 1 ≤ m := by
    have half : 2 ^ m.log2 = 2 * 2 ^ (m.log2 - 1) := by rw [← pow_succ']; congr 1; omega
    have := log2_self_le nonzero
    omega
  have most : m + 1 ≤ 2 ^ (m.log2 + 1) := lt_log2_self
  have least' : (2 : ℚ) ^ m.log2 + 1 ≤ m := by exact_mod_cast least
  have most' : (m : ℚ) + 1 ≤ 2 ^ (m.log2 + 1) := by exact_mod_cast most
  have below : (2 : ℚ) ^ (e + m.log2) ≤ x * 2 ^ e := by
    rw [add_comm, zpow_add₀ (by norm_num), zpow_natCast]
    exact mul_le_mul_of_nonneg_right (by linarith) scale.le
  have above : x * 2 ^ e < (2 : ℚ) ^ (e + m.log2 + 1) := by
    rw [add_assoc, add_comm, zpow_add₀ (by norm_num)]
    exact mul_lt_mul_of_pos_right (by exact_mod_cast high.trans_le most') scale
  exact ⟨_, nearest_of_quantum ((two_zpow_pos _).le.trans below) (Or.inl below) above rounds', result⟩

theorem ofQuotient_eq (negative) (nonzero : num ≠ 0) (positive : 0 < den)
    : ∃ n, Nearest (num / den) n ∧ ofQuotient negative num den = withSign negative (ofNumber n) := by
  have large := quotient_large nonzero positive
  rw [ofQuotient]
  generalize den.log2 + 66 - num.log2 = shift at large ⊢
  have division := div_add_mod (num * 2 ^ shift) den
  have less := mod_lt (num * 2 ^ shift) positive
  generalize num * 2 ^ shift / den = q at large division ⊢
  generalize num * 2 ^ shift % den = r at division less ⊢
  have denominator : (0 : ℚ) < den := by exact_mod_cast positive
  have value : (num / den : ℚ) = (2 * q + 2 * (r / den)) * 2 ^ (-(shift + 1 : Int)) := by
    have exact : (den * q + r : ℚ) = num * 2 ^ shift := by exact_mod_cast division
    have scale : (2 : ℚ) ^ (shift + 1 : Int) = 2 ^ shift * 2 := by
      rw [zpow_add_one₀ (by norm_num), zpow_natCast]
    rw [zpow_neg, scale]
    field_simp
    linarith
  rw [value]
  by_cases whole : r = 0
  · rw [if_pos whole, whole]
    have := ofScaled_eq negative (2 * q + 0) (-(shift + 1 : Int))
    simpa using this
  · rw [if_neg whole]
    have part : 0 < (r / den : ℚ) := by
      have : (0 : ℚ) < r := by exact_mod_cast pos_of_ne_zero whole
      positivity
    have notAll : (r / den : ℚ) < 1 := (div_lt_one denominator).mpr (by exact_mod_cast less)
    refine ofScaled_sticky negative (by omega) (by omega) ?_ ?_ <;> push_cast <;> linarith

theorem exists_nearest (value : ℚ) (nonneg : 0 ≤ value) : ∃ n, Nearest value n := by
  by_cases zero : value = 0
  · exact ⟨0, by simpa [zero] using Nearest.self 0⟩
  · have nonzero : value.num.toNat ≠ 0 := by
      have := Rat.num_ne_zero.mpr zero
      have := Rat.num_nonneg.mpr nonneg
      omega
    obtain ⟨n, near, -⟩ := ofQuotient_eq false nonzero value.den_pos
    refine ⟨n, ?_⟩
    have numerator : ((value.num.toNat : Nat) : ℚ) = value.num := by
      exact_mod_cast congrArg (Int.cast (R := ℚ)) (Int.toNat_of_nonneg (Rat.num_nonneg.mpr nonneg))
    rwa [numerator, Rat.num_div_den] at near

theorem ofNumber_top (past : 2047 * 2 ^ 52 ≤ n) : ofNumber n = infinity := by
  rw [ofNumber, toNat_infinity, min_eq_right past]
  rfl

theorem magnitude_one : magnitude 1 = 2 ^ (-1074 : Int) := by
  have composed : (1 : Nat) = 0 * 2 ^ 52 + 1 := rfl
  rw [composed, magnitude_compose (Or.inr rfl) (by norm_num)]
  norm_num

theorem two_zpow_le_ten_zpow {a b : Int} (nonneg : 0 ≤ b) (less : a ≤ 3 * b) : (2 : ℚ) ^ a ≤ 10 ^ b := by
  calc (2 : ℚ) ^ a ≤ 2 ^ (3 * b) := zpow_le_zpow_right₀ (by norm_num) less
    _ = (2 ^ (3 : Int)) ^ b := zpow_mul ..
    _ ≤ 10 ^ b := zpow_le_zpow_left₀ nonneg (by norm_num) (by norm_num)

theorem Nearest.top_le_of_huge {value} (near : Nearest value n) (huge : 10 ^ (400 : Int) ≤ value)
    : 2047 * 2 ^ 52 ≤ n := by
  refine (Nearest.self _).mono near ?_
  calc magnitude (2047 * 2 ^ 52) = 2 ^ (1024 : Int) := magnitude_top
    _ ≤ 10 ^ (400 : Int) := two_zpow_le_ten_zpow (by decide) (by decide)
    _ ≤ value := huge

theorem nearest_zero_of_tiny {value} (nonneg : 0 ≤ value) (tiny : value ≤ 10 ^ (-400 : Int))
    : Nearest value 0 := by
  have less : (2 : ℚ) * 10 ^ (-400 : Int) ≤ 2 ^ (-1074 : Int) := by
    rw [zpow_neg, ← div_eq_mul_inv, div_le_iff₀ (by positivity)]
    calc (2 : ℚ) = 2 ^ (-1074 : Int) * 2 ^ (1075 : Int) := by rw [← zpow_add₀ (by norm_num)]; norm_num
      _ ≤ 2 ^ (-1074 : Int) * 10 ^ (400 : Int) :=
          mul_le_mul_of_nonneg_left (two_zpow_le_ten_zpow (by decide) (by decide)) (two_zpow_pos _).le
  refine ⟨?_, ?_, fun odd => absurd odd (by decide)⟩
  · rw [magnitude_zero]
    linarith
  · rw [magnitude_zero, zero_add, zero_add, magnitude_one]
    linarith

/-- A decimal becomes the nearest sample, also where its exponent alone settles which one. -/
theorem ofDecimal_eq (negative : Bool) (m : Nat) (e : Int)
    : ∃ n, Nearest (m * 10 ^ e) n ∧ ofDecimal negative m e = withSign negative (ofNumber n) := by
  rw [ofDecimal]
  split
  · next none =>
    refine ⟨0, ?_, rfl⟩
    simpa [none] using Nearest.self 0
  next nonzero =>
  have positive : (1 : ℚ) ≤ m := by exact_mod_cast pos_of_ne_zero nonzero
  split
  · next huge =>
    obtain ⟨n, near⟩ := exists_nearest (m * 10 ^ e) (by positivity)
    refine ⟨n, near, ?_⟩
    have past : (10 : ℚ) ^ (400 : Int) ≤ m * 10 ^ e := by
      calc (10 : ℚ) ^ (400 : Int) ≤ 10 ^ e := zpow_le_zpow_right₀ (by norm_num) (by omega)
        _ ≤ m * 10 ^ e := le_mul_of_one_le_left (by positivity) positive
    rw [ofNumber_top (near.top_le_of_huge past)]
  split
  · next tiny =>
    refine ⟨0, nearest_zero_of_tiny (by positivity) ?_, rfl⟩
    have size : (m : ℚ) ≤ 10 ^ (m.log2 + 1 : Int) := by
      have : (m : ℚ) ≤ 2 ^ (m.log2 + 1) := by exact_mod_cast lt_log2_self.le
      refine this.trans ?_
      rw [← zpow_natCast]
      exact two_zpow_le_ten_zpow (by omega) (by omega)
    calc (m * 10 ^ e : ℚ) ≤ 10 ^ (m.log2 + 1 : Int) * 10 ^ e := by gcongr
      _ = 10 ^ (m.log2 + 1 + e : Int) := (zpow_add₀ (by norm_num) _ _).symm
      _ ≤ 10 ^ (-400 : Int) := zpow_le_zpow_right₀ (by norm_num) (by omega)
  split
  · next whole =>
    obtain ⟨n, near, result⟩ := ofScaled_eq negative (m * 10 ^ e.toNat) 0
    refine ⟨n, ?_, result⟩
    have value : (m * 10 ^ e : ℚ) = (m * 10 ^ e.toNat : Nat) * 2 ^ (0 : Int) := by
      rw [zpow_zero, mul_one]
      push_cast
      rw [← zpow_natCast, Int.toNat_of_nonneg whole]
    rwa [value]
  · next fraction =>
    have denominator : 0 < 10 ^ (-e).toNat := by positivity
    obtain ⟨n, near, result⟩ := ofQuotient_eq negative nonzero denominator
    refine ⟨n, ?_, result⟩
    have value : (m * 10 ^ e : ℚ) = m / (10 ^ (-e).toNat : Nat) := by
      push_cast
      rw [← zpow_natCast, Int.toNat_of_nonneg (by omega), div_eq_mul_inv, ← zpow_neg, neg_neg]
    rwa [value]

/-- Values from the middle between the greatest finite sample and the next binade on are past the
finite samples.
-/
def threshold : ℚ := 2 ^ 1024 - 2 ^ 970

theorem magnitude_last : magnitude (2047 * 2 ^ 52 - 1) = 2 ^ (1024 : Int) - 2 ^ (971 : Int) := by
  have composed : 2047 * 2 ^ 52 - 1 = 2045 * 2 ^ 52 + (2 ^ 53 - 1) := by norm_num
  rw [composed, magnitude_compose (Or.inl (by norm_num)) (by norm_num)]
  have scale : (2 : ℚ) ^ (1024 : Int) = 2 ^ (53 : Int) * 2 ^ (971 : Int) := by
    rw [← zpow_add₀ (by norm_num)]
    norm_num
  rw [scale, ← sub_one_mul]
  norm_num

theorem Nearest.top_le_iff {value} (near : Nearest value n)
    : 2047 * 2 ^ 52 ≤ n ↔ threshold ≤ value := by
  have middle : magnitude (2047 * 2 ^ 52 - 1) + magnitude (2047 * 2 ^ 52) = 2 * threshold := by
    have doubled : (2 : ℚ) ^ (971 : Int) = 2 * 2 ^ 970 := by
      rw [← zpow_natCast, ← zpow_one_add₀ (by norm_num)]
      rfl
    rw [magnitude_last, magnitude_top, threshold, doubled, ← zpow_natCast 2 1024, Nat.cast_ofNat]
    generalize (2 : ℚ) ^ (1024 : Int) = top, (2 : ℚ) ^ 970 = half
    ring
  have monotone := magnitude_strictMono.monotone
  constructor
  · intro past
    have := near.low
    have := monotone past
    have := monotone (Nat.sub_le_sub_right past 1)
    linarith
  · intro past
    by_contra finite
    have := near.high
    have below : magnitude n ≤ magnitude (2047 * 2 ^ 52 - 1) := monotone (by omega)
    have next : magnitude (n + 1) ≤ magnitude (2047 * 2 ^ 52) := monotone (by omega)
    -- Only the last finite number could reach the middle, and it is odd.
    by_cases last : n = 2047 * 2 ^ 52 - 1
    · have := (near.odd (by omega)).2
      linarith
    · have further : magnitude n < magnitude (2047 * 2 ^ 52 - 1) := magnitude_strictMono (by omega)
      linarith

theorem threshold_le_of_huge {value} (huge : 10 ^ (400 : Int) ≤ value) : threshold ≤ value := by
  obtain ⟨n, near⟩ := exists_nearest value (le_trans (by positivity) huge)
  exact near.top_le_iff.mp (near.top_le_of_huge huge)

theorem isInfinite_ofNumber (n) : (ofNumber n).isInfinite ↔ 2047 * 2 ^ 52 ≤ n := by
  have bits := toNat_ofNumber n
  have unsigned : (ofNumber n).abs.bits.toNat = (ofNumber n).bits.toNat := by
    rw [abs, UInt64.toNat_and]
    exact (and_two_pow_sub_one_eq_mod _ 63).trans (mod_eq_of_lt (by omega))
  rw [isInfinite, beq_iff_eq, ← UInt64.toNat_inj, unsigned, bits, toNat_infinity]
  omega

namespace Numeral

/-- The power of ten that the last digit before the exponent is counted in, with the whole exponent. -/
def scale (n : Numeral) : Int :=
  let size : Int := digitsValue 0 n.power
  (if n.negative then -size else size) - n.places

/-- The number that a numeral stands for. -/
def value (n : Numeral) : ℚ :=
  n.digits * 10 ^ n.scale

/-- The number that a numeral is read as: from the digit on with which its exponent gets past four digits,
the exponent's digits are not counted.
-/
def reading (n : Numeral) : ℚ :=
  n.digits * 10 ^ n.exponent

theorem value_nonneg (n : Numeral) : 0 ≤ n.value := by
  rw [value]
  positivity

theorem reading_nonneg (n : Numeral) : 0 ≤ n.reading := by
  rw [reading]
  positivity

end Numeral

/-- A text is the numeral of a sample: the one nearest to its value. -/
def Denotes (value : Numeral → ℚ) (text : String) (s : Sample) : Prop :=
  ∃ numeral n, readNumeral? text.toList = some numeral ∧ Nearest (value numeral) n ∧ s = ofNumber n

/-- A text is a numeral with a value past the finite samples. -/
def Overflows (value : Numeral → ℚ) (text : String) : Prop :=
  ∃ numeral, readNumeral? text.toList = some numeral ∧ threshold ≤ value numeral

theorem digitsValue_zeros (zeros ds)
    : digitsValue 0 (List.replicate zeros '0' ++ ds) = digitsValue 0 ds := by
  induction zeros with
  | zero => rfl
  | succ zeros ih => exact ih

theorem digitsValue_lt (start ds) (digits : ∀ c ∈ ds, c.isDigit)
    : digitsValue start ds < (start + 1) * 10 ^ ds.length := by
  induction ds generalizing start with
  | nil => simp [digitsValue]
  | cons c rest ih =>
    have digit : c.toNat - '0'.toNat ≤ 9 := by
      have isDigit := digits c mem_cons_self
      rw [Char.isDigit, Bool.and_eq_true, decide_eq_true_eq, decide_eq_true_eq] at isDigit
      have most : c.toNat ≤ '9'.toNat := UInt32.le_iff_toNat_le.mp isDigit.2
      have nine : '9'.toNat = '0'.toNat + 9 := rfl
      omega
    have next := ih (start * 10 + (c.toNat - '0'.toNat)) fun c' member =>
      digits c' (mem_cons_of_mem _ member)
    calc digitsValue start (c :: rest) = digitsValue (start * 10 + (c.toNat - '0'.toNat)) rest := rfl
      _ < (start * 10 + (c.toNat - '0'.toNat) + 1) * 10 ^ rest.length := next
      _ ≤ ((start + 1) * 10) * 10 ^ rest.length := mul_le_mul_right _ (by omega)
      _ = (start + 1) * 10 ^ (c :: rest).length := by rw [length_cons, pow_succ]; ring

/-- The digits of an exponent are read as written, or the exponent has more than four digits either
way.
-/
theorem exponentValue_eq_or (ds : List Char)
    : exponentValue ds = digitsValue 0 ds ∨ 10000 ≤ exponentValue ds ∧ 10000 ≤ digitsValue 0 ds := by
  refine foldl_rel (r := fun n m : Nat => n = m ∨ 10000 ≤ n ∧ 10000 ≤ m) (Or.inl rfl) ?_
  intro c _ n m related
  split <;> omega

theorem isDigit_of_mem_takeWhile : ∀ c ∈ cs.takeWhile Char.isDigit, c.isDigit :=
  all_eq_true.mp all_takeWhile

/-- A fraction has digits only, and is part of the text. -/
theorem readFraction_size (cs : List Char)
    : (∀ c ∈ (readFraction cs).1, c.isDigit) ∧ (readFraction cs).1.length ≤ cs.length := by
  unfold readFraction
  split
  · next more =>
    have := (takeWhile_sublist (l := more) Char.isDigit).length_le
    exact ⟨isDigit_of_mem_takeWhile, le_succ_of_le this⟩
  · exact ⟨forall_mem_nil _, zero_le _⟩

/-- A numeral has no more digits than its text has characters. -/
theorem readNumeral?_size {n} (read : readNumeral? cs = some n)
    : n.digits < 10 ^ cs.length ∧ n.places ≤ cs.length := by
  rw [readNumeral?] at read
  split at read
  next fraction rest split =>
  obtain ⟨digits, size⟩ := readFraction_size (cs.dropWhile Char.isDigit)
  rw [split] at digits size
  have total := congrArg List.length (takeWhile_append_dropWhile (p := Char.isDigit) (l := cs))
  rw [length_append] at total
  dsimp only at read digits size
  split at read
  · exact nomatch read
  · obtain ⟨power, -, rfl⟩ := Option.map_eq_some_iff.mp read
    have less := digitsValue_lt 0 (cs.takeWhile Char.isDigit ++ fraction) fun c member =>
      (mem_append.mp member).elim (isDigit_of_mem_takeWhile c) (digits c)
    refine ⟨?_, by show fraction.length ≤ _; omega⟩
    rw [Nat.one_mul, length_append] at less
    exact less.trans_le (Nat.pow_le_pow_right (by decide) (by omega))

/-- Texts of up to 9600 characters are read as the numbers that they stand for: an exponent of more
than four digits is decisive, whatever stands before it.
-/
theorem Numeral.reads_alike {numeral} (short : cs.length ≤ 9600)
    (read : readNumeral? cs = some numeral) (near : Nearest numeral.value n)
    (near' : Nearest numeral.reading m)
    : m = n ∨ 2047 * 2 ^ 52 ≤ m ∧ 2047 * 2 ^ 52 ≤ n := by
  rw [Numeral.value] at near
  rw [Numeral.reading] at near'
  obtain ⟨digits, places⟩ := readNumeral?_size read
  rcases exponentValue_eq_or numeral.power with same | ⟨large, large'⟩
  · have scale : numeral.exponent = numeral.scale := by rw [Numeral.exponent, Numeral.scale, same]
    rw [scale] at near'
    exact Or.inl (near'.unique near)
  by_cases none : numeral.digits = 0
  · rw [none, cast_zero, zero_mul] at near near'
    exact Or.inl (near'.unique near)
  have positive : (1 : ℚ) ≤ numeral.digits := by exact_mod_cast pos_of_ne_zero none
  cases sign : numeral.negative with
  | false =>
    have huge {e : Int} (least : 400 ≤ e) : (10 : ℚ) ^ (400 : Int) ≤ numeral.digits * 10 ^ e :=
      calc (10 : ℚ) ^ (400 : Int) ≤ 10 ^ e := zpow_le_zpow_right₀ (by norm_num) least
        _ ≤ numeral.digits * 10 ^ e := le_mul_of_one_le_left (by positivity) positive
    refine Or.inr ⟨near'.top_le_of_huge (huge ?_), near.top_le_of_huge (huge ?_)⟩
    · rw [Numeral.exponent, sign, if_neg Bool.false_ne_true]
      omega
    · rw [Numeral.scale, sign, if_neg Bool.false_ne_true]
      omega
  | true =>
    have tiny {e : Int} (most : e ≤ -10000) : Nearest (numeral.digits * 10 ^ e) 0 := by
      refine nearest_zero_of_tiny (by positivity) ?_
      have size : (numeral.digits : ℚ) ≤ 10 ^ (cs.length : Int) := by
        rw [zpow_natCast]
        exact_mod_cast digits.le
      calc (numeral.digits * 10 ^ e : ℚ) ≤ 10 ^ (cs.length : Int) * 10 ^ e := by gcongr
        _ = 10 ^ (cs.length + e) := (zpow_add₀ (by norm_num) _ _).symm
        _ ≤ 10 ^ (-400 : Int) := zpow_le_zpow_right₀ (by norm_num) (by omega)
    refine Or.inl ((near'.unique (tiny ?_)).trans (near.unique (tiny ?_)).symm)
    · rw [Numeral.exponent, sign, if_pos rfl]
      omega
    · rw [Numeral.scale, sign, if_pos rfl]
      omega

section
variable {value : Numeral → ℚ} {numeral : Numeral}

/-- What a well-formed numeral denotes, by the number nearest to its value. -/
theorem denotes_iff (read : readNumeral? text.toList = some numeral)
    (near : Nearest (value numeral) n)
    : Denotes value text s ↔ s = ofNumber n := by
  constructor
  · rintro ⟨numeral', n', read', near', rfl⟩
    obtain rfl := Option.some.inj (read.symm.trans read')
    rw [near'.unique near]
  · rintro rfl
    exact ⟨numeral, n, read, near, rfl⟩

theorem overflows_iff (read : readNumeral? text.toList = some numeral) (near : Nearest (value numeral) n)
    : Overflows value text ↔ 2047 * 2 ^ 52 ≤ n := by
  rw [near.top_le_iff]
  constructor
  · rintro ⟨numeral', read', past⟩
    obtain rfl := Option.some.inj (read.symm.trans read')
    exact past
  · exact fun past => ⟨numeral, read, past⟩

end

/-- A text is read as the sample that it denotes, unless its reading is past the finite ones. -/
theorem parse?_eq_some_iff
    : parse? text = some s
      ↔ Denotes Numeral.reading text s ∧ ¬ Overflows Numeral.reading text := by
  rw [parse?]
  split
  · next malformed =>
    constructor
    · exact fun read => nomatch read
    · rintro ⟨⟨numeral, n, read, -⟩, -⟩
      exact nomatch malformed.symm.trans read
  · next numeral read =>
    obtain ⟨n, near, result⟩ := ofDecimal_eq false numeral.digits numeral.exponent
    have plain : withSign false (ofNumber n) = ofNumber n := rfl
    rw [denotes_iff read near, overflows_iff read near, result, plain]
    simp only [isInfinite_ofNumber]
    split
    · next past => exact ⟨(nomatch ·), fun denoted => absurd past denoted.2⟩
    · next finite =>
      exact ⟨fun read => ⟨(Option.some.inj read).symm, finite⟩, fun denoted => by rw [denoted.1]⟩

/-- A text of up to 9600 characters is read as the sample that is nearest to what it stands for. -/
theorem denotes_reading_iff (short : text.length ≤ 9600)
    : Denotes Numeral.reading text s ∧ ¬ Overflows Numeral.reading text
      ↔ Denotes Numeral.value text s ∧ ¬ Overflows Numeral.value text := by
  cases read : readNumeral? text.toList with
  | none =>
    have undenoted {value : Numeral → ℚ} : ¬ Denotes value text s :=
      fun ⟨_, _, read', _⟩ => nomatch read.symm.trans read'
    exact ⟨fun denoted => absurd denoted.1 undenoted, fun denoted => absurd denoted.1 undenoted⟩
  | some numeral =>
    obtain ⟨m, near', -⟩ := ofDecimal_eq false numeral.digits numeral.exponent
    obtain ⟨n, near⟩ := exists_nearest numeral.value numeral.value_nonneg
    rw [denotes_iff read near', overflows_iff read near', denotes_iff read near, overflows_iff read near]
    rcases Numeral.reads_alike short read near near' with rfl | ⟨past, past'⟩
    · rfl
    · exact ⟨fun denoted => absurd past denoted.2, fun denoted => absurd past' denoted.2⟩

variable {power : Bool × List Char}

theorem readPower?_head (read : readPower? tail = some power)
    : ∀ c ∈ tail.head?, c.isDigit = false ∧ c ≠ '.' := by
  intro c first
  cases tail with
  | nil => exact nomatch first
  | cons e more =>
    obtain rfl : e = c := by simpa using first
    rw [readPower?] at read
    split at read
    · next letter =>
      rcases (Bool.or_eq_true ..).mp letter with lower | upper
      · rw [of_decide_eq_true lower]
        decide
      · rw [of_decide_eq_true upper]
        decide
    · exact nomatch read

theorem takeWhile_digits_append {digits} (tail : List Char) (all : ∀ c ∈ digits, c.isDigit)
    (ends : ∀ c ∈ tail.head?, c.isDigit = false)
    : (digits ++ tail).takeWhile Char.isDigit = digits
      ∧ (digits ++ tail).dropWhile Char.isDigit = tail := by
  rw [takeWhile_append_of_pos all, dropWhile_append_of_pos all]
  cases tail with
  | nil => simp
  | cons c rest =>
    have notDigit := ends c rfl
    simp [notDigit]

theorem readNumeral?_whole (digits : ∀ c ∈ whole, c.isDigit) (nonempty : whole ≠ [])
    (read : readPower? tail = some power)
    : readNumeral? (whole ++ tail)
      = some { digits := digitsValue 0 whole, places := 0, negative := power.1, power := power.2 } := by
  have ends := readPower?_head read
  obtain ⟨taken, left⟩ := takeWhile_digits_append tail digits fun c first => (ends c first).1
  have noPoint : readFraction tail = ([], tail) := by
    unfold readFraction
    split
    · exact absurd rfl (ends '.' rfl).2
    · rfl
  rw [readNumeral?, taken, left, noPoint]
  dsimp only
  rw [read, if_neg (by simp [nonempty]), append_nil]
  rfl

theorem readNumeral?_fraction {fraction} (digits : ∀ c ∈ whole, c.isDigit)
    (digits' : ∀ c ∈ fraction, c.isDigit) (nonempty : whole ++ fraction ≠ [])
    (read : readPower? tail = some power)
    : readNumeral? (whole ++ '.' :: (fraction ++ tail))
      = some { digits := digitsValue 0 (whole ++ fraction), places := fraction.length
               negative := power.1, power := power.2 } := by
  have ends := readPower?_head read
  obtain ⟨taken, left⟩ := takeWhile_digits_append ('.' :: (fraction ++ tail)) digits
    fun c first => by obtain rfl : '.' = c := by simpa using first
                      rfl
  obtain ⟨taken', left'⟩ := takeWhile_digits_append tail digits' fun c first => (ends c first).1
  have point : readFraction ('.' :: (fraction ++ tail)) = (fraction, tail) := by
    rw [readFraction, taken', left']
  rw [readNumeral?, taken, left, point]
  dsimp only
  rw [read, if_neg (by simpa using nonempty)]
  rfl

end Sample

end MapAlgebra
