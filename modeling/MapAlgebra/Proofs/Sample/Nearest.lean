import MapAlgebra.Sample
import Mathlib.Algebra.Order.Field.Rat
import Mathlib.Order.Monotone.Basic
import Mathlib.Tactic.Linarith
import Mathlib.Tactic.NormNum
import Mathlib.Tactic.Positivity
import Mathlib.Tactic.Ring
import Mathlib.Tactic.FieldSimp

/-! Rounding to the nearest sample. The patterns without a sign are numbered in the order of their
magnitudes, as if there were no largest exponent. A value that is not negative has one nearest
number, where a value halfway between two of them goes to the even one, and greater values never
have smaller numbers.
-/

namespace MapAlgebra

namespace Sample

/-- The magnitude of a pattern without sign. The lowest bit of the patterns below the first two
binades stands for the least magnitude; from one binade to the next it doubles.
-/
def magnitude (n : Nat) : ℚ :=
  ((n - (n / 2 ^ 52 - 1) * 2 ^ 52 : Nat) : ℚ) * 2 ^ (((n / 2 ^ 52 - 1 : Nat) : Int) - 1074)

theorem two_zpow_pos (e : Int) : (0 : ℚ) < 2 ^ e :=
  zpow_pos (by norm_num) e

variable {k u : Nat} {value units : ℚ} {top : Int}

theorem magnitude_compose (low : 2 ^ 52 ≤ u ∨ k = 0) (high : u ≤ 2 ^ 53)
    : magnitude (k * 2 ^ 52 + u) = u * 2 ^ ((k : Int) - 1074) := by
  rcases Nat.lt_or_eq_of_le high with inside | rfl
  · have binade : (k * 2 ^ 52 + u) / 2 ^ 52 - 1 = k := by omega
    rw [magnitude, binade, Nat.add_sub_cancel_left]
  · have binade : (k * 2 ^ 52 + 2 ^ 53) / 2 ^ 52 - 1 = k + 1 := by omega
    have units : k * 2 ^ 52 + 2 ^ 53 - (k + 1) * 2 ^ 52 = 2 ^ 52 := by omega
    rw [magnitude, binade, units]
    have doubled : ((k + 1 : Nat) : Int) - 1074 = (k : Int) - 1074 + 1 := by omega
    rw [doubled, zpow_add_one₀ (by norm_num)]
    ring

theorem exists_compose (n : Nat)
    : ∃ k u, n = k * 2 ^ 52 + u ∧ (2 ^ 52 ≤ u ∨ k = 0) ∧ u < 2 ^ 53 := by
  refine ⟨n / 2 ^ 52 - 1, n - (n / 2 ^ 52 - 1) * 2 ^ 52, ?_, ?_, ?_⟩ <;> omega

theorem magnitude_strictMono : StrictMono magnitude := by
  refine strictMono_nat_of_lt_succ fun n => ?_
  obtain ⟨k, u, rfl, low, high⟩ := exists_compose n
  have next : 2 ^ 52 ≤ u + 1 ∨ k = 0 := by omega
  rw [Nat.add_assoc, magnitude_compose low (by omega), magnitude_compose next (by omega)]
  have positive := two_zpow_pos ((k : Int) - 1074)
  push_cast
  linarith

@[simp] theorem magnitude_zero : magnitude 0 = 0 := by
  simp [magnitude]

/-- A value lies between the middles on both sides of a pattern's magnitude, and strictly between
them if the pattern is odd.
-/
structure Nearest (value : ℚ) (n : Nat) : Prop where
  low : magnitude (n - 1) + magnitude n ≤ 2 * value
  high : 2 * value ≤ magnitude n + magnitude (n + 1)
  odd : n % 2 = 1 → magnitude (n - 1) + magnitude n < 2 * value
    ∧ 2 * value < magnitude n + magnitude (n + 1)

namespace Nearest

variable {n n' : Nat}

/-- Rounding keeps the order: the middles above a number are no greater than those below a greater
one, and they are the same only between neighbours, one of which is odd.
-/
theorem mono {value'} (near : Nearest value n) (near' : Nearest value' n') (le : value ≤ value')
    : n ≤ n' := by
  by_contra greater
  have below : magnitude n' ≤ magnitude (n - 1) := magnitude_strictMono.monotone (by omega)
  have above : magnitude (n' + 1) ≤ magnitude n := magnitude_strictMono.monotone (by omega)
  have low := near.low
  have high := near'.high
  rcases Nat.lt_or_eq_of_le (show n' + 1 ≤ n by omega) with apart | rfl
  · have further : magnitude (n' + 1) < magnitude n := magnitude_strictMono apart
    linarith
  · rcases Nat.mod_two_eq_zero_or_one n' with even | odd
    · have strict := (near.odd (by omega)).1
      linarith
    · have strict := (near'.odd odd).2
      linarith

theorem unique (near : Nearest value n) (near' : Nearest value n') : n = n' :=
  Nat.le_antisymm (near.mono near' le_rfl) (near'.mono near le_rfl)

theorem self (n : Nat) : Nearest (magnitude n) n := by
  have below : magnitude (n - 1) ≤ magnitude n := magnitude_strictMono.monotone (by omega)
  have above : magnitude n < magnitude (n + 1) := magnitude_strictMono (by omega)
  refine ⟨by linarith, by linarith, fun odd => ⟨?_, by linarith⟩⟩
  have strict : magnitude (n - 1) < magnitude n := magnitude_strictMono (by omega)
  linarith

end Nearest

/-- A whole number is the nearest to a value, where a half goes to the even one. -/
structure Rounds (value : ℚ) (u : Nat) : Prop where
  low : 2 * (u : ℚ) - 1 ≤ 2 * value
  high : 2 * value ≤ 2 * u + 1
  odd : u % 2 = 1 → 2 * (u : ℚ) - 1 < 2 * value ∧ 2 * value < 2 * u + 1

theorem Rounds.self (u : Nat) : Rounds u u :=
  ⟨by linarith, by linarith, fun _ => ⟨by linarith, by linarith⟩⟩

/-- Rounding the units of a binade stays in the binade or goes to the start of the next one. -/
theorem Rounds.binade (rounds : Rounds units u) (low : 2 ^ 52 ≤ units ∨ k = 0)
    (high : units < 2 ^ 53)
    : (2 ^ 52 ≤ u ∨ k = 0) ∧ u ≤ 2 ^ 53 := by
  constructor
  · refine low.imp_left fun low => ?_
    have : (2 * 2 ^ 52 : ℚ) ≤ 2 * u + 1 := by linarith [rounds.high]
    have : 2 * 2 ^ 52 ≤ 2 * u + 1 := by exact_mod_cast this
    omega
  · have : (2 * u : ℚ) < 2 * 2 ^ 53 + 1 := by linarith [rounds.low]
    have : 2 * u < 2 * 2 ^ 53 + 1 := by exact_mod_cast this
    omega

/-- Rounding the units of a binade rounds to the nearest number. At the lower end of a binade the
patterns below lie closer together, so the middle on that side is not halfway to the next unit.
-/
theorem nearest_of_rounds (nonneg : 0 ≤ units) (low : 2 ^ 52 ≤ units ∨ k = 0)
    (high : units < 2 ^ 53) (rounds : Rounds units u)
    : Nearest (units * 2 ^ ((k : Int) - 1074)) (k * 2 ^ 52 + u) := by
  obtain ⟨scale, scaled⟩ : ∃ scale : ℚ, scale = 2 ^ ((k : Int) - 1074) := ⟨_, rfl⟩
  have positive : 0 < scale := scaled ▸ two_zpow_pos _
  obtain ⟨least, most⟩ := rounds.binade low high
  have here : magnitude (k * 2 ^ 52 + u) = u * scale := by
    rw [scaled, magnitude_compose least most]
  -- The middle above is half a unit away, or more at the upper end.
  have above : 2 * (units * scale) ≤ magnitude (k * 2 ^ 52 + u) + magnitude (k * 2 ^ 52 + u + 1)
      ∧ (u % 2 = 1 →
        2 * (units * scale) < magnitude (k * 2 ^ 52 + u) + magnitude (k * 2 ^ 52 + u + 1)) := by
    rcases Nat.lt_or_eq_of_le most with inside | last
    · have next : magnitude (k * 2 ^ 52 + u + 1) = (u + 1) * scale := by
        rw [scaled, Nat.add_assoc, magnitude_compose (by omega) (by omega)]
        push_cast
        ring
      rw [here, next]
      constructor
      · nlinarith [rounds.high]
      · intro odd
        nlinarith [(rounds.odd odd).2]
    · have next : magnitude (k * 2 ^ 52 + u) < magnitude (k * 2 ^ 52 + u + 1) :=
        magnitude_strictMono (Nat.lt_succ_self _)
      have less : units * scale < u * scale := by
        refine mul_lt_mul_of_pos_right ?_ positive
        rw [last]
        exact_mod_cast high
      rw [here] at next ⊢
      exact ⟨by linarith, fun _ => by linarith⟩
  -- The middle below is half a unit away, or less at the lower end.
  have below : magnitude (k * 2 ^ 52 + u - 1) + magnitude (k * 2 ^ 52 + u) ≤ 2 * (units * scale)
      ∧ (u % 2 = 1 →
        magnitude (k * 2 ^ 52 + u - 1) + magnitude (k * 2 ^ 52 + u) < 2 * (units * scale)) := by
    by_cases first : u = 0
    · obtain rfl : k = 0 := by omega
      subst first
      refine ⟨?_, fun odd => absurd odd (by decide)⟩
      have : 0 ≤ units * scale := by positivity
      simpa using this
    · by_cases inside : 2 ^ 52 < u ∨ k = 0
      · have previous : magnitude (k * 2 ^ 52 + u - 1) = (u - 1) * scale := by
          rw [scaled, Nat.add_sub_assoc (by omega), magnitude_compose (by omega) (by omega),
            Nat.cast_sub (by omega), Nat.cast_one]
        rw [here, previous]
        constructor
        · nlinarith [rounds.low]
        · intro odd
          nlinarith [(rounds.odd odd).1]
      · have previous : magnitude (k * 2 ^ 52 + u - 1) < magnitude (k * 2 ^ 52 + u) :=
          magnitude_strictMono (by omega)
        have lowest : u = 2 ^ 52 := by omega
        have enough : u * scale ≤ units * scale := by
          refine mul_le_mul_of_nonneg_right ?_ positive.le
          rw [lowest]
          exact_mod_cast low.resolve_right (by omega)
        rw [here] at previous ⊢
        exact ⟨by linarith, fun _ => by linarith⟩
  rw [← scaled]
  refine ⟨below.1, above.1, fun odd => ?_⟩
  have oddUnits : u % 2 = 1 := by omega
  exact ⟨below.2 oddUnits, above.2 oddUnits⟩

/-- The power of two that the lowest bit of a number stands for that is nearest to a value with this
highest bit.
-/
def quantum (top : Int) : Int := max (top - 52) (-1074)

theorem quantum_eq (top : Int) : quantum top = ((quantum top + 1074).toNat : Int) - 1074 := by
  rw [quantum]
  omega

/-- A value has the units of a binade as many quanta. Where the quantum is the least one, the highest
bit may be further down.
-/
theorem units_of_quantum (low : 2 ^ top ≤ value ∨ top ≤ -1022) (high : value < 2 ^ (top + 1))
    : (2 ^ 52 ≤ value / 2 ^ quantum top ∨ (quantum top + 1074).toNat = 0)
      ∧ value / 2 ^ quantum top < 2 ^ 53 := by
  have positive := two_zpow_pos (quantum top)
  constructor
  · by_cases subnormal : (quantum top + 1074).toNat = 0
    · exact Or.inr subnormal
    · have exponent : top = 52 + quantum top := by rw [quantum] at subnormal ⊢; omega
      have normal : ¬ top ≤ -1022 := by omega
      refine Or.inl ((le_div_iff₀ positive).mpr ?_)
      calc (2 : ℚ) ^ 52 * 2 ^ quantum top = 2 ^ top := by
            rw [← zpow_natCast, ← zpow_add₀ (by norm_num)]
            exact congrArg _ exponent.symm
        _ ≤ value := low.resolve_right normal
  · have exponent : top + 1 ≤ 53 + quantum top := by rw [quantum]; omega
    refine (div_lt_iff₀ positive).mpr ?_
    calc value < 2 ^ (top + 1) := high
      _ ≤ 2 ^ (53 + quantum top) := zpow_le_zpow_right₀ (by norm_num) exponent
      _ = (2 : ℚ) ^ 53 * 2 ^ quantum top := by rw [zpow_add₀ (by norm_num)]; norm_cast

/-- Rounding a value to a whole number of its quanta rounds it to the nearest number. -/
theorem nearest_of_quantum (nonneg : 0 ≤ value) (low : 2 ^ top ≤ value ∨ top ≤ -1022)
    (high : value < 2 ^ (top + 1)) (rounds : Rounds (value / 2 ^ quantum top) u)
    : Nearest value ((quantum top + 1074).toNat * 2 ^ 52 + u) := by
  have positive := two_zpow_pos (quantum top)
  obtain ⟨least, most⟩ := units_of_quantum low high
  have near := nearest_of_rounds (div_nonneg nonneg positive.le) least most rounds
  rwa [← quantum_eq, div_mul_cancel₀ _ positive.ne'] at near

end Sample

end MapAlgebra
