import MapAlgebra.Word

/-! What wrapping around does to a number. -/

namespace MapAlgebra

/-- A number that is a word stays as it is. -/
theorem wrap_eq_self {n} (low : -2 ^ 63 ≤ n) (high : n < 2 ^ 63) : wrap n = n := by
  rw [wrap, Int.bmod_def]
  omega

/-- Whatever wraps around is a word. -/
theorem wrap_bounds (n : Int) : -2 ^ 63 ≤ wrap n ∧ wrap n < 2 ^ 63 := by
  rw [wrap, Int.bmod_def]
  omega

/-- Only the words of its terms matter to the word of a sum. -/
theorem wrap_add_congr {a a' b b'} (first : wrap a = wrap a') (second : wrap b = wrap b')
    : wrap (a + b) = wrap (a' + b') := by
  unfold wrap at *
  rw [Int.add_bmod, first, second, ← Int.add_bmod]

end MapAlgebra
