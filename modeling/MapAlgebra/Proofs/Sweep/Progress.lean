import MapAlgebra.Proofs.Sample.Division
import MapAlgebra.Proofs.Sweep.ExactlyOnce

/-! The fractions that a sweep reports. They go up from zero to one as long as the numbers of tiles and
of pixels are words.
-/

namespace MapAlgebra

open List

namespace Sample

/-- The number of the pattern of one. -/
def numberOfOne : Nat := 1023 * 2 ^ 52

theorem zero_eq : zero = ofNumber 0 := rfl

theorem one_eq : one = ofNumber numberOfOne := rfl

theorem magnitude_numberOfOne : magnitude numberOfOne = 1 := by
  have composed : numberOfOne = 1022 * 2 ^ 52 + 2 ^ 52 := by decide
  rw [composed, magnitude_compose (Or.inl le_rfl) (by norm_num), Nat.cast_pow, ← zpow_natCast,
    Nat.cast_ofNat, ← zpow_add₀ (by norm_num)]
  rfl

/-- The pattern that stands for the number past the last word. -/
theorem magnitude_words : magnitude (1086 * 2 ^ 52) = 2 ^ 63 := by
  have composed : 1086 * 2 ^ 52 = 1085 * 2 ^ 52 + 2 ^ 52 := by norm_num
  rw [composed, magnitude_compose (Or.inl le_rfl) (by norm_num), Nat.cast_pow, ← zpow_natCast,
    Nat.cast_ofNat, ← zpow_add₀ (by norm_num)]
  norm_num

/-- A whole number becomes the nearest sample with its sign, which is finite and not below one if the
number is a word and not zero.
-/
theorem ofInt_eq {n} (word : n.natAbs ≤ 2 ^ 63)
    : ∃ k, Nearest n.natAbs k ∧ ofInt n = withSign (n < 0) (ofNumber k) ∧ k ≤ 1086 * 2 ^ 52
        ∧ (n ≠ 0 → numberOfOne ≤ k) := by
  obtain ⟨k, near, result⟩ := ofScaled_eq (n < 0) n.natAbs 0
  rw [zpow_zero, mul_one] at near
  refine ⟨k, near, result, ?_, fun nonzero => ?_⟩
  · have small : (n.natAbs : ℚ) ≤ 2 ^ 63 := by exact_mod_cast word
    exact near.mono (magnitude_words ▸ Nearest.self (1086 * 2 ^ 52)) small
  · have large : (1 : ℚ) ≤ n.natAbs := by exact_mod_cast Int.natAbs_pos.mpr nonzero
    exact (magnitude_numberOfOne ▸ Nearest.self numberOfOne).mono near large

theorem ofInt_natCast {n : Nat} (word : n < 2 ^ 63)
    : ∃ k, Nearest n k ∧ ofInt n = ofNumber k ∧ k < 2047 * 2 ^ 52 ∧ (0 < n → numberOfOne ≤ k) := by
  obtain ⟨k, near, result, finite, large⟩ := ofInt_eq (n := n) word.le
  have sign : decide ((n : Int) < 0) = false := by simp
  rw [sign] at result
  exact ⟨k, near, result, by omega, fun positive => large (by omega)⟩

end Sample

namespace Sweep

open Sample

variable {done done' whole : Nat}

section

variable (positive : 0 < whole)
include positive

section

variable (word : whole < 2 ^ 63)
include word

/-- A fraction is the nearest to the quotient of the samples that are nearest to its parts. -/
theorem fraction_eq (most : done ≤ whole)
    : ∃ d t n, Nearest done d ∧ Nearest whole t ∧ 0 < magnitude t
      ∧ Nearest (magnitude d / magnitude t) n ∧ fraction done whole = ofNumber n := by
  obtain ⟨d, near, result, finite, -⟩ := ofInt_natCast (n := done) (by omega)
  obtain ⟨t, near', result', finite', large⟩ := ofInt_natCast word
  have some : numberOfOne ≤ t := large positive
  have nonzero : t ≠ 0 := by rw [numberOfOne] at some; omega
  obtain ⟨n, quotient, divided⟩ := div_withSign false finite finite' nonzero
  refine ⟨d, t, n, near, near', ?_, quotient, ?_⟩
  · rw [← magnitude_zero]
    exact magnitude_strictMono (by omega)
  · rw [fraction, if_pos (by omega), result, result']
    exact divided

/-- More pixels make no smaller fraction, and none is above one. -/
theorem fraction_mono (less : done ≤ done') (most : done' ≤ whole)
    : ∃ n n', fraction done whole = ofNumber n ∧ fraction done' whole = ofNumber n'
      ∧ n ≤ n' ∧ n' ≤ numberOfOne := by
  obtain ⟨d, t, n, near, nearTotal, some, quotient, result⟩ :=
    fraction_eq positive word (less.trans most)
  obtain ⟨d', t', n', near', nearTotal', some', quotient', result'⟩ := fraction_eq positive word most
  obtain rfl : t = t' := nearTotal.unique nearTotal'
  have parts : magnitude d ≤ magnitude d' :=
    magnitude_strictMono.monotone (near.mono near' (by exact_mod_cast less))
  have whole : magnitude d' ≤ magnitude t :=
    magnitude_strictMono.monotone (near'.mono nearTotal (by exact_mod_cast most))
  refine ⟨n, n', result, result', quotient.mono quotient' ?_, ?_⟩
  · exact div_le_div_of_nonneg_right parts some.le
  · refine quotient'.mono (magnitude_numberOfOne ▸ Nearest.self numberOfOne) ?_
    exact (div_le_one some).mpr whole

theorem fraction_le_fraction (less : done ≤ done') (most : done' ≤ whole)
    : (fraction done whole).le (fraction done' whole) = true := by
  obtain ⟨n, n', result, result', ordered, bound⟩ := fraction_mono positive word less most
  rw [result, result']
  rw [numberOfOne] at bound
  exact le_ofNumber (by omega) (by omega) ordered

theorem fraction_bounds (most : done ≤ whole)
    : zero.le (fraction done whole) = true ∧ (fraction done whole).le one = true := by
  obtain ⟨n, n', result, -, less, most⟩ := fraction_mono positive word le_rfl most
  have bound := less.trans most
  have small : n < 2047 * 2 ^ 52 := by rw [numberOfOne] at bound; omega
  rw [result, zero_eq, one_eq]
  exact ⟨le_ofNumber (by omega) small (Nat.zero_le n), le_ofNumber small (by decide) bound⟩

theorem fraction_self : fraction whole whole = one := by
  obtain ⟨d, t, n, near, near', some, quotient, result⟩ := fraction_eq positive word le_rfl
  obtain rfl : d = t := near.unique near'
  rw [div_self some.ne'] at quotient
  rw [result, one_eq, quotient.unique (magnitude_numberOfOne ▸ Nearest.self numberOfOne)]

end

end

/-- The fractions that are reported after each of some stretches, in front of which so many pixels were
done.
-/
def fractionsFrom (whole : Int) : (done : Int) → List Stretch → List Sample
  | _, [] => []
  | done, stretch :: rest =>
    fraction (wrap (done + stretch.pixels)) whole
      :: fractionsFrom whole (wrap (done + stretch.pixels)) rest

theorem length_fractionsFrom (whole done stretches)
    : (fractionsFrom whole done stretches).length = stretches.length := by
  induction stretches generalizing done with
  | nil => rfl
  | cons stretch rest ih => rw [fractionsFrom, length_cons, ih, length_cons]

variable {work : List Stretch}

/-- As long as no pixel is counted past the total, the numbers of done pixels are exact. -/
theorem fractionsFrom_cons {stretch} (word : whole < 2 ^ 63)
    (within : done + ((stretch :: work).map (·.pixels)).sum ≤ whole)
    : fractionsFrom whole done (stretch :: work)
        = fraction (done + stretch.pixels : Nat) whole
          :: fractionsFrom whole (done + stretch.pixels : Nat) work
      ∧ done + stretch.pixels + (work.map (·.pixels)).sum ≤ whole := by
  rw [map_cons, sum_cons] at within
  have exact : wrap ((done : Int) + stretch.pixels) = (done + stretch.pixels : Nat) := by
    rw [wrap_eq_self (by omega) (by omega)]
    omega
  rw [fractionsFrom, exact]
  exact ⟨rfl, by omega⟩

theorem mem_fractionsFrom (word : whole < 2 ^ 63)
    (within : done + (work.map (·.pixels)).sum ≤ whole) {f}
    (member : f ∈ fractionsFrom whole done work)
    : ∃ d, done ≤ d ∧ d ≤ whole ∧ f = fraction (d : Nat) whole := by
  induction work generalizing done with
  | nil => exact nomatch member
  | cons stretch rest ih =>
    obtain ⟨parts, within⟩ := fractionsFrom_cons word within
    rw [parts] at member
    rcases mem_cons.mp member with rfl | later
    · exact ⟨done + stretch.pixels, by omega, by omega, rfl⟩
    · obtain ⟨d, low, high, same⟩ := ih within later
      exact ⟨d, by omega, high, same⟩

/-- The fractions never go down, by induction on the stretches. -/
theorem pairwise_fractionsFrom (positive : 0 < whole) (word : whole < 2 ^ 63)
    (within : done + (work.map (·.pixels)).sum ≤ whole)
    : (fractionsFrom whole done work).Pairwise fun f f' => f.le f' = true := by
  induction work generalizing done with
  | nil => exact .nil
  | cons stretch rest ih =>
    obtain ⟨parts, within⟩ := fractionsFrom_cons word within
    rw [parts]
    refine .cons (fun f member => ?_) (ih within)
    obtain ⟨d, low, high, rfl⟩ := mem_fractionsFrom word within member
    exact fraction_le_fraction positive word low high

theorem getLast?_fractionsFrom (word : whole < 2 ^ 63) (some : work ≠ [])
    (within : done + (work.map (·.pixels)).sum ≤ whole)
    : (fractionsFrom whole done work).getLast?
      = Option.some (fraction (done + (work.map (·.pixels)).sum : Nat) whole) := by
  induction work generalizing done with
  | nil => exact absurd rfl some
  | cons stretch rest ih =>
    obtain ⟨parts, within'⟩ := fractionsFrom_cons word within
    rw [parts, map_cons, sum_cons, ← Nat.add_assoc]
    cases rest with
    | nil => simp [fractionsFrom]
    | cons next rest =>
      have last := ih (cons_ne_nil next rest) within'
      rw [List.getLast?_cons, last, Option.getD_some]

/-- No number of a sweep is past the words: neither a coordinate of a tile nor the number of tiles of a
pass nor the number of all pixels.
-/
structure Countable (passes : List Pass) : Prop where
  coordinates : ∀ p ∈ passes, p.grid.InWords
  tiles : ∀ p ∈ passes, p.grid.columns * p.grid.rows < 2 ^ 63
  pixels : ((stretches passes).map (·.pixels)).sum < 2 ^ 63

variable {scene : Scene} {tile : TileSize}

section

variable (wellFormed : ∀ t ∈ targets scene, t.2.WellFormed)
  (countable : Countable (plan scene tile))
include wellFormed countable

theorem total_eq_sum
    : total (plan scene tile) = (((stretches (plan scene tile)).map (·.pixels)).sum : Nat) := by
  have counted := total_eq fun p => mem_plan wellFormed countable.coordinates (p := p)
  have lengths : (plan scene tile).map (·.missed.length) = (plan scene tile).map fun _ => 0 := by
    refine map_congr_left fun p member => length_eq_zero_iff.mpr ?_
    exact missed_eq_nil member (countable.coordinates p member) (countable.tiles p member)
  have none : ((plan scene tile).map fun _ => 0).sum = 0 := by simp
  have small := countable.pixels
  rw [counted, lengths, none, Nat.add_zero, wrap_eq_self (by omega) (by omega)]

/-- There is nothing to count exactly if no destination has a pixel, and then there are no tiles. -/
theorem total_eq_zero_iff
    : (total (plan scene tile) = 0 ↔ ∀ t ∈ targets scene, t.2.bounds.isEmpty = true)
      ∧ (total (plan scene tile) = 0 → stretches (plan scene tile) = []) := by
  have blank (empty : ∀ t ∈ targets scene, t.2.bounds.isEmpty = true)
      : stretches (plan scene tile) = [] := by
    refine flatMap_eq_nil_iff.mpr fun p member => map_eq_nil_iff.mpr ?_
    obtain ⟨t, there, -, grid⟩ := mem_planAfter member
    rw [grid]
    refine TileGrid.tiles_create_of_isEmpty ?_
    rw [(wellFormed t there).ordered]
    exact empty t there
  have empty (none : total (plan scene tile) = 0) : ∀ t ∈ targets scene, t.2.bounds.isEmpty = true := by
    intro t there
    rw [total_eq_sum wellFormed countable, Int.natCast_eq_zero, sum_eq_zero_iff] at none
    -- A destination with a pixel has one that is evaluated, so the pixels of its tile were counted.
    by_contra inside
    simp only [Rect.isEmpty, Bool.or_eq_true, decide_eq_true_eq, not_or, not_le] at inside
    have has : t.2.contains t.2.bounds.minX t.2.bounds.minY 0 = true := by
      have bands := (wellFormed t there).bands
      rw [Raster.contains_iff, Rect.contains_iff]
      omega
    have once := (evaluatesOnce_iff (fun t there => (wellFormed t there).ordered) fun p member =>
      (mem_plan wellFormed countable.coordinates member).1).mpr fun p member =>
        missed_eq_nil member (countable.coordinates p member) (countable.tiles p member)
    have counted := once t.2.bounds.minX t.2.bounds.minY 0
    rw [if_pos (any_eq_true.mpr ⟨t, there, has⟩)] at counted
    have evaluated : _ ∈ calls (plan scene tile) := count_pos_iff.mp (counted ▸ Nat.one_pos)
    obtain ⟨stretch, among, place⟩ := mem_flatMap.mp evaluated
    obtain ⟨p, member, tiles⟩ := mem_flatMap.mp among
    obtain ⟨area, -, rfl⟩ := mem_map.mp tiles
    obtain ⟨pixel, visited, -⟩ := mem_flatMap.mp place
    have zero := none _ (mem_map_of_mem among)
    rw [length_eq_zero_iff] at zero
    rw [zero] at visited
    cases visited
  refine ⟨⟨empty, fun none => ?_⟩, fun none => blank (empty none)⟩
  rw [total_eq_sum wellFormed countable, blank none]
  rfl

/-- The fractions that are reported when so many stretches are done: zero, one after each stretch, and
one at last if there was nothing to count.
-/
def reported (passes : List Pass) (n : Nat) : List Sample :=
  zero :: fractionsFrom (total passes) 0 ((stretches passes).take n)
    ++ if n = (stretches passes).length ∧ total passes = 0 then [one] else []

theorem reported_of_total_eq_zero (none : total (plan scene tile) = 0) {n}
    (most : n ≤ (stretches (plan scene tile)).length)
    : reported (plan scene tile) n = [zero, one] := by
  have blank := (total_eq_zero_iff wellFormed countable).2 none
  rw [blank, length_nil, Nat.le_zero] at most
  rw [reported, blank, most, if_pos ⟨rfl, none⟩]
  rfl

end

theorem reported_of_total_ne_zero {passes} (some : total passes ≠ 0) (n)
    : reported passes n = zero :: fractionsFrom (total passes) 0 ((stretches passes).take n) := by
  rw [reported, if_neg fun both => some both.2, append_nil]

/-- As long as the numbers are words, the reported fractions go up from zero to one. -/
theorem reported_ascend (wellFormed : ∀ t ∈ targets scene, t.2.WellFormed)
    (countable : Countable (plan scene tile)) {n} (most : n ≤ (stretches (plan scene tile)).length)
    : (reported (plan scene tile) n).Pairwise (fun f f' => f.le f' = true)
      ∧ (∀ f ∈ reported (plan scene tile) n, zero.le f = true ∧ f.le one = true)
      ∧ (n = (stretches (plan scene tile)).length
        → (reported (plan scene tile) n).getLast? = Option.some one) := by
  by_cases none : total (plan scene tile) = 0
  · rw [reported_of_total_eq_zero wellFormed countable none most]
    simp only [mem_cons, not_mem_nil, or_false]
    refine ⟨by simp; decide +kernel, ?_, fun _ => rfl⟩
    rintro f (rfl | rfl) <;> decide +kernel
  · have whole := total_eq_sum wellFormed countable
    have word := countable.pixels
    rw [reported_of_total_ne_zero none, whole]
    rw [whole, Int.natCast_eq_zero] at none
    have positive := Nat.pos_of_ne_zero none
    have within : 0 + (((stretches (plan scene tile)).take n).map (·.pixels)).sum
        ≤ ((stretches (plan scene tile)).map (·.pixels)).sum := by
      rw [Nat.zero_add]
      exact ((take_sublist n _).map _).sum_le_sum fun _ _ => Nat.zero_le _
    have bounds : ∀ f ∈ fractionsFrom (((stretches (plan scene tile)).map (·.pixels)).sum : Nat)
        ((0 : Nat) : Int) ((stretches (plan scene tile)).take n),
        zero.le f = true ∧ f.le one = true := by
      intro f member
      obtain ⟨d, -, high, rfl⟩ := mem_fractionsFrom word within member
      exact fraction_bounds positive word high
    refine ⟨.cons (fun f member => (bounds f member).1) (pairwise_fractionsFrom positive word within),
      fun f member => ?_, fun all => ?_⟩
    · rcases mem_cons.mp member with rfl | later
      · decide +kernel
      · exact bounds f later
    · rw [all, take_length]
      rw [all, take_length] at within
      have nonempty : stretches (plan scene tile) ≠ [] := by
        intro blank
        rw [blank] at none
        exact none rfl
      have last := getLast?_fractionsFrom word nonempty within
      rw [Nat.zero_add, fraction_self positive word] at last
      exact List.getLast?_cons.trans (congrArg _ (congrArg (Option.getD · _) last))

end Sweep

end MapAlgebra
