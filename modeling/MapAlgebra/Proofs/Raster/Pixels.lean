import MapAlgebra.Raster.Rect
import Mathlib.Data.List.Nodup

/-! The pixels of a rectangle. Each of them is listed once. -/

namespace MapAlgebra

open List

/-- Lists whose elements tell which list they are from have no element in common. -/
theorem nodup_flatMap_of_key {α β : Type} {l : List α} {f} (key : β → α) (different : l.Nodup)
    (each : ∀ a ∈ l, (f a).Nodup) (tells : ∀ a ∈ l, ∀ b ∈ f a, key b = a)
    : (l.flatMap f).Nodup := by
  refine nodup_flatMap.mpr ⟨each, ?_⟩
  refine different.imp_of_mem fun {a a'} member member' distinct b here here' => ?_
  exact distinct ((tells a member b here).symm.trans (tells a' member' b here'))

/-- What some lists have once and the others do not have is counted by the lists that have it. -/
theorem count_flatMap_of_indicator {α β : Type} [BEq β] {l : List α} {f : α → List β} {b : β}
    {has : α → Bool} (each : ∀ a ∈ l, (f a).count b = if has a then 1 else 0)
    : (l.flatMap f).count b = l.countP has := by
  induction l with
  | nil => rfl
  | cons a l ih =>
    obtain ⟨first, rest⟩ := forall_mem_cons.mp each
    rw [flatMap_cons, count_append, countP_cons, first, ih rest, Nat.add_comm]

namespace Rect

theorem mem_columns {r : Rect} {x} : x ∈ r.columns ↔ r.minX ≤ x ∧ x < r.maxX := by
  simp only [columns, mem_map, mem_range]
  constructor
  · rintro ⟨i, inside, rfl⟩
    omega
  · intro inside
    exact ⟨(x - r.minX).toNat, by omega, by omega⟩

theorem mem_rows {r : Rect} {y} : y ∈ r.rows ↔ r.minY ≤ y ∧ y < r.maxY := by
  simp only [rows, mem_map, mem_range]
  constructor
  · rintro ⟨i, inside, rfl⟩
    omega
  · intro inside
    exact ⟨(y - r.minY).toNat, by omega, by omega⟩

theorem mem_pixels {r : Rect} {x y} : (x, y) ∈ r.pixels ↔ r.contains x y = true := by
  simp only [pixels, mem_flatMap, mem_map, Prod.mk.injEq, mem_rows, mem_columns, contains,
    Bool.and_eq_true, decide_eq_true_eq]
  constructor
  · rintro ⟨y, ⟨top, bottom⟩, x, ⟨left, right⟩, rfl, rfl⟩
    exact ⟨⟨⟨left, right⟩, top⟩, bottom⟩
  · rintro ⟨⟨⟨left, right⟩, top⟩, bottom⟩
    exact ⟨y, ⟨top, bottom⟩, x, ⟨left, right⟩, rfl, rfl⟩

theorem nodup_pixels (r : Rect) : r.pixels.Nodup := by
  have shifted (low : Int) (n : Nat)
      : ((List.range n).map fun (i : Nat) => low + (i : Int)).Nodup :=
    nodup_range.map fun i j same => by omega
  refine nodup_flatMap_of_key Prod.snd (shifted _ _) (fun y _ => ?_) fun y _ b member => ?_
  · exact (shifted r.minX _).map fun x x' same => congrArg Prod.fst same
  · obtain ⟨x, -, rfl⟩ := mem_map.mp member
    rfl

theorem count_pixels (r : Rect) (x y)
    : r.pixels.count (x, y) = if r.contains x y then 1 else 0 := by
  rw [r.nodup_pixels.count]
  exact if_congr mem_pixels rfl rfl

theorem length_pixels (r : Rect)
    : r.pixels.length = (r.maxY - r.minY).toNat * (r.maxX - r.minX).toNat := by
  simp [pixels, length_flatMap, rows, columns, Function.comp_def]

end Rect

end MapAlgebra
