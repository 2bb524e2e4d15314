import Mathlib.Data.List.DropRight
import MapAlgebra.Proofs.Script.Places
import MapAlgebra.Proofs.Text.Spelling

/-! What the scalars of a text are. The bytes below 80 are scalars of their own and stand in no other
one, so that lines and comments are the same for the bytes of a text and for its scalars. A text that is
cut between two scalars is decoded into the same scalars on either side.
-/

namespace MapAlgebra

open List

namespace Scalar

/-- A scalar is a byte below 80, or it has neither such a byte nor the character of one. -/
inductive Formed : Scalar → Prop
  | plain {a : UInt8} (small : a.toNat < 0x80) : Formed ⟨Char.ofNat a.toNat, [a]⟩
  | wide {c : Char} {a : UInt8} {more : Bytes} (char : 0x80 ≤ c.toNat)
    (bytes : ∀ b ∈ a :: more, 0x80 ≤ b.toNat)
    : Formed ⟨c, a :: more⟩

variable {s : Scalar}

theorem Formed.bytes_ne_nil (formed : Formed s) : s.bytes ≠ [] := by
  cases formed with
  | plain => exact cons_ne_nil _ _
  | wide => exact cons_ne_nil _ _

variable {n : Nat} {c : Char} {rest rest' : Bytes}

/-- The lead bytes by the number of bytes behind them, with bounds for the first of these. -/
theorem leadShape_bounds {a least most} (shape : leadShape a = some (n, least, most))
    : 0x80 ≤ least.toNat ∧ most.toNat ≤ 0xBF
      ∧ (n = 1 ∧ 0xC2 ≤ a.toNat ∧ a.toNat ≤ 0xDF
        ∨ n = 2 ∧ 0xE0 ≤ a.toNat ∧ a.toNat ≤ 0xEF ∧ (a.toNat = 0xE0 → 0xA0 ≤ least.toNat)
          ∧ (a.toNat = 0xED → most.toNat ≤ 0x9F)
        ∨ n = 3 ∧ 0xF0 ≤ a.toNat ∧ a.toNat ≤ 0xF4 ∧ (a.toNat = 0xF0 → 0x90 ≤ least.toNat)
          ∧ (a.toNat = 0xF4 → most.toNat ≤ 0x8F)) := by
  simp only [leadShape, Bool.and_eq_true, decide_eq_true_eq, beq_iff_eq, UInt8.le_iff_toNat_le,
    ← UInt8.toNat_inj, UInt8.reduceToNat] at shape
  repeat' split at shape
  all_goals
    cases shape
  all_goals
    simp only [UInt8.reduceToNat, true_and]
    omega

variable {a : UInt8}

theorem multiByte?_eq_some (read : multiByte? a rest = some (c, n))
    : ∃ b more, rest.take n = b :: more ∧ more.length + 1 = n ∧ Announces a n b
      ∧ (∀ t ∈ more, isTail t = true)
      ∧ c = Char.ofNat
        ((b :: more).foldl (fun code t => code * 64 + (t.toNat - 0x80)) (leadPayload a n)) := by
  unfold multiByte? at read
  split at read
  · cases read
  · next count least most shape =>
    split at read
    · cases read
    · next b more taken =>
      split at read
      · next formed =>
        cases read
        simp only [Bool.and_eq_true, decide_eq_true_eq, all_eq_true] at formed
        obtain ⟨⟨⟨length, low⟩, high⟩, tails⟩ := formed
        exact ⟨b, more, taken, length, ⟨least, most, shape, low, high⟩, tails, rfl⟩
      · cases read

theorem toNat_of_isTail {t} (tail : isTail t = true) : 0x80 ≤ t.toNat ∧ t.toNat ≤ 0xBF := by
  simpa [isTail, UInt8.le_iff_toNat_le] using tail

theorem toNat_char {code} (valid : code.isValidChar) : (Char.ofNat code).toNat = code := by
  rw [Char.ofNat, dif_pos valid]
  rfl

/-- A lead byte and the bytes that it announces are a wide scalar: no number of a character is spelled
in more bytes than it needs.
-/
theorem formed_multiByte (read : multiByte? a rest = some (c, n))
    : Formed ⟨c, a :: rest.take n⟩ := by
  obtain ⟨b, more, taken, length, ⟨least, most, shape, low, high⟩, tails, rfl⟩ := multiByte?_eq_some read
  obtain ⟨floor, ceiling, bounds⟩ := leadShape_bounds shape
  rw [UInt8.le_iff_toNat_le] at low high
  rw [taken]
  refine .wide ?_ ?_
  · rcases bounds with ⟨rfl, bounds⟩ | ⟨rfl, bounds⟩ | ⟨rfl, bounds⟩
    · obtain rfl : more = [] := eq_nil_of_length_eq_zero (by omega)
      have valid : Nat.isValidChar ((a.toNat - 0xC0) * 64 + (b.toNat - 0x80)) := Or.inl (by omega)
      exact Nat.le_trans (by omega) (toNat_char valid).ge
    · obtain ⟨t, rfl⟩ := length_eq_one_iff.mp (show more.length = 1 by omega)
      have tail := toNat_of_isTail (tails t mem_cons_self)
      have valid : Nat.isValidChar
          (((a.toNat - 0xE0) * 64 + (b.toNat - 0x80)) * 64 + (t.toNat - 0x80)) := by
        omega
      exact Nat.le_trans (by omega) (toNat_char valid).ge
    · obtain ⟨t, u, rfl⟩ := length_eq_two.mp (show more.length = 2 by omega)
      have tail := toNat_of_isTail (tails t mem_cons_self)
      have tail' := toNat_of_isTail (tails u (mem_cons_of_mem _ mem_cons_self))
      have valid : Nat.isValidChar
          ((((a.toNat - 0xF0) * 64 + (b.toNat - 0x80)) * 64 + (t.toNat - 0x80)) * 64
            + (u.toNat - 0x80)) := by
        omega
      exact Nat.le_trans (by omega) (toNat_char valid).ge
  · refine forall_mem_cons.mpr ⟨by omega, forall_mem_cons.mpr ⟨by omega, ?_⟩⟩
    exact fun t member => (toNat_of_isTail (tails t member)).1

theorem multiByte?_congr
    (same : ∀ n least most, leadShape a = some (n, least, most) → rest'.take n = rest.take n)
    : multiByte? a rest' = multiByte? a rest := by
  unfold multiByte?
  cases shape : leadShape a with
  | none => rfl
  | some found =>
    dsimp only
    rw [same _ _ _ shape]

theorem multiByte?_take (read : multiByte? a rest = some (c, n)) (more)
    : multiByte? a (rest.take n ++ more) = some (c, n) := by
  rw [← read]
  obtain ⟨b, tails, taken, length, ⟨_, _, shape, -⟩, -⟩ := multiByte?_eq_some read
  refine multiByte?_congr fun count _ _ shape' => ?_
  cases shape.symm.trans shape'
  exact take_left' (by rw [taken, length_cons, length])

/-- Bytes that complete no sequence do not complete one when there are fewer of them. -/
theorem multiByte?_prefix (fewer : rest' <+: rest) (ill : multiByte? a rest = none)
    : multiByte? a rest' = none := by
  obtain ⟨more, rfl⟩ := fewer
  cases read : multiByte? a rest' with
  | none => rfl
  | some found =>
    obtain ⟨b, tails, taken, length, -⟩ := multiByte?_eq_some read
    have long : found.2 ≤ rest'.length := by
      have size := congrArg List.length taken
      rw [length_take, length_cons, length] at size
      omega
    rw [← take_append_drop found.2 rest', append_assoc, multiByte?_take read] at ill
    cases ill

/-- The first scalar of a text is the same however much of the text follows it. -/
theorem exists_decode_cons (a : UInt8) (rest : Bytes)
    : ∃ s tail, a :: rest = s.bytes ++ tail ∧ Formed s
      ∧ ∀ tail', tail' <+: tail → decode (s.bytes ++ tail') = s :: decode tail' := by
  by_cases small : a < 0x80
  · refine ⟨⟨Char.ofNat a.toNat, [a]⟩, rest, rfl, .plain (UInt8.lt_iff_toNat_lt.mp small),
      fun tail' _ => ?_⟩
    rw [decode, singleton_append, decodeAfter, if_pos small]
    rfl
  · cases read : multiByte? a rest with
    | some found =>
      obtain ⟨c, n⟩ := found
      refine ⟨⟨c, a :: rest.take n⟩, rest.drop n,
        congrArg (a :: ·) (take_append_drop n rest).symm, formed_multiByte read,
        fun tail' _ => ?_⟩
      obtain ⟨b, tails, taken, length, -⟩ := multiByte?_eq_some read
      have size : (rest.take n).length = n := by
        rw [taken, length_cons, length]
      have behind := decodeAfter_length (rest.take n) tail'
      rw [size] at behind
      rw [decode, cons_append, decodeAfter, if_neg small, multiByte?_take read]
      dsimp only
      rw [take_left' size, behind]
      rfl
    | none =>
      have large : 0x80 ≤ a.toNat := by
        rw [UInt8.lt_iff_toNat_lt] at small
        exact Nat.not_lt.mp small
      refine ⟨⟨replacement, [a]⟩, rest, rfl, .wide (by decide) (forall_mem_singleton.mpr large),
        fun tail' fewer => ?_⟩
      rw [decode, singleton_append, decodeAfter, if_neg small, multiByte?_prefix fewer read]
      rfl

theorem flatMap_decode (text) : (decode text).flatMap (·.bytes) = text := by
  rw [decode, flatMap_decodeAfter]
  rfl

/-- The scalars of a text are formed, by induction on the length of the text. -/
theorem formed_decode (text : Bytes) : ∀ s ∈ decode text, Formed s := by
  induction size : text.length using Nat.strong_induction_on generalizing text with
  | _ length ih =>
    cases text with
    | nil => exact forall_mem_nil _
    | cons a rest =>
      obtain ⟨s, tail, split, formed, decoded⟩ := exists_decode_cons a rest
      have shorter : tail.length < length := by
        have sum := congrArg List.length split
        rw [length_append] at sum
        have some := length_pos_iff.mpr formed.bytes_ne_nil
        omega
      rw [split, decoded tail (prefix_refl _)]
      exact forall_mem_cons.mpr ⟨formed, ih tail.length shorter tail rfl⟩

/-- A text that is cut between two scalars is decoded into the same scalars on either side, by induction
on the scalars in front of the cut.
-/
theorem decode_of_append {text front behind} (split : decode text = front ++ behind)
    : decode (front.flatMap (·.bytes)) = front ∧ decode (behind.flatMap (·.bytes)) = behind := by
  induction front generalizing text with
  | nil => exact ⟨rfl, by rw [← nil_append behind, ← split, flatMap_decode]⟩
  | cons s front ih =>
    cases text with
    | nil => cases split
    | cons a rest =>
      obtain ⟨s', tail, whole, -, decoded⟩ := exists_decode_cons a rest
      rw [whole, decoded tail (prefix_refl _), cons_append] at split
      obtain ⟨rfl, later⟩ := List.cons.inj split
      obtain ⟨before, after⟩ := ih later
      refine ⟨?_, after⟩
      have fewer : front.flatMap (·.bytes) <+: tail := by
        rw [← flatMap_decode tail, later, flatMap_append]
        exact prefix_append _ _
      rw [flatMap_cons, decoded _ fewer, before]

theorem Formed.bytes_eq (formed : Formed s) (plain : s.char.toNat < 0x80)
    : s.bytes = [UInt8.ofNat s.char.toNat] := by
  cases formed with
  | @plain a small =>
    rw [toNat_char (Or.inl (by omega)), UInt8.ofNat_toNat]
  | wide large => exact absurd plain (Nat.not_lt.mpr large)

/-- A scalar with another character has no byte below 80. -/
theorem Formed.large (formed : Formed s) (wide : 0x80 ≤ s.char.toNat)
    : ∀ b ∈ s.bytes, 0x80 ≤ b.toNat := by
  cases formed with
  | @plain a small =>
    rw [toNat_char (Or.inl (by omega))] at wide
    omega
  | wide _ bytes => exact bytes

theorem Formed.mem_bytes_iff (formed : Formed s) (plain : c.toNat < 0x80)
    : UInt8.ofNat c.toNat ∈ s.bytes ↔ s.char = c := by
  have value := UInt8.toNat_ofNat_of_lt' (show c.toNat < 256 by omega)
  by_cases small : s.char.toNat < 0x80
  · rw [formed.bytes_eq small, mem_singleton, ← UInt8.toNat_inj, value,
      UInt8.toNat_ofNat_of_lt' (show _ < 256 by omega), Char.toNat_inj, eq_comm]
  · constructor
    · intro member
      have large := formed.large (Nat.not_lt.mp small) _ member
      omega
    · rintro rfl
      exact absurd plain small

end Scalar

namespace Position

open Scalar

/-- The line is one more than the number of newlines before the place, and the column is one more than
the number of characters since the last of them.
-/
structure Marks (source : Bytes) (p : Position) : Prop where
  line : p.line = 1 + (source.take p.offset).count 0x0A
  column : p.column = 1 + (decode ((source.take p.offset).rtakeWhile (· != 0x0A))).length

theorem advanceAll_append (p : Position) (first second)
    : p.advanceAll (first ++ second) = (p.advanceAll first).advanceAll second :=
  foldl_append

variable {s : Scalar} {front behind : List Scalar} {source : Bytes}

theorem newline_mem_iff (formed : Formed s) : 0x0A ∈ s.bytes ↔ s.char = '\n' :=
  formed.mem_bytes_iff (c := '\n') (by decide)

theorem bytes_newline (formed : Formed s) (newline : s.char = '\n') : s.bytes = [0x0A] := by
  rw [formed.bytes_eq (by rw [newline]; decide), newline]
  rfl

theorem count_newline (formed : Formed s)
    : s.bytes.count 0x0A = if s.char = '\n' then 1 else 0 := by
  split
  · next newline =>
    rw [bytes_newline formed newline]
    rfl
  · next other =>
    exact count_eq_zero.mpr fun member => other ((newline_mem_iff formed).mp member)

/-- Every newline starts a line, by induction on the scalars. -/
theorem line_advanceAll (p : Position) (formed : ∀ s ∈ front, Formed s)
    : (p.advanceAll front).line = p.line + (front.flatMap (·.bytes)).count 0x0A := by
  induction front generalizing p with
  | nil => rfl
  | cons s front ih =>
    obtain ⟨here, later⟩ := forall_mem_cons.mp formed
    have rest := ih (p.advance s) later
    rw [flatMap_cons, count_append, count_newline here]
    rw [advance] at rest
    split at rest
    · next newline =>
      rw [if_pos newline, ← Nat.add_assoc, ← rest, advanceAll, foldl_cons, advance,
        if_pos newline]
      rfl
    · next other =>
      rw [if_neg other, Nat.zero_add, ← rest, advanceAll, foldl_cons, advance,
        if_neg other]
      rfl

/-- Columns count the scalars since the last newline, by induction from the last scalar to the first. -/
theorem column_advanceAll (front : List Scalar)
    : (start.advanceAll front).column = 1 + (front.rtakeWhile (·.char != '\n')).length := by
  induction front using List.reverseRecOn with
  | nil => rfl
  | append_singleton front s ih =>
    rw [advanceAll_append, rtakeWhile_concat]
    change ((start.advanceAll front).advance s).column = _
    rw [advance]
    by_cases newline : s.char = '\n'
    · simp [newline]
    · rw [if_neg newline, if_pos (by simpa using newline), length_append,
        length_singleton, ← Nat.add_assoc, ← ih]

theorem rtakeWhile_append_of_all {α : Type} {p} {text more : List α} (all : ∀ b ∈ more, p b = true)
    : (text ++ more).rtakeWhile p = text.rtakeWhile p ++ more := by
  induction more using List.reverseRecOn with
  | nil => rw [append_nil, append_nil]
  | append_singleton more b ih =>
    obtain ⟨before, last⟩ := forall_mem_append.mp all
    rw [← append_assoc, rtakeWhile_concat, if_pos (last b mem_cons_self), ih before,
      append_assoc]

/-- The bytes since the last newline are those of the scalars since the last newline, by induction from
the last scalar to the first.
-/
theorem rtakeWhile_flatMap (formed : ∀ s ∈ front, Formed s)
    : (front.flatMap (·.bytes)).rtakeWhile (· != 0x0A)
      = (front.rtakeWhile (·.char != '\n')).flatMap (·.bytes) := by
  induction front using List.reverseRecOn with
  | nil => rfl
  | append_singleton front s ih =>
    obtain ⟨before, last⟩ := forall_mem_append.mp formed
    have here := forall_mem_singleton.mp last
    rw [flatMap_append, flatMap_singleton, rtakeWhile_concat]
    split
    · next other =>
      have none : ∀ b ∈ s.bytes, b != 0x0A := by
        intro b member
        refine bne_iff_ne.mpr fun same => bne_iff_ne.mp other ?_
        exact (newline_mem_iff here).mp (same ▸ member)
      rw [rtakeWhile_append_of_all none, ih before, flatMap_append, flatMap_singleton]
    · next newline =>
      rw [bytes_newline here (by simpa using newline), rtakeWhile_concat,
        if_neg (by decide)]
      rfl

theorem take_offset (split : decode source = front ++ behind)
    : source.take (start.advanceAll front).offset = front.flatMap (·.bytes)
      ∧ source.drop (start.advanceAll front).offset = behind.flatMap (·.bytes) := by
  have offset : (start.advanceAll front).offset = (front.flatMap (·.bytes)).length := by
    rw [offset_advanceAll]
    exact Nat.zero_add _
  have whole := flatMap_decode source
  rw [split, flatMap_append] at whole
  rw [offset, ← whole]
  exact ⟨take_left, drop_left⟩

/-- Going over scalars from the start counts lines and columns as they are in the text. -/
theorem marks_advanceAll (split : decode source = front ++ behind)
    : (start.advanceAll front).Marks source := by
  have formed : ∀ s ∈ front, Formed s := fun s member =>
    formed_decode source s (by rw [split]; exact mem_append_left _ member)
  refine ⟨?_, ?_⟩
  · rw [(take_offset split).1]
    exact line_advanceAll start formed
  · obtain ⟨skipped, cut⟩ : ∃ skipped, skipped ++ front.rtakeWhile (·.char != '\n') = front :=
      rtakeWhile_suffix _ _
    -- The scalars since the last newline are the end of the first part of a text that is cut.
    have again := decode_of_append ((decode_of_append split).1.trans cut.symm)
    rw [(take_offset split).1, rtakeWhile_flatMap formed, again.2]
    exact column_advanceAll front

end Position

end MapAlgebra
