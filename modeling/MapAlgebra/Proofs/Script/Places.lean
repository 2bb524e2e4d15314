import MapAlgebra.Script.Lexeme

/-! Where the tokens of a text stand. Decoding loses no byte, and every token takes a character at least. -/

namespace MapAlgebra

open List

namespace Scalar

/-- How many bytes scalars take. -/
def size (text : List Scalar) : Nat :=
  (text.flatMap (·.bytes)).length

theorem size_cons (s text) : size (s :: text) = s.bytes.length + size text := by
  simp [size]

theorem size_append (first second) : size (first ++ second) = size first + size second := by
  simp [size]

/-- Decoding loses no byte, by induction on the text. -/
theorem flatMap_decodeAfter (skip : Nat) (text : Bytes)
    : (decodeAfter skip text).flatMap (·.bytes) = text.drop skip := by
  induction text generalizing skip with
  | nil => simp [decodeAfter]
  | cons a rest ih =>
    cases skip with
    | succ skip =>
      rw [decodeAfter, ih, drop_succ_cons]
    | zero =>
      rw [decodeAfter]
      split
      · rw [flatMap_cons, ih]
        rfl
      · split
        · next c n _ =>
          rw [flatMap_cons, ih]
          exact congrArg (a :: ·) (take_append_drop n rest)
        · rw [flatMap_cons, ih]
          rfl

theorem size_decode (text) : size (decode text) = text.length := by
  rw [size, decode, flatMap_decodeAfter]
  rfl

/-- There are no more scalars than bytes, by induction on the text. -/
theorem length_decodeAfter_le (skip : Nat) (text : Bytes)
    : (decodeAfter skip text).length ≤ text.length := by
  induction text generalizing skip with
  | nil => simp [decodeAfter]
  | cons a rest ih =>
    cases skip with
    | succ skip =>
      rw [decodeAfter]
      exact Nat.le_succ_of_le (ih skip)
    | zero =>
      rw [decodeAfter]
      split
      · exact Nat.succ_le_succ (ih 0)
      · split
        · exact Nat.succ_le_succ (ih _)
        · exact Nat.succ_le_succ (ih 0)

end Scalar

namespace Position

theorem offset_advance (p : Position) (s) : (p.advance s).offset = p.offset + s.bytes.length := by
  unfold advance
  split <;> rfl

theorem offset_advanceAll (p : Position) (text)
    : (p.advanceAll text).offset = p.offset + Scalar.size text := by
  induction text generalizing p with
  | nil => rfl
  | cons s text ih =>
    rw [advanceAll, foldl_cons]
    change ((p.advance s).advanceAll text).offset = _
    rw [ih, offset_advance, Scalar.size_cons, Nat.add_assoc]

end Position

namespace Lexeme

theorem mark?_length_pos {c next kind n} (mark : mark? c next = some (kind, n)) : 0 < n := by
  unfold mark? at mark
  split at mark <;> cases mark <;> decide

theorem run_pos {p s} (holds : p s.char) (rest) : 0 < run p (s :: rest) := by
  rw [run, takeWhile_cons, if_pos holds]
  exact Nat.succ_pos _

theorem number_length_pos {s rest} (starts : startsNumber s.char (rest.head?.map (·.char)))
    : 0 < (number (s :: rest)).length := by
  have size : 0 < run Char.isDigit (s :: rest)
      + fractionLength ((s :: rest).drop (run Char.isDigit (s :: rest))) := by
    by_cases digit : s.char.isDigit
    · have whole := run_pos digit rest
      omega
    · have none : run Char.isDigit (s :: rest) = 0 := by
        rw [run, takeWhile_cons, if_neg digit]
        rfl
      have point : s.char = '.' := by
        simp only [startsNumber, digit, Bool.false_or, Bool.and_eq_true, decide_eq_true_eq] at starts
        exact starts.1
      rw [none, drop_zero, fractionLength, if_pos point]
      omega
  rw [number]
  split
  · exact Nat.add_pos_left size _
  · exact Nat.add_pos_left size _

/-- Every token takes a character at least. -/
theorem ahead_length_pos (s : Scalar) (rest : List Scalar) : 0 < (ahead s rest).length := by
  rw [ahead]
  split
  · next mark => exact mark?_length_pos mark
  · split
    · next starts => exact number_length_pos starts
    · split
      · next starts =>
        have part : isWordPart s.char := by
          simp only [isWordStart, isWordPart, Char.isAlphanum, Bool.or_eq_true] at starts ⊢
          exact starts.imp_left Or.inl
        exact run_pos part rest
      · exact Nat.one_pos

/-- Tokens stand one behind the other, from an offset on up to the place where the text ends. -/
def Ordered : (low : Nat) → List Token → (stop : Position) → Prop
  | low, [], stop => low ≤ stop.offset
  | low, t :: ts, stop => low ≤ t.pos.offset ∧ Ordered t.pos.offset ts stop

variable {low : Nat} {ts : List Token} {stop : Position}

theorem Ordered.of_le {low'} (ordered : Ordered low ts stop) (less : low' ≤ low)
    : Ordered low' ts stop := by
  cases ts with
  | nil => exact Nat.le_trans less ordered
  | cons t ts => exact ⟨Nat.le_trans less ordered.1, ordered.2⟩

theorem Ordered.of_pairwise (first : ∀ t ∈ ts ++ [Token.eof stop], low ≤ t.pos.offset)
    (ordered : (ts ++ [Token.eof stop]).Pairwise fun t u => t.pos.offset ≤ u.pos.offset)
    : Ordered low ts stop := by
  induction ts generalizing low with
  | nil => exact first _ mem_cons_self
  | cons t ts ih =>
    obtain ⟨before, ordered⟩ := pairwise_cons.mp ordered
    exact ⟨first t mem_cons_self, ih before ordered⟩

/-- The text ends no earlier than its tokens start, by induction on the tokens. -/
theorem Ordered.le_stop (ordered : Ordered low ts stop)
    : low ≤ stop.offset := by
  induction ts generalizing low with
  | nil => exact ordered
  | cons t ts ih => exact Nat.le_trans ordered.1 (ih ordered.2)

end Lexeme

end MapAlgebra
