import MapAlgebra.Proofs.Sample.Numerals
import MapAlgebra.Script.Lexeme

/-! What the tokens of a script are spelled like. No token but the final one marks the end, and the
spelling of every number is a well-formed numeral, so that a number is refused for its size only.
-/

namespace MapAlgebra

open List

namespace Lexeme
open Sample

/-- A text is its first characters of a kind and a rest that starts with no such character. -/
theorem exists_run (p : Char → Bool) (text : List Scalar)
    : ∃ first rest, text = first ++ rest ∧ run p text = first.length
      ∧ (∀ c ∈ first.map (·.char), p c = true) ∧ ∀ s ∈ rest.head?, p s.char = false := by
  refine ⟨_, _, takeWhile_append_dropWhile.symm, rfl, fun c member => ?_, fun s first => ?_⟩
  · obtain ⟨s, inside, rfl⟩ := mem_map.mp member
    exact all_eq_true.mp all_takeWhile s inside
  · have stops := List.head?_dropWhile_not (p ·.char) text
    rw [Option.mem_def.mp first] at stops
    simpa using stops

variable {c : Char} {n : Nat} {text : List Scalar} {kind : TokenKind}

theorem readSign_of_digit (digit : c.isDigit) (more)
    : readSign (c :: more) = (false, c :: more) := by
  unfold readSign
  split
  · next same =>
    obtain ⟨rfl, -⟩ := List.cons.inj same
    exact absurd digit (by decide)
  · next same =>
    obtain ⟨rfl, -⟩ := List.cons.inj same
    exact absurd digit (by decide)
  · rfl

/-- What follows the letter of an exponent is a sign and digits, or the letter belongs to no exponent. -/
theorem powerLength_eq (length : powerLength text = .ok n)
    : n = 0 ∨ ∃ k negative digits, n = k + 1
      ∧ readSign ((text.take k).map (·.char)) = (negative, digits)
      ∧ digits ≠ [] ∧ ∀ c ∈ digits, c.isDigit := by
  cases text with
  | nil => exact Or.inl (Except.ok.inj length).symm
  | cons s more =>
    obtain ⟨digits, behind, rfl, size, all, -⟩ := exists_run Char.isDigit more
    have taken : ((s :: (digits ++ behind)).take (digits.length + 1)).map (·.char)
        = s.char :: digits.map (·.char) := by
      rw [take_succ_cons, take_left]
      rfl
    rw [powerLength] at length
    split at length
    · next signed =>
      dsimp only at length
      rw [size] at length
      split at length
      · exact nomatch length
      · next nonempty =>
        have signs : ∃ negative, readSign (s.char :: digits.map (·.char))
            = (negative, digits.map (·.char)) := by
          rcases (Bool.or_eq_true ..).mp signed with plus | minus
          · rw [of_decide_eq_true plus]
            exact ⟨_, rfl⟩
          · rw [of_decide_eq_true minus]
            exact ⟨_, rfl⟩
        obtain ⟨negative, sign⟩ := signs
        refine Or.inr ⟨digits.length + 1, negative, _, ?_, taken ▸ sign, ?_, all⟩
        · have := Except.ok.inj length
          omega
        · simpa using fun none => nonempty (congrArg List.length none)
    · split at length
      · next digit =>
        have longer : run Char.isDigit (s :: (digits ++ behind)) = digits.length + 1 := by
          rw [← size, run, run, takeWhile_cons, digit]
          rfl
        rw [longer] at length
        refine Or.inr ⟨digits.length + 1, false, s.char :: digits.map (·.char), ?_,
          taken ▸ readSign_of_digit digit _, cons_ne_nil _ _,
          forall_mem_cons.mpr ⟨digit, all⟩⟩
        have := Except.ok.inj length
        omega
      · exact Or.inl (Except.ok.inj length).symm

theorem exists_readPower? (length : exponentLength text = .ok n)
    : ∃ power, readPower? ((text.take n).map (·.char)) = some power := by
  have missing : ∃ power, readPower? ((text.take 0).map (·.char)) = some power := ⟨_, rfl⟩
  cases text with
  | nil =>
    rw [take_nil]
    exact missing
  | cons e rest =>
    rw [exponentLength] at length
    split at length
    · next letter =>
      rcases powerLength_eq length with rfl | ⟨k, negative, digits, rfl, sign, nonempty, all⟩
      · exact missing
      · rw [take_succ_cons, map_cons, readPower?, if_pos letter, sign]
        dsimp only
        rw [if_neg (by simpa [nonempty] using all)]
        exact ⟨_, rfl⟩
    · cases length
      exact missing

theorem readNumeral?_number {s rest} (starts : startsNumber s.char (rest.head?.map (·.char)))
    (taken : number (s :: rest) = .token .number n)
    : ∃ numeral, readNumeral? (((s :: rest).take n).map (·.char)) = some numeral := by
  obtain ⟨whole, more, split, size, digits, stops⟩ := exists_run Char.isDigit (s :: rest)
  have pointed (none : whole = []) : s.char = '.' ∧ ∃ t, rest.head? = some t ∧ t.char.isDigit := by
    rw [none, nil_append] at split
    have notDigit := stops s (by rw [← split]; rfl)
    rw [startsNumber, notDigit, Bool.false_or, Bool.and_eq_true, decide_eq_true_eq] at starts
    refine ⟨starts.1, ?_⟩
    cases first : rest.head? with
    | none => simp [first] at starts
    | some t => exact ⟨t, rfl, by simpa [first] using starts.2⟩
  rw [number] at taken
  rw [size, split, drop_left] at taken
  rw [split]
  by_cases point : ∃ d behind, more = d :: behind ∧ d.char = '.'
  · obtain ⟨d, behind, rfl, isPoint⟩ := point
    obtain ⟨fraction, tail, rfl, size', digits', stops'⟩ := exists_run Char.isDigit behind
    have start : (whole ++ d :: (fraction ++ tail)).drop (whole.length + (1 + fraction.length)) = tail := by
      rw [← drop_drop, drop_left, Nat.add_comm, drop_succ_cons, drop_left]
    rw [fractionLength, if_pos isPoint, size', start] at taken
    split at taken
    · next k length =>
      cases taken
      obtain ⟨power, read⟩ := exists_readPower? length
      have spelled : ((whole ++ d :: (fraction ++ tail)).take
            (whole.length + (1 + fraction.length) + k)).map (·.char)
          = whole.map (·.char) ++ '.' :: (fraction.map (·.char) ++ (tail.take k).map (·.char)) := by
        have count : whole.length + (1 + fraction.length) + k
            = whole.length + (fraction.length + k + 1) := by omega
        rw [count, take_length_add_append, take_succ_cons, take_length_add_append]
        simp [isPoint]
      rw [spelled]
      refine ⟨_, readNumeral?_fraction digits digits' (fun none => ?_) read⟩
      -- A number without digits would start with its point, and a digit stands behind that.
      obtain ⟨noWhole, noFraction⟩ := append_eq_nil_iff.mp none
      rw [map_eq_nil_iff] at noWhole noFraction
      obtain ⟨-, t, first, digit⟩ := pointed noWhole
      rw [noWhole, noFraction] at split
      obtain ⟨-, rfl⟩ := List.cons.inj split
      exact absurd digit (by rw [stops' t first]; decide)
    · exact nomatch taken
  · have noFraction : fractionLength more = 0 := by
      cases more with
      | nil => rfl
      | cons d behind => exact if_neg fun isPoint => point ⟨d, behind, rfl, isPoint⟩
    rw [noFraction, Nat.add_zero, drop_left] at taken
    split at taken
    · next k length =>
      cases taken
      obtain ⟨power, read⟩ := exists_readPower? length
      rw [take_length_add_append, map_append]
      refine ⟨_, readNumeral?_whole digits (fun none => ?_) read⟩
      rw [map_eq_nil_iff] at none
      rw [none] at split
      exact point ⟨s, rest, split.symm, (pointed none).1⟩
    · exact nomatch taken

theorem mark?_kind {next} (mark : mark? c next = some (kind, n))
    : kind ≠ .eof ∧ kind ≠ .number ∧ kind ≠ .identifier := by
  unfold mark? at mark
  split at mark <;> cases mark <;> decide

theorem keyword_kind {text} (found : keywords.lookup text = some kind)
    : kind ≠ .eof ∧ kind ≠ .number := by
  have listed : ∀ entry ∈ keywords, entry.2 ≠ .eof ∧ entry.2 ≠ .number := by decide
  obtain ⟨l₁, l₂, split, -⟩ := lookup_eq_some_iff.mp found
  exact listed (text, kind) (by rw [split]; simp)

/-- A token does not mark the end, and if it is a number, its spelling is a numeral. -/
def Spelled (t : Token) : Prop :=
  t.kind ≠ .eof ∧ (t.kind = .number → ∃ numeral, readNumeral? t.literal.toList = some numeral)

/-- The token that is made of what lies ahead. -/
def tokenOf (text : List Scalar) (p : Position) : Ahead → Token
  | .token kind n => { kind, literal := spelling (text.take n), pos := p }
  | .error message _ => { kind := .error, literal := message, pos := p }

theorem ahead_spelled (s rest p) : Spelled (tokenOf (s :: rest) p (ahead s rest)) := by
  rw [ahead]
  split
  · next kind n mark =>
    obtain ⟨unended, notNumber, -⟩ := mark?_kind mark
    exact ⟨unended, fun number => absurd number notNumber⟩
  · split
    · next starts =>
      cases next : number (s :: rest) with
      | error message n => exact ⟨nofun, nofun⟩
      | token kind n =>
        obtain rfl : kind = .number := by
          rw [number] at next
          split at next <;> cases next
          rfl
        refine ⟨nofun, fun _ => ?_⟩
        rw [tokenOf, spelling, String.toList_ofList]
        exact readNumeral?_number starts next
    · split
      · have kind : (tokenOf (s :: rest) p (word (s :: rest))).kind ≠ .eof
            ∧ (tokenOf (s :: rest) p (word (s :: rest))).kind ≠ .number := by
          rw [word, tokenOf]
          cases found : keywords.lookup (spelling ((s :: rest).takeWhile (isWordPart ·.char))) with
          | none => exact ⟨nofun, nofun⟩
          | some kind => exact keyword_kind found
        exact ⟨kind.1, fun number => absurd number kind.2⟩
      · exact ⟨nofun, nofun⟩

theorem scanFrom_spelled (fuel text p) : ∀ t ∈ (scanFrom fuel text p).1, Spelled t := by
  induction fuel generalizing text p with
  | zero => exact forall_mem_nil _
  | succ fuel ih =>
    rw [scanFrom]
    split
    · exact forall_mem_singleton.mpr ⟨nofun, nofun⟩
    · exact forall_mem_nil _
    · next s rest p' _ =>
      refine forall_mem_cons.mpr ⟨?_, ih _ _⟩
      have spelled := ahead_spelled s rest p'
      cases next : ahead s rest with
      | token kind n => rwa [next] at spelled
      | error message n => rwa [next] at spelled

end Lexeme

end MapAlgebra
