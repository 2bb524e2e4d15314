import MapAlgebra.Proofs.Script.Statements

/-! Which texts are scripts, and which tree a script has. A text parses exactly if its tokens derive from
the grammar and none of its numbers is past the finite samples. The tree is the only derived one in which
every alternative belongs to the nearest condition.
-/

namespace MapAlgebra

open Grammar Sample
open List
open Numeral
open Scalar
open Lexeme

theorem scan_spelled (source) : ∀ t ∈ (scan source).1, Spelled t :=
  scanFrom_spelled _ _ _

theorem parse_eq_ok_iff {source script}
    : parse source = .ok script
      ↔ (parseTokens (scan source).1 (scan source).2).problems = []
        ∧ script = { source, program := (parseTokens (scan source).1 (scan source).2).value } := by
  rw [parse]
  dsimp only
  split
  · next clean =>
    rw [List.isEmpty_iff] at clean
    constructor
    · rintro ⟨⟩
      exact ⟨clean, rfl⟩
    · rintro ⟨-, rfl⟩
      rfl
  · next unclean =>
    rw [List.isEmpty_iff] at unclean
    exact ⟨by rintro ⟨⟩, fun parsed => absurd parsed.1 unclean⟩

/-- How a text is parsed if its numbers have the given values. -/
structure ParsedBy (value : Numeral → ℚ) (source : Bytes) : Prop where
  /-- Every number in the text has a sample that is nearest to it. -/
  denoted : ∀ t ∈ (scan source).1, t.kind = .number → ∃ s, Denotes value t.literal s
  /-- The text is a script exactly if there is no malformed token and no number past the finite
  samples, and the tokens derive from the grammar.
  -/
  accepted : (∃ script, parse source = .ok script)
    ↔ (∀ t ∈ (scan source).1, t.kind ≠ .error)
      ∧ (∀ t ∈ (scan source).1, t.kind = .number → ¬ Overflows value t.literal)
      ∧ ∃ tree, Derives (Denotes value) (scan source).1 tree
  /-- The script has the only derived tree with every alternative at the nearest condition. -/
  built : ∀ script, parse source = .ok script →
    script.source = source
      ∧ Derives (Denotes value) (scan source).1 script.program.bare
      ∧ ProgramNearest script.program.bare
      ∧ ∀ tree, Derives (Denotes value) (scan source).1 tree → ProgramNearest tree
        → tree = script.program.bare

theorem parsedBy_of_reads {value source} (nonneg : ∀ n, 0 ≤ value n)
    (reads : ∀ t ∈ (scan source).1, t.kind = .number → ∀ s, parse? t.literal = some s
      ↔ Denotes value t.literal s ∧ ¬ Overflows value t.literal)
    : ParsedBy value source := by
  obtain ⟨accepts, builds⟩ := Parse.parseTokens_clean_iff
    (fun t member => (scan_spelled source t member).1) (scan source).2
  have denotes : Agrees Parse.Reads (Denotes value) (scan source).1 :=
    fun t member number s read => ((reads t member number s).mp read).1
  have finite {tree : Program} (derives : Derives Parse.Reads (scan source).1 tree)
      : ∀ t ∈ (scan source).1, t.kind = .number → ¬ Overflows value t.literal := by
    intro t member number
    obtain ⟨s, read⟩ := (derives.proper t member).2 number
    exact ((reads t member number s).mp read).2
  have readable (small : ∀ t ∈ (scan source).1, t.kind = .number → ¬ Overflows value t.literal)
      : Agrees (Denotes value) Parse.Reads (scan source).1 :=
    fun t member number s denoted => (reads t member number s).mpr ⟨denoted, small t member number⟩
  refine ⟨fun t member number => ?_, ⟨?_, ?_⟩, ?_⟩
  · obtain ⟨numeral, read⟩ := (scan_spelled source t member).2 number
    obtain ⟨n, near⟩ := exists_nearest (value numeral) (nonneg numeral)
    exact ⟨_, numeral, n, read, near, rfl⟩
  · rintro ⟨script, parsed⟩
    obtain ⟨tree, derives⟩ := accepts.mp (parse_eq_ok_iff.mp parsed).1
    exact ⟨fun t member => (derives.proper t member).1, finite derives, tree, derives.mono denotes⟩
  · rintro ⟨-, small, tree, derives⟩
    exact ⟨_, parse_eq_ok_iff.mpr ⟨accepts.mpr ⟨tree, derives.mono (readable small)⟩, rfl⟩⟩
  · intro script parsed
    obtain ⟨clean, rfl⟩ := parse_eq_ok_iff.mp parsed
    obtain ⟨derives, nearest, unique⟩ := builds clean
    refine ⟨rfl, derives.mono denotes, nearest, fun tree derived near => ?_⟩
    exact unique tree (derived.mono (readable (finite derives))) near

/-- Every text is parsed by the readings of its numbers. If none of its numbers is longer than 9600
characters, it is parsed by what they stand for.
-/
theorem parse_parsedBy (source : Bytes)
    : ParsedBy reading source
      ∧ ((∀ t ∈ (scan source).1, t.kind = .number → t.literal.length ≤ 9600)
        → ParsedBy value source) := by
  constructor
  · exact parsedBy_of_reads reading_nonneg fun _ _ _ _ => parse?_eq_some_iff
  · intro short
    refine parsedBy_of_reads value_nonneg fun t member number s => ?_
    rw [parse?_eq_some_iff, denotes_reading_iff (short t member number)]

/-- A condition in a condition, with one alternative. -/
def nested : Bytes :=
  Text.toBytes "if (n < 1.5e1) if (n) n = 2; else n = -n ^ 2;"

theorem parse_parsedBy_nested
    : (∀ t ∈ (scan nested).1, t.kind = .number → t.literal.length ≤ 9600)
      ∧ ParsedBy value nested
      ∧ (parse nested).isOk = true := by
  have short : ∀ t ∈ (scan nested).1, t.kind = .number → t.literal.length ≤ 9600 := by decide +kernel
  exact ⟨short, (parse_parsedBy nested).2 short, by decide +kernel⟩

/-- A byte that is a character by itself. -/
def Scalar.ofByte (b : UInt8) : Scalar := { char := Char.ofNat b.toNat, bytes := [b] }

theorem Scalar.decode_ascii {text} (ascii : ∀ b ∈ text, b < 0x80)
    : decode text = text.map ofByte := by
  induction text with
  | nil => rfl
  | cons b rest ih =>
    obtain ⟨first, others⟩ := forall_mem_cons.mp ascii
    rw [decode, decodeAfter, if_pos first, map_cons]
    exact congrArg _ (ih others)

/-- The script that is made of the number `0.00…01e100000` with this many zeros behind the point. -/
def padded (zeros : Nat) : Bytes :=
  [48, 46] ++ List.replicate zeros 48 ++ [49, 101, 49, 48, 48, 48, 48, 48, 59]

theorem mem_padded {zeros b} (member : b ∈ padded zeros) : b ∈ [46, 48, 49, 59, 101] := by
  simp only [padded, mem_append, mem_replicate] at member
  rcases member with (first | ⟨-, rfl⟩) | last
  · revert b
    decide +kernel
  · decide
  · revert b
    decide +kernel

theorem scriptText_padded (zeros)
    : scriptText (padded zeros) = (padded zeros).map ofByte := by
  have ascii : ∀ b ∈ [46, 48, 49, 59, 101], (b != (0 : UInt8)) = true ∧ b < 0x80 := by
    decide +kernel
  have clear : (padded zeros ++ []).takeWhile (· != 0) = padded zeros ++ [].takeWhile (· != 0) :=
    takeWhile_append_of_pos fun b member => (ascii b (mem_padded member)).1
  rw [append_nil, takeWhile_nil, append_nil] at clear
  rw [scriptText, clear, decode_ascii fun b member => (ascii b (mem_padded member)).2]

theorem map_padded (zeros)
    : (padded zeros).map ofByte
      = .ofByte 48 :: .ofByte 46 :: (List.replicate zeros (.ofByte 48)
        ++ [49, 101, 49, 48, 48, 48, 48, 48, 59].map .ofByte) := by
  simp [padded]

theorem number_padded (zeros)
    : Lexeme.number ((padded zeros).map ofByte) = .token .number (zeros + 10) := by
  have digits : Lexeme.run Char.isDigit (List.replicate zeros (.ofByte 48)
      ++ [49, 101, 49, 48, 48, 48, 48, 48, 59].map .ofByte) = zeros + 1 := by
    rw [Lexeme.run, takeWhile_append_of_pos, length_append, length_replicate]
    · rfl
    · intro s member
      rw [eq_of_mem_replicate member]
      rfl
  have whole : Lexeme.run Char.isDigit ((padded zeros).map ofByte) = 1 := by
    rw [map_padded]
    rfl
  have fraction : Lexeme.fractionLength (((padded zeros).map ofByte).drop 1) = zeros + 2 := by
    rw [map_padded]
    show 1 + Lexeme.run Char.isDigit _ = _
    rw [digits]
    omega
  have rest : ((padded zeros).map ofByte).drop (zeros + 3)
      = [101, 49, 48, 48, 48, 48, 48, 59].map .ofByte := by
    rw [map_padded, drop_succ_cons, drop_succ_cons, drop_append, length_replicate]
    simp
  have size : 1 + (zeros + 2) = zeros + 3 := by omega
  rw [Lexeme.number, whole, fraction, size, rest]
  rfl

theorem scan_padded (zeros)
    : ∃ t u, (scan (padded zeros)).1 = [t, u] ∧ t.kind = .number ∧ u.kind = .semicolon
      ∧ t.literal.toList = ['0'] ++ '.' :: ((List.replicate zeros '0' ++ ['1'])
        ++ ['e', '1', '0', '0', '0', '0', '0']) := by
  have next := number_padded zeros
  have rest : ((padded zeros).map ofByte).drop (zeros + 10) = [.ofByte 59] := by
    rw [map_padded, drop_succ_cons, drop_succ_cons, drop_append, length_replicate]
    simp
  have taken : (((padded zeros).map ofByte).take (zeros + 10)).map (·.char)
      = ['0'] ++ '.' :: ((List.replicate zeros '0' ++ ['1']) ++ ['e', '1', '0', '0', '0', '0', '0']) := by
    rw [map_padded, take_succ_cons, take_succ_cons, take_append, length_replicate,
      take_of_length_le (by simp), Nat.add_sub_cancel_left, append_assoc, map_cons,
      map_cons, map_append, map_replicate]
    rfl
  have fuel : ((padded zeros).map ofByte).length + 1 = zeros + 9 + 1 + 1 + 1 := by
    simp [padded]
  rw [scan, scriptText_padded, fuel]
  rw [map_padded] at next rest taken ⊢
  generalize List.replicate zeros (ofByte 48)
    ++ [49, 101, 49, 48, 48, 48, 48, 48, 59].map .ofByte = more at next rest taken ⊢
  have clear : skip (.ofByte 48 :: .ofByte 46 :: more) .start
      = .clear (.ofByte 48 :: .ofByte 46 :: more) .start := rfl
  have ahead : ahead (.ofByte 48) (.ofByte 46 :: more) = .token .number (zeros + 10) := next
  rw [scanFrom, clear]
  dsimp only
  rw [ahead]
  dsimp only [Ahead.length]
  rw [rest]
  refine ⟨_, _, rfl, rfl, rfl, ?_⟩
  rw [spelling, String.toList_ofList, taken]

theorem readNumeral?_padded {zeros cs}
    (spelled : cs = ['0'] ++ '.' :: ((List.replicate zeros '0' ++ ['1'])
      ++ ['e', '1', '0', '0', '0', '0', '0']))
    : readNumeral? cs = some { digits := 1, places := zeros + 1, negative := false
                               power := ['1', '0', '0', '0', '0', '0'] } := by
  have digits : ∀ c ∈ List.replicate zeros '0' ++ ['1'], c.isDigit := by
    intro c member
    rcases mem_append.mp member with zero | one
    · rw [eq_of_mem_replicate zero]
      rfl
    · rw [mem_singleton.mp one]
      rfl
  have power : readPower? ['e', '1', '0', '0', '0', '0', '0']
      = some (false, ['1', '0', '0', '0', '0', '0']) := rfl
  rw [spelled, readNumeral?_fraction (by simp) digits (by simp) power]
  congr 2
  · exact digitsValue_zeros (zeros + 1) ['1']
  · simp

/-- An exponent of six digits is read as one of five. So a number far past the finite samples is taken
for a small one if almost ten thousand zeros stand behind its point.
-/
theorem padded_not_parsedBy : ¬ ParsedBy value (padded 9800) := by
  obtain ⟨t, u, tokens, number, ends, spelled⟩ := scan_padded 9800
  have read := readNumeral?_padded spelled
  have first : t ∈ (scan (padded 9800)).1 := by rw [tokens]; exact mem_cons_self
  have readings : ParsedBy reading (padded 9800) :=
    parsedBy_of_reads reading_nonneg fun _ _ _ _ => parse?_eq_some_iff
  have finite : ¬ Overflows reading t.literal := by
    rintro ⟨numeral, read', past⟩
    obtain rfl := Option.some.inj (read.symm.trans read')
    have exponent : (⟨1, 9801, false, ['1', '0', '0', '0', '0', '0']⟩ : Numeral).exponent = 199 := by
      decide
    have below : 10 ^ 199 + 2 ^ 970 < 2 ^ 1024 := by decide +kernel
    have below' : ((10 ^ 199 + 2 ^ 970 : Nat) : ℚ) < (2 ^ 1024 : Nat) := Nat.cast_lt.mpr below
    rw [Nat.cast_add, Nat.cast_pow, Nat.cast_pow, Nat.cast_pow, Nat.cast_ofNat, Nat.cast_ofNat] at below'
    rw [reading, exponent, threshold, Nat.cast_one, one_mul, zpow_ofNat] at past
    exact absurd past (not_le.mpr (lt_sub_iff_add_lt.mpr below'))
  have overflows : Overflows value t.literal := by
    have scale : (⟨1, 9801, false, ['1', '0', '0', '0', '0', '0']⟩ : Numeral).scale = 90199 := by decide
    refine ⟨_, read, ?_⟩
    rw [value, scale, Nat.cast_one, one_mul]
    exact threshold_le_of_huge (zpow_le_zpow_right₀ (by norm_num) (by decide))
  obtain ⟨v, denoted⟩ := readings.denoted t first number
  have phrase : Phrase (Denotes reading) .expression [t] (.literal .none v) :=
    .value (.operand (.operand (.operand (.operand (.operand (.operand (.unsigned (.base (.plain
      (.number number denoted))))))))))
  have sentence : Sentence (Denotes reading) [t, u] (some (.expr (.literal .none v))) :=
    .expr phrase ends
  have each : ∀ part ∈ [([t, u], some (Stmt.expr (.literal .none v)))],
      Sentence (Denotes reading) part.1 part.2 := forall_mem_singleton.mpr sentence
  have accepted : ∃ script, parse (padded 9800) = .ok script := by
    refine readings.accepted.mpr ?_
    rw [tokens]
    refine ⟨?_, ?_, _, .body each⟩
    · simp [number, ends]
    · simp [number, ends, finite]
  intro parsed
  exact (parsed.accepted.mp accepted).2.1 t first number overflows

end MapAlgebra
