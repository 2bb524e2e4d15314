import MapAlgebra.Proofs.Script.Gaps
import MapAlgebra.Proofs.Script.Lexing

/-! Splitting a text into tokens loses nothing. Every byte belongs to a token, to a blank or to a
comment, and every token stands at the offset, in the line and in the column that it is marked with.
-/

namespace MapAlgebra

open List

namespace Lexeme

open Scalar Position

/-- A character between the blank and 80. -/
def Visible (c : Char) : Prop :=
  0x20 < c.toNat ∧ c.toNat < 0x80

instance (c : Char) : Decidable (Visible c) :=
  inferInstanceAs (Decidable (_ ∧ _))

/-- All characters are visible. -/
def Plain (text : List Scalar) : Prop :=
  ∀ s ∈ text, Visible s.char

theorem take_run (p : Char → Bool) (text : List Scalar)
    : text.take (run p text) = text.takeWhile (p ·.char) :=
  (prefix_iff_eq_take.mp (List.takeWhile_prefix _)).symm

theorem plain_run {p} (plain : ∀ c, p c = true → Visible c) (text : List Scalar)
    : Plain (text.take (run p text)) := by
  rw [take_run]
  exact fun s member => plain s.char (all_eq_true.mp all_takeWhile s member)

variable {c : Char} {text : List Scalar} {s : Scalar} {tokens : List Token}
  {read : Token × List Scalar × Position}

theorem visible_of_range {low high} (above : low.val ≤ c.val) (below : c.val ≤ high.val)
    (visible : Visible low ∧ Visible high)
    : Visible c :=
  ⟨Nat.lt_of_lt_of_le visible.1.1 (UInt32.le_iff_toNat_le.mp above),
    Nat.lt_of_le_of_lt (UInt32.le_iff_toNat_le.mp below) visible.2.2⟩

theorem visible_isDigit (c) (digit : c.isDigit = true) : Visible c := by
  obtain ⟨above, below⟩ := (Bool.and_eq_true ..).mp digit
  have range : '0'.val ≤ c.val ∧ c.val ≤ '9'.val := ⟨of_decide_eq_true above, of_decide_eq_true below⟩
  exact visible_of_range range.1 range.2 (by decide)

theorem visible_isAlpha (alpha : c.isAlpha = true) : Visible c := by
  rcases (Bool.or_eq_true ..).mp alpha with upper | lower
  · have range : 'A'.val ≤ c.val ∧ c.val ≤ 'Z'.val := of_decide_eq_true upper
    exact visible_of_range range.1 range.2 (by decide)
  · obtain ⟨above, below⟩ := (Bool.and_eq_true ..).mp lower
    have range : 'a'.val ≤ c.val ∧ c.val ≤ 'z'.val := ⟨of_decide_eq_true above, of_decide_eq_true below⟩
    exact visible_of_range range.1 range.2 (by decide)

theorem visible_isWordPart (c) (part : isWordPart c = true) : Visible c := by
  rcases (Bool.or_eq_true ..).mp part with alphanum | underscore
  · rcases (Bool.or_eq_true ..).mp alphanum with alpha | digit
    · exact visible_isAlpha alpha
    · exact visible_isDigit c digit
  · rw [of_decide_eq_true underscore]
    decide

theorem Plain.append {first second} (plain : Plain first) (plain' : Plain second)
    : Plain (first ++ second) :=
  forall_mem_append.mpr ⟨plain, plain'⟩

theorem plain_fraction (text : List Scalar) : Plain (text.take (fractionLength text)) := by
  cases text with
  | nil => exact forall_mem_nil _
  | cons s rest =>
    rw [fractionLength]
    split
    · next point =>
      rw [Nat.add_comm, take_succ_cons]
      refine forall_mem_cons.mpr ⟨?_, plain_run visible_isDigit rest⟩
      rw [point]
      decide
    · exact forall_mem_nil _

theorem mem_readSign {cs} (member : c ∈ cs) : c = '-' ∨ c = '+' ∨ c ∈ (Sample.readSign cs).2 := by
  unfold Sample.readSign
  split
  · rcases mem_cons.mp member with rfl | later
    · exact Or.inl rfl
    · exact Or.inr (Or.inr later)
  · rcases mem_cons.mp member with rfl | later
    · exact Or.inr (Or.inl rfl)
    · exact Or.inr (Or.inr later)
  · exact Or.inr (Or.inr member)

variable {n : Nat}

theorem plain_exponent (length : exponentLength text = .ok n) : Plain (text.take n) := by
  cases text with
  | nil =>
    rw [take_nil]
    exact forall_mem_nil _
  | cons s rest =>
    rw [exponentLength] at length
    split at length
    · next letter =>
      rcases powerLength_eq length with rfl | ⟨k, negative, digits, rfl, sign, -, all⟩
      · exact forall_mem_nil _
      · refine forall_mem_cons.mpr ⟨?_, fun t member => ?_⟩
        · rcases (Bool.or_eq_true ..).mp letter with small | large
          · rw [of_decide_eq_true small]
            decide
          · rw [of_decide_eq_true large]
            decide
        · have inside : t.char ∈ (rest.take k).map (·.char) := mem_map_of_mem member
          rcases mem_readSign inside with minus | plus | digit
          · rw [minus]
            decide
          · rw [plus]
            decide
          · rw [sign] at digit
            exact visible_isDigit _ (all _ digit)
    · cases length
      exact forall_mem_nil _

variable {kind : TokenKind}

/-- The characters of a number are plain: digits, a fraction and an exponent. -/
theorem plain_number (taken : number text = .token kind n) : Plain (text.take n) := by
  rw [number] at taken
  split at taken
  · next k length =>
    cases taken
    rw [take_add, take_add]
    exact ((plain_run visible_isDigit text).append (plain_fraction _)).append (plain_exponent length)
  · cases taken

/-- The characters of operators and delimiters. -/
def markChars : List Char :=
  ['(', ')', '\x7b', '\x7d', ',', ';', '%', '^', '+', '-', '*', '/', '=', '!', '<', '>', '&', '|']

variable {rest : List Scalar}

theorem mark?_chars (mark : mark? s.char (rest.head?.map (·.char)) = some (kind, n))
    : ∀ t ∈ (s :: rest).take n, t.char ∈ markChars := by
  have chars {c : Char} {next : Option Char} (mark : mark? c next = some (kind, n))
      : c ∈ markChars ∧ (n = 1 ∨ n = 2 ∧ next.any (· ∈ markChars) = true) := by
    unfold mark? at mark
    split at mark <;> cases mark <;> simp [markChars]
  obtain ⟨first, rfl | ⟨rfl, second⟩⟩ := chars mark
  · exact forall_mem_singleton.mpr first
  · cases rest with
    | nil => cases second
    | cons t more =>
      exact forall_mem_cons.mpr ⟨first, forall_mem_singleton.mpr (by simpa using second)⟩

theorem plain_ahead (next : ahead s rest = .token kind n) : Plain ((s :: rest).take n) := by
  rw [ahead] at next
  split at next
  · next mark =>
    cases next
    have visible : markChars.all (Visible ·) = true := by decide
    exact fun t member =>
      of_decide_eq_true (all_eq_true.mp visible _ (mark?_chars mark t member))
  · split at next
    · exact plain_number next
    · split at next
      · cases next
        exact plain_run visible_isWordPart (s :: rest)
      · cases next

/-- How a token of a kind is told from what stands behind it: it is a number, or it has no character of a
word, or it has only such characters and none stands behind it.
-/
structure Bounded (kind : TokenKind) (taken rest : List Scalar) : Prop where
  plain : Plain taken
  ends : kind = .number
    ∨ kind ≠ .identifier ∧ (∀ s ∈ taken, isWordPart s.char = false)
    ∨ (∀ s ∈ taken, isWordPart s.char = true) ∧ ∀ s ∈ rest.head?, isWordPart s.char = false

theorem bounded_ahead (next : ahead s rest = .token kind n)
    : Bounded kind ((s :: rest).take n) ((s :: rest).drop n) := by
  refine ⟨plain_ahead next, ?_⟩
  rw [ahead] at next
  split at next
  · next mark =>
    cases next
    have apart : markChars.all (!isWordPart ·) = true := by decide
    exact Or.inr (Or.inl ⟨(mark?_kind mark).2.2, fun t member =>
      Bool.not_eq_eq_eq_not.mp (all_eq_true.mp apart _ (mark?_chars mark t member))⟩)
  · split at next
    · rw [number] at next
      split at next <;> cases next
      exact Or.inl rfl
    · split at next
      · obtain ⟨first, behind, whole, length, parts, stops⟩ := exists_run isWordPart (s :: rest)
        cases next
        rw [run] at length
        rw [length, whole, take_left, drop_left]
        exact Or.inr (Or.inr ⟨fun t member => parts _ (mem_map_of_mem member), stops⟩)
      · cases next

/-- Reads a token: the token, what is left behind it and where that starts. At the end of the text it is
the final token, however often it is read.
-/
def next (text : List Scalar) (p : Position) : Token × List Scalar × Position :=
  match skip text p with
  | .unterminated start stop =>
    ({ kind := .error, literal := "unterminated comment", pos := start }, [], stop)
  | .clear [] q => (.eof q, [], q)
  | .clear (s :: rest) q =>
    (tokenOf (s :: rest) q (ahead s rest), (s :: rest).drop (ahead s rest).length,
      q.advanceAll ((s :: rest).take (ahead s rest).length))

/-- What a token takes from a text: the blanks and comments in front of it and one character at least,
which are the spelling of the token unless it is an error. The final token is at the end.
-/
inductive Takes (text : List Scalar) (p : Position) : Token × List Scalar × Position → Prop
  | ended (blank : Skipped true (text.flatMap (·.bytes)))
    : Takes text p (.eof (p.advanceAll text), [], p.advanceAll text)
  | token {gap taken rest t} (split : text = gap ++ (taken ++ rest))
    (blank : Skipped false (gap.flatMap (·.bytes))) (some : taken ≠ []) (unended : t.kind ≠ .eof)
    (place : t.pos = p.advanceAll gap)
    (spelled : t.kind ≠ .error → Text.toBytes t.literal = taken.flatMap (·.bytes))
    (stops : t.kind ≠ .error → t.stop = p.advanceAll (gap ++ taken))
    (bounded : t.kind ≠ .error → Bounded t.kind taken rest)
    : Takes text p (t, rest, p.advanceAll (gap ++ taken))

theorem advanceAll_plain (plain : Plain text) (p : Position)
    : p.advanceAll text
      = { offset := p.offset + Scalar.size text, line := p.line, column := p.column + text.length } := by
  induction text generalizing p with
  | nil => rfl
  | cons s text ih =>
    obtain ⟨visible, plain⟩ := forall_mem_cons.mp plain
    have inline : s.char ≠ '\n' := by
      intro newline
      rw [newline] at visible
      exact absurd visible (by decide)
    change (p.advance s).advanceAll text = _
    rw [ih plain, advance, if_neg inline, size_cons, length_cons]
    rw [Nat.add_assoc, Nat.add_assoc, Nat.add_comm 1]

theorem length_toBytes (s) : (Text.toBytes s).length = s.utf8ByteSize := by
  rw [Text.toBytes, Text.toList_byteArray]
  rfl

theorem stop_tokenOf (formed : ∀ s ∈ text.take n, Formed s) (plain : Plain (text.take n))
    (p : Position)
    : (tokenOf text p (.token kind n)).stop = p.advanceAll (text.take n) := by
  have bytes := congrArg List.length (toBytes_spelling formed fun s member => (plain s member).2)
  rw [length_toBytes] at bytes
  rw [advanceAll_plain plain, tokenOf, Token.stop, bytes, spelling, String.length_ofList, length_map]
  rfl

theorem next_takes (p) (formed : ∀ s ∈ text, Formed s) : Takes text p (next text p) := by
  have passed := skip_passed text p formed
  unfold next
  split
  · next start stop skipped =>
    rw [skipped] at passed
    obtain ⟨gap, comment, rfl, some, rfl, rfl, blank⟩ := passed
    exact .token (by rw [append_nil]) blank some (by rintro ⟨⟩) rfl (absurd rfl) (absurd rfl)
      (absurd rfl)
  · next q skipped =>
    rw [skipped] at passed
    obtain ⟨gap, rfl, rfl, blank⟩ := passed
    rw [append_nil] at formed ⊢
    exact .ended blank
  · next s rest q skipped =>
    rw [skipped] at passed
    obtain ⟨gap, rfl, rfl, blank⟩ := passed
    rw [← advanceAll_append]
    refine .token (by rw [take_append_drop]) blank ?_ (ahead_spelled s rest _).1 ?_ ?_ ?_ ?_
    · have some := ahead_length_pos s rest
      simpa using Nat.ne_of_gt some
    · cases ahead s rest with
      | token kind n => rfl
      | error message n => rfl
    · cases next : ahead s rest with
      | error message n => exact absurd rfl
      | token kind n =>
        intro _
        refine toBytes_spelling (fun t member => ?_) fun t member => (plain_ahead next t member).2
        exact formed t (mem_append_right _ (mem_of_mem_take member))
    · cases next : ahead s rest with
      | error message n => exact absurd rfl
      | token kind n =>
        intro _
        rw [advanceAll_append]
        refine stop_tokenOf (fun t member => ?_) (plain_ahead next) _
        exact formed t (mem_append_right _ (mem_of_mem_take member))
    · cases next : ahead s rest with
      | error message n => exact absurd rfl
      | token kind n => exact fun _ => bounded_ahead next

/-- Reading token after token gives these tokens, the last of which is the first final one. -/
inductive Yields : List Scalar → Position → List Token → Prop
  | last {text p} (ended : (next text p).1.kind = .eof)
    : Yields text p [(next text p).1]
  | more {text p tokens}
    (unended : (next text p).1.kind ≠ .eof) (later : Yields (next text p).2.1 (next text p).2.2 tokens)
    : Yields text p ((next text p).1 :: tokens)

variable {p : Position}

theorem Yields.unique {tokens'} (yields : Yields text p tokens) (yields' : Yields text p tokens')
    : tokens = tokens' := by
  induction yields generalizing tokens' with
  | last ended =>
    cases yields' with
    | last => rfl
    | more unended => exact absurd ended unended
  | more unended _ ih =>
    cases yields' with
    | last ended => exact absurd ended unended
    | more _ later => rw [ih later]

theorem scanFrom_nil (fuel p) : scanFrom fuel [] p = ([], p) := by
  cases fuel with
  | zero => rfl
  | succ fuel => rw [scanFrom, skip]

theorem scanFrom_succ (fuel text p)
    : scanFrom (fuel + 1) text p
      = if (next text p).1.kind = .eof then ([], (next text p).1.pos)
        else ((next text p).1 :: (scanFrom fuel (next text p).2.1 (next text p).2.2).1,
          (scanFrom fuel (next text p).2.1 (next text p).2.2).2) := by
  cases skipped : skip text p with
  | unterminated start stop =>
    have read : next text p
        = ({ kind := .error, literal := "unterminated comment", pos := start }, [], stop) := by
      rw [next, skipped]
    have unended : TokenKind.error ≠ .eof := by decide
    rw [read, if_neg unended, scanFrom_nil, scanFrom, skipped]
  | clear rest q =>
    cases rest with
    | nil =>
      have read : next text p = (.eof q, [], q) := by rw [next, skipped]
      have ended : (Token.eof q).kind = .eof := rfl
      rw [read, if_pos ended, scanFrom, skipped]
      rfl
    | cons s rest =>
      have read : next text p = (tokenOf (s :: rest) q (ahead s rest),
          (s :: rest).drop (ahead s rest).length,
          q.advanceAll ((s :: rest).take (ahead s rest).length)) := by
        rw [next, skipped]
      rw [read, if_neg (ahead_spelled s rest q).1, scanFrom, skipped]
      dsimp only
      cases ahead s rest with
      | token kind n => rfl
      | error message n => rfl

theorem Takes.eof_pos (takes : Takes text p read) (ended : read.1.kind = .eof)
    : Token.eof read.1.pos = read.1 := by
  cases takes with
  | ended => rfl
  | token _ _ _ unended => exact absurd ended unended

/-- Behind a token that is not the final one less is left. -/
theorem Takes.further (takes : Takes text p read) (unended : read.1.kind ≠ .eof)
    (formed : ∀ s ∈ text, Formed s)
    : (∀ s ∈ read.2.1, Formed s) ∧ read.2.1.length < text.length := by
  cases takes with
  | ended => exact absurd rfl unended
  | @token gap taken rest t split _ some =>
    subst split
    have taken := length_pos_iff.mpr some
    refine ⟨fun s member => formed s (by simp [member]), ?_⟩
    simp only [length_append]
    omega

/-- Scanning reads token after token up to the end, and fuel for all characters is never used up, by
induction on the fuel.
-/
theorem scanFrom_yields {fuel} (p : Position) (formed : ∀ s ∈ text, Formed s)
    (enough : text.length < fuel)
    : Yields text p ((scanFrom fuel text p).1 ++ [.eof (scanFrom fuel text p).2]) := by
  induction fuel generalizing text p with
  | zero => omega
  | succ fuel ih =>
    have takes := next_takes p formed
    rw [scanFrom_succ]
    by_cases ended : (next text p).1.kind = .eof
    · rw [if_pos ended]
      rw [takes.eof_pos ended]
      exact .last ended
    · rw [if_neg ended]
      obtain ⟨formedRest, shorter⟩ := takes.further ended formed
      exact .more ended (ih _ formedRest (by omega))

/-- Tokens in the places where a text has them, from a place on. -/
inductive Laid : List Scalar → Position → List Token → Prop
  | last {text : List Scalar} {p} (blank : Skipped true (text.flatMap (·.bytes)))
    : Laid text p [.eof (p.advanceAll text)]
  | token {gap taken rest p t ts}
    (blank : Skipped false (gap.flatMap (·.bytes))) (some : taken.flatMap (·.bytes) ≠ [])
    (unended : t.kind ≠ .eof) (place : t.pos = p.advanceAll gap)
    (spelled : t.kind ≠ .error → Text.toBytes t.literal = taken.flatMap (·.bytes))
    (stops : t.kind ≠ .error → t.stop = (p.advanceAll gap).advanceAll taken)
    (bounded : t.kind ≠ .error → Bounded t.kind taken rest)
    (later : Laid rest ((p.advanceAll gap).advanceAll taken) ts)
    : Laid (gap ++ (taken ++ rest)) p (t :: ts)

theorem flatMap_bytes_ne_nil (formed : ∀ s ∈ text, Formed s) (some : text ≠ [])
    : text.flatMap (·.bytes) ≠ [] := by
  cases text with
  | nil => exact absurd rfl some
  | cons s rest =>
    rw [flatMap_cons]
    exact append_ne_nil_of_left_ne_nil (formed s mem_cons_self).bytes_ne_nil _

/-- The tokens that are read stand in their places, by induction on the reading. -/
theorem Yields.laid (yields : Yields text p tokens) (formed : ∀ s ∈ text, Formed s)
    : Laid text p tokens := by
  induction yields with
  | @last text p ended =>
    have takes := next_takes p formed
    generalize next text p = read at takes ended
    cases takes with
    | ended blank => exact .last blank
    | token _ _ _ unended => exact absurd ended unended
  | @more text p tokens unended _ ih =>
    have takes := next_takes p formed
    have further := ih (takes.further unended formed).1
    generalize next text p = read at takes unended further
    cases takes with
    | ended => exact absurd rfl unended
    | @token gap taken rest t split blank some _ place spelled stops bounded =>
      subst split
      have formedTaken : ∀ s ∈ taken, Formed s := fun s member => formed s (by simp [member])
      rw [advanceAll_append] at further stops
      exact .token blank (flatMap_bytes_ne_nil formedTaken some) unended place spelled stops
        bounded further

/-- A text is made of tokens, from an offset on. In front of each there are blanks and comments. A token
that is no error is its spelling, and all but the final one take a byte at least.
-/
inductive Tiled : (offset : Nat) → Bytes → List Token → Prop
  | last {offset : Nat} {gap : Bytes} {t : Token} (blank : Skipped true gap)
    (place : t.pos.offset = offset + gap.length) (empty : t.literal = "") (ended : t.kind = .eof)
    : Tiled offset gap [t]
  | token {offset : Nat} {gap taken rest : Bytes} {t : Token} {ts : List Token}
    (blank : Skipped false gap) (place : t.pos.offset = offset + gap.length) (some : taken ≠ [])
    (unended : t.kind ≠ .eof) (spelled : t.kind ≠ .error → Text.toBytes t.literal = taken)
    (later : Tiled (offset + gap.length + taken.length) rest ts)
    : Tiled offset (gap ++ (taken ++ rest)) (t :: ts)

/-- The bytes of a text are made of its tokens, by induction on them. -/
theorem Laid.tiled (laid : Laid text p tokens)
    : Tiled p.offset (text.flatMap (·.bytes)) tokens := by
  induction laid with
  | @last text p blank => exact .last blank (offset_advanceAll p text) rfl rfl
  | token blank some unended place spelled _ _ _ ih =>
    rw [flatMap_append, flatMap_append]
    rw [offset_advanceAll, offset_advanceAll] at ih
    refine .token blank ?_ some unended spelled ih
    rw [place, offset_advanceAll]
    rfl

/-- Every token stands behind a first part of the text, by induction on the tokens. -/
theorem Laid.placed (laid : Laid text p tokens)
    : ∀ t ∈ tokens, ∃ front behind, text = front ++ behind ∧ t.pos = p.advanceAll front := by
  induction laid with
  | @last text p => exact forall_mem_singleton.mpr ⟨text, [], (append_nil _).symm, rfl⟩
  | @token gap taken rest p t ts _ _ _ place _ _ _ _ ih =>
    refine forall_mem_cons.mpr ⟨⟨gap, _, rfl, place⟩, fun u member => ?_⟩
    obtain ⟨front, behind, same, place⟩ := ih u member
    refine ⟨gap ++ taken ++ front, behind, by simp [same], ?_⟩
    rw [place, advanceAll_append, advanceAll_append]

/-- From an offset on, only blanks and comments stand in front of the tokens. In front of the final one
the text may end with a line comment.
-/
def Separated (source : Bytes) : (start : Nat) → List Token → Prop
  | _, [] => True
  | start, t :: ts =>
    Skipped (t.kind = .eof) ((source.take t.pos.offset).drop start)
    ∧ Separated source t.stop.offset ts

namespace Tiled

variable {offset : Nat} {source text : Bytes}

section

variable (tiled : Tiled offset text tokens)
include tiled

/-- Tokens follow one another without overlap, by induction on them. -/
theorem ordered
    : (∀ t ∈ tokens, offset ≤ t.pos.offset)
      ∧ tokens.Pairwise fun t u =>
        t.pos.offset < u.pos.offset ∧ (t.kind ≠ .error → t.stop.offset ≤ u.pos.offset) := by
  induction tiled with
  | last _ place =>
    exact ⟨forall_mem_singleton.mpr (by omega), pairwise_singleton _ _⟩
  | @token offset gap taken rest t ts _ place some _ spelled _ ih =>
    obtain ⟨behind, pairwise⟩ := ih
    have taken := length_pos_iff.mpr some
    refine ⟨forall_mem_cons.mpr ⟨by omega, fun u member => ?_⟩,
      pairwise_cons.mpr ⟨fun u member => ⟨?_, fun sound => ?_⟩, pairwise⟩⟩
    · have := behind u member
      omega
    · have := behind u member
      omega
    · have := behind u member
      rw [Token.stop, ← length_toBytes, spelled sound]
      dsimp only
      omega

theorem length_le : tokens.length ≤ text.length + 1 := by
  induction tiled with
  | last => exact Nat.le_add_left _ _
  | token _ _ some _ _ _ ih =>
    have := length_pos_iff.mpr some
    simp only [length_append, length_cons]
    omega

/-- The final token stands at the end of the text, by induction on the tokens. -/
theorem ended : ∀ t ∈ tokens, t.kind = .eof → t.pos.offset = offset + text.length := by
  induction tiled with
  | last _ place => exact forall_mem_singleton.mpr fun _ => place
  | token _ _ _ unended _ _ ih =>
    refine forall_mem_cons.mpr ⟨fun ended => absurd ended unended, fun u member ended => ?_⟩
    rw [ih u member ended, length_append, length_append]
    omega

end

/-- The text behind the blanks and behind the token, where the text from an offset on is known. -/
theorem drop_parts {gap taken rest : Bytes} (here : source.drop offset = gap ++ (taken ++ rest))
    : source.drop (offset + gap.length) = taken ++ rest
      ∧ source.drop (offset + gap.length + taken.length) = rest := by
  have first : source.drop (offset + gap.length) = taken ++ rest := by
    rw [← drop_drop, here, drop_left]
  exact ⟨first, by rw [← drop_drop, first, drop_left]⟩

/-- Tokens that are no errors are spelled as they stand in the text, by induction on the tokens. -/
theorem literal_spelled (tiled : Tiled offset text tokens) (here : source.drop offset = text)
    : ∀ t ∈ tokens, t.kind ≠ .error → Text.toBytes t.literal <+: source.drop t.pos.offset := by
  induction tiled with
  | last _ _ empty =>
    refine forall_mem_singleton.mpr fun _ => ?_
    rw [empty, Text.toBytes_eq]
    exact nil_prefix
  | token _ place _ _ spelled _ ih =>
    obtain ⟨atToken, behind⟩ := drop_parts here
    refine forall_mem_cons.mpr ⟨fun sound => ?_, ih behind⟩
    rw [place, atToken, spelled sound]
    exact prefix_append _ _

/-- Between tokens without errors there are blanks and comments only, by induction on the tokens. -/
theorem separated (tiled : Tiled offset text tokens) (here : source.drop offset = text)
    (sound : ∀ t ∈ tokens, t.kind ≠ .error)
    : Separated source offset tokens := by
  induction tiled with
  | @last offset gap t blank place _ ended =>
    refine ⟨?_, trivial⟩
    rw [place, drop_take, Nat.add_sub_cancel_left, here, take_length, decide_eq_true ended]
    exact blank
  | @token offset gap taken rest t ts blank place _ unended spelled _ ih =>
    obtain ⟨soundHere, soundLater⟩ := forall_mem_cons.mp sound
    have stop : t.stop.offset = offset + gap.length + taken.length := by
      rw [Token.stop, ← length_toBytes, spelled soundHere, place]
    refine ⟨?_, ?_⟩
    · rw [place, drop_take, Nat.add_sub_cancel_left, here, take_left,
        decide_eq_false unended]
      exact blank
    · rw [stop]
      exact ih (drop_parts here).2 soundLater

end Tiled

end Lexeme

open Lexeme

/-- The tokens of a script with the final one. -/
def allTokens (source : Bytes) : List Token :=
  (scan source).1 ++ [.eof (scan source).2]

theorem laid_allTokens (source)
    : Yields (scriptText source) .start (allTokens source)
      ∧ Laid (scriptText source) .start (allTokens source) := by
  have formed : ∀ s ∈ scriptText source, Scalar.Formed s := Scalar.formed_decode _
  have yields := scanFrom_yields .start formed (Nat.lt_succ_self _)
  exact ⟨yields, yields.laid formed⟩

/-- All bytes in front of the first zero byte belong to a token, to a blank or to a comment. -/
theorem tiled_allTokens (source : Bytes)
    : Tiled 0 (source.takeWhile (· != 0)) (allTokens source) := by
  have tiled := (laid_allTokens source).2.tiled
  rw [scriptText, Scalar.flatMap_decode] at tiled
  exact tiled

/-- The text ends with its first zero byte. -/
theorem offset_scan (source : Bytes) : (scan source).2.offset = (source.takeWhile (· != 0)).length := by
  have final := (tiled_allTokens source).ended (.eof (scan source).2) (by simp [allTokens]) rfl
  exact final.trans (Nat.zero_add _)

theorem takeWhile_of_not_mem {source : Bytes} (textual : 0 ∉ source)
    : source.takeWhile (· != 0) = source := by
  rw [takeWhile_eq_self_iff]
  intro b member
  exact bne_iff_ne.mpr fun zero => textual (zero ▸ member)

/-- A text without zero bytes is read token after token up to its end. All of it belongs to a token, to a
blank or to a comment. Tokens without errors are spelled as they stand in the text and do not overlap, and
every token is marked with its place.
-/
theorem scan_lossless {source : Bytes} (textual : 0 ∉ source)
    : Yields (Scalar.decode source) .start (allTokens source)
      ∧ Tiled 0 source (allTokens source)
      ∧ (∀ t ∈ allTokens source, t.kind ≠ .error
        → Text.toBytes t.literal <+: source.drop t.pos.offset)
      ∧ (allTokens source).Pairwise (fun t u =>
        t.pos.offset < u.pos.offset ∧ (t.kind ≠ .error → t.stop.offset ≤ u.pos.offset))
      ∧ ((∀ t ∈ allTokens source, t.kind ≠ .error) → Separated source 0 (allTokens source))
      ∧ (scan source).2.offset = source.length
      ∧ ∀ t ∈ allTokens source, t.pos.Marks source := by
  obtain ⟨yields, laid⟩ := laid_allTokens source
  have tiled := tiled_allTokens source
  have stop := offset_scan source
  rw [scriptText] at yields laid
  rw [takeWhile_of_not_mem textual] at yields laid tiled stop
  refine ⟨yields, tiled, tiled.literal_spelled rfl, tiled.ordered.2, tiled.separated rfl, stop,
    fun t member => ?_⟩
  obtain ⟨front, behind, split, place⟩ := laid.placed t member
  rw [place]
  exact Position.marks_advanceAll split

/-- Comments of both kinds, with a character of two bytes and a byte that spells none in front of a token. -/
def commented : Bytes :=
  Text.toBytes "a // line\n/* é" ++ 0xFF :: Text.toBytes " */ b2 <= 1.5e3; // end"

theorem scan_lossless_commented
    : 0 ∉ commented
      ∧ (allTokens commented).map (fun t => (t.literal, t.pos.offset, t.pos.line, t.pos.column))
        = [("a", 0, 1, 1), ("b2", 20, 2, 10), ("<=", 23, 2, 13), ("1.5e3", 26, 2, 16),
          (";", 31, 2, 21), ("", 39, 2, 29)]
      ∧ Separated commented 0 (allTokens commented)
      ∧ ∀ t ∈ allTokens commented, t.pos.Marks commented := by
  have textual : 0 ∉ commented := by decide +kernel
  obtain ⟨-, -, -, -, separated, -, marks⟩ := scan_lossless textual
  exact ⟨textual, by decide +kernel, separated (by decide +kernel), marks⟩

end MapAlgebra
