import MapAlgebra.Editor
import MapAlgebra.Proofs.Script.Constants

/-! The names of a script as an editor finds them. A name is found at the byte where it starts. The places
that are told count characters, so they lead to the name where every character in front of it in its line
is one byte.
-/

namespace MapAlgebra

open List
open Text

namespace Editor

theorem length_splitOn (text : Bytes) (b) : (text.splitOn b).length = text.count b + 1 := by
  induction text with
  | nil => rfl
  | cons a rest ih =>
    rw [splitOn_cons_eq_if_modifyHead, count_cons]
    split <;> simp [ih]

theorem head_splitOn (text : Bytes) (b)
    : (text.splitOn b)[0]? = some (text.takeWhile (· != b)) := by
  induction text with
  | nil => rfl
  | cons a rest ih =>
    rw [splitOn_cons_eq_if_modifyHead]
    by_cases same : a = b
    · simp [same]
    · simp [same, List.getElem?_modifyHead, ih]

/-- The line that goes on behind a first part of a text, by induction on that part from its end. -/
theorem line_behind (front behind : Bytes)
    : ((front ++ behind).splitOn 0x0A)[front.count 0x0A]?
      = some (front.rtakeWhile (· != 0x0A) ++ behind.takeWhile (· != 0x0A)) := by
  induction front using List.reverseRecOn generalizing behind with
  | nil => exact head_splitOn behind _
  | append_singleton front b ih =>
    rw [append_assoc, singleton_append, rtakeWhile_concat, count_append]
    by_cases newline : b = 0x0A
    · subst newline
      rw [splitOn_append_cons_self, List.getElem?_append_right (by rw [length_splitOn]; simp),
        length_splitOn, count_singleton_self, Nat.sub_self, head_splitOn]
      rfl
    · simpa [newline] using ih (b :: behind)

/-- A word stands by itself between two parts of a line. -/
structure Alone (before word after : Bytes) : Prop where
  nonempty : word ≠ []
  word : ∀ b ∈ word, isWordByte b = true
  left : ∀ b ∈ before.getLast?, isWordByte b = false
  right : ∀ b ∈ after.head?, isWordByte b = false

variable {text before word after : Bytes} {line : Nat}

theorem cutLine_eq {bytes : Bytes} (here : (text.splitOn 0x0A)[line]? = some bytes) (place)
    : cutLine text line place = (bytes.take place, bytes.drop place) := by
  rw [cutLine, here]
  rfl

theorem rtakeWhile_eq_nil (left : ∀ b ∈ before.getLast?, isWordByte b = false)
    : before.rtakeWhile isWordByte = [] := by
  refine rtakeWhile_eq_nil_iff.mpr fun some => ?_
  rw [left _ (List.getLast?_eq_some_getLast some)]
  exact Bool.false_ne_true

theorem apart_append {first second : Bytes} (left : ∀ b ∈ first.getLast?, isWordByte b = false)
    (right : ∀ b ∈ second.getLast?, isWordByte b = false)
    : ∀ b ∈ (first ++ second).getLast?, isWordByte b = false := by
  rw [List.getLast?_append]
  cases last : second.getLast? with
  | none => simpa using left
  | some b => simpa using right b last

/-- The end of a word has the word in front of it, and a place in the word has what stands there of it. -/
theorem Alone.wordBefore_eq (alone : Alone before word after)
    (here : (text.splitOn 0x0A)[line]? = some (before ++ (word ++ after))) {n}
    (inside : n ≤ word.length)
    : wordBefore text line (before.length + n) = word.take n := by
  rw [wordBefore, cutLine_eq here, take_length_add_append, take_append_of_le_length inside]
  refine (Position.rtakeWhile_append_of_all fun b member => ?_).trans ?_
  · exact alone.word b (mem_of_mem_take member)
  · rw [rtakeWhile_eq_nil alone.left, nil_append]

theorem Alone.wordAt_eq (alone : Alone before word after)
    (here : (text.splitOn 0x0A)[line]? = some (before ++ (word ++ after)))
    : wordAt text line before.length = word := by
  have none : after.takeWhile isWordByte = [] := by
    cases after with
    | nil => rfl
    | cons b rest => rw [takeWhile_cons, alone.right b rfl, if_neg Bool.false_ne_true]
  have first := alone.wordBefore_eq here (Nat.zero_le _)
  rw [Nat.add_zero] at first
  rw [wordAt, first, cutLine_eq here, drop_left, takeWhile_append_of_pos alone.word, none,
    append_nil]
  rfl

variable {place : Nat}

theorem wordBefore_before (single : 0x0A ∉ before)
    (here : (text.splitOn 0x0A)[line]? = some (before ++ after)) (less : place ≤ before.length)
    : wordBefore text line place = wordBefore before 0 place := by
  have itself : (before.splitOn 0x0A)[0]? = some before := by rw [splitOn_eq_singleton single]; rfl
  rw [wordBefore, wordBefore, cutLine_eq here, cutLine_eq itself, take_append_of_le_length less]

/-- In front of the word only what stands there is found. -/
theorem Alone.wordAt_before (alone : Alone before word after) (single : 0x0A ∉ before)
    (here : (text.splitOn 0x0A)[line]? = some (before ++ (word ++ after)))
    (less : place < before.length)
    : wordAt text line place = wordAt before 0 place := by
  have itself : (before.splitOn 0x0A)[0]? = some before := by rw [splitOn_eq_singleton single]; rfl
  have stops : ¬ ((before.drop place).takeWhile isWordByte).length = (before.drop place).length := by
    intro all
    have left : before.drop place ≠ [] := by simpa using less
    have whole := takeWhile_eq_self_iff.mp ((List.takeWhile_prefix _).eq_of_length all)
    have last := whole _ (getLast_mem left)
    rw [getLast_drop, alone.left _ (List.getLast?_eq_some_getLast _)] at last
    cases last
  rw [wordAt, wordAt, wordBefore_before single here less.le, cutLine_eq here, cutLine_eq itself,
    drop_append_of_le_length less.le, takeWhile_append, if_neg stops]

end Editor

namespace Lexeme

open Scalar Position Editor

theorem isWordByte_ofNat : ∀ n < 0x80, isWordByte (UInt8.ofNat n) = isWordPart (Char.ofNat n) := by
  decide +kernel

variable {s : Scalar} {text rest : List Scalar} {bytes before : Bytes}

theorem isWordByte_eq (formed : Formed s) (plain : s.char.toNat < 0x80)
    : ∀ b ∈ s.bytes, isWordByte b = isWordPart s.char := by
  rw [formed.bytes_eq plain]
  refine forall_mem_singleton.mpr ?_
  rw [isWordByte_ofNat _ plain, Char.ofNat_toNat]

theorem isWordByte_flatMap {part} (formed : ∀ s ∈ text, Formed s) (plain : Plain text)
    (parts : ∀ s ∈ text, isWordPart s.char = part)
    : ∀ b ∈ text.flatMap (·.bytes), isWordByte b = part := by
  intro b member
  obtain ⟨s, inside, member⟩ := mem_flatMap.mp member
  rw [isWordByte_eq (formed s inside) (plain s inside).2 b member, parts s inside]

theorem length_flatMap_plain (formed : ∀ s ∈ text, Formed s) (plain : Plain text)
    : (text.flatMap (·.bytes)).length = text.length := by
  induction text with
  | nil => rfl
  | cons s text ih =>
    obtain ⟨formedHere, formed⟩ := forall_mem_cons.mp formed
    obtain ⟨plainHere, plain⟩ := forall_mem_cons.mp plain
    rw [flatMap_cons, length_append, ih formed plain, formedHere.bytes_eq plainHere.2,
      length_singleton, length_cons, Nat.add_comm]

theorem head_flatMap (formed : Formed s)
    : ((s :: rest).flatMap (·.bytes)).head? = s.bytes.head? := by
  rw [flatMap_cons, List.head?_append_of_ne_nil _ formed.bytes_ne_nil]

/-- Blanks and comments start with a plain character. -/
theorem Skipped.head_small {atEnd} (skipped : Skipped atEnd bytes)
    : ∀ b ∈ bytes.head?, b.toNat < 0x80 := by
  have line : toBytes "//" = [0x2F, 0x2F] := by decide +kernel
  have block : toBytes "/*" = [0x2F, 0x2A] := by decide +kernel
  cases skipped with
  | nil => simp
  | blank space =>
    have small : ∀ b ∈ toBytes " \t\n\r", b.toNat < 0x80 := by decide +kernel
    simpa using small _ space
  | line => simp [line]
  | block => simp [block]
  | last => simp [line]

/-- Blanks and comments in front of a token end with no byte of a word, by induction on them. -/
theorem Skipped.last_apart (skipped : Skipped false bytes)
    : ∀ b ∈ bytes.getLast?, isWordByte b = false := by
  induction skipped with
  | nil => simp
  | blank space more ih =>
    have apart : ∀ b ∈ toBytes " \t\n\r", isWordByte b = false := by decide +kernel
    rw [← singleton_append]
    exact apart_append (by simpa using apart _ space) ih
  | line unended more ih =>
    rw [append_cons]
    exact apart_append (by simp; decide) ih
  | block unclosed more ih =>
    have close : toBytes "*/" = [0x2A, 0x2F] := by decide +kernel
    rw [close]
    exact apart_append (by simp; decide) ih
  | last final => cases final

variable {p : Position} {tokens : List Token}

theorem head_plain_of_small (formed : ∀ s ∈ text, Formed s)
    (small : ∀ b ∈ (text.flatMap (·.bytes)).head?, b.toNat < 0x80)
    : ∀ s ∈ text.head?, s.char.toNat < 0x80 := by
  cases text with
  | nil => simp
  | cons s rest =>
    have formed := formed s mem_cons_self
    rw [head_flatMap formed, List.head?_eq_some_head formed.bytes_ne_nil] at small
    rintro _ ⟨⟩
    by_contra wide
    have large := formed.large (Nat.not_lt.mp wide) _ (head_mem formed.bytes_ne_nil)
    exact Nat.not_lt.mpr large (small _ rfl)

/-- A text without malformed tokens starts with a plain character. -/
theorem Laid.head_plain (laid : Laid text p tokens) (formed : ∀ s ∈ text, Formed s)
    (sound : ∀ t ∈ tokens, t.kind ≠ .error)
    : ∀ s ∈ text.head?, s.char.toNat < 0x80 := by
  cases laid with
  | last blank => exact head_plain_of_small formed blank.head_small
  | @token gap taken rest _ t _ blank some _ _ _ _ bounded =>
    cases gap with
    | cons s gap =>
      have formedGap := (forall_mem_append.mp formed).1
      have plain := head_plain_of_small formedGap blank.head_small
      exact plain
    | nil =>
      cases taken with
      | nil => exact absurd rfl some
      | cons s taken =>
        have plain := (bounded (sound t mem_cons_self)).plain
        rintro _ ⟨⟩
        exact (plain s mem_cons_self).2

/-- Behind a word no byte goes on with it. -/
theorem head_apart (formed : ∀ s ∈ text, Formed s) (plain : ∀ s ∈ text.head?, s.char.toNat < 0x80)
    (stops : ∀ s ∈ text.head?, isWordPart s.char = false)
    : ∀ b ∈ (text.flatMap (·.bytes)).head?, isWordByte b = false := by
  cases text with
  | nil => simp
  | cons s rest =>
    have formed := formed s mem_cons_self
    rw [head_flatMap formed]
    intro b first
    rw [isWordByte_eq formed (plain s rfl) b (mem_of_mem_head? first), stops s rfl]

/-- In front of a name blanks and comments keep it apart or, without any, what stands before. -/
theorem gap_apart {gap taken : List Scalar} (formed : ∀ s ∈ gap, Formed s)
    (blank : Skipped false (gap.flatMap (·.bytes))) (some : taken ≠ [])
    (named : ∀ s ∈ taken, isWordPart s.char = true)
    (clear : (∀ b ∈ before.getLast?, isWordByte b = false)
      ∨ ∀ s ∈ (gap ++ (taken ++ rest)).head?, isWordPart s.char = false)
    : ∀ b ∈ (before ++ gap.flatMap (·.bytes)).getLast?, isWordByte b = false := by
  cases gap with
  | cons s gap =>
    rw [List.getLast?_append_of_ne_nil _ (flatMap_bytes_ne_nil formed (cons_ne_nil _ _))]
    exact blank.last_apart
  | nil =>
    rw [flatMap_nil, append_nil]
    refine clear.resolve_right fun apart => ?_
    obtain ⟨s, taken, rfl⟩ := exists_cons_of_ne_nil some
    cases (named s mem_cons_self).symm.trans (apart s rfl)

/-- The names among tokens stand by themselves where none stands directly behind a number. The induction
is on the tokens, with the bytes in front of them: a name comes first only if these or the text keep apart.
-/
theorem Laid.alone (laid : Laid text p tokens) (formed : ∀ s ∈ text, Formed s)
    (sound : ∀ t ∈ tokens, t.kind ≠ .error)
    (chain : tokens.IsChain fun t u => t.kind = .number → u.kind ≠ .identifier)
    (clear : ∀ t ∈ tokens.head?, t.kind = .identifier →
      (∀ b ∈ before.getLast?, isWordByte b = false) ∨ ∀ s ∈ text.head?, isWordPart s.char = false)
    : ∀ t ∈ tokens, t.kind = .identifier → ∃ front taken behind, text = front ++ (taken ++ behind)
      ∧ t.pos = p.advanceAll front ∧ toBytes t.literal = taken.flatMap (·.bytes)
      ∧ t.stop.column = t.pos.column + (taken.flatMap (·.bytes)).length
      ∧ Alone (before ++ front.flatMap (·.bytes)) (taken.flatMap (·.bytes))
        (behind.flatMap (·.bytes)) := by
  induction laid generalizing before with
  | last => exact forall_mem_singleton.mpr (by rintro ⟨⟩)
  | @token gap taken rest p t ts blank some _ place spelled stops bounded later ih =>
    obtain ⟨formedGap, formedMore⟩ := forall_mem_append.mp formed
    obtain ⟨formedTaken, formedRest⟩ := forall_mem_append.mp formedMore
    obtain ⟨soundHere, soundLater⟩ := forall_mem_cons.mp sound
    obtain ⟨plain, ends⟩ := bounded soundHere
    refine forall_mem_cons.mpr ⟨fun identifier => ?_, fun u member identifier => ?_⟩
    · have named : (∀ s ∈ taken, isWordPart s.char = true)
          ∧ ∀ s ∈ rest.head?, isWordPart s.char = false := by
        rcases ends with number | ⟨other, -⟩ | named
        · cases identifier.symm.trans number
        · exact absurd identifier other
        · exact named
      refine ⟨gap, taken, rest, rfl, place, spelled soundHere, ?_, some,
        isWordByte_flatMap formedTaken plain named.1, ?_, ?_⟩
      · rw [stops soundHere, advanceAll_plain plain, ← place, length_flatMap_plain formedTaken plain]
      · have nonempty : taken ≠ [] := by
          rintro rfl
          exact some rfl
        exact gap_apart formedGap blank nonempty named.1 (clear t rfl identifier)
      · exact head_apart formedRest (later.head_plain formedRest soundLater) named.2
    · obtain ⟨joined, chain⟩ := isChain_cons.mp chain
      have clear : ∀ v ∈ ts.head?, v.kind = .identifier →
          (∀ b ∈ (before ++ gap.flatMap (·.bytes) ++ taken.flatMap (·.bytes)).getLast?,
            isWordByte b = false)
          ∨ ∀ s ∈ rest.head?, isWordPart s.char = false := by
        intro v first identifier
        rcases ends with number | ⟨-, marks⟩ | ⟨-, stops⟩
        · exact absurd identifier (joined v first number)
        · rw [List.getLast?_append_of_ne_nil _ some]
          exact Or.inl fun b last =>
            isWordByte_flatMap formedTaken plain marks b (mem_of_mem_getLast? last)
        · exact Or.inr stops
      obtain ⟨front, taken', behind, same, place', spelled', stop, alone⟩ :=
        ih formedRest soundLater chain clear u member identifier
      refine ⟨gap ++ taken ++ front, taken', behind, by simp [same], ?_, spelled', stop, ?_⟩
      · rw [place', advanceAll_append, advanceAll_append]
      · rw [flatMap_append, flatMap_append, ← append_assoc, ← append_assoc]
        exact alone

end Lexeme

namespace Editor

open Scalar Lexeme Grammar

/-- What is told about a place in a text concerns a name. -/
structure Concerns (text : Bytes) (place : EditorPlace) (name : Bytes) : Prop where
  word : wordAt text place.line place.character = name
  explained (e : Editor) (uri : String) (d : Document) : e.document? uri = some d → d.text = text
    → e.explanation? uri place = d.explanation? e.registry name
  declared (e : Editor) (uri : String) (d : Document) : e.document? uri = some d → d.text = text
    → e.declarations uri place = d.declarations name

theorem concerns_of_word {text name : Bytes} {place : EditorPlace} (nonempty : name ≠ [])
    (word : wordAt text place.line place.character = name)
    : Concerns text place name := by
  obtain ⟨b, more, rfl⟩ := exists_cons_of_ne_nil nonempty
  refine ⟨word, fun e uri d found same => ?_, fun e uri d found same => ?_⟩
  · rw [explanation?, found]
    dsimp only
    rw [same, word]
  · rw [declarations, found]
    dsimp only
    rw [same, word]

variable {behind front word : Bytes}

section

variable (alone : Alone front word behind)
include alone

/-- A word that stands by itself in a text does so in its line. -/
theorem Alone.inline
    : Alone (front.rtakeWhile (· != 0x0A)) word (behind.takeWhile (· != 0x0A)) := by
  refine ⟨alone.nonempty, alone.word, fun b last => alone.left b ?_, fun b first => alone.right b ?_⟩
  · obtain ⟨skipped, cut⟩ := rtakeWhile_suffix (· != 0x0A) front
    rw [← cut, List.getLast?_append, Option.mem_def.mp last]
    rfl
  · rw [List.head?_takeWhile] at first
    exact (Option.mem_filter_iff.mp first).1

/-- A word that ends a script before the text ends still stands by itself, since a zero comes next. -/
theorem Alone.append_unread (source : Bytes)
    : Alone front word (behind ++ source.dropWhile (· != 0)) := by
  refine ⟨alone.nonempty, alone.word, alone.left, ?_⟩
  rw [List.head?_append]
  cases first : behind.head? with
  | some b => simpa using alone.right b first
  | none =>
    have stops := List.head?_dropWhile_not (· != 0) source
    cases zero : (source.dropWhile (· != 0)).head? with
    | none => simp
    | some b =>
      rw [zero] at stops
      rintro _ ⟨⟩
      have zero : b = 0 := by simpa using stops
      rw [zero]
      decide

theorem Alone.line_eq
    : ((front ++ (word ++ behind)).splitOn 0x0A)[front.count 0x0A]?
      = some (front.rtakeWhile (· != 0x0A) ++ (word ++ behind.takeWhile (· != 0x0A))) := by
  have inline : ∀ b ∈ word, (b != 0x0A) = true := by
    intro b inside
    refine bne_iff_ne.mpr ?_
    rintro rfl
    cases alone.word _ inside
  rw [line_behind, takeWhile_append_of_pos inline]

end

/-- The names of a script stand by themselves in their lines, in the columns that count characters. -/
theorem name_inline {source script} (parsed : parse source = .ok script) {t}
    (member : t ∈ (scan source).1) (identifier : t.kind = .identifier)
    : ∃ before after,
      (source.splitOn 0x0A)[t.pos.line - 1]? = some (before ++ (toBytes t.literal ++ after))
      ∧ Alone before (toBytes t.literal) after ∧ 0x0A ∉ before
      ∧ t.pos.column = 1 + (decode before).length
      ∧ t.stop.column = t.pos.column + (toBytes t.literal).length := by
  obtain ⟨derives, sound⟩ := derives_of_parse parsed
  have chain : (allTokens source).IsChain fun t u => t.kind = .number → u.kind ≠ .identifier := by
    refine isChain_append.mpr ⟨derives.guarded.adjoined.imp fun _ _ joined => joined.2, .singleton _, ?_⟩
    rintro _ - _ ⟨⟩ - ⟨⟩
  have clear : ∀ u ∈ (allTokens source).head?, u.kind = .identifier →
      (∀ b ∈ ([] : Bytes).getLast?, isWordByte b = false)
      ∨ ∀ s ∈ (scriptText source).head?, isWordPart s.char = false :=
    fun _ _ _ => Or.inl (by simp)
  have formed : ∀ s ∈ scriptText source, Formed s := formed_decode _
  obtain ⟨front, taken, behind, split, place, spelled, stop, alone⟩ :=
    (laid_allTokens source).2.alone formed sound chain clear t (mem_append_left _ member) identifier
  rw [← spelled] at stop alone
  have marks := Position.marks_advanceAll split
  rw [← place] at marks
  have offset := (Position.take_offset split).1
  rw [← place] at offset
  obtain ⟨line, column⟩ := marks
  rw [offset] at line column
  -- The text goes on behind the name with the rest of the script and with what is not read.
  have whole : source = front.flatMap (·.bytes)
      ++ (toBytes t.literal ++ (behind.flatMap (·.bytes) ++ source.dropWhile (· != 0))) := by
    have script := flatMap_decode (source.takeWhile (· != 0))
    rw [← scriptText, split, flatMap_append, flatMap_append, ← spelled] at script
    rw [← append_assoc, ← append_assoc, append_assoc _ _ (behind.flatMap _), script,
      takeWhile_append_dropWhile]
  rw [nil_append] at alone
  have alone := alone.append_unread source
  have here := alone.line_eq
  rw [← whole] at here
  refine ⟨_, _, ?_, alone.inline, fun newline => ?_, column, stop⟩
  · rw [line, Nat.add_sub_cancel_left]
    exact here
  · exact absurd (mem_rtakeWhile_imp newline) (by decide)

/-- An editor finds every name of a script at the byte where it starts. The place that is told counts
characters. If the characters in front of the name in its line are bytes, then it leads to the name, and
the end leads behind it. Otherwise it leads to what stands in front of the name, and the end leads into
the name or in front of it.
-/
theorem name_found {source : Bytes} {script : Script} (parsed : parse source = .ok script) {t : Token}
    (member : t ∈ (scan source).1) (identifier : t.kind = .identifier)
    : ∃ before after extra,
      (source.splitOn 0x0A)[t.pos.line - 1]? = some (before ++ (toBytes t.literal ++ after))
      ∧ before.length = (decode before).length + extra
      ∧ Concerns source ⟨t.pos.line - 1, before.length⟩ (toBytes t.literal)
      ∧ (t.pos.line ≤ 2 ^ 32 → t.stop.column ≤ 2 ^ 32 →
        t.pos.place = ⟨t.pos.line - 1, (decode before).length⟩
        ∧ (extra = 0 → Concerns source t.pos.place (toBytes t.literal))
        ∧ (0 < extra → wordAt source t.pos.place.line t.pos.place.character
          = wordAt before 0 t.pos.place.character)
        ∧ (extra ≤ (toBytes t.literal).length
          → wordBefore source t.stop.place.line t.stop.place.character
            = (toBytes t.literal).take ((toBytes t.literal).length - extra))
        ∧ ((toBytes t.literal).length < extra
          → wordBefore source t.stop.place.line t.stop.place.character
            = wordBefore before 0 t.stop.place.character)) := by
  obtain ⟨before, after, here, alone, single, column, stop⟩ := name_inline parsed member identifier
  obtain ⟨extra, length⟩ : ∃ extra, before.length = (decode before).length + extra :=
    Nat.exists_eq_add_of_le (length_decodeAfter_le 0 before)
  refine ⟨before, after, extra, here, length, concerns_of_word alone.nonempty (alone.wordAt_eq here),
    fun lines columns => ?_⟩
  have place : t.pos.place = ⟨t.pos.line - 1, (decode before).length⟩ := by
    rw [Position.place, Nat.mod_eq_of_lt (by omega), Nat.mod_eq_of_lt (by omega), column,
      Nat.add_sub_cancel_left]
  have stopPlace : t.stop.place
      = ⟨t.pos.line - 1, (decode before).length + (toBytes t.literal).length⟩ := by
    have sameLine : t.stop.line = t.pos.line := rfl
    rw [Position.place, sameLine, Nat.mod_eq_of_lt (by omega), Nat.mod_eq_of_lt (by omega), stop, column,
      Nat.add_assoc, Nat.add_sub_cancel_left]
  rw [place, stopPlace]
  refine ⟨rfl, fun none => ?_, fun some => ?_, fun fewer => ?_, fun more => ?_⟩
  · rw [none, Nat.add_zero] at length
    rw [← length]
    exact concerns_of_word alone.nonempty (alone.wordAt_eq here)
  · have less : (decode before).length < before.length := by omega
    exact alone.wordAt_before single here less
  · have inside := alone.wordBefore_eq here (Nat.sub_le (toBytes t.literal).length extra)
    rw [show before.length + ((toBytes t.literal).length - extra)
      = (decode before).length + (toBytes t.literal).length by omega] at inside
    exact inside
  · exact wordBefore_before single here (by dsimp only; omega)

/-- A name behind a comment with a character of two bytes. -/
def accented : Bytes := toBytes "/*é*/out = 1;"

def accentedName : Token := { kind := .identifier, literal := "out", pos := ⟨6, 1, 6⟩ }

/-- The same line with a character of one byte. -/
def unaccented : Bytes := toBytes "/*e*/out = 1;"

def unaccentedName : Token := { accentedName with pos := ⟨5, 1, 6⟩ }

theorem name_found_accented
    : (∃ before after extra,
        (accented.splitOn 0x0A)[0]? = some (before ++ (toBytes "out" ++ after))
        ∧ before.length = (decode before).length + extra
        ∧ Concerns accented ⟨0, before.length⟩ (toBytes "out")
        ∧ accentedName.pos.place = ⟨0, (decode before).length⟩)
      ∧ Concerns unaccented unaccentedName.pos.place (toBytes "out")
      ∧ wordBefore unaccented 0 8 = toBytes "out" := by
  have accepted : (parse accented).toOption.any (fun _ => true) = true := by decide +kernel
  have accepted' : (parse unaccented).toOption.any (fun _ => true) = true := by decide +kernel
  obtain ⟨script, parsed, -⟩ := exists_parsed accepted
  obtain ⟨script', parsed', -⟩ := exists_parsed accepted'
  constructor
  · obtain ⟨before, after, extra, here, length, concerns, told⟩ :=
      name_found parsed (show accentedName ∈ _ by decide +kernel) rfl
    exact ⟨before, after, extra, here, length, concerns, (told (by decide) (by decide)).1⟩
  · obtain ⟨before, after, extra, here, length, -, told⟩ :=
      name_found parsed' (show unaccentedName ∈ _ by decide +kernel) rfl
    obtain ⟨place, same, -, short, -⟩ := told (by decide) (by decide)
    have single : unaccented.splitOn 0x0A = [unaccented] := by decide +kernel
    have stop : unaccentedName.stop.place = ⟨0, 8⟩ := by decide +kernel
    have five : ∀ k ≤ unaccented.length, (decode (unaccented.take k)).length = 5 → k = 5 := by
      decide +kernel
    have whole : unaccented = before ++ _ := Option.some.inj (single ▸ here)
    have decoded : (decode before).length = 5 := (congrArg (·.character) place).symm
    have plain := five before.length (by simp [whole]) (by rw [whole, take_left, decoded])
    obtain rfl : extra = 0 := by omega
    rw [stop] at short
    exact ⟨same rfl, (short (by decide +kernel)).trans (by decide +kernel)⟩

/-- The place that is told for the name leads into the comment, where no word stands, and its end leads into
the name.
-/
theorem accented_misses
    : accentedName ∈ (scan accented).1 ∧ (parse accented).toOption.isSome = true
      ∧ accentedName.pos.place = ⟨0, 5⟩ ∧ wordAt accented 0 5 = []
      ∧ accentedName.stop.place = ⟨0, 8⟩ ∧ wordBefore accented 0 8 = toBytes "ou" := by
  decide +kernel

end Editor

end MapAlgebra
