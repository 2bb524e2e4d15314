import Mathlib.Data.List.Chain
import MapAlgebra.Proofs.Text.Decoding

/-! What is skipped in front of a token: blanks and comments, and nothing else. -/

namespace MapAlgebra.Lexeme

open Scalar Position
open List
open Text

/-- The bytes are blanks and complete comments. A line comment takes its newline along, which it needs
unless the text ends with it. A block comment is over as soon as it is closed.
-/
inductive Skipped (atEnd : Bool) : Bytes → Prop
  | nil : Skipped atEnd []
  | blank {b : UInt8} {rest : Bytes} (space : b ∈ toBytes " \t\n\r") (more : Skipped atEnd rest)
    : Skipped atEnd (b :: rest)
  | line {body rest : Bytes} (unended : 0x0A ∉ body) (more : Skipped atEnd rest)
    : Skipped atEnd (toBytes "//" ++ body ++ 0x0A :: rest)
  | block {body rest : Bytes} (unclosed : ¬ toBytes "*/" <:+: body) (more : Skipped atEnd rest)
    : Skipped atEnd (toBytes "/*" ++ body ++ toBytes "*/" ++ rest)
  | last {body : Bytes} (final : atEnd = true) (unended : 0x0A ∉ body)
    : Skipped atEnd (toBytes "//" ++ body)

/-- No star of the text has a slash behind it. -/
def Unclosed (text : List Scalar) : Prop :=
  text.IsChain fun s t => ¬ (s.char = '*' ∧ t.char = '/')

/-- A line comment goes up to the first newline or to the end, by induction on the text. -/
theorem skipLine_eq (text : List Scalar) (p : Position)
    : (∃ body newline rest, text = body ++ newline :: rest ∧ newline.char = '\n'
        ∧ (∀ s ∈ body, s.char ≠ '\n')
        ∧ skipLine text p = skip rest (p.advanceAll (body ++ [newline])))
      ∨ (∀ s ∈ text, s.char ≠ '\n') ∧ skipLine text p = .clear [] (p.advanceAll text) := by
  induction text generalizing p with
  | nil => exact Or.inr ⟨forall_mem_nil _, by rw [skipLine]; rfl⟩
  | cons s rest ih =>
    rw [skipLine]
    split
    · next newline => exact Or.inl ⟨[], s, rest, rfl, newline, forall_mem_nil _, rfl⟩
    · next other =>
      rcases ih (p.advance s) with ⟨body, newline, more, rfl, ends, inside, same⟩ | ⟨inside, same⟩
      · exact Or.inl ⟨s :: body, newline, more, rfl, ends,
          forall_mem_cons.mpr ⟨other, inside⟩, same⟩
      · exact Or.inr ⟨forall_mem_cons.mpr ⟨other, inside⟩, same⟩

/-- A block comment that is open in front of a text ends with the first star that has a slash behind it,
or never.
-/
def BlockEnds (start : Position) (text : List Scalar) (p : Position) (gap : Gap) : Prop :=
  (∃ body star slash rest, text = body ++ star :: slash :: rest ∧ star.char = '*' ∧ slash.char = '/'
    ∧ Unclosed body ∧ gap = skip rest (p.advanceAll (body ++ [star, slash])))
  ∨ gap = .unterminated start (p.advanceAll text)

variable {gap : Gap} {p : Position} {s t : Scalar}

theorem BlockEnds.cons {start rest} (other : ∀ t ∈ rest.head?, ¬ (s.char = '*' ∧ t.char = '/'))
    (ends : BlockEnds start rest (p.advance s) gap)
    : BlockEnds start (s :: rest) p gap := by
  rcases ends with ⟨body, star, slash, more, rfl, first, second, unclosed, same⟩ | same
  · refine Or.inl ⟨s :: body, star, slash, more, rfl, first, second, ?_, same⟩
    refine isChain_cons.mpr ⟨fun t member => other t ?_, unclosed⟩
    rw [List.head?_append, Option.mem_def.mp member]
    rfl
  · exact Or.inr same

/-- A block comment is skipped up to its end, by induction on the text. -/
theorem skipBlock_ends (start : Position) (text : List Scalar) (p : Position)
    : BlockEnds start text p (skipBlock start text p) := by
  induction text generalizing p with
  | nil =>
    rw [skipBlock]
    exact Or.inr rfl
  | cons s rest ih =>
    unfold skipBlock
    split
    · next star =>
      cases rest with
      | nil => exact Or.inr rfl
      | cons t more =>
        dsimp only
        split
        · next slash => exact Or.inl ⟨[], s, t, more, rfl, star, slash, .nil, rfl⟩
        · next other =>
          refine (ih (p.advance s)).cons fun u first closes => other ?_
          cases first
          exact closes.2
    · next other => exact (ih (p.advance s)).cons fun t _ closes => other closes.1

theorem bytes_eq_utf8EncodeChar (formed : Formed s) (plain : s.char.toNat < 0x80)
    : s.bytes = String.utf8EncodeChar s.char := by
  have spelled : Formed ⟨s.char, String.utf8EncodeChar s.char⟩ := by
    refine formed_decode (String.utf8EncodeChar s.char) _ ?_
    rw [decode, ← append_nil (String.utf8EncodeChar s.char), decodeAfter_utf8EncodeChar,
      append_nil]
    exact mem_cons_self
  exact (formed.bytes_eq plain).trans (spelled.bytes_eq plain).symm

variable {text : List Scalar}

theorem toBytes_spelling (formed : ∀ s ∈ text, Formed s) (plain : ∀ s ∈ text, s.char.toNat < 0x80)
    : toBytes (spelling text) = text.flatMap (·.bytes) := by
  rw [toBytes_eq, spelling, String.toList_ofList, flatMap_map]
  exact flatMap_congr fun s member =>
    (bytes_eq_utf8EncodeChar (formed s member) (plain s member)).symm

theorem bytes_pair (formed : Formed s) (formed' : Formed t) (plain : s.char.toNat < 0x80)
    (plain' : t.char.toNat < 0x80)
    : s.bytes ++ t.bytes = toBytes (String.ofList [s.char, t.char]) := by
  have spelled := @toBytes_spelling [s, t] (by simp [formed, formed']) (by simp [plain, plain'])
  rw [flatMap_cons, flatMap_singleton] at spelled
  exact spelled.symm

variable {body : List Scalar}

section

variable (formed : ∀ s ∈ body, Formed s)
include formed

/-- A star and a slash stand one behind the other in the bytes of a text only where they do so in its
scalars, by induction on the scalars.
-/
theorem isChain_bytes (unclosed : Unclosed body)
    : (body.flatMap (·.bytes)).IsChain fun a b => ¬ (a = 0x2A ∧ b = 0x2F) := by
  induction body with
  | nil => exact .nil
  | cons s rest ih =>
    obtain ⟨here, later⟩ := forall_mem_cons.mp formed
    obtain ⟨first, unclosedRest⟩ := isChain_cons.mp unclosed
    rw [flatMap_cons]
    refine isChain_append.mpr ⟨?_, ih later unclosedRest, ?_⟩
    · by_cases plain : s.char.toNat < 0x80
      · rw [here.bytes_eq plain]
        exact .singleton _
      · have large := here.large (Nat.not_lt.mp plain)
        refine List.Pairwise.isChain (pairwise_of_forall_mem_list ?_)
        rintro a member b - ⟨rfl, -⟩
        exact absurd (large _ member) (by decide)
    · rintro a last b next ⟨rfl, rfl⟩
      have star : s.char = '*' :=
        (here.mem_bytes_iff (c := '*') (by decide)).mp (mem_of_getLast? last)
      cases rest with
      | nil => cases next
      | cons t more =>
        have formedNext := later t mem_cons_self
        rw [flatMap_cons, List.head?_append_of_ne_nil _ formedNext.bytes_ne_nil] at next
        have slash : t.char = '/' :=
          (formedNext.mem_bytes_iff (c := '/') (by decide)).mp (mem_of_head? next)
        exact first t rfl ⟨star, slash⟩

theorem not_infix_of_unclosed (unclosed : Unclosed body)
    : ¬ toBytes "*/" <:+: body.flatMap (·.bytes) := by
  have spelled : toBytes "*/" = [0x2A, 0x2F] := by
    rw [toBytes_eq]
    rfl
  intro closed
  rw [spelled] at closed
  have chain := List.IsChain.infix (isChain_bytes formed unclosed) closed
  exact (isChain_cons_cons.mp chain).1 ⟨rfl, rfl⟩

theorem newline_not_mem (unended : ∀ s ∈ body, s.char ≠ '\n') : 0x0A ∉ body.flatMap (·.bytes) := by
  intro member
  obtain ⟨s, inside, here⟩ := mem_flatMap.mp member
  exact unended s inside ((newline_mem_iff (formed s inside)).mp here)

end

theorem mem_blanks (formed : Formed s) (blank : isBlank s.char = true)
    : ∃ b ∈ toBytes " \t\n\r", s.bytes = [b] := by
  have spelled : toBytes " \t\n\r" = [0x20, 0x09, 0x0A, 0x0D] := by
    rw [toBytes_eq]
    rfl
  simp only [isBlank, Bool.or_eq_true, decide_eq_true_eq] at blank
  have plain : s.char.toNat < 0x80 := by
    rcases blank with ((space | tab) | newline) | feed
    · rw [space]; decide
    · rw [tab]; decide
    · rw [newline]; decide
    · rw [feed]; decide
  refine ⟨_, ?_, formed.bytes_eq plain⟩
  rw [spelled]
  rcases blank with ((space | tab) | newline) | feed
  · rw [space]; decide
  · rw [tab]; decide
  · rw [newline]; decide
  · rw [feed]; decide

/-- What lies between the start of a text and what is left of it is skipped. A comment that never ends
is left where it starts.
-/
def Gap.Passed (text : List Scalar) (p : Position) : Gap → Prop
  | .clear rest q => ∃ gap, text = gap ++ rest ∧ q = p.advanceAll gap
    ∧ Skipped rest.isEmpty (gap.flatMap (·.bytes))
  | .unterminated start stop => ∃ gap comment, text = gap ++ comment ∧ comment ≠ []
    ∧ start = p.advanceAll gap ∧ stop = p.advanceAll text ∧ Skipped false (gap.flatMap (·.bytes))

theorem Gap.Passed.before (front) (passed : gap.Passed text (p.advanceAll front))
    (skipped : ∀ atEnd rest, Skipped atEnd rest → Skipped atEnd (front.flatMap (·.bytes) ++ rest))
    : gap.Passed (front ++ text) p := by
  cases gap with
  | clear rest q =>
    obtain ⟨gap, rfl, rfl, blank⟩ := passed
    refine ⟨front ++ gap, (append_assoc _ _ _).symm, (advanceAll_append _ _ _).symm, ?_⟩
    rw [flatMap_append]
    exact skipped _ _ blank
  | unterminated start stop =>
    obtain ⟨gap, comment, rfl, some, rfl, rfl, blank⟩ := passed
    refine ⟨front ++ gap, comment, (append_assoc _ _ _).symm, some,
      (advanceAll_append _ _ _).symm, (advanceAll_append _ _ _).symm, ?_⟩
    rw [flatMap_append]
    exact skipped _ _ blank

/-- Behind the two slashes of a line comment only its line and what follows it is skipped. -/
theorem skipLine_passed (formed : ∀ u ∈ text, Formed u)
    (opened : s.bytes ++ t.bytes = toBytes "//")
    (further : ∀ rest q, rest.length < text.length → (∀ u ∈ rest, Formed u) → (skip rest q).Passed rest q)
    : (skipLine text ((p.advance s).advance t)).Passed (s :: t :: text) p := by
  rcases skipLine_eq text ((p.advance s).advance t) with ⟨body, newline, rest, rfl, ends, inside, same⟩ |
    ⟨inside, same⟩
  · obtain ⟨formedBody, formedRest⟩ := forall_mem_append.mp formed
    obtain ⟨formedNewline, formedRest⟩ := forall_mem_cons.mp formedRest
    have split : s :: t :: (body ++ newline :: rest) = (s :: t :: (body ++ [newline])) ++ rest := by simp
    rw [same, split]
    refine (further rest _ (by simp; omega) formedRest).before _ fun atEnd more skipped => ?_
    have bytes : (s :: t :: (body ++ [newline])).flatMap (·.bytes) ++ more
        = toBytes "//" ++ body.flatMap (·.bytes) ++ 0x0A :: more := by
      simp [← opened, bytes_newline formedNewline ends]
    rw [bytes]
    exact .line (newline_not_mem formedBody inside) skipped
  · rw [same]
    refine ⟨s :: t :: text, (append_nil _).symm, rfl, ?_⟩
    rw [flatMap_cons, flatMap_cons, ← append_assoc, opened]
    exact .last rfl (newline_not_mem formed inside)

/-- Behind the slash and the star of a block comment only its body and what follows it is skipped. -/
theorem skipBlock_passed (formed : ∀ u ∈ text, Formed u)
    (opened : s.bytes ++ t.bytes = toBytes "/*")
    (further : ∀ rest q, rest.length < text.length → (∀ u ∈ rest, Formed u) → (skip rest q).Passed rest q)
    : (skipBlock p text ((p.advance s).advance t)).Passed (s :: t :: text) p := by
  rcases skipBlock_ends p text ((p.advance s).advance t) with
    ⟨body, star, slash, rest, rfl, first, second, unclosed, same⟩ | same
  · obtain ⟨formedBody, formedRest⟩ := forall_mem_append.mp formed
    obtain ⟨formedStar, formedRest⟩ := forall_mem_cons.mp formedRest
    obtain ⟨formedSlash, formedRest⟩ := forall_mem_cons.mp formedRest
    have closed : star.bytes ++ slash.bytes = toBytes "*/" := by
      rw [bytes_pair formedStar formedSlash (by rw [first]; decide) (by rw [second]; decide), first, second]
    have split : s :: t :: (body ++ star :: slash :: rest)
        = (s :: t :: (body ++ [star, slash])) ++ rest := by simp
    rw [same, split]
    refine (further rest _ (by simp; omega) formedRest).before _ fun atEnd more skipped => ?_
    have bytes : (s :: t :: (body ++ [star, slash])).flatMap (·.bytes) ++ more
        = toBytes "/*" ++ body.flatMap (·.bytes) ++ toBytes "*/" ++ more := by
      simp [← opened, ← closed]
    rw [bytes]
    exact .block (not_infix_of_unclosed formedBody unclosed) skipped
  · rw [same]
    exact ⟨[], s :: t :: text, rfl, cons_ne_nil _ _, rfl, rfl, .nil⟩

/-- Only blanks and comments are skipped, by induction on the length of the text. -/
theorem skip_passed (text : List Scalar) (p : Position) (formed : ∀ s ∈ text, Formed s)
    : (skip text p).Passed text p := by
  induction size : text.length using Nat.strong_induction_on generalizing text p with
  | h size ih =>
    subst size
    have further (rest : List Scalar) (q : Position) (shorter : rest.length < text.length)
        (formed : ∀ s ∈ rest, Formed s)
        : (skip rest q).Passed rest q :=
      ih rest.length shorter rest q formed rfl
    cases text with
    | nil => exact ⟨[], rfl, rfl, .nil⟩
    | cons s rest =>
      obtain ⟨formedFirst, formedRest⟩ := forall_mem_cons.mp formed
      rw [length_cons] at further
      have stays : (Gap.clear (s :: rest) p).Passed (s :: rest) p := ⟨[], rfl, rfl, .nil⟩
      unfold skip
      split
      · next blank =>
        have passed := further rest (p.advance s) (Nat.lt_succ_self _) formedRest
        refine passed.before [s] fun atEnd more skipped => ?_
        obtain ⟨b, space, bytes⟩ := mem_blanks formedFirst blank
        rw [flatMap_singleton, bytes]
        exact .blank space skipped
      · split
        · next slash =>
          cases rest with
          | nil => exact stays
          | cons t more =>
            obtain ⟨formedSecond, formedMore⟩ := forall_mem_cons.mp formedRest
            rw [length_cons] at further
            have plain : s.char.toNat < 0x80 := by rw [slash]; decide
            dsimp only
            split
            · next line =>
              refine skipLine_passed formedMore ?_ fun rest q less => further rest q (by omega)
              rw [bytes_pair formedFirst formedSecond plain (by rw [line]; decide), slash, line]
            · split
              · next block =>
                refine skipBlock_passed formedMore ?_ fun rest q less =>
                  further rest q (by omega)
                rw [bytes_pair formedFirst formedSecond plain (by rw [block]; decide), slash,
                  block]
              · exact stays
        · exact stays

end MapAlgebra.Lexeme
