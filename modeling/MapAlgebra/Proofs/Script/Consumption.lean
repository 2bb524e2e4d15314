import MapAlgebra.Proofs.Script.Parser

/-! How much of a text a script is. Parsing goes on up to the end of the tokens, and what lies between
them is blanks and comments. A zero byte ends a text, so that nothing behind it is looked at.
-/

namespace MapAlgebra

open Parse Grammar Lexeme

theorem span_stop_parseTokens {tokens} (stop) (unended : ∀ t ∈ tokens, t.kind ≠ .eof)
    : (parseTokens tokens stop).value.span.stop = stop := by
  have ended := (programWithin_ends (c := ⟨.none, tokens, stop⟩) (Nat.lt_succ_self _)).2
  have follows := (program_reported ⟨.none, tokens, stop⟩).follows
  change (program ⟨.none, tokens, stop⟩).cursor.current.pos = stop
  generalize (program ⟨.none, tokens, stop⟩).cursor = c at ended follows
  rw [Cursor.kind, Cursor.current] at ended
  rw [Cursor.current]
  cases left : c.rest with
  | nil => exact follows.ends
  | cons t more =>
    rw [left] at ended
    have member : t ∈ tokens := follows.rest.subset (by rw [left]; exact List.mem_cons_self)
    exact absurd ended (unended t member)

/-- The tokens of a script derive its tree, and none of them is an error. -/
theorem derives_of_parse {source script} (parsed : parse source = .ok script)
    : Derives Reads (scan source).1 script.program.bare
      ∧ ∀ t ∈ allTokens source, t.kind ≠ .error := by
  obtain ⟨clean, rfl⟩ := parse_eq_ok_iff.mp parsed
  have derives := program_sound (c := ⟨.none, (scan source).1, (scan source).2⟩)
    (fun t member => (scan_spelled source t member).1) clean
  refine ⟨derives, List.forall_mem_append.mpr ⟨fun t member => (derives.proper t member).1, ?_⟩⟩
  exact List.forall_mem_singleton.mpr (by rintro ⟨⟩)

theorem length_takeWhile_eq_iff (source : Bytes)
    : (source.takeWhile (· != 0)).length = source.length ↔ 0 ∉ source := by
  constructor
  · intro whole zero
    have same := (List.takeWhile_prefix (· != 0)).eq_of_length whole
    exact absurd (List.takeWhile_eq_self_iff.mp same 0 zero) (by decide)
  · intro textual
    rw [takeWhile_of_not_mem textual]

/-- A script is parsed up to the first zero byte of its text, which is all of the text just if there is
no such byte. In front of it nothing is left out: its tree derives from all tokens, and only blanks and
comments stand between these, in front of the first and behind the last.
-/
theorem parse_consumes {source : Bytes} {script : Script} (parsed : parse source = .ok script)
    : script.program.span.stop.offset = (source.takeWhile (· != 0)).length
      ∧ (script.program.span.stop.offset = source.length ↔ 0 ∉ source)
      ∧ Derives Reads (scan source).1 script.program.bare
      ∧ Separated (source.takeWhile (· != 0)) 0 (allTokens source) := by
  obtain ⟨derives, sound⟩ := derives_of_parse parsed
  have stop : script.program.span.stop.offset = (source.takeWhile (· != 0)).length := by
    obtain ⟨-, rfl⟩ := parse_eq_ok_iff.mp parsed
    rw [span_stop_parseTokens _ fun t member => (scan_spelled source t member).1, offset_scan]
  refine ⟨stop, ?_, derives, (tiled_allTokens source).separated rfl sound⟩
  rw [stop]
  exact length_takeWhile_eq_iff source

theorem exists_parsed {source} {p : Script → Bool} (accepted : (parse source).toOption.any p = true)
    : ∃ script, parse source = .ok script ∧ p script = true := by
  cases parsed : parse source with
  | error problems =>
    rw [parsed] at accepted
    cases accepted
  | ok script =>
    rw [parsed] at accepted
    exact ⟨script, rfl, accepted⟩

/-- A script with a comment that the end of the text closes. -/
def annotated : Bytes := Text.toBytes "init \x7b k = 2; \x7d out = k; // twice"

theorem parse_consumes_annotated
    : ∃ script, parse annotated = .ok script ∧ 0 ∉ annotated
      ∧ script.program.span.stop.offset = 33 ∧ Separated annotated 0 (allTokens annotated) := by
  have accepted : (parse annotated).toOption.any (fun _ => true) = true := by decide +kernel
  have textual : 0 ∉ annotated := by decide +kernel
  have length : annotated.length = 33 := by decide +kernel
  obtain ⟨script, parsed, -⟩ := exists_parsed accepted
  obtain ⟨-, whole, -, separated⟩ := parse_consumes parsed
  rw [takeWhile_of_not_mem textual] at separated
  exact ⟨script, parsed, textual, (whole.mpr textual).trans length, separated⟩

/-- A script, a zero byte and what is no part of a script. -/
def truncated : Bytes := Text.toBytes "out = 1;" ++ 0 :: Text.toBytes "garbage"

theorem truncated_ignored
    : ∃ script, parse truncated = .ok script
      ∧ script.program.span.stop.offset = 8 ∧ truncated.length = 16 := by
  have accepted : (parse truncated).toOption.any (·.program.span.stop.offset == 8) = true := by
    decide +kernel
  obtain ⟨script, parsed, stop⟩ := exists_parsed accepted
  exact ⟨script, parsed, eq_of_beq stop, by decide +kernel⟩

end MapAlgebra
