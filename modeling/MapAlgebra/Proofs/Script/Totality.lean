import MapAlgebra.Proofs.Script.Lossless
import MapAlgebra.Proofs.Script.Reports

/-! Parsing comes to an end, whatever the text is. Every round of a loop over statements takes a token,
also where a statement is malformed, so that the fuel of the parser is never used up. What comes out is
a script, or the problems of the text in the order of their places.
-/

namespace MapAlgebra

open List

namespace Parse

variable {α : Type} {c c1 : Cursor} {depth fuel fuel' : Nat} {parser parser' : StmtParser}

/-- A cursor comes to another behind a token at least. -/
structure TakesToken (c c1 : Cursor) : Prop extends Follows c c1 where
  shorter : c1.rest.length < c.rest.length

theorem Inside.self (depth c) : Inside [] c.stop depth c c :=
  ⟨(append_nil _).symm, rfl, Or.inl ⟨rfl, rfl⟩⟩

section

variable (enough : c.rest.length < fuel)
include enough

theorem statement_matches_self (enough' : c.rest.length < fuel')
    : Matches [] c.stop 0 c c ((statement fuel c).value.isSome = true) (statement fuel c)
        (statement fuel' c) :=
  statement_matches (by decide) enough enough' 0 c c (.self 0 c) (.self c) (Nat.lt_succ_self _)

/-- A statement takes a token, unless a block or the script ends ahead. -/
theorem statement_takes (inner : c.kind ≠ .rightBrace) (more : c.kind ≠ .eof)
    : TakesToken c (statement fuel c).cursor where
  toFollows := (statement_reported fuel c enough).follows
  shorter := (statement_matches_self enough enough).shorter inner more

theorem topStatement_takes (more : c.kind ≠ .eof)
    : TakesToken c (topStatement (statement fuel) c).cursor := by
  unfold topStatement
  split
  · exact ⟨.advance c, Cursor.length_advance more⟩
  · next inner => exact statement_takes enough inner more

end

/-- Runs from one cursor that match are the same if they come to the same script. -/
theorem Matches.eq {took} {outcome outcome' : Outcome α}
    (outcomes : Matches [] c.stop depth c c took outcome outcome') (reported : outcome.Reported c)
    (reported' : outcome'.Reported c)
    : outcome' = outcome := by
  obtain ⟨value, problems, last, rest, stop⟩ := outcome
  obtain ⟨value', problems', last', rest', stop'⟩ := outcome'
  cases outcomes.value
  cases outcomes.problems
  cases outcomes.last (Or.inr rfl)
  cases outcomes.inside.rest.trans (append_nil rest)
  cases reported.follows.ends.trans reported'.follows.ends.symm
  rfl

theorem statement_same (enough : c.rest.length < fuel) (enough' : c.rest.length < fuel')
    : statement fuel' c = statement fuel c :=
  (statement_matches_self enough enough').eq (statement_reported fuel c enough)
    (statement_reported fuel' c enough')

theorem optionalInit_same (enough : c.rest.length < fuel) (enough' : c.rest.length < fuel')
    : optionalInit fuel' c = optionalInit fuel c := by
  unfold optionalInit
  split
  · next starts =>
    have outcomes := initBlock_matches (by decide) (.self 0 c) (.self c) starts enough enough'
    exact outcomes.eq (initBlock_reported enough) (initBlock_reported enough')
  · rfl

/-- The statements of a script are parsed up to its end, and fuel for all tokens is never used up, by
induction on the fuel.
-/
theorem toplevel_ends {bound bound'} (enough : c.rest.length < bound)
    (enough' : c.rest.length < bound') (room : c.rest.length < fuel) (room' : c.rest.length < fuel')
    : toplevel (statement bound') fuel' c = toplevel (statement bound) fuel c
      ∧ (toplevel (statement bound) fuel c).cursor.kind = .eof := by
  induction fuel generalizing fuel' c with
  | zero => omega
  | succ fuel ih =>
    by_cases ended : c.kind = .eof
    · rw [toplevel_ended ended, toplevel_ended ended]
      exact ⟨rfl, ended⟩
    · obtain ⟨fuel', rfl⟩ : ∃ n, fuel' = n + 1 := ⟨fuel' - 1, by omega⟩
      have shorter := (topStatement_takes enough ended).shorter
      have same : topStatement (statement bound') c = topStatement (statement bound) c := by
        rw [topStatement, topStatement, statement_same enough enough']
      obtain ⟨more, ends⟩ := ih (c := (topStatement (statement bound) c).cursor) (by omega)
        (by omega) (by omega) (show _ < fuel' by omega)
      rw [toplevel_succ ended, toplevel_succ ended, same, more]
      exact ⟨rfl, ends⟩

/-- A whole script, parsed with so much fuel. -/
def programWithin (fuel : Nat) (c : Cursor) : Outcome Program :=
  let init := optionalInit fuel c
  let body := toplevel (statement fuel) fuel init.cursor
  { value :=
      { span := { start := c.current.pos, stop := body.cursor.current.pos }
        init := init.value, body := body.value }
    problems := init.problems ++ body.problems
    cursor := body.cursor }

theorem program_eq (c) : program c = programWithin (c.rest.length + 1) c := rfl

/-- A script is parsed up to its end, and fuel for all tokens is never used up. -/
theorem programWithin_ends (enough : c.rest.length < fuel)
    : programWithin fuel c = program c ∧ (program c).cursor.kind = .eof := by
  have least : c.rest.length < c.rest.length + 1 := Nat.lt_succ_self _
  have init := (optionalInit_reported least).follows.length_le
  obtain ⟨same, ends⟩ := toplevel_ends (Nat.lt_of_le_of_lt init least) (Nat.lt_of_le_of_lt init enough)
    (Nat.lt_of_le_of_lt init least) (Nat.lt_of_le_of_lt init enough)
  rw [program_eq, programWithin, programWithin, optionalInit_same least enough, same]
  exact ⟨rfl, ends⟩

end Parse

open Parse

/-- A text, split into tokens and parsed with so much fuel. -/
def parseWithin (fuel : Nat) (source : Bytes) : Except Problems Script :=
  let (tokens, stop) := Lexeme.scanFrom fuel (scriptText source) .start
  let outcome := programWithin fuel { last := .none, rest := tokens, stop }
  if outcome.problems.isEmpty then .ok { source, program := outcome.value }
  else .error outcome.problems

theorem length_scriptText_le (source) : (scriptText source).length ≤ source.length :=
  Nat.le_trans (Scalar.length_decodeAfter_le 0 _) (List.takeWhile_prefix _).length_le

theorem parseWithin_eq {fuel} (source) (enough : source.length < fuel)
    : parseWithin fuel source = parse source := by
  have yields := Lexeme.scanFrom_yields .start (Scalar.formed_decode _)
    (Nat.lt_of_le_of_lt (length_scriptText_le source) enough)
  obtain ⟨tokens, last⟩ := append_inj' (yields.unique (laid_allTokens source).1) rfl
  have same : Lexeme.scanFrom fuel (scriptText source) .start = scan source :=
    Prod.ext tokens (congrArg Token.pos (singleton_inj.mp last))
  have fewer : (scan source).1.length < fuel := by
    have length := (tiled_allTokens source).length_le
    rw [allTokens, length_append] at length
    have inside := (List.takeWhile_prefix (p := (· != 0)) (l := source)).length_le
    simp only [length_singleton] at length
    omega
  unfold parseWithin parse parseTokens
  dsimp only
  rw [same, (programWithin_ends fewer).1]

theorem scan_ordered (source)
    : Lexeme.Ordered 0 (scan source).1 (scan source).2 ∧ (scan source).2.offset ≤ source.length := by
  have tiled := tiled_allTokens source
  exact ⟨.of_pairwise tiled.ordered.1 (tiled.ordered.2.imp fun before => Nat.le_of_lt before.1),
    offset_scan source ▸ (List.takeWhile_prefix _).length_le⟩

theorem parse_eq_error {source problems} (parsed : parse source = .error problems)
    : problems = (parseTokens (scan source).1 (scan source).2).problems ∧ problems ≠ [] := by
  rw [parse] at parsed
  dsimp only at parsed
  split at parsed
  · cases parsed
  · next unclean =>
    cases parsed
    exact ⟨rfl, fun clean => unclean (isEmpty_iff.mpr clean)⟩

/-- Every text is parsed up to its end. Each round of the loops over statements takes a token, so that
fuel for all bytes of the text is never used up. The text is a script, or it has problems. These are
errors of the syntax, and they stand in order within the text.
-/
theorem parse_total (source : Bytes)
    : (∀ fuel, source.length < fuel → parseWithin fuel source = parse source)
      ∧ (parseTokens (scan source).1 (scan source).2).cursor.kind = .eof
      ∧ (∀ fuel c, c.rest.length < fuel → c.kind ≠ .eof
        → TakesToken c (topStatement (statement fuel) c).cursor
          ∧ (c.kind ≠ .rightBrace → TakesToken c (statement fuel c).cursor))
      ∧ ((∃ script, parse source = .ok script)
        ∨ ∃ problems, parse source = .error problems ∧ problems ≠ []
          ∧ InOrder 0 source.length problems) := by
  refine ⟨fun fuel => parseWithin_eq source, (programWithin_ends (Nat.lt_succ_self _)).2,
    fun fuel c enough more =>
      ⟨topStatement_takes enough more, fun inner => statement_takes enough inner more⟩, ?_⟩
  cases parsed : parse source with
  | ok script => exact Or.inl ⟨script, rfl⟩
  | error problems =>
    obtain ⟨found, some⟩ := parse_eq_error parsed
    obtain ⟨ordered, ends⟩ := scan_ordered source
    obtain ⟨errors, bounds, inOrder⟩ :=
      (program_reported ⟨.none, (scan source).1, (scan source).2⟩).inOrder ordered
    rw [found] at some ⊢
    exact Or.inr ⟨_, rfl, some, errors,
      fun p member => ⟨Nat.zero_le _, Nat.le_trans (bounds p member).2 ends⟩, inOrder⟩

/-- A brace that closes nothing, a condition that is not closed, a byte that spells no character, an
init block in a block, a comment and a block that never end.
-/
def malformed : Bytes :=
  Text.toBytes "\x7d if (x \x7b y = ; \x7d " ++ 0xFF :: Text.toBytes " z w; \x7b init; /* "

theorem parse_total_malformed
    : ∃ problems, (∀ fuel, 36 < fuel → parseWithin fuel malformed = .error problems)
      ∧ problems.map (·.span.start.offset) = [0, 8, 18, 27, 33, 36]
      ∧ InOrder 0 36 problems := by
  have length : malformed.length = 36 := by decide +kernel
  have refused : (parse malformed).isOk = false := by decide +kernel
  obtain ⟨same, -, -, parsed⟩ := parse_total malformed
  rw [length] at same parsed
  rcases parsed with ⟨script, parsed⟩ | ⟨problems, parsed, -, inOrder⟩
  · rw [parsed] at refused
    cases refused
  · refine ⟨problems, fun fuel enough => (same fuel enough).trans parsed, ?_, inOrder⟩
    rw [(parse_eq_error parsed).1]
    decide +kernel

end MapAlgebra
