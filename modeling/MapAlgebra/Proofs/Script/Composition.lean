import MapAlgebra.Proofs.Script.Recovery
import Mathlib.Data.List.Infix

/-! Scripts that stand one behind the other. If the tokens of the first are whole statements, its problems
and its statements do not depend on the second, and those of the second do not depend on the first.
-/

namespace MapAlgebra.Parse

open List

variable {extra : List Token} {stop : Position} {c c' : Cursor} {depth bound fuel fuel' : Nat}
  {parser parser' : StmtParser}

/-- One statement of a script, or a brace that closes nothing. -/
def topStatement (parser : StmtParser) (c : Cursor) : Outcome (Option Stmt) :=
  if c.kind = .rightBrace then
    { value := none, problems := [problem .strayBrace c], cursor := c.advance }
  else parser c

theorem topStatement_matches (parsers : MatchBelow extra stop bound parser parser')
    (inside : Inside extra stop 0 c c') (extended : Extended extra stop c c')
    (more : c.kind ≠ .eof) (small : c.rest.length < bound)
    : Matches extra stop 0 c c' False (topStatement parser c) (topStatement parser' c')
      ∧ (topStatement parser c).cursor.rest.length < c.rest.length := by
  unfold topStatement
  rw [extended.kind]
  split
  · next closes =>
    have shorter := Cursor.length_advance more
    have behind : Inside extra stop 0 c.advance c'.advance := by
      refine inside.advance extended fun t ts same closed => ?_
      obtain ⟨outer, none, -⟩ := closes_rightBrace (same.trans closes) closed
      cases none
    rw [problem, problem, extended.current]
    exact ⟨.taken behind extended.last_advance shorter, shorter⟩
  · next inner =>
    have outcome := parsers 0 c c' inside extended small
    exact ⟨outcome.of_imp False.elim, outcome.shorter inner more⟩

theorem toplevel_succ (more : c.kind ≠ .eof)
    : toplevel parser (fuel + 1) c
      = { value := (topStatement parser c).value.toList
            ++ (toplevel parser fuel (topStatement parser c).cursor).value
          problems := (topStatement parser c).problems
            ++ (toplevel parser fuel (topStatement parser c).cursor).problems
          cursor := (toplevel parser fuel (topStatement parser c).cursor).cursor } := by
  rw [toplevel, if_neg more]
  rfl

theorem toplevel_ended (ended : c.kind = .eof)
    : toplevel parser fuel c = { value := [], problems := [], cursor := c } := by
  cases fuel with
  | zero => rfl
  | succ fuel => rw [toplevel, if_pos ended]

/-- What is found in whole statements comes before what is found in the tokens behind them, by
induction on the fuel.
-/
theorem toplevel_append (parsers : MatchBelow extra stop bound parser parser')
    (inside : Inside extra stop 0 c c') (small : c.rest.length < bound)
    (enough : c.rest.length < fuel) (enough' : c.rest.length + extra.length < fuel')
    : ∃ (last : Position) (left : Nat), extra.length < left
      ∧ (toplevel parser' fuel' c').value = (toplevel parser fuel c).value
        ++ (toplevel parser' left ⟨last, extra, stop⟩).value
      ∧ (toplevel parser' fuel' c').problems = (toplevel parser fuel c).problems
        ++ (toplevel parser' left ⟨last, extra, stop⟩).problems := by
  induction fuel generalizing fuel' c c' with
  | zero => omega
  | succ fuel ih =>
    by_cases ended : c.kind = .eof
    · rw [toplevel_ended ended]
      by_cases alone : extra = [] ∧ c.stop = stop
      · have extended : Extended extra stop c c' := ⟨inside.rest, inside.ends, Or.inl alone⟩
        refine ⟨c'.last, 1, by rw [alone.1]; exact Nat.one_pos, ?_⟩
        rw [toplevel_ended (extended.kind.trans ended), alone.1]
        exact ⟨rfl, rfl⟩
      · have remains := inside.left.resolve_left alone
        have nothing := eq_nil_of_eof remains.unended (c.kind_eq ▸ ended)
        obtain ⟨last, rest, ends⟩ := c'
        obtain ⟨here, same, -⟩ := inside
        rw [nothing, nil_append] at here
        cases here
        cases same
        exact ⟨last, fuel', by omega, rfl, rfl⟩
    · obtain ⟨fuel', rfl⟩ : ∃ n, fuel' = n + 1 := ⟨fuel' - 1, by omega⟩
      have extended := inside.extended (Cursor.rest_eq ended ▸ cons_ne_nil _ _)
      obtain ⟨first, shorter⟩ := topStatement_matches parsers inside extended ended small
      obtain ⟨last, left, room, value, problems⟩ := ih first.inside (by omega) (by omega)
        (show _ < fuel' by omega)
      refine ⟨last, left, room, ?_⟩
      rw [toplevel_succ ended, toplevel_succ (extended.kind ▸ ended), value, problems, first.value,
        first.problems, append_assoc, append_assoc]
      exact ⟨rfl, rfl⟩

/-- The statements of a script depend neither on the fuel, if there is enough, nor on what stands before
the script.
-/
theorem toplevel_same {left} (last last' : Position)
    (parsers : MatchBelow [] stop bound parser parser') (small : extra.length < bound)
    (enough : extra.length < fuel) (enough' : extra.length < left)
    : (toplevel parser' left ⟨last', extra, stop⟩).value = (toplevel parser fuel ⟨last, extra, stop⟩).value
      ∧ (toplevel parser' left ⟨last', extra, stop⟩).problems
        = (toplevel parser fuel ⟨last, extra, stop⟩).problems := by
  have inside : Inside [] stop 0 ⟨last, extra, stop⟩ ⟨last', extra, stop⟩ :=
    ⟨(append_nil extra).symm, rfl, Or.inl ⟨rfl, rfl⟩⟩
  obtain ⟨here, more, -, value, problems⟩ := toplevel_append parsers inside small enough enough'
  have nothing : toplevel parser' more ⟨here, [], stop⟩ = ⟨[], [], ⟨here, [], stop⟩⟩ :=
    toplevel_ended rfl
  rw [nothing, append_nil] at value problems
  exact ⟨value, problems⟩

/-- How many blocks the tokens open. -/
def openings (ts : List Token) : Nat := ts.countP (·.kind = .leftBrace)

/-- How many blocks the tokens close. -/
def closings (ts : List Token) : Nat := ts.countP (·.kind = .rightBrace)

theorem openings_cons (t ts)
    : openings (t :: ts) = openings ts + if t.kind = .leftBrace then 1 else 0 := by
  simp only [openings, countP_cons, decide_eq_true_eq]

theorem closings_cons (t ts)
    : closings (t :: ts) = closings ts + if t.kind = .rightBrace then 1 else 0 := by
  simp only [closings, countP_cons, decide_eq_true_eq]

/-- The tokens are as many statements, as far as braces and the last token tell: nothing is closed
before it is opened, everything is closed, and the last token may end a statement.
-/
structure Whole (ts : List Token) : Prop where
  opened : ∀ before ∈ ts.inits, closings before ≤ openings before
  closed : closings ts = openings ts
  ends : ∃ t ∈ ts.getLast?, t.kind = .semicolon ∨ t.kind = .rightBrace
  unended : ∀ t ∈ ts, t.kind ≠ .eof

/-- Counts of braces tell which blocks are closed, by induction on the tokens. -/
theorem closes_of_counts {ts}
    (opened : ∀ before, before <+: ts → closings before ≤ depth + openings before)
    (closed : closings ts = depth + openings ts)
    : Closes depth ts := by
  induction ts generalizing depth with
  | nil => exact closed.symm
  | cons t ts ih =>
    have behind (before : List Token) (here : before <+: ts) :=
      opened (t :: before) ((prefix_cons_inj t).mpr here)
    simp only [closings_cons, openings_cons] at closed behind
    unfold Closes
    split
    · next opens =>
      have other : t.kind ≠ .rightBrace := by rw [opens]; decide
      simp only [if_pos opens, if_neg other] at closed behind
      refine ih (fun before here => ?_) (by omega)
      have counts := behind before here
      omega
    · next notOpening =>
      simp only [if_neg notOpening] at closed behind
      split
      · next closes =>
        simp only [if_pos closes] at closed behind
        have first : 0 + 1 ≤ depth + (0 + 0) := behind [] nil_prefix
        obtain ⟨outer, rfl⟩ : ∃ outer, depth = outer + 1 := ⟨depth - 1, by omega⟩
        refine ⟨outer, rfl, ih (fun before here => ?_) (by omega)⟩
        have counts := behind before here
        omega
      · next notClosing =>
        simp only [if_neg notClosing] at closed behind
        exact ih behind closed

theorem Whole.remains {ts} (whole : Whole ts)
    : Remains 0 ts where
  closes := closes_of_counts
    (fun before here => Nat.zero_add _ ▸ whole.opened before ((mem_inits _ _).mpr here))
    (whole.closed.trans (Nat.zero_add _).symm)
  ends u last := by
    obtain ⟨t, found, ends⟩ := whole.ends
    cases Option.mem_unique last found
    exact ends
  unended := whole.unended

/-- The init block of a script, if there is one. -/
def optionalInit (fuel : Nat) (c : Cursor) : Outcome (Option InitBlock) :=
  if c.kind = .initWord then initBlock fuel c else { value := none, problems := [], cursor := c }

theorem optionalInit_matches (noElse : headKind extra ≠ .elseWord)
    (inside : Inside extra stop depth c c') (extended : Extended extra stop c c')
    (enough : c.rest.length < fuel) (enough' : c.rest.length < fuel')
    : (optionalInit fuel' c').value = (optionalInit fuel c).value
      ∧ (optionalInit fuel' c').problems = (optionalInit fuel c).problems
      ∧ Inside extra stop depth (optionalInit fuel c).cursor (optionalInit fuel' c').cursor
      ∧ (optionalInit fuel c).cursor.rest.length ≤ c.rest.length := by
  unfold optionalInit
  rw [extended.kind]
  split
  · next starts =>
    have outcome := initBlock_matches noElse inside extended starts enough enough'
    exact ⟨outcome.value, outcome.problems, outcome.inside, outcome.notLonger⟩
  · exact ⟨rfl, rfl, inside, Nat.le_refl _⟩

/-- The statements of a script behind its init block. -/
def statementsOf (c : Cursor) : Outcome (List Stmt) :=
  toplevel (statement (c.rest.length + 1)) (c.rest.length + 1)
    (optionalInit (c.rest.length + 1) c).cursor

theorem parseTokens_parts (tokens stop)
    : (parseTokens tokens stop).problems
        = (optionalInit (tokens.length + 1) ⟨.none, tokens, stop⟩).problems
          ++ (statementsOf ⟨.none, tokens, stop⟩).problems
      ∧ (parseTokens tokens stop).value.body = (statementsOf ⟨.none, tokens, stop⟩).value
      ∧ (parseTokens tokens stop).value.init
        = (optionalInit (tokens.length + 1) ⟨.none, tokens, stop⟩).value :=
  ⟨rfl, rfl, rfl⟩

end MapAlgebra.Parse

namespace MapAlgebra

open Parse

/-- What is found in whole statements and in what follows them is found in each by itself. Problems
and statements of the first come before those of the second, and neither depends on the other.
-/
theorem parseTokens_append {first second : List Token} (whole : Whole first)
    (noElse : headKind second ≠ .elseWord) (noInit : headKind second ≠ .initWord)
    (stop stop' : Position)
    : (parseTokens (first ++ second) stop).problems
        = (parseTokens first stop').problems ++ (parseTokens second stop).problems
      ∧ (parseTokens (first ++ second) stop).value.body
        = (parseTokens first stop').value.body ++ (parseTokens second stop).value.body
      ∧ (parseTokens (first ++ second) stop).value.init = (parseTokens first stop').value.init
      ∧ (parseTokens second stop).value.init = none := by
  have inside : Inside second stop 0 ⟨.none, first, stop'⟩ ⟨.none, first ++ second, stop⟩ :=
    ⟨rfl, rfl, Or.inr whole.remains⟩
  have more : first ≠ [] := by
    obtain ⟨t, last, -⟩ := whole.ends
    rintro rfl
    cases last
  have length : (first ++ second).length = first.length + second.length := List.length_append
  obtain ⟨init, initProblems, behind, notLonger⟩ := optionalInit_matches noElse inside
    (inside.extended more) (Nat.lt_succ_self _)
    (show first.length < (first ++ second).length + 1 by omega)
  have parsers : MatchBelow second stop (first.length + 1) (statement (first.length + 1))
      (statement ((first ++ second).length + 1)) :=
    statement_matches noElse (Nat.le_refl _) (by omega)
  have alone : MatchBelow [] stop (second.length + 1) (statement (second.length + 1))
      (statement ((first ++ second).length + 1)) :=
    statement_matches (by decide) (Nat.le_refl _) (by omega)
  have room : (optionalInit (first.length + 1) ⟨.none, first, stop'⟩).cursor.rest.length + second.length
      < (first ++ second).length + 1 := by
    rw [length]
    exact Nat.lt_succ_of_le (Nat.add_le_add_right notLonger _)
  obtain ⟨last, left, enough, value, problems⟩ := toplevel_append parsers behind
    (Nat.lt_succ_of_le notLonger) (Nat.lt_succ_of_le notLonger) room
  obtain ⟨value', problems'⟩ := toplevel_same .none last alone (Nat.lt_succ_self _)
    (Nat.lt_succ_self _) enough
  have absent : optionalInit (second.length + 1) ⟨.none, second, stop⟩
      = ⟨none, [], ⟨.none, second, stop⟩⟩ := if_neg (by rwa [Cursor.kind_eq])
  obtain ⟨problems1, body1, init1⟩ := parseTokens_parts (first ++ second) stop
  obtain ⟨problems2, body2, init2⟩ := parseTokens_parts first stop'
  obtain ⟨problems3, body3, init3⟩ := parseTokens_parts second stop
  simp only [statementsOf, absent] at problems3 body3 init3
  rw [value'] at value
  rw [problems'] at problems
  refine ⟨?_, ?_, ?_, init3⟩
  · rw [problems1, problems2, problems3, initProblems, List.append_assoc, List.nil_append]
    exact congrArg _ problems
  · rw [body1, body2, body3]
    exact value
  · rw [init1, init2, init]

/-- A condition that is not closed, with a block in it, and two names without an operator. -/
def garbled : List Token := (scan (Text.toBytes "if (a \x7b b = ; \x7d c d;")).1

/-- A brace that closes nothing and an assignment. -/
def stray : List Token := (scan (Text.toBytes "\x7d e = 1;")).1

theorem parseTokens_append_garbled
    : Whole garbled ∧ headKind stray ≠ .elseWord ∧ headKind stray ≠ .initWord
      ∧ (parseTokens (garbled ++ stray) .none).problems
        = (parseTokens garbled .none).problems ++ (parseTokens stray .none).problems
      ∧ (parseTokens garbled .none).problems.length = 2
      ∧ (parseTokens stray .none).problems.length = 1
      ∧ (parseTokens (garbled ++ stray) .none).value.body.length = 1 := by
  have whole : Whole garbled :=
    ⟨by decide +kernel, by decide +kernel, by decide +kernel, by decide +kernel⟩
  have noElse : headKind stray ≠ .elseWord := by decide +kernel
  have noInit : headKind stray ≠ .initWord := by decide +kernel
  obtain ⟨problems, -⟩ := parseTokens_append whole noElse noInit .none .none
  exact ⟨whole, noElse, noInit, problems, by decide +kernel, by decide +kernel, by decide +kernel⟩

end MapAlgebra
