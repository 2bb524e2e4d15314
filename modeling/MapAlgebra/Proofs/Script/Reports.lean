import MapAlgebra.Proofs.Script.Composition
import MapAlgebra.Proofs.Script.Places

/-! Where problems are reported. The parser only moves forward, also where it recovers from a problem,
and reports each problem at the token ahead. So the problems of a script stand in the order of its
tokens.
-/

namespace MapAlgebra.Parse

open Lexeme (Ordered)
open List

variable {α : Type} {c c1 c2 : Cursor} {fuel bound low : Nat} {parser : StmtParser}

/-- A cursor comes to another behind tokens of any kind. -/
structure Follows (c c1 : Cursor) : Prop where
  rest : c1.rest <:+ c.rest
  ends : c1.stop = c.stop

namespace Follows

theorem refl (c) : Follows c c :=
  ⟨suffix_refl _, rfl⟩

theorem trans (first : Follows c c1) (second : Follows c1 c2) : Follows c c2 :=
  ⟨second.rest.trans first.rest, second.ends.trans first.ends⟩

theorem length_le (follows : Follows c c1) : c1.rest.length ≤ c.rest.length :=
  follows.rest.length_le

theorem of_reaches (reaches : Reaches c c1) : Follows c c1 := by
  obtain ⟨taken, rest, -, ends⟩ := reaches
  exact ⟨⟨taken, rest.symm⟩, ends⟩

theorem advance (c) : Follows c c.advance :=
  ⟨drop_suffix 1 c.rest, rfl⟩

end Follows

/-- Synchronization skips tokens only, by induction on them. -/
theorem synchronize_suffix (depth : Nat) (last : Position) (ts : List Token)
    : (synchronize depth last ts).2 <:+ ts := by
  induction ts generalizing depth last with
  | nil => exact suffix_refl _
  | cons t ts ih =>
    have skipped (depth : Nat) : (synchronize depth t.stop ts).2 <:+ t :: ts :=
      (ih depth t.stop).trans (suffix_cons t ts)
    by_cases plain : isBoundary t.kind = false
    · rw [synchronize_plain plain]
      exact skipped depth
    · rcases boundary_cases plain with semicolon | opens | closes
      · rw [synchronize_semicolon semicolon]
        split
        · exact suffix_cons t ts
        · exact skipped depth
      · rw [synchronize_leftBrace opens]
        exact skipped (depth + 1)
      · match depth with
        | 0 => rw [(synchronize_rightBrace (k := 0) closes).1]
        | 1 =>
          rw [(synchronize_rightBrace (k := 0) closes).2.1]
          exact suffix_cons t ts
        | depth + 2 =>
          rw [(synchronize_rightBrace closes).2.2]
          exact skipped (depth + 1)

theorem Follows.synchronized (c) : Follows c c.synchronized :=
  ⟨synchronize_suffix 0 c.last c.rest, rfl⟩

/-- The problems that are found on the way from one cursor to another. Each of them is reported at the
token ahead of a place on the way, in the order of these places.
-/
inductive Reports : Cursor → Problems → Cursor → Prop where
  | none {c c1 : Cursor} (follows : Follows c c1) : Reports c [] c1
  | problem {c c1 c2 : Cursor} {problems} (fault : SyntaxFault) (follows : Follows c c1)
    (later : Reports c1 problems c2)
    : Reports c (problem fault c1 :: problems) c2

namespace Reports

variable {problems more : Problems}

theorem before (follows : Follows c c1) (reports : Reports c1 problems c2)
    : Reports c problems c2 := by
  cases reports with
  | none behind => exact .none (follows.trans behind)
  | problem fault behind later => exact .problem fault (follows.trans behind) later

/-- What is found later is reported later, by induction on what is found first. -/
theorem append (first : Reports c problems c1) (second : Reports c1 more c2)
    : Reports c (problems ++ more) c2 := by
  induction first with
  | none follows => exact second.before follows
  | problem fault follows _ ih => exact .problem fault follows (ih second)

theorem follows (reports : Reports c problems c1) : Follows c c1 := by
  induction reports with
  | none follows => exact follows
  | problem fault follows _ ih => exact follows.trans ih

theorem single (fault) (behind : Follows c c1) : Reports c [Parse.problem fault c] c1 :=
  .problem fault (.refl c) (.none behind)

end Reports

/-- An outcome reports its problems on the way to its cursor. -/
def Outcome.Reported (c : Cursor) (outcome : Outcome α) : Prop :=
  Reports c outcome.problems outcome.cursor

/-- A parser reports the problems it finds wherever fewer than some number of tokens are ahead. -/
def ReportsBelow (bound : Nat) (parser : StmtParser) : Prop :=
  ∀ c, c.rest.length < bound → (parser c).Reported c

theorem recover_reported (value : α) (fault c) : (recover value fault c).Reported c :=
  .single fault (.synchronized c)

theorem Extended.self (c) : Extended [] c.stop c c :=
  ⟨(append_nil _).symm, rfl, Or.inl ⟨rfl, rfl⟩⟩

/-- An expression, or a fault in it, is behind tokens of the script. -/
theorem orRecover_reported {parsed : Parsed Expr} {next : Expr → Cursor → Outcome (Option Stmt)}
    (concur : Concur [] c.stop c c parsed parsed)
    (goesOn : ∀ e c1, Reaches c c1 → (next e c1).Reported c1)
    : (parsed.orRecover next).Reported c := by
  cases concur with
  | fail reaches _ _ => exact .before (.of_reaches reaches) (recover_reported none _ _)
  | ok reaches _ _ => exact .before (.of_reaches reaches) (goesOn _ _ reaches)

theorem exprStatement_reported (enough : c.rest.length < fuel)
    : (exprStatement fuel c).Reported c := by
  have concur := expression_concur enough enough c c (.self c) (Nat.lt_succ_self _)
  refine orRecover_reported concur fun e c1 _ => ?_
  split
  · exact .none (.advance c1)
  · exact recover_reported none _ c1

section

variable (reports : ReportsBelow bound parser)
include reports

theorem statements_reported (fuel) (small : c.rest.length < bound)
    : (statements parser fuel c).Reported c := by
  induction fuel generalizing c with
  | zero => exact .none (.refl c)
  | succ fuel ih =>
    unfold statements
    split
    · exact .none (.refl c)
    · have first := reports c small
      exact first.append (ih (Nat.lt_of_le_of_lt first.follows.length_le small))

theorem block_reported (fuel) (small : c.advance.rest.length < bound)
    : (block parser fuel c).Reported c := by
  have body := (statements_reported reports fuel small).before (.advance c)
  unfold block Outcome.Reported
  dsimp only
  split
  · exact append_nil (statements parser fuel c.advance).problems ▸
      body.append (.none (.advance _))
  · exact body.append (.single _ (.refl _))

theorem branch_reported (small : c.rest.length < bound)
    : (branch parser c).Reported c := by
  unfold branch
  split
  · exact .none (.advance c)
  · exact reports c small

theorem afterBranch_reported {start : Position} {test : Expr} {yes} (small : c.rest.length < bound)
    (first : yes.Reported c)
    : (afterBranch parser start test yes).Reported c := by
  unfold afterBranch
  split
  · exact first
  · split
    · have behind := first.follows.trans (.advance yes.cursor)
      have second := branch_reported reports (Nat.lt_of_le_of_lt behind.length_le small)
      exact first.append (second.before (.advance yes.cursor))
    · exact first

theorem conditional_reported (small : c.advance.rest.length < bound)
    (enough : c.advance.rest.length < fuel + 1)
    : (conditional parser fuel c).Reported c := by
  rw [conditional_eq]
  refine .before (.advance c) (orRecover_reported
    (condition_concur "if" (.self c.advance) enough enough) fun test c1 reaches => ?_)
  have small := Nat.lt_of_le_of_lt reaches.length_le small
  exact afterBranch_reported reports small (branch_reported reports small)

theorem loop_reported (small : c.advance.rest.length < bound)
    (enough : c.advance.rest.length < fuel + 1)
    : (loop parser fuel c).Reported c := by
  rw [loop_eq]
  refine .before (.advance c) (orRecover_reported
    (condition_concur "while" (.self c.advance) enough enough) fun test c1 reaches => ?_)
  exact branch_reported reports (Nat.lt_of_le_of_lt reaches.length_le small)

end

theorem statement_reported (fuel) : ReportsBelow fuel (statement fuel) := by
  induction fuel with
  | zero => exact fun c small => absurd small (Nat.not_lt_zero _)
  | succ fuel ih =>
    intro c small
    have behind (more : c.kind ≠ .eof) : c.advance.rest.length < fuel :=
      Nat.lt_of_lt_of_le (Cursor.length_advance more) (Nat.le_of_lt_succ small)
    unfold statement
    split
    · next opens => exact block_reported ih fuel (behind (by rw [opens]; decide))
    · next starts =>
      have inner := behind (by rw [starts]; decide)
      exact conditional_reported ih inner (Nat.lt_succ_of_lt inner)
    · next starts =>
      have inner := behind (by rw [starts]; decide)
      exact loop_reported ih inner (Nat.lt_succ_of_lt inner)
    · exact .none (.advance c)
    · exact recover_reported none _ c
    · exact exprStatement_reported small

theorem topStatement_reported (reports : ReportsBelow bound parser) (small : c.rest.length < bound)
    : (topStatement parser c).Reported c := by
  unfold topStatement
  split
  · exact .single _ (.advance c)
  · exact reports c small

theorem toplevel_reported (reports : ReportsBelow bound parser) (fuel)
    (small : c.rest.length < bound)
    : (toplevel parser fuel c).Reported c := by
  induction fuel generalizing c with
  | zero => exact .none (.refl c)
  | succ fuel ih =>
    by_cases ended : c.kind = .eof
    · rw [toplevel_ended ended]
      exact .none (.refl c)
    · have first := topStatement_reported reports small
      rw [toplevel_succ ended]
      exact first.append (ih (Nat.lt_of_le_of_lt first.follows.length_le small))

theorem initBlock_reported (enough : c.rest.length < fuel) : (initBlock fuel c).Reported c := by
  have inner : c.advance.advance.rest.length < fuel :=
    Nat.lt_of_le_of_lt ((Follows.advance c).trans (.advance _)).length_le enough
  refine .before (.advance c) ?_
  unfold initBlock
  dsimp only
  split
  · exact block_reported (statement_reported fuel) fuel inner
  · exact recover_reported none _ c.advance

theorem optionalInit_reported (enough : c.rest.length < fuel) : (optionalInit fuel c).Reported c := by
  unfold optionalInit
  split
  · exact initBlock_reported enough
  · exact .none (.refl c)

theorem program_reported (c) : (program c).Reported c := by
  have init := optionalInit_reported (Nat.lt_succ_self c.rest.length)
  exact init.append (toplevel_reported (statement_reported _) _
    (Nat.lt_succ_of_le init.follows.length_le))

/-- Tokens that are left stand in order, by induction on those that were taken. -/
theorem Follows.ordered (follows : Follows c c1) (ordered : Ordered low c.rest c.stop)
    : Ordered low c1.rest c1.stop := by
  obtain ⟨⟨taken, rest⟩, ends⟩ := follows
  rw [← rest, ← ends] at ordered
  clear rest
  induction taken generalizing low with
  | nil => exact ordered
  | cons t taken ih => exact (ih ordered.2).of_le ordered.1

theorem ordered_current (ordered : Ordered low c.rest c.stop)
    : low ≤ c.current.pos.offset ∧ Ordered c.current.pos.offset c.rest c.stop := by
  unfold Cursor.current
  cases here : c.rest with
  | nil =>
    rw [here] at ordered
    exact ⟨ordered, Nat.le_refl _⟩
  | cons t ts =>
    rw [here] at ordered
    exact ⟨ordered.1, Nat.le_refl _, ordered.2⟩

/-- Problems are errors of the syntax that stand in order between two offsets. -/
structure InOrder (low high : Nat) (problems : Problems) : Prop where
  errors : ∀ p ∈ problems, p.code = .syntaxError ∧ p.severity = .error
  bounds : ∀ p ∈ problems, low ≤ p.span.start.offset ∧ p.span.start.offset ≤ high
  ordered : problems.Pairwise fun p q => p.span.start.offset ≤ q.span.start.offset

/-- Where tokens stand in order, so do the problems, by induction on what is found. -/
theorem Reports.inOrder {problems : Problems} (reports : Reports c problems c1)
    (ordered : Ordered low c.rest c.stop)
    : InOrder low c.stop.offset problems := by
  induction reports generalizing low with
  | none => exact ⟨forall_mem_nil _, forall_mem_nil _, .nil⟩
  | @problem c c1 c2 problems fault follows _ ih =>
    obtain ⟨behind, ordered⟩ := ordered_current (follows.ordered ordered)
    obtain ⟨errors, bounds, later⟩ := ih ordered
    rw [follows.ends] at bounds
    refine ⟨forall_mem_cons.mpr ⟨⟨rfl, rfl⟩, errors⟩,
      forall_mem_cons.mpr ⟨⟨behind, ?_⟩, fun p member => ?_⟩,
      pairwise_cons.mpr ⟨fun p member => (bounds p member).1, later⟩⟩
    · exact follows.ends ▸ ordered.le_stop
    · exact ⟨Nat.le_trans behind (bounds p member).1, (bounds p member).2⟩

end MapAlgebra.Parse
