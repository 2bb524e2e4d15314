import MapAlgebra.Proofs.Script.Extension
import Mathlib.Data.List.Basic

/-! Error recovery. Wherever a statement is malformed, the next boundary is in the same block, so that
the blocks of the parser stay in step with the braces. What statements of a balanced sequence of tokens
come to does not depend on what stands behind the sequence.
-/

namespace MapAlgebra.Parse

open Cursor
open List

/-- The tokens close as many blocks as are open, and in between those that they open. -/
def Closes : (depth : Nat) → List Token → Prop
  | depth, [] => depth = 0
  | depth, t :: ts =>
    if t.kind = .leftBrace then Closes (depth + 1) ts
    else if t.kind = .rightBrace then ∃ outer, depth = outer + 1 ∧ Closes outer ts
    else Closes depth ts

/-- What is left of whole statements inside of some blocks. -/
structure Remains (depth : Nat) (ts : List Token) : Prop where
  closes : Closes depth ts
  ends : ∀ t ∈ ts.getLast?, t.kind = .semicolon ∨ t.kind = .rightBrace
  unended : ∀ t ∈ ts, t.kind ≠ .eof

variable {depth inner : Nat} {t : Token} {ts : List Token}

theorem closes_leftBrace (opens : t.kind = .leftBrace) (closes : Closes depth (t :: ts))
    : Closes (depth + 1) ts := by
  rw [Closes, if_pos opens] at closes
  exact closes

theorem closes_rightBrace (ends : t.kind = .rightBrace) (closes : Closes depth (t :: ts))
    : ∃ outer, depth = outer + 1 ∧ Closes outer ts := by
  rw [Closes, if_neg (by rw [ends]; decide), if_pos ends] at closes
  exact closes

theorem closes_other (left : t.kind ≠ .leftBrace) (right : t.kind ≠ .rightBrace)
    (closes : Closes depth (t :: ts))
    : Closes depth ts := by
  rw [Closes, if_neg left, if_neg right] at closes
  exact closes

theorem boundary_cases {kind} (boundary : isBoundary kind ≠ false)
    : kind = .semicolon ∨ kind = .leftBrace ∨ kind = .rightBrace := by
  rw [Bool.ne_false_iff] at boundary
  simpa only [isBoundary, Bool.or_eq_true, decide_eq_true_eq, or_assoc] using boundary

theorem closes_plain (plain : isBoundary t.kind = false) (closes : Closes depth (t :: ts))
    : Closes depth ts := by
  simp only [isBoundary, Bool.or_eq_false_iff, decide_eq_false_iff_not] at plain
  exact closes_other plain.1.2 plain.2 closes

theorem eq_nil_of_eof (unended : ∀ t ∈ ts, t.kind ≠ .eof) (ended : headKind ts = .eof) : ts = [] := by
  cases ts with
  | nil => rfl
  | cons t ts => exact absurd ended (unended t mem_cons_self)

namespace Remains

theorem tail (remains : Remains depth (t :: ts)) (closes : Closes inner ts) : Remains inner ts where
  closes := closes
  ends u last := by
    refine remains.ends u ?_
    rw [List.getLast?_cons, Option.mem_some_iff, Option.mem_def.mp last]
    rfl
  unended := (forall_mem_cons.mp remains.unended).2

/-- Statements do not end in a token that is no boundary. -/
theorem tail_ne_nil (remains : Remains depth (t :: ts)) (plain : isBoundary t.kind = false)
    : ts ≠ [] := by
  rintro rfl
  rcases remains.ends t rfl with ends | ends
  · rw [ends] at plain
    cases plain
  · rw [ends] at plain
    cases plain

theorem ne_nil (remains : Remains (depth + 1) ts) : ts ≠ [] := by
  rintro rfl
  cases remains.closes

theorem guarded (remains : Remains depth ts) (more : ts ≠ []) : ∃ t ∈ ts, isBoundary t.kind = true := by
  refine ⟨ts.getLast more, getLast_mem more, ?_⟩
  rcases remains.ends _ (List.getLast?_eq_some_getLast more) with ends | ends
  · rw [ends]
    rfl
  · rw [ends]
    rfl

end Remains

section Synchronize

variable {last last' : Position} {k : Nat} {extra : List Token} {alone : Prop}

theorem synchronize_plain (plain : isBoundary t.kind = false)
    : synchronize k last (t :: ts) = synchronize k t.stop ts := by
  conv_lhs => unfold synchronize
  split
  · next kind => rw [kind] at plain; cases plain
  · next kind => rw [kind] at plain; cases plain
  · next kind => rw [kind] at plain; cases plain
  · rfl

theorem synchronize_leftBrace (opens : t.kind = .leftBrace)
    : synchronize k last (t :: ts) = synchronize (k + 1) t.stop ts := by
  conv_lhs => unfold synchronize
  simp only [opens]

theorem synchronize_semicolon (ends : t.kind = .semicolon)
    : synchronize k last (t :: ts) = if k = 0 then (t.stop, ts) else synchronize k t.stop ts := by
  conv_lhs => unfold synchronize
  simp only [ends]

theorem synchronize_rightBrace (ends : t.kind = .rightBrace)
    : synchronize 0 last (t :: ts) = (last, t :: ts)
      ∧ synchronize 1 last (t :: ts) = (t.stop, ts)
      ∧ synchronize (k + 2) last (t :: ts) = synchronize (k + 1) t.stop ts := by
  refine ⟨?_, ?_, ?_⟩
  all_goals
    conv_lhs => unfold synchronize
    simp only [ends]

/-- Two runs of synchronization, the second with other tokens behind, stop in the same place. Unless
the tokens are alone, this is in the block that the runs started in.
-/
structure Synchronized (alone : Prop) (extra : List Token) (depth : Nat) (last last' : Position)
    (ts : List Token) (found found' : Position × List Token) : Prop where
  rest : found'.2 = found.2 ++ extra
  remains : alone ∨ Remains depth found.2
  last : last = last' → found.1 = found'.1
  notLonger : found.2.length ≤ ts.length
  shorter : headKind ts ≠ .rightBrace → headKind ts ≠ .eof → found.2.length < ts.length

theorem Synchronized.cons {found found'}
    (synchronized : Synchronized alone extra depth t.stop t.stop ts found found')
    : Synchronized alone extra depth last last' (t :: ts) found found' where
  rest := synchronized.rest
  remains := synchronized.remains
  last _ := synchronized.last rfl
  notLonger := Nat.le_succ_of_le synchronized.notLonger
  shorter _ _ := Nat.lt_succ_of_le synchronized.notLonger

theorem Synchronized.one (remains : alone ∨ Remains depth ts)
    : Synchronized alone extra depth last last' (t :: ts) (t.stop, ts) (t.stop, ts ++ extra) where
  rest := rfl
  remains := remains
  last _ := rfl
  notLonger := Nat.le_succ _
  shorter _ _ := Nat.lt_succ_self _

/-- Synchronization stops in the block that it started in, by induction on the tokens. The invariant
counts the blocks around that one and those that were opened on the way.
-/
theorem synchronize_synchronized (none : alone → extra = [])
    (left : alone ∨ Remains (depth + k) ts ∧ ts ≠ [])
    : Synchronized alone extra depth last last' ts (synchronize k last ts)
        (synchronize k last' (ts ++ extra)) := by
  induction ts generalizing k last last' with
  | nil =>
    rcases left with alone | ⟨-, more⟩
    · rw [none alone]
      exact ⟨rfl, Or.inl alone, id, Nat.le_refl _, fun _ more => absurd rfl more⟩
    · exact absurd rfl more
  | cons t ts ih =>
    rw [cons_append]
    by_cases plain : isBoundary t.kind = false
    · rw [synchronize_plain plain, synchronize_plain plain]
      refine (ih (left.imp_right fun left => ?_)).cons
      exact ⟨left.1.tail (closes_plain plain left.1.closes), left.1.tail_ne_nil plain⟩
    · rcases boundary_cases plain with semicolon | opens | closes
      · have inside (remains : Remains (depth + k) (t :: ts)) : Remains (depth + k) ts :=
          remains.tail (closes_other (by rw [semicolon]; decide) (by rw [semicolon]; decide)
            remains.closes)
        rw [synchronize_semicolon semicolon, synchronize_semicolon semicolon]
        cases k with
        | zero => exact .one (left.imp_right fun left => inside left.1)
        | succ k => exact (ih (left.imp_right fun left =>
          ⟨inside left.1, (inside left.1).ne_nil⟩)).cons
      · rw [synchronize_leftBrace opens, synchronize_leftBrace opens]
        refine (ih (left.imp_right fun left => ?_)).cons
        have inside : Remains (depth + (k + 1)) ts :=
          left.1.tail (closes_leftBrace opens left.1.closes)
        exact ⟨inside, inside.ne_nil⟩
      · have outside {outer : Nat} (remains : Remains (outer + 1) (t :: ts)) : Remains outer ts := by
          obtain ⟨outer', same, rest⟩ := closes_rightBrace closes remains.closes
          cases same
          exact remains.tail rest
        cases k with
        | zero =>
          rw [(synchronize_rightBrace (k := 0) closes).1, (synchronize_rightBrace (k := 0) closes).1]
          exact { rest := rfl, remains := left.imp_right (·.1), last := id
                  notLonger := Nat.le_refl _, shorter := fun other => absurd closes other }
        | succ k =>
          cases k with
          | zero =>
            rw [(synchronize_rightBrace (k := 0) closes).2.1,
              (synchronize_rightBrace (k := 0) closes).2.1]
            exact .one (left.imp_right fun left => outside left.1)
          | succ k =>
            rw [(synchronize_rightBrace closes).2.2, (synchronize_rightBrace closes).2.2]
            refine (ih (left.imp_right fun left => ?_)).cons
            have inside : Remains (depth + (k + 1)) ts := outside left.1
            exact ⟨inside, inside.ne_nil⟩

end Synchronize

/-- The second cursor has the tokens of the first ahead and then others. Either there are no others
and the script ends in the same place, or the tokens before them are what is left of whole statements.
-/
structure Inside (extra : List Token) (stop : Position) (depth : Nat) (c c' : Cursor) : Prop where
  rest : c'.rest = c.rest ++ extra
  ends : c'.stop = stop
  left : (extra = [] ∧ c.stop = stop) ∨ Remains depth c.rest

variable {extra : List Token} {stop : Position} {c c' c1 c1' : Cursor}

namespace Inside

theorem extended (inside : Inside extra stop depth c c') (more : c.rest ≠ [])
    : Extended extra stop c c' :=
  ⟨inside.rest, inside.ends, inside.left.imp_right fun remains => remains.guarded more⟩

theorem extended_of_open (inside : Inside extra stop (depth + 1) c c') : Extended extra stop c c' :=
  ⟨inside.rest, inside.ends, inside.left.imp_right fun remains => remains.guarded remains.ne_nil⟩

section

variable (inside : Inside extra stop depth c c')
include inside

theorem reached (reaches : Reaches c c1) (extended : Extended extra stop c1 c1')
    : Inside extra stop depth c1 c1' := by
  obtain ⟨taken, rest, plain, ends⟩ := reaches
  refine ⟨extended.rest, extended.ends, inside.left.imp ?_ ?_⟩
  · rintro ⟨none, same⟩
    exact ⟨none, ends.trans same⟩
  · intro remains
    rw [rest] at remains
    clear rest
    induction taken with
    | nil => exact remains
    | cons t taken ih =>
      obtain ⟨plain, others⟩ := forall_mem_cons.mp plain
      exact ih others (remains.tail (closes_plain plain remains.closes))

theorem advance (extended : Extended extra stop c c')
    (behind : ∀ t ts, t.kind = c.kind → Closes depth (t :: ts) → Closes inner ts)
    : Inside extra stop inner c.advance c'.advance := by
  by_cases alone : extra = [] ∧ c.stop = stop
  · obtain ⟨rfl, same⟩ := alone
    refine ⟨?_, inside.ends, Or.inl ⟨rfl, same⟩⟩
    rw [c'.rest_advance, inside.rest, append_nil, append_nil, c.rest_advance]
  · have remains := inside.left.resolve_left alone
    obtain ⟨u, member, -⟩ := extended.guarded.resolve_left alone
    have kind := c.kind_eq
    cases here : c.rest with
    | nil =>
      rw [here] at member
      cases member
    | cons t ts =>
      rw [here] at remains kind
      refine ⟨?_, inside.ends, Or.inr ?_⟩
      · rw [c'.rest_advance, inside.rest, c.rest_advance, here]
        rfl
      · rw [c.rest_advance, here]
        exact remains.tail (behind t ts kind.symm remains.closes)

theorem advance_leftBrace (opens : c.kind = .leftBrace) (extended : Extended extra stop c c')
    : Inside extra stop (depth + 1) c.advance c'.advance :=
  inside.advance extended fun _ _ same => closes_leftBrace (same.trans opens)

end

theorem advance_rightBrace (inside : Inside extra stop (depth + 1) c c')
    (ends : c.kind = .rightBrace)
    : Inside extra stop depth c.advance c'.advance := by
  refine inside.advance inside.extended_of_open fun t ts same closes => ?_
  obtain ⟨outer, same, rest⟩ := closes_rightBrace (same.trans ends) closes
  cases same
  exact rest

theorem advance_semicolon (inside : Inside extra stop depth c c') (ends : c.kind = .semicolon)
    (extended : Extended extra stop c c')
    : Inside extra stop depth c.advance c'.advance := by
  refine inside.advance extended fun t ts same => closes_other ?_ ?_
  · rw [same, ends]
    decide
  · rw [same, ends]
    decide

end Inside

variable {α : Type} {took : Prop}

/-- Two runs of statement parsers come to the same outcome and stay in their block. They take a token
unless a block or the script ends ahead. Where the token before the new cursors ends is the same if it
was before or the runs took something for sure.
-/
structure Matches (extra : List Token) (stop : Position) (depth : Nat) (c c' : Cursor) (took : Prop)
    (outcome outcome' : Outcome α) : Prop where
  value : outcome'.value = outcome.value
  problems : outcome'.problems = outcome.problems
  inside : Inside extra stop depth outcome.cursor outcome'.cursor
  last : took ∨ c.last = c'.last → outcome.cursor.last = outcome'.cursor.last
  notLonger : outcome.cursor.rest.length ≤ c.rest.length
  shorter : c.kind ≠ .rightBrace → c.kind ≠ .eof → outcome.cursor.rest.length < c.rest.length

namespace Matches

variable {outcome outcome' : Outcome α}

theorem before (reaches : Reaches c c1) (last : took ∨ c.last = c'.last → c1.last = c1'.last)
    (outcomes : Matches extra stop depth c1 c1' took outcome outcome')
    : Matches extra stop depth c c' took outcome outcome' where
  value := outcomes.value
  problems := outcomes.problems
  inside := outcomes.inside
  last same := outcomes.last (Or.inr (last same))
  notLonger := Nat.le_trans outcomes.notLonger reaches.length_le
  shorter notClosing notEnded := by
    obtain ⟨taken, rest, -, -⟩ := reaches
    have notLonger := outcomes.notLonger
    cases taken with
    | nil =>
      have same : c.kind = c1.kind := by rw [c.kind_eq, c1.kind_eq, rest, nil_append]
      rw [rest]
      exact outcomes.shorter (same ▸ notClosing) (same ▸ notEnded)
    | cons t taken =>
      rw [rest, length_append, length_cons]
      omega

theorem of_imp {took'} (follows : took' → took)
    (outcomes : Matches extra stop depth c c' took outcome outcome')
    : Matches extra stop depth c c' took' outcome outcome' :=
  { outcomes with last := fun known => outcomes.last (known.imp_left follows) }

theorem taken {value : α} {problems} (inside : Inside extra stop depth c1 c1')
    (last : c1.last = c1'.last) (shorter : c1.rest.length < c.rest.length)
    : Matches extra stop depth c c' took ⟨value, problems, c1⟩ ⟨value, problems, c1'⟩ :=
  ⟨rfl, rfl, inside, fun _ => last, Nat.le_of_lt shorter, fun _ _ => shorter⟩

end Matches

theorem recover_matches (value : α) (fault) (inside : Inside extra stop depth c c')
    (extended : Extended extra stop c c')
    : Matches extra stop depth c c' False (recover value fault c) (recover value fault c') := by
  have left : (extra = [] ∧ c.stop = stop) ∨ Remains (depth + 0) c.rest ∧ c.rest ≠ [] := by
    rcases inside.left with alone | remains
    · exact Or.inl alone
    · refine extended.guarded.imp_right fun guard => ⟨remains, ?_⟩
      obtain ⟨t, member, -⟩ := guard
      exact ne_nil_of_mem member
  have found : Synchronized _ extra depth c.last c'.last c.rest (synchronize 0 c.last c.rest)
      (synchronize 0 c'.last (c.rest ++ extra)) :=
    synchronize_synchronized And.left left
  rw [← extended.rest] at found
  refine { value := rfl, problems := ?_, inside := ⟨found.rest, inside.ends, found.remains⟩
           last := ?_, notLonger := found.notLonger, shorter := ?_ }
  · rw [recover, recover, problem, problem, extended.current]
  · rintro (⟨⟨⟩⟩ | same)
    exact found.last same
  · rw [c.kind_eq]
    exact found.shorter

variable {fuel fuel' bound : Nat} {parser parser' : StmtParser}

/-- Statement parsers that match wherever fewer than some number of tokens are ahead. -/
def MatchBelow (extra : List Token) (stop : Position) (bound : Nat) (parser parser' : StmtParser)
    : Prop :=
  ∀ depth c c', Inside extra stop depth c c' → Extended extra stop c c' → c.rest.length < bound
    → Matches extra stop depth c c' ((parser c).value.isSome = true) (parser c) (parser' c')

/-- Goes on behind an expression, or recovers from a fault in it. -/
def Parsed.orRecover (parsed : Parsed Expr) (next : Expr → Cursor → Outcome (Option Stmt))
    : Outcome (Option Stmt) :=
  match parsed with
  | .fail fault c => recover none fault c
  | .ok e c => next e c

theorem orRecover_matches {parsed parsed' next next'} (inside : Inside extra stop depth c c')
    (concur : Concur extra stop c c' parsed parsed')
    (goesOn : ∀ e c1 c1', Reaches c c1 → Inside extra stop depth c1 c1' → Extended extra stop c1 c1'
      → Matches extra stop depth c1 c1' ((next e c1).value.isSome = true) (next e c1) (next' e c1'))
    : Matches extra stop depth c c' ((parsed.orRecover next).value.isSome = true)
        (parsed.orRecover next) (parsed'.orRecover next') := by
  cases concur with
  | @fail fault c1 c1' reaches extended last =>
    have recovers : Matches extra stop depth c1 c1' False (recover (none : Option Stmt) fault c1)
        (recover none fault c1') :=
      recover_matches none fault (inside.reached reaches extended) extended
    refine (recovers.before reaches ?_).of_imp (by rintro ⟨⟩)
    rintro (⟨⟨⟩⟩ | same)
    exact last same
  | @ok e c1 c1' reaches extended last =>
    exact (goesOn e c1 c1' reaches (inside.reached reaches extended) extended).before reaches
      fun _ => last

theorem exprStatement_matches (inside : Inside extra stop depth c c')
    (extended : Extended extra stop c c') (enough : c.rest.length < fuel)
    (enough' : c.rest.length < fuel')
    : Matches extra stop depth c c' ((exprStatement fuel c).value.isSome = true) (exprStatement fuel c)
        (exprStatement fuel' c') := by
  have concur := expression_concur enough enough' c c' extended (Nat.lt_succ_self _)
  refine orRecover_matches inside concur fun e c1 c1' reaches inside extended => ?_
  rw [extended.kind, extended.current]
  split
  · next ends =>
    have shorter := length_advance (c := c1) (by rw [ends]; decide)
    exact .taken (inside.advance_semicolon ends extended) extended.last_advance shorter
  · exact (recover_matches none _ inside extended).of_imp (by rintro ⟨⟩)

theorem condition_concur (keyword) (extended : Extended extra stop c c')
    (enough : c.rest.length < fuel + 1) (enough' : c.rest.length < fuel' + 1)
    : Concur extra stop c c' (condition keyword fuel c) (condition keyword fuel' c') := by
  unfold condition
  rw [extended.kind, extended.current]
  split
  · next opens =>
    have plain : isBoundary c.kind = false := by rw [opens]; rfl
    have shorter := length_advance (c := c) (by rw [opens]; decide)
    have inner : ConcurBelow extra stop c.rest.length (expression fuel) (expression fuel') :=
      expression_concur (by omega) (by omega)
    exact .advance extended plain ((inner _ _ (extended.advance plain) shorter).andThen
      fun e c1 c1' _ extended _ => closed_concur rfl e extended)
  · exact .failed _ extended

theorem branch_matches (parsers : MatchBelow extra stop bound parser parser')
    (inside : Inside extra stop depth c c') (extended : Extended extra stop c c')
    (small : c.rest.length < bound)
    : Matches extra stop depth c c' ((branch parser c).value.isSome = true) (branch parser c)
        (branch parser' c') := by
  unfold branch
  dsimp only
  rw [extended.kind, extended.current, ← extended.last_advance]
  split
  · next ends =>
    have shorter := length_advance (c := c) (by rw [ends]; decide)
    exact .taken (inside.advance_semicolon ends extended) extended.last_advance shorter
  · exact parsers depth c c' inside extended small

/-- What stands behind does not bring in an alternative. -/
theorem Inside.kind_eq_elseWord (inside : Inside extra stop depth c c')
    (noElse : headKind extra ≠ .elseWord)
    : c'.kind = .elseWord ↔ c.kind = .elseWord := by
  rw [c'.kind_eq, c.kind_eq, inside.rest]
  cases c.rest with
  | nil => exact ⟨fun found => absurd found noElse, fun found => (by cases found)⟩
  | cons t ts => exact Iff.rfl

/-- A conditional behind its first branch. -/
def afterBranch (parser : StmtParser) (start : Position) (test : Expr) (yes : Outcome (Option Stmt))
    : Outcome (Option Stmt) :=
  match yes.value with
  | none => { value := none, problems := yes.problems, cursor := yes.cursor }
  | some yesStmt =>
    if yes.cursor.kind = .elseWord then
      let no := branch parser yes.cursor.advance
      { value := no.value.map (.ifElse { start, stop := no.cursor.last } test yesStmt)
        problems := yes.problems ++ no.problems
        cursor := no.cursor }
    else
      { value := some (.ifThen { start, stop := yes.cursor.last } test yesStmt)
        problems := yes.problems
        cursor := yes.cursor }

theorem afterBranch_matches (noElse : headKind extra ≠ .elseWord)
    (parsers : MatchBelow extra stop bound parser parser') {start : Position} {test yes yes'}
    (small : c.rest.length < bound)
    (first : Matches extra stop depth c c' (yes.value.isSome = true) yes yes')
    : Matches extra stop depth c c' ((afterBranch parser start test yes).value.isSome = true)
        (afterBranch parser start test yes) (afterBranch parser' start test yes') := by
  unfold afterBranch
  rw [first.value]
  cases value : yes.value with
  | none =>
    rw [value] at first
    exact { first with value := rfl }
  | some yesStmt =>
    have last := first.last (Or.inl (by rw [value]; rfl))
    dsimp only
    by_cases more : yes.cursor.kind = .elseWord
    · rw [if_pos more, if_pos ((first.inside.kind_eq_elseWord noElse).mpr more)]
      have plain : isBoundary yes.cursor.kind = false := by rw [more]; rfl
      have notEnded : yes.cursor.kind ≠ .eof := by rw [more]; decide
      have extended := first.inside.extended (rest_eq notEnded ▸ cons_ne_nil _ _)
      have shorter := length_advance notEnded
      have notLonger := first.notLonger
      have second := branch_matches parsers
        (first.inside.reached (reaches_advance plain) (extended.advance plain))
        (extended.advance plain) (by omega)
      have last' := second.last (Or.inr extended.last_advance)
      have notLonger' := second.notLonger
      rw [second.value, second.problems, first.problems, ← last']
      exact .taken second.inside last' (by omega)
    · rw [if_neg more, if_neg (more ∘ (first.inside.kind_eq_elseWord noElse).mp), first.problems, last]
      exact { first with value := rfl, problems := rfl, last := fun _ => last }

theorem conditional_eq (parser fuel c)
    : conditional parser fuel c = (condition "if" fuel c.advance).orRecover fun test c1 =>
        afterBranch parser c.current.pos test (branch parser c1) :=
  rfl

theorem conditional_matches (noElse : headKind extra ≠ .elseWord)
    (parsers : MatchBelow extra stop bound parser parser') (inside : Inside extra stop depth c c')
    (extended : Extended extra stop c c') (starts : c.kind = .ifWord)
    (small : c.rest.length < bound + 1) (enough : c.rest.length < fuel + 1)
    (enough' : c.rest.length < fuel' + 1)
    : Matches extra stop depth c c' ((conditional parser fuel c).value.isSome = true)
        (conditional parser fuel c) (conditional parser' fuel' c') := by
  have plain : isBoundary c.kind = false := by rw [starts]; rfl
  have shorter := length_advance (c := c) (by rw [starts]; decide)
  have behind := extended.advance plain
  rw [conditional_eq, conditional_eq, extended.current]
  refine .before (reaches_advance plain) (fun _ => extended.last_advance)
    (orRecover_matches (inside.reached (reaches_advance plain) behind)
      (condition_concur "if" behind (by omega) (by omega)) fun test c1 c1' reaches inside extended => ?_)
  have notLonger := reaches.length_le
  exact afterBranch_matches noElse parsers (by omega)
    (branch_matches parsers inside extended (by omega))

theorem loop_eq (parser fuel c)
    : loop parser fuel c = (condition "while" fuel c.advance).orRecover fun test c1 =>
        { value := (branch parser c1).value.map
            (.loop { start := c.current.pos, stop := (branch parser c1).cursor.last } test)
          problems := (branch parser c1).problems
          cursor := (branch parser c1).cursor } :=
  rfl

section

variable (parsers : MatchBelow extra stop bound parser parser')
include parsers

theorem loop_matches (inside : Inside extra stop depth c c') (extended : Extended extra stop c c')
    (starts : c.kind = .whileWord) (small : c.rest.length < bound + 1)
    (enough : c.rest.length < fuel + 1) (enough' : c.rest.length < fuel' + 1)
    : Matches extra stop depth c c' ((loop parser fuel c).value.isSome = true) (loop parser fuel c)
        (loop parser' fuel' c') := by
  have plain : isBoundary c.kind = false := by rw [starts]; rfl
  have shorter := length_advance (c := c) (by rw [starts]; decide)
  have behind := extended.advance plain
  rw [loop_eq, loop_eq, extended.current]
  refine .before (reaches_advance plain) (fun _ => extended.last_advance)
    (orRecover_matches (inside.reached (reaches_advance plain) behind)
      (condition_concur "while" behind (by omega) (by omega))
      fun test c1 c1' reaches inside extended => ?_)
  have notLonger := reaches.length_le
  have body := branch_matches parsers inside extended (by omega)
  refine { body with value := ?_, last := fun known => body.last (known.imp_left ?_) }
  · dsimp only
    rw [body.value]
    cases value : (branch parser c1).value with
    | none => rfl
    | some s => rw [body.last (Or.inl (by rw [value]; rfl))]
  · rw [Option.isSome_map]
    exact id

/-- Statements match, by induction on the fuel. They come to the end of their block or of the script.
-/
theorem statements_matches (inside : Inside extra stop (depth + 1) c c')
    (small : c.rest.length < bound) (enough : c.rest.length < fuel)
    (enough' : c.rest.length < fuel')
    : Matches extra stop (depth + 1) c c' False (statements parser fuel c)
        (statements parser' fuel' c')
      ∧ ((statements parser fuel c).cursor.kind = .rightBrace
        ∨ (statements parser fuel c).cursor.kind = .eof) := by
  induction fuel generalizing fuel' c c' with
  | zero => omega
  | succ fuel ih =>
    obtain ⟨fuel', rfl⟩ : ∃ n, fuel' = n + 1 := ⟨fuel' - 1, by omega⟩
    have extended := inside.extended_of_open
    unfold statements
    rw [extended.kind]
    split
    · next ended =>
      have ended : c.kind = .rightBrace ∨ c.kind = .eof := by simpa using ended
      refine ⟨⟨rfl, rfl, inside, fun known => known.resolve_left id, Nat.le_refl _, ?_⟩, ended⟩
      intro notClosing notEnded
      exact absurd ended (not_or.mpr ⟨notClosing, notEnded⟩)
    · next goesOn =>
      have goesOn : c.kind ≠ .rightBrace ∧ c.kind ≠ .eof := by simpa using goesOn
      have first := parsers _ c c' inside extended small
      have shorter := first.shorter goesOn.1 goesOn.2
      obtain ⟨more, ends⟩ := ih first.inside (by omega) (by omega) (show _ < fuel' by omega)
      have notLonger := more.notLonger
      dsimp only
      rw [first.value, first.problems, more.value, more.problems]
      refine ⟨⟨rfl, rfl, more.inside, fun known => ?_, by dsimp only; omega, fun _ _ => ?_⟩, ends⟩
      · exact more.last (Or.inr (first.last (Or.inr (known.resolve_left id))))
      · dsimp only
        omega

theorem block_matches (inside : Inside extra stop depth c c') (extended : Extended extra stop c c')
    (opens : c.kind = .leftBrace) (small : c.rest.length < bound + 1)
    (enough : c.rest.length < fuel + 1) (enough' : c.rest.length < fuel' + 1)
    : Matches extra stop depth c c' True (block parser fuel c) (block parser' fuel' c') := by
  have shorter := length_advance (c := c) (by rw [opens]; decide)
  obtain ⟨body, ends⟩ := statements_matches parsers (inside.advance_leftBrace opens extended)
    (by omega) (show _ < fuel by omega) (show _ < fuel' by omega)
  have behind := body.inside.extended_of_open
  have notLonger := body.notLonger
  unfold block
  dsimp only
  rw [extended.current, behind.kind, body.value, body.problems]
  split
  · next closes =>
    have shorter' := length_advance (c := (statements parser fuel c.advance).cursor)
      (by rw [closes]; decide)
    rw [← behind.last_advance]
    exact .taken (body.inside.advance_rightBrace closes) behind.last_advance (by omega)
  · next unclosed =>
    have ended := ends.resolve_left unclosed
    rw [kind_eq] at ended
    have alone := body.inside.left.resolve_right fun remains =>
      remains.ne_nil (eq_nil_of_eof remains.unended ended)
    rw [problem, problem, behind.current]
    exact .taken ⟨body.inside.rest, body.inside.ends, Or.inl alone⟩
      (body.last (Or.inr extended.last_advance)) (by omega)

end

theorem statement_matches (noElse : headKind extra ≠ .elseWord) (enough : bound ≤ fuel)
    (enough' : bound ≤ fuel')
    : MatchBelow extra stop bound (statement fuel) (statement fuel') := by
  induction fuel generalizing fuel' bound with
  | zero => exact fun depth c c' inside extended small => by omega
  | succ fuel ih =>
    intro depth c c' inside extended small
    obtain ⟨fuel', rfl⟩ : ∃ n, fuel' = n + 1 := ⟨fuel' - 1, by omega⟩
    obtain ⟨bound, rfl⟩ : ∃ n, bound = n + 1 := ⟨bound - 1, by omega⟩
    have nested : MatchBelow extra stop bound (statement fuel) (statement fuel') :=
      ih (by omega) (by omega)
    unfold statement
    rw [extended.kind]
    split
    · next opens =>
      have body := block_matches nested inside extended opens small (show _ < fuel + 1 by omega)
        (show _ < fuel' + 1 by omega)
      dsimp only
      exact { body with
        value := by rw [body.value], last := fun _ => body.last (Or.inl trivial) }
    · next starts =>
      exact conditional_matches noElse nested inside extended starts small (by omega) (by omega)
    · next starts => exact loop_matches nested inside extended starts small (by omega) (by omega)
    · next ends =>
      have shorter := length_advance (c := c) (by rw [ends]; decide)
      exact .taken (inside.advance_semicolon ends extended) extended.last_advance shorter
    · exact (recover_matches none _ inside extended).of_imp (by rintro ⟨⟩)
    · exact exprStatement_matches inside extended (by omega) (by omega)

theorem initBlock_matches (noElse : headKind extra ≠ .elseWord)
    (inside : Inside extra stop depth c c') (extended : Extended extra stop c c')
    (starts : c.kind = .initWord) (enough : c.rest.length < fuel) (enough' : c.rest.length < fuel')
    : Matches extra stop depth c c' False (initBlock fuel c) (initBlock fuel' c') := by
  have plain : isBoundary c.kind = false := by rw [starts]; rfl
  have behind := extended.advance plain
  have inside := inside.reached (reaches_advance plain) behind
  have notLonger := (reaches_advance plain).length_le
  refine .before (reaches_advance plain) (fun _ => extended.last_advance) ?_
  unfold initBlock
  dsimp only
  rw [extended.current, behind.kind, behind.current]
  split
  · next opens =>
    have body := block_matches (statement_matches noElse enough enough') inside behind opens
      (by omega) (show _ < fuel + 1 by omega) (show _ < fuel' + 1 by omega)
    have last := body.last (Or.inl trivial)
    rw [body.value, body.problems, ← last]
    exact { body with value := rfl, problems := rfl, last := fun _ => last }
  · exact recover_matches none _ inside behind

end MapAlgebra.Parse
