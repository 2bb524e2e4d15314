import MapAlgebra.Proofs.Script.Expressions

/-! Expressions with more tokens behind them. No expression takes a semicolon or a brace. So a parser
that has one ahead does the same whatever stands behind it, and needs no more fuel than for the tokens
in front.
-/

namespace MapAlgebra.Parse

open List
open Cursor

/-- The tokens that end statements and enclose them. -/
def isBoundary (kind : TokenKind) : Bool :=
  kind = .semicolon || kind = .leftBrace || kind = .rightBrace

theorem inner_of_operator {α : Type} {operator? : TokenKind → Option α} {kind op}
    (none : ∀ kind ∈ [.semicolon, .leftBrace, .rightBrace, .eof], operator? kind = none)
    (found : operator? kind = some op)
    : isBoundary kind = false ∧ kind ≠ .eof := by
  simp only [forall_mem_cons] at none
  obtain ⟨semicolon, opening, closing, ended, -⟩ := none
  have different : ∀ other, operator? other = Option.none → kind ≠ other := by
    intro other absent same
    rw [same, absent] at found
    cases found
  simp only [isBoundary, different _ semicolon, different _ opening, different _ closing]
  exact ⟨rfl, different _ ended⟩

/-- A cursor comes to another behind tokens that are no boundaries. -/
def Reaches (c c1 : Cursor) : Prop :=
  ∃ taken, c.rest = taken ++ c1.rest ∧ (∀ t ∈ taken, isBoundary t.kind = false) ∧ c1.stop = c.stop

/-- The second cursor has the tokens of the first ahead and then others. Either there are no others
and the script ends in the same place, or a boundary comes before them. Where the tokens behind the
cursors end does not count.
-/
structure Extended (extra : List Token) (stop : Position) (c c' : Cursor) : Prop where
  rest : c'.rest = c.rest ++ extra
  ends : c'.stop = stop
  guarded : (extra = [] ∧ c.stop = stop) ∨ ∃ t ∈ c.rest, isBoundary t.kind = true

variable {extra : List Token} {stop : Position} {c c' c1 c1' c2 : Cursor}

theorem Reaches.refl (c) : Reaches c c :=
  ⟨[], rfl, forall_mem_nil _, rfl⟩

theorem Reaches.trans (reaches : Reaches c c1) (reaches' : Reaches c1 c2) : Reaches c c2 := by
  obtain ⟨taken, rest, plain, ends⟩ := reaches
  obtain ⟨taken', rest', plain', ends'⟩ := reaches'
  exact ⟨taken ++ taken', by rw [rest, rest', append_assoc],
    forall_mem_append.mpr ⟨plain, plain'⟩, ends'.trans ends⟩

theorem Reaches.length_le (reaches : Reaches c c1) : c1.rest.length ≤ c.rest.length := by
  obtain ⟨taken, rest, -⟩ := reaches
  rw [rest, length_append]
  omega

theorem reaches_advance (plain : isBoundary c.kind = false) : Reaches c c.advance := by
  rw [c.kind_eq] at plain
  unfold Reaches
  rw [c.rest_advance]
  cases rest : c.rest with
  | nil => exact ⟨[], rfl, forall_mem_nil _, rfl⟩
  | cons t ts =>
    rw [rest] at plain
    exact ⟨[t], rfl, forall_mem_singleton.mpr plain, rfl⟩

theorem Cursor.length_advance (more : c.kind ≠ .eof)
    : c.advance.rest.length < c.rest.length := by
  rw [rest_eq more]
  exact Nat.lt_succ_self _

namespace Extended

variable (extended : Extended extra stop c c')
include extended

theorem current : c'.current = c.current := by
  unfold Cursor.current
  rw [extended.rest, extended.ends]
  rcases extended.guarded with ⟨rfl, same⟩ | ⟨t, member, -⟩
  · rw [append_nil, same]
  · cases rest : c.rest with
    | nil =>
      rw [rest] at member
      cases member
    | cons t ts => rfl

theorem kind : c'.kind = c.kind :=
  congrArg Token.kind extended.current

theorem last_advance : c.advance.last = c'.advance.last :=
  congrArg Token.stop extended.current.symm

/-- Behind a token that is no boundary there is still a boundary ahead. -/
theorem advance (plain : isBoundary c.kind = false)
    : Extended extra stop c.advance c'.advance := by
  rw [c.kind_eq] at plain
  obtain ⟨rest, ends, guarded⟩ := extended
  rcases guarded with ⟨rfl, same⟩ | ⟨t, member, boundary⟩
  · refine ⟨?_, ends, Or.inl ⟨rfl, same⟩⟩
    rw [append_nil] at rest ⊢
    rw [c'.rest_advance, c.rest_advance, rest]
  · refine ⟨?_, ends, Or.inr ⟨t, ?_, boundary⟩⟩
    · rw [c'.rest_advance, c.rest_advance, rest, drop_append_of_le_length]
      exact length_pos_of_mem member
    · rw [c.rest_advance]
      cases here : c.rest with
      | nil =>
        rw [here] at member
        cases member
      | cons u ts =>
        rw [here] at member plain
        rcases mem_cons.mp member with rfl | member
        · cases plain.symm.trans boundary
        · exact member

theorem nextKind (plain : isBoundary c.kind = false)
    : c'.nextKind = c.nextKind :=
  (extended.advance plain).kind

end Extended

variable {α β : Type}

/-- Two runs of expression parsers from extended cursors come to the same result. They have taken no
boundary. Where the token before the new cursors ends is the same if the runs took something.
-/
inductive Concur (extra : List Token) (stop : Position) (c c' : Cursor) : Parsed α → Parsed α → Prop
  | ok {value c1 c1'} (reaches : Reaches c c1) (extended : Extended extra stop c1 c1')
      (last : c1.last = c1'.last)
      : Concur extra stop c c' (.ok value c1) (.ok value c1')
  | fail {fault c1 c1'} (reaches : Reaches c c1)
      (extended : Extended extra stop c1 c1') (last : c.last = c'.last → c1.last = c1'.last)
      : Concur extra stop c c' (.fail fault c1) (.fail fault c1')

namespace Concur

variable {parsed parsed' : Parsed α} {next next' : α → Cursor → Parsed β}

theorem before (reaches : Reaches c c1) (last : c.last = c'.last → c1.last = c1'.last)
    (concur : Concur extra stop c1 c1' parsed parsed')
    : Concur extra stop c c' parsed parsed' := by
  cases concur with
  | ok reaches' extended same => exact .ok (reaches.trans reaches') extended same
  | fail reaches' extended same => exact .fail (reaches.trans reaches') extended (same ∘ last)

theorem advance (extended : Extended extra stop c c') (plain : isBoundary c.kind = false)
    (concur : Concur extra stop c.advance c'.advance parsed parsed')
    : Concur extra stop c c' parsed parsed' :=
  concur.before (reaches_advance plain) fun _ => extended.last_advance

theorem failed (fault) (extended : Extended extra stop c c')
    : Concur extra stop c c' (Parsed.fail (α := α) fault c) (.fail fault c') :=
  .fail (.refl c) extended id

theorem took (value : α) (extended : Extended extra stop c c') (plain : isBoundary c.kind = false)
    : Concur extra stop c c' (.ok value c.advance) (.ok value c'.advance) :=
  .ok (reaches_advance plain) (extended.advance plain) extended.last_advance

theorem andThen (concur : Concur extra stop c c' parsed parsed')
    (goesOn : ∀ value c1 c1', Reaches c c1 → Extended extra stop c1 c1' → c1.last = c1'.last
      → Concur extra stop c1 c1' (next value c1) (next' value c1'))
    : Concur extra stop c c' (parsed.andThen next) (parsed'.andThen next') := by
  cases concur with
  | ok reaches extended last =>
    exact (goesOn _ _ _ reaches extended last).before reaches fun _ => last
  | fail reaches extended last => exact .fail reaches extended last

end Concur

/-- Parsers that agree wherever fewer than some number of tokens are ahead. -/
def ConcurBelow (extra : List Token) (stop : Position) (bound : Nat) (parser parser' : Cursor → Parsed α)
    : Prop :=
  ∀ c c', Extended extra stop c c' → c.rest.length < bound
    → Concur extra stop c c' (parser c) (parser' c')

theorem closed_concur {kind} (plain : isBoundary kind = false) (value : α)
    (extended : Extended extra stop c c')
    : Concur extra stop c c' (closed kind value c) (closed kind value c') := by
  unfold closed
  rw [extended.kind, extended.current]
  split
  · next here => exact .took value extended (here ▸ plain)
  · exact .failed _ extended

variable {expression expression' operand operand' : ExprParser} {bound fuel fuel' : Nat}

section

variable (concur : ConcurBelow extra stop bound expression expression')
include concur

section

variable (extended : Extended extra stop c c')
include extended

theorem arguments_concur (small : c.rest.length < bound) (enough : c.rest.length < fuel)
    (enough' : c.rest.length < fuel')
    : Concur extra stop c c' (arguments expression fuel c) (arguments expression' fuel' c') := by
  induction fuel generalizing fuel' c c' with
  | zero => omega
  | succ fuel ih =>
    obtain ⟨fuel', rfl⟩ : ∃ n, fuel' = n + 1 := ⟨fuel' - 1, by omega⟩
    refine (concur c c' extended small).andThen fun arg c1 c1' reaches extended last => ?_
    rw [extended.kind]
    split
    · next comma =>
      have plain : isBoundary c1.kind = false := by rw [comma]; rfl
      have shorter := length_advance (c := c1) (by rw [comma]; decide)
      have notLonger := reaches.length_le
      refine .advance extended plain (.andThen (ih (extended.advance plain) (by omega) (by omega)
        (by omega)) fun more c2 c2' _ extended last => ?_)
      exact .ok (.refl c2) extended last
    · exact .ok (.refl c1) extended last

theorem call_concur (small : c.rest.length < bound + 1) (enough : c.rest.length < fuel + 1)
    (enough' : c.rest.length < fuel' + 1) (name : c.kind = .identifier)
    (opens : c.nextKind = .leftParen)
    : Concur extra stop c c' (call expression fuel c) (call expression' fuel' c') := by
  have plain : isBoundary c.kind = false := by rw [name]; rfl
  have plain' : isBoundary c.advance.kind = false := by
    rw [show c.advance.kind = .leftParen from opens]
    rfl
  have shorter := length_advance (c := c) (by rw [name]; decide)
  have shorter' := length_advance (c := c.advance)
    (by rw [show c.advance.kind = .leftParen from opens]; decide)
  have inner := (extended.advance plain).advance plain'
  unfold call
  dsimp only
  rw [extended.current, inner.kind]
  refine .advance extended plain (.advance (extended.advance plain) plain' (.andThen (.andThen ?_
    fun args c1 c1' _ extended _ => closed_concur rfl args extended)
    fun args c1 c1' _ extended last => ?_))
  · split
    · exact .ok (.refl _) inner (extended.advance plain).last_advance
    · exact arguments_concur concur inner (by omega) (by omega) (by omega)
  · rw [last]
    exact .ok (.refl c1) extended last

theorem primary_concur (small : c.rest.length < bound + 1) (enough : c.rest.length < fuel + 1)
    (enough' : c.rest.length < fuel' + 1)
    : Concur extra stop c c' (primary expression fuel c) (primary expression' fuel' c') := by
  unfold primary
  dsimp only
  rw [extended.current, ← extended.last_advance]
  split
  · next number =>
    split
    · exact .took _ extended (by rw [Cursor.kind, number]; rfl)
    · exact .failed _ extended
  · next name =>
    have plain : isBoundary c.kind = false := by rw [Cursor.kind, name]; rfl
    split
    · exact .took _ extended plain
    · rw [extended.nextKind plain]
      split
      · next opens => exact call_concur concur extended small enough enough' name opens
      · exact .took _ extended plain
  · next opens =>
    have plain : isBoundary c.kind = false := by rw [Cursor.kind, opens]; rfl
    have shorter := length_advance (c := c) (by rw [Cursor.kind, opens]; decide)
    exact .advance extended plain ((concur _ _ (extended.advance plain) (by omega)).andThen
      fun e c1 c1' _ extended _ => closed_concur rfl e extended)
  · exact .failed _ extended

end

end

theorem plain_of_step {kind} (steps : (kind = .increment || kind = .decrement) = true)
    : isBoundary kind = false := by
  rcases Bool.or_eq_true_iff.mp steps with here | here
  · rw [of_decide_eq_true here]
    rfl
  · rw [of_decide_eq_true here]
    rfl

section

variable (concur : ConcurBelow extra stop bound expression expression')
include concur

section

variable (extended : Extended extra stop c c')
include extended

theorem updated_concur (small : c.rest.length < bound + 1) (enough : c.rest.length < fuel + 1)
    (enough' : c.rest.length < fuel' + 1)
    : Concur extra stop c c' (updated expression fuel c) (updated expression' fuel' c') := by
  refine (primary_concur concur extended small enough enough').andThen
    fun e c1 c1' _ extended last => ?_
  rw [extended.kind, extended.current, ← extended.last_advance]
  split
  · next steps =>
    have plain := plain_of_step steps
    split
    · exact .took _ extended plain
    · exact .failed _ extended
  · exact .ok (.refl c1) extended last

theorem power_concur {unary unary'} (concur' : ∀ c1 c1', Extended extra stop c1 c1' → c1.rest.length < c.rest.length
      → Concur extra stop c1 c1' (unary c1) (unary' c1'))
    (small : c.rest.length < bound + 1) (enough : c.rest.length < fuel + 1)
    (enough' : c.rest.length < fuel' + 1)
    : Concur extra stop c c' (power expression unary fuel c) (power expression' unary' fuel' c') := by
  refine (updated_concur concur extended small enough enough').andThen
    fun base c1 c1' reaches extended last => ?_
  rw [extended.kind]
  split
  · next caret =>
    have plain : isBoundary c1.kind = false := by rw [caret]; rfl
    have shorter := length_advance (c := c1) (by rw [caret]; decide)
    have notLonger := reaches.length_le
    refine .advance extended plain ((concur' _ _ (extended.advance plain) (by omega)).andThen
      fun exponent c2 c2' _ extended last => ?_)
    exact .ok (.refl c2) extended last
  · exact .ok (.refl c1) extended last

theorem unary_concur (small : c.rest.length < bound + 1) (enough : c.rest.length < fuel)
    (enough' : c.rest.length < fuel')
    : Concur extra stop c c' (unary expression fuel c) (unary expression' fuel' c') := by
  induction fuel generalizing fuel' c c' with
  | zero => omega
  | succ fuel ih =>
    obtain ⟨fuel', rfl⟩ : ∃ n, fuel' = n + 1 := ⟨fuel' - 1, by omega⟩
    unfold unary
    dsimp only
    rw [extended.kind, extended.current]
    split
    · next op operator =>
      obtain ⟨plain, more⟩ := inner_of_operator (by decide) operator
      have shorter := length_advance more
      refine .advance extended plain ((ih (extended.advance plain) (by omega) (by omega)
        (by omega)).andThen fun operand c1 c1' _ extended last => ?_)
      exact .ok (.refl c1) extended last
    · split
      · next steps =>
        have plain := plain_of_step steps
        have name := extended.advance plain
        rw [name.kind, name.current, ← name.last_advance]
        split
        · next isName =>
          exact .advance extended plain (.took _ name (by rw [isName]; rfl))
        · exact .advance extended plain (.failed _ name)
      · refine power_concur concur extended (fun c1 c1' extended less => ?_) small enough enough'
        exact ih extended (by omega) (by omega) (by omega)

end

end

theorem chainFrom_concur {op? : TokenKind → Option BinaryOp}
    (none : ∀ kind ∈ [.semicolon, .leftBrace, .rightBrace, .eof], op? kind = none)
    (concur : ConcurBelow extra stop bound operand operand') {left}
    (extended : Extended extra stop c c') (last : c.last = c'.last) (small : c.rest.length < bound)
    (enough : c.rest.length < fuel) (enough' : c.rest.length < fuel')
    : Concur extra stop c c' (chainFrom operand op? fuel left c)
        (chainFrom operand' op? fuel' left c') := by
  induction fuel generalizing fuel' c c' left with
  | zero => omega
  | succ fuel ih =>
    obtain ⟨fuel', rfl⟩ : ∃ n, fuel' = n + 1 := ⟨fuel' - 1, by omega⟩
    unfold chainFrom
    rw [extended.kind]
    split
    · exact .ok (.refl c) extended last
    · next op operator =>
      obtain ⟨plain, more⟩ := inner_of_operator none operator
      have shorter := length_advance more
      refine .advance extended plain ((concur _ _ (extended.advance plain)
        (by omega)).andThen fun right c1 c1' reaches extended last => ?_)
      have notLonger := reaches.length_le
      exact ih extended last (by omega) (by omega) (by omega)

theorem chain_concur {op?}
    (none : ∀ kind ∈ [.semicolon, .leftBrace, .rightBrace, .eof], op? kind = none)
    (concur : ConcurBelow extra stop bound operand operand') (enough : bound ≤ fuel)
    (enough' : bound ≤ fuel')
    : ConcurBelow extra stop bound (chain fuel op? operand) (chain fuel' op? operand') := by
  intro c c' extended small
  refine (concur c c' extended small).andThen fun left c1 c1' reaches extended last => ?_
  have notLonger := reaches.length_le
  exact chainFrom_concur none concur extended last (by omega) (by omega) (by omega)

theorem disjunction_concur (concur : ConcurBelow extra stop bound expression expression')
    (enough : bound + 1 ≤ fuel) (enough' : bound + 1 ≤ fuel')
    : ConcurBelow extra stop (bound + 1) (disjunction expression fuel)
        (disjunction expression' fuel') := by
  have operands : ConcurBelow extra stop (bound + 1) (unary expression fuel) (unary expression' fuel') :=
    fun c c' extended small => unary_concur concur extended small (by omega) (by omega)
  refine chain_concur ?_ (chain_concur ?_ (chain_concur ?_ (chain_concur ?_ (chain_concur ?_
    (chain_concur ?_ operands enough enough') enough enough') enough enough') enough enough')
    enough enough') enough enough'
  all_goals decide

theorem inner_of_assignment {kind} (assigns : kind.isAssignment = true)
    : isBoundary kind = false ∧ kind ≠ .eof := by
  revert assigns
  cases kind <;> decide

/-- What must not be assigned to concurs if it does without that check. -/
theorem unassigned_concur {parsed parsed' : Parsed Expr}
    (concur : Concur extra stop c c' parsed parsed')
    : Concur extra stop c c'
        (parsed.andThen fun e c => if c.kind.isAssignment then .fail .invalidTarget c else .ok e c)
        (parsed'.andThen fun e c => if c.kind.isAssignment then .fail .invalidTarget c else .ok e c) := by
  refine concur.andThen fun e c1 c1' _ extended last => ?_
  rw [extended.kind]
  split
  · exact .failed _ extended
  · exact .ok (.refl c1) extended last

/-- Expressions concur, by induction on the fuel. -/
theorem expression_concur (enough : bound ≤ fuel) (enough' : bound ≤ fuel')
    : ConcurBelow extra stop bound (Parse.expression fuel) (Parse.expression fuel') := by
  induction fuel generalizing fuel' bound with
  | zero => exact fun c c' extended small => by omega
  | succ fuel ih =>
    intro c c' extended small
    obtain ⟨fuel', rfl⟩ : ∃ n, fuel' = n + 1 := ⟨fuel' - 1, by omega⟩
    obtain ⟨bound, rfl⟩ : ∃ n, bound = n + 1 := ⟨bound - 1, by omega⟩
    have nested : ConcurBelow extra stop bound (Parse.expression fuel) (Parse.expression fuel') :=
      ih (by omega) (by omega)
    have operators := unassigned_concur (disjunction_concur nested enough enough' c c' extended small)
    unfold Parse.expression
    dsimp only
    rw [extended.kind, extended.current]
    by_cases name : c.kind = .identifier
    · have plain : isBoundary c.kind = false := by rw [name]; rfl
      rw [extended.nextKind plain]
      split
      · next assigns =>
        split
        · exact .failed _ extended
        · have assigned : c.advance.kind.isAssignment = true :=
            (Bool.and_eq_true_iff.mp assigns).2
          obtain ⟨plain', more⟩ := inner_of_assignment assigned
          have shorter := length_advance more
          have notLonger := (reaches_advance plain).length_le
          have value := extended.advance plain
          refine .advance extended plain (.advance value plain' ((nested _ _ (value.advance plain')
            (by omega)).andThen fun e c1 c1' _ extended last => ?_))
          exact .ok (.refl c1) extended last
      · exact operators
    · simp only [name, decide_false, Bool.false_and, Bool.false_eq_true, if_false]
      exact operators

end MapAlgebra.Parse
