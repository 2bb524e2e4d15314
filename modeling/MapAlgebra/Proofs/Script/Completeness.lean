import MapAlgebra.Proofs.Script.Expressions

/-! The parser of expressions takes every phrase of the grammar, if nothing behind it could go on with
it and there is fuel for its tokens.
-/

namespace MapAlgebra.Parse

open Grammar
open Cursor
open List
open Parsed
open TokenKind

/-- How tightly a token binds to the phrase before it; zero if it never goes on with one. -/
def tightness : TokenKind → Nat
  | .assign | .plusAssign | .minusAssign | .starAssign | .slashAssign => 1
  | .or => 2
  | .and => 3
  | .equal | .notEqual => 4
  | .less | .lessEqual | .greater | .greaterEqual => 5
  | .plus | .minus => 6
  | .star | .slash | .percent => 7
  | .caret => 8
  | .increment | .decrement => 9
  | .leftParen => 10
  | _ => 0

/-- The tokens of a precedence bind like this. -/
def Precedence.rank : Precedence → Nat
  | .disjunction => 2
  | .conjunction => 3
  | .equality => 4
  | .relational => 5
  | .additive => 6
  | .multiplicative => 7

/-- The least tightness of the tokens that could go on with a phrase. -/
def Level.rank : Level → Nat
  | .expression => 1
  | .chain p => Precedence.rank p
  | .unary | .power => 8
  | .updated => 9
  | .primary => 10

theorem rank_operand (p) : Level.rank p.operand = Precedence.rank p + 1 := by
  cases p <;> rfl

theorem one_lt_rank (p) : 1 < Precedence.rank p := by
  cases p <;> decide

variable {p : Precedence} {kind : TokenKind}

variable {op : BinaryOp} {t closing opening u : Token} {level' : Level} {name : String}
  {fuel nested : Nat} {v : Sample} {pieces : List (List Token)} {args : List (List Token × Expr)}

theorem tightness_of_operator (operator : p.operator? kind = some op)
    : tightness kind = Precedence.rank p := by
  cases p <;> cases kind <;> first | rfl | exact nomatch operator

theorem tightness_of_isAssignment : kind.isAssignment = true ↔ tightness kind = 1 := by
  cases kind <;> simp [tightness, isAssignment]

variable {Denotes : String → Sample → Prop} {level : Level} {ts us rest : List Token} {e : Expr}

/-- Phrases of these levels have no operator in front. -/
def isPlain : Level → Bool
  | .power | .updated | .primary => true
  | _ => false

/-- The tokens that phrases of a level start with. -/
def Starts (level : Level) (t : Token) : Prop :=
  t.kind = .number ∨ t.kind = .identifier ∨ t.kind = .leftParen
    ∨ isPlain level = false ∧ (t.kind.unary?.isSome = true ∨ Steps t)

/-- The tokens that expressions start with. -/
def startsExpression : TokenKind → Bool
  | .number | .identifier | .leftParen | .plus | .minus | .not | .increment | .decrement => true
  | _ => false

theorem Starts.startsExpression (starts : Starts level t) : startsExpression t.kind = true := by
  rcases starts with kind | kind | kind | ⟨-, sign | kind | kind⟩
  · rw [kind]
    rfl
  · rw [kind]
    rfl
  · rw [kind]
    rfl
  · cases kind : t.kind <;> first | rfl | (rw [kind] at sign; exact nomatch sign)
  · rw [kind]
    rfl
  · rw [kind]
    rfl

/-- How the tokens of a phrase begin: with one that starts it, and unless the phrase is an assignment,
no name is followed by the operator of one.
-/
structure Begins (level : Level) (ts : List Token) : Prop where
  starts : ∃ t us, ts = t :: us ∧ Starts level t
  second : level ≠ .expression → ∀ t u us, ts = t :: u :: us → t.kind = .identifier
    → u.kind.isAssignment = false

theorem begins_singleton (starts : Starts level t) : Begins level [t] :=
  ⟨⟨t, [], rfl, starts⟩, fun _ _ _ _ same => nomatch same⟩

/-- A token that is not a name, and so starts no assignment. -/
theorem begins_cons (starts : Starts level t) (other : t.kind ≠ .identifier)
    : Begins level (t :: ts) := by
  refine ⟨⟨t, ts, rfl, starts⟩, fun _ t' u us same identifier => ?_⟩
  cases same
  exact absurd identifier other

theorem Starts.mono (starts : Starts level t)
    (plain : isPlain level = false → isPlain level' = false)
    : Starts level' t := by
  rcases starts with number | name | opens | ⟨sign, front⟩
  · exact Or.inl number
  · exact Or.inr (Or.inl name)
  · exact Or.inr (Or.inr (Or.inl opens))
  · exact Or.inr (Or.inr (Or.inr ⟨plain sign, front⟩))

theorem Begins.lift (begins : Begins level ts) (within : level ≠ .expression)
    (plain : isPlain level = false → isPlain level' = false)
    : Begins level' ts := by
  obtain ⟨t, us, same, starts⟩ := begins.starts
  exact ⟨⟨t, us, same, starts.mono plain⟩, fun _ => begins.second within⟩

theorem Begins.append (begins : Begins level ts) (within : level ≠ .expression)
    (plain : isPlain level = false → isPlain level' = false) (other : t.kind.isAssignment = false)
    : Begins level' (ts ++ t :: us) := by
  obtain ⟨t', us', rfl, starts⟩ := begins.starts
  refine ⟨⟨t', us' ++ t :: us, rfl, ?_⟩, fun _ a b vs same identifier => ?_⟩
  · exact starts.mono plain
  · cases us' with
    | nil =>
      cases same
      exact other
    | cons b' us' =>
      cases same
      exact begins.second within _ _ _ rfl identifier

theorem Variable.begins (target : Variable ts name) : Begins .primary ts := by
  cases target with
  | name isName => exact begins_singleton (Or.inr (Or.inl isName.identifier))
  | group opens _ _ =>
    exact begins_cons (Or.inr (Or.inr (Or.inl opens))) (by rw [opens]; decide)

/-- How phrases begin, by induction on the phrase. -/
theorem Phrase.begins (phrase : Phrase Denotes level ts e) : Begins level ts := by
  induction phrase with
  | number number _ => exact begins_singleton (Or.inl number)
  | constant identifier _ => exact begins_singleton (Or.inr (Or.inl identifier))
  | name isName => exact begins_singleton (Or.inr (Or.inl isName.identifier))
  | call isName opens _ _ _ _ =>
    refine ⟨⟨_, _, rfl, Or.inr (Or.inl isName.identifier)⟩, fun _ _ _ _ same _ => ?_⟩
    cases same
    rw [opens]
    rfl
  | group opens _ _ _ =>
    exact begins_cons (Or.inr (Or.inr (Or.inl opens))) (by rw [opens]; decide)
  | plain _ ih | base _ ih | value _ ih => exact ih.lift (by decide) (by decide)
  | unsigned _ ih => exact ih.lift (by decide) (by decide)
  | operand _ ih =>
    rename_i p _ _ _
    exact ih.lift (by cases p <;> decide) fun _ => rfl
  | stepped target steps =>
    refine (Variable.begins target).append (by decide) (by decide) ?_
    rcases steps with kind | kind <;> rw [kind] <;> rfl
  | raised _ caret _ ih _ => exact ih.append (by decide) (by decide) (by rw [caret]; rfl)
  | signed sign _ _ =>
    refine begins_cons (Or.inr (Or.inr (Or.inr ⟨rfl, Or.inl (by rw [sign]; rfl)⟩))) fun kind => ?_
    rw [kind] at sign
    exact nomatch sign
  | steppedFirst steps _ =>
    refine begins_cons (Or.inr (Or.inr (Or.inr ⟨rfl, Or.inr steps⟩))) ?_
    rcases steps with kind | kind <;> rw [kind] <;> decide
  | binary _ operator _ ih _ =>
    refine ih.append Level.noConfusion (fun _ => rfl) (Bool.eq_false_iff.mpr fun assigns => ?_)
    rw [tightness_of_isAssignment, tightness_of_operator operator] at assigns
    exact absurd assigns (Nat.ne_of_gt (one_lt_rank _))
  | assign isName _ _ _ =>
    exact ⟨⟨_, _, rfl, Or.inr (Or.inl isName.identifier)⟩, fun other => absurd rfl other⟩

/-- What the chains of a precedence have between their operators. -/
def operandParser (expression : ExprParser) (fuel : Nat) (p : Precedence) : ExprParser :=
  let multiplicative := chain fuel multiplicative? (unary expression fuel)
  let additive := chain fuel additive? multiplicative
  let relational := chain fuel relational? additive
  let equality := chain fuel equality? relational
  let conjunction := chain fuel conjunction? equality
  match p with
  | .disjunction => conjunction
  | .conjunction => equality
  | .equality => relational
  | .relational => additive
  | .additive => multiplicative
  | .multiplicative => unary expression fuel

/-- The parser of a level, where nested expressions have fuel of their own. -/
def parserAt (nested fuel : Nat) : Level → ExprParser
  | .expression => expression nested
  | .chain p => chain fuel p.operator? (operandParser (expression nested) fuel p)
  | .unary => unary (expression nested) fuel
  | .power => power (expression nested) (unary (expression nested) fuel) fuel
  | .updated => updated (expression nested) fuel
  | .primary => primary (expression nested) fuel

theorem parserAt_operand (nested fuel p)
    : parserAt nested fuel p.operand = operandParser (expression nested) fuel p := by
  cases p <;> rfl

theorem parserAt_disjunction (nested fuel)
    : parserAt nested fuel (.chain .disjunction) = disjunction (expression nested) fuel := rfl

/-- The fuel that a parser needs for some tokens. -/
def Enough (nested fuel : Nat) (level : Level) (ts : List Token) : Prop :=
  match level with
  | .expression => ts.length ≤ nested
  | .chain _ | .unary => ts.length ≤ nested + 1 ∧ ts.length ≤ fuel
  | .power | .updated | .primary => ts.length ≤ nested + 1 ∧ ts.length ≤ fuel + 1

theorem enough_operand
    : Enough nested fuel p.operand ts ↔ ts.length ≤ nested + 1 ∧ ts.length ≤ fuel := by
  cases p <;> rfl

/-- A parser takes tokens in front of others and gives their tree. -/
def Takes (parser : ExprParser) (ts : List Token) (e : Expr) (rest : List Token) : Prop :=
  ∀ c : Cursor, c.rest = ts ++ rest → ∃ e' c', parser c = .ok e' c' ∧ e'.bare = e ∧ c'.rest = rest

/-- A parser takes tokens whenever it has the fuel and nothing behind them could go on with them. The
parser of a chain also does so in front of more operators, and then has fuel left for them.
-/
def Completes (level : Level) (ts : List Token) (e : Expr) : Prop :=
  ∀ nested fuel rest, Enough nested fuel level ts →
    match level with
    | .chain p => tightness (headKind rest) < Level.rank p.operand → ∀ c : Cursor, c.rest = ts ++ rest
      → ∃ e' c' left, parserAt nested fuel (.chain p) c
          = chainFrom (operandParser (expression nested) fuel p) p.operator? left e' c'
        ∧ e'.bare = e ∧ c'.rest = rest ∧ fuel ≤ left + ts.length
    | level => tightness (headKind rest) < Level.rank level → Takes (parserAt nested fuel level) ts e rest

/-- Behind a chain nothing goes on with it. -/
theorem Completes.takes (completes : Completes level ts e) (nested fuel : Nat)
    (enough : Enough nested fuel level ts) (ends : tightness (headKind rest) < Level.rank level)
    : Takes (parserAt nested fuel level) ts e rest := by
  cases level with
  | chain p =>
    intro c here
    have before : tightness (headKind rest) < Level.rank p.operand := by
      rw [rank_operand]
      exact Nat.lt_succ_of_lt ends
    obtain ⟨e', c', left, parsed, same, behind, -⟩ := completes nested fuel rest enough before c here
    refine ⟨e', c', ?_, same, behind⟩
    have none : p.operator? c'.kind = none := by
      cases operator : p.operator? c'.kind with
      | none => rfl
      | some op =>
        have tight := tightness_of_operator operator
        rw [c'.kind_eq, behind] at tight
        exact absurd tight (Nat.ne_of_lt ends)
    rw [parsed]
    cases left with
    | zero => rfl
    | succ left => rw [chainFrom, none]
  | expression | unary | power | updated | primary => exact completes nested fuel rest enough ends

variable {c : Cursor}

theorem Cursor.current_of_rest (here : c.rest = t :: ts) : c.current = t := by
  rw [Cursor.current, here]
  rfl

theorem Cursor.kind_of_rest (here : c.rest = t :: ts) : c.kind = t.kind :=
  congrArg Token.kind (current_of_rest here)

theorem Cursor.advance_of_rest (here : c.rest = t :: ts) : c.advance.rest = ts := by
  rw [c.rest_advance, here]
  rfl

theorem headKind_cons (t ts) : headKind (t :: ts) = t.kind := rfl

theorem tightness_cons {bound} (is : t.kind = kind) (loose : tightness kind < bound)
    : tightness (headKind (t :: ts)) < bound := by
  rwa [headKind_cons, is]

theorem Completes.expression (completes : Completes .expression ts e) (short : ts.length ≤ nested)
    (ends : tightness (headKind rest) < 1) (here : c.rest = ts ++ rest)
    : ∃ e' c', expression nested c = .ok e' c' ∧ e'.bare = e ∧ c'.rest = rest :=
  completes nested 0 rest short ends c here

/-- A number and the name of a constant are taken as the literals that they are. -/
theorem completes_literal (literal : t.kind = .number ∧ Reads t.literal v
      ∨ t.kind = .identifier ∧ constant? t.literal = some v)
    : Completes .primary [t] (.literal .none v) := by
  intro nested fuel rest _ _ c here
  have parsed : primary (expression nested) fuel c
      = .ok (.literal { start := t.pos, stop := c.advance.last } v) c.advance := by
    unfold primary
    rcases literal with ⟨kind, value⟩ | ⟨kind, value⟩ <;> simp only [current_of_rest here, kind] <;>
      rw [value]
  exact ⟨_, _, parsed, rfl, advance_of_rest here⟩

theorem completes_name (isName : IsName t)
    : Completes .primary [t] (.read .none t.literal none) := by
  intro nested fuel rest _ ends c here
  have here : c.rest = t :: rest := here
  have next : c.nextKind ≠ .leftParen := by
    intro opens
    rw [c.nextKind_eq, ← c.rest_advance, advance_of_rest here] at opens
    rw [opens] at ends
    exact absurd ends (by decide)
  have parsed : primary (expression nested) fuel c
      = .ok (.read { start := t.pos, stop := c.advance.last } t.literal none) c.advance := by
    unfold primary
    simp only [current_of_rest here, isName.identifier, isName.free, next, if_false]
  exact ⟨_, _, parsed, rfl, advance_of_rest here⟩

theorem closed_of_kind {α : Type} (value : α) (here : c.rest = t :: ts) (closes : t.kind = kind)
    : closed kind value c = .ok value c.advance := by
  rw [closed, if_pos ((kind_of_rest here).trans closes)]

theorem completes_group (opens : opening.kind = .leftParen) (completes : Completes .expression ts e)
    (closes : closing.kind = .rightParen)
    : Completes .primary (opening :: ts ++ [closing]) e := by
  intro nested fuel rest enough _ c here
  simp only [Enough, length_append, length_cons, length_nil] at enough
  have here : c.rest = opening :: (ts ++ closing :: rest) := by simpa using here
  obtain ⟨e', c', parsed, same, behind⟩ := completes.expression (show ts.length ≤ nested by omega)
    (tightness_cons closes (by decide)) (advance_of_rest here)
  refine ⟨e', c'.advance, ?_, same, advance_of_rest behind⟩
  show primary (expression nested) fuel c = .ok e' c'.advance
  unfold primary
  simp only [current_of_rest here, opens]
  rw [parsed]
  exact closed_of_kind e' behind closes

theorem completes_plain (completes : Completes .primary ts e) : Completes .updated ts e := by
  intro nested fuel rest enough ends c here
  obtain ⟨e', c', parsed, same, behind⟩ :=
    completes.takes nested fuel enough (Nat.lt_succ_of_lt ends) c here
  refine ⟨e', c', ?_, same, behind⟩
  have parsed : primary (expression nested) fuel c = .ok e' c' := parsed
  show updated (expression nested) fuel c = .ok e' c'
  rw [updated, parsed, andThen, if_neg]
  intro steps
  rw [c'.kind_eq, behind] at steps
  simp only [Bool.or_eq_true, decide_eq_true_eq] at steps
  rcases steps with kind | kind <;> rw [kind] at ends <;> exact absurd ends (by decide)

theorem completes_base (completes : Completes .updated ts e) : Completes .power ts e := by
  intro nested fuel rest enough ends c here
  obtain ⟨e', c', parsed, same, behind⟩ :=
    completes.takes nested fuel enough (Nat.lt_succ_of_lt ends) c here
  refine ⟨e', c', ?_, same, behind⟩
  have parsed : updated (expression nested) fuel c = .ok e' c' := parsed
  show power (expression nested) (unary (expression nested) fuel) fuel c = .ok e' c'
  rw [power, parsed, andThen, if_neg]
  intro caret
  rw [c'.kind_eq, behind] at caret
  rw [caret] at ends
  exact absurd ends (by decide)

theorem completes_unsigned (begins : Begins .power ts) (completes : Completes .power ts e)
    : Completes .unary ts e := by
  intro nested fuel rest enough ends c here
  obtain ⟨t, us, rfl, starts⟩ := begins.starts
  simp only [Enough, length_cons] at enough
  obtain ⟨fuel, rfl⟩ : ∃ fuel', fuel = fuel' + 1 := ⟨fuel - 1, by omega⟩
  have inner : Enough nested fuel .power (t :: us) :=
    show us.length + 1 ≤ nested + 1 ∧ us.length + 1 ≤ fuel + 1 from enough
  obtain ⟨e', c', parsed, same, behind⟩ := completes.takes nested fuel inner ends c here
  refine ⟨e', c', ?_, same, behind⟩
  show unary (expression nested) (fuel + 1) c = .ok e' c'
  rw [← parsed, unary, kind_of_rest here]
  rcases starts with kind | kind | kind | ⟨front, -⟩
  · simp [kind, unary?, parserAt]
  · simp [kind, unary?, parserAt]
  · simp [kind, unary?, parserAt]
  · exact nomatch front

theorem completes_operand (completes : Completes p.operand ts e)
    : Completes (.chain p) ts e := by
  intro nested fuel rest enough ends c here
  obtain ⟨e', c', parsed, same, behind⟩ :=
    completes.takes nested fuel (enough_operand.mpr enough) ends c here
  refine ⟨e', c', fuel, ?_, same, behind, Nat.le_add_right _ _⟩
  rw [parserAt_operand] at parsed
  show (operandParser (expression nested) fuel p c).andThen _ = _
  rw [parsed, andThen]

theorem completes_value (begins : Begins (.chain .disjunction) ts)
    (completes : Completes (.chain .disjunction) ts e)
    : Completes .expression ts e := by
  intro nested fuel rest enough ends c here
  obtain ⟨t, us, rfl, starts⟩ := begins.starts
  simp only [Enough, length_cons] at enough
  obtain ⟨nested, rfl⟩ : ∃ nested', nested = nested' + 1 := ⟨nested - 1, by omega⟩
  have inner : Enough nested (nested + 1) (.chain .disjunction) (t :: us) :=
    show us.length + 1 ≤ nested + 1 ∧ us.length + 1 ≤ nested + 1 from ⟨enough, enough⟩
  obtain ⟨e', c', parsed, same, behind⟩ :=
    completes.takes nested (nested + 1) inner (Nat.lt_succ_of_lt ends) c here
  refine ⟨e', c', ?_, same, behind⟩
  rw [parserAt_disjunction] at parsed
  have ends : tightness (headKind rest) = 0 := Nat.lt_one_iff.mp ends
  -- A name is followed by a token of the phrase or by what stands behind it, and neither assigns.
  have other : (decide (c.kind = .identifier) && c.nextKind.isAssignment) = false := by
    rw [Bool.and_eq_false_imp, kind_of_rest here, c.nextKind_eq, ← c.rest_advance,
      advance_of_rest here]
    intro identifier
    cases us with
    | nil =>
      refine Bool.eq_false_iff.mpr fun assigns => ?_
      exact nomatch ends.symm.trans (tightness_of_isAssignment.mp assigns)
    | cons u us => exact begins.second (by decide) t u us rfl (of_decide_eq_true identifier)
  show expression (nested + 1) c = .ok e' c'
  rw [expression, other, if_neg Bool.false_ne_true, parsed, andThen, if_neg]
  intro assigns
  rw [c'.kind_eq, behind] at assigns
  exact nomatch ends.symm.trans (tightness_of_isAssignment.mp assigns)

theorem completes_expression (begins : Begins .primary ts) (completes : Completes .primary ts e)
    : Completes .expression ts e := by
  have unary : Completes .unary ts e :=
    completes_unsigned (begins.lift (by decide) (by decide)) (completes_base (completes_plain completes))
  have chained : Completes (.chain .disjunction) ts e :=
    completes_operand (p := .disjunction) (completes_operand (p := .conjunction)
      (completes_operand (p := .equality) (completes_operand (p := .relational)
        (completes_operand (p := .additive) (completes_operand (p := .multiplicative) unary)))))
  exact completes_value (begins.lift (by decide) (by decide)) chained

theorem completes_variable (target : Variable ts name)
    : Completes .primary ts (.read .none name none) := by
  induction target with
  | name isName => exact completes_name isName
  | group opens inner closes ih =>
    exact completes_group opens (completes_expression (Variable.begins inner) ih) closes

theorem completes_stepped (target : Variable ts name) (steps : Steps t)
    : Completes .updated (ts ++ [t]) (.update .none name (t.kind = .decrement) false none) := by
  intro nested fuel rest enough _ c here
  rw [append_assoc] at here
  simp only [Enough, length_append, length_cons, length_nil] at enough
  have inner : Enough nested fuel .primary ts :=
    show ts.length ≤ nested + 1 ∧ ts.length ≤ fuel + 1 by omega
  have ends : tightness (headKind (t :: rest)) < Level.rank .primary := by
    rw [headKind_cons]
    rcases steps with kind | kind <;> rw [kind] <;> decide
  obtain ⟨e', c', parsed, same, behind⟩ :=
    (completes_variable target).takes nested fuel inner ends c here
  have parsed : primary (expression nested) fuel c = .ok e' c' := parsed
  have kind : c'.kind = t.kind := kind_of_rest behind
  cases e' with
  | read span _ symbol =>
    cases same
    have result : updated (expression nested) fuel c
        = .ok (.update { start := span.start, stop := c'.advance.last } name (c'.kind = .decrement)
            false none) c'.advance := by
      rw [updated, parsed, andThen, if_pos]
      rw [kind]
      simpa [Steps] using steps
    exact ⟨_, _, result, by rw [Expr.bare, kind], advance_of_rest behind⟩
  | literal | binary | unary | assign | update | builtin | call => cases same

theorem completes_raised {base exponent} (begins : Begins .updated ts)
    (left : Completes .updated ts base) (caret : t.kind = .caret)
    (right : Completes .unary us exponent)
    : Completes .power (ts ++ t :: us) (.binary .none (.arith .pow) base exponent) := by
  intro nested fuel rest enough ends c here
  rw [append_assoc, cons_append] at here
  simp only [Enough, length_append, length_cons] at enough
  have some : 0 < ts.length := by
    obtain ⟨t, us, rfl, -⟩ := begins.starts
    exact Nat.succ_pos _
  have before : Enough nested fuel .updated ts :=
    show ts.length ≤ nested + 1 ∧ ts.length ≤ fuel + 1 by omega
  have after : Enough nested fuel .unary us :=
    show us.length ≤ nested + 1 ∧ us.length ≤ fuel by omega
  obtain ⟨e1, c1, parsed, same, behind⟩ :=
    left.takes nested fuel before (tightness_cons caret (by decide)) c here
  obtain ⟨e2, c2, parsed', same', behind'⟩ :=
    right.takes nested fuel after ends c1.advance (advance_of_rest behind)
  have parsed : updated (expression nested) fuel c = .ok e1 c1 := parsed
  have parsed' : unary (expression nested) fuel c1.advance = .ok e2 c2 := parsed'
  have result : power (expression nested) (unary (expression nested) fuel) fuel c
      = .ok (.binary { start := e1.span.start, stop := e2.span.stop } (.arith .pow) e1 e2) c2 := by
    rw [power, parsed, andThen, if_pos ((kind_of_rest behind).trans caret), parsed',
      andThen]
  exact ⟨_, _, result, by rw [Expr.bare, same, same'], behind'⟩

theorem completes_signed {op} (sign : t.kind.unary? = some op) (inner : Completes .unary ts e)
    : Completes .unary (t :: ts) (.unary .none op e) := by
  intro nested fuel rest enough ends c here
  simp only [Enough, length_cons] at enough
  obtain ⟨fuel, rfl⟩ : ∃ fuel', fuel = fuel' + 1 := ⟨fuel - 1, by omega⟩
  have after : Enough nested fuel .unary ts :=
    show ts.length ≤ nested + 1 ∧ ts.length ≤ fuel by omega
  obtain ⟨e', c', parsed, same, behind⟩ :=
    inner.takes nested fuel after ends c.advance (advance_of_rest here)
  have parsed : unary (expression nested) fuel c.advance = .ok e' c' := parsed
  have result : unary (expression nested) (fuel + 1) c
      = .ok (.unary { start := c.current.pos, stop := e'.span.stop } op e') c' := by
    rw [unary, kind_of_rest here, sign]
    simp only [parsed, andThen]
  exact ⟨_, _, result, by rw [Expr.bare, same], behind⟩

theorem completes_steppedFirst (steps : Steps t) (identifier : u.kind = .identifier)
    : Completes .unary [t, u] (.update .none u.literal (t.kind = .decrement) true none) := by
  intro nested fuel rest enough _ c here
  simp only [Enough, length_cons, length_nil] at enough
  obtain ⟨fuel, rfl⟩ : ∃ fuel', fuel = fuel' + 1 := ⟨fuel - 1, by omega⟩
  have here : c.rest = t :: u :: rest := here
  have next : c.advance.rest = u :: rest := advance_of_rest here
  have result : unary (expression nested) (fuel + 1) c
      = .ok (.update { start := c.current.pos, stop := c.advance.advance.last } u.literal
          (t.kind = .decrement) true none) c.advance.advance := by
    rw [unary, kind_of_rest here]
    rcases steps with kind | kind <;>
      simp [kind, unary?, kind_of_rest next, current_of_rest next, identifier]
  exact ⟨_, _, result, rfl, advance_of_rest next⟩

theorem completes_binary {a b} (left : Completes (.chain p) ts a)
    (operator : p.operator? t.kind = some op) (right : Completes p.operand us b)
    : Completes (.chain p) (ts ++ t :: us) (.binary .none op a b) := by
  intro nested fuel rest enough ends c here
  rw [append_assoc, cons_append] at here
  simp only [Enough, length_append, length_cons] at enough
  have before : Enough nested fuel (.chain p) ts :=
    show ts.length ≤ nested + 1 ∧ ts.length ≤ fuel by omega
  have after : Enough nested fuel p.operand us := enough_operand.mpr (by omega)
  have next : tightness (headKind (t :: (us ++ rest))) < Level.rank p.operand := by
    rw [headKind_cons, tightness_of_operator operator, rank_operand]
    exact Nat.lt_succ_self _
  obtain ⟨e1, c1, left', parsed, same, behind, fuel'⟩ := left nested fuel _ before next c here
  obtain ⟨e2, c2, parsed', same', behind'⟩ :=
    right.takes nested fuel after ends c1.advance (advance_of_rest behind)
  obtain ⟨left', rfl⟩ : ∃ left'', left' = left'' + 1 := ⟨left' - 1, by omega⟩
  rw [parserAt_operand] at parsed'
  refine ⟨.binary { start := e1.span.start, stop := e2.span.stop } op e1 e2, c2, left', ?_, ?_, behind',
    ?_⟩
  · rw [parsed, chainFrom, kind_of_rest behind, operator]
    simp only [parsed', andThen]
  · rw [Expr.bare, same, same']
  · rw [length_append, length_cons]
    omega

theorem completes_assign (isName : IsName t) (assigns : u.kind.isAssignment = true)
    (inner : Completes .expression ts e)
    : Completes .expression (t :: u :: ts) (.assign .none t.literal u.kind.compound? e none) := by
  intro nested fuel rest enough ends c here
  simp only [Enough, length_cons] at enough
  obtain ⟨nested, rfl⟩ : ∃ nested', nested = nested' + 1 := ⟨nested - 1, by omega⟩
  have here : c.rest = t :: u :: (ts ++ rest) := here
  have next : c.advance.rest = u :: (ts ++ rest) := advance_of_rest here
  have kind : c.nextKind = u.kind := by rw [c.nextKind_eq, ← c.rest_advance, next, headKind_cons]
  obtain ⟨e', c', parsed, same, behind⟩ :=
    inner.expression (show ts.length ≤ nested by omega) ends (advance_of_rest next)
  have result : expression (nested + 1) c
      = .ok (.assign { start := t.pos, stop := e'.span.stop } t.literal u.kind.compound? e' none) c' := by
    rw [expression, kind_of_rest here, kind, current_of_rest here, isName.identifier,
      isName.free, assigns]
    simp [parsed, andThen]
  exact ⟨_, _, result, by rw [Expr.bare, same], behind⟩

theorem Joined.lengths (joined : Joined pieces ts)
    : pieces.length ≤ ts.length + 1 ∧ ∀ piece ∈ pieces, piece.length ≤ ts.length := by
  induction joined with
  | none => exact ⟨Nat.zero_le _, forall_mem_nil _⟩
  | one => exact ⟨Nat.succ_le_succ (Nat.zero_le _), forall_mem_singleton.mpr (Nat.le_refl _)⟩
  | more _ _ ih =>
    simp only [length_append, length_cons] at ih ⊢
    refine ⟨by omega, forall_mem_cons.mpr ⟨by omega, fun piece member => ?_⟩⟩
    have inner := ih.2 piece member
    omega

theorem Joined.exists_append {piece} (joined : Joined (piece :: pieces) ts)
    : ∃ us, ts = piece ++ us := by
  cases joined with
  | one => exact ⟨[], (append_nil _).symm⟩
  | more => exact ⟨_, rfl⟩

/-- Arguments are taken up to the closing parenthesis, by induction on how they are joined. -/
theorem arguments_takes
    (each : ∀ arg ∈ args, Completes .expression arg.1 arg.2 ∧ arg.1.length ≤ nested)
    (joined : Joined (args.map (·.1)) ts) (some : args ≠ []) (count : args.length ≤ fuel)
    (closes : headKind rest = .rightParen) (here : c.rest = ts ++ rest)
    : ∃ args' c', arguments (expression nested) fuel c = .ok args' c'
      ∧ args'.map Expr.bare = args.map (·.2) ∧ c'.rest = rest := by
  induction args generalizing ts fuel c with
  | nil => exact absurd rfl some
  | cons arg more ih =>
    obtain ⟨fuel, rfl⟩ : ∃ fuel', fuel = fuel' + 1 := by
      rw [length_cons] at count
      exact ⟨fuel - 1, by omega⟩
    obtain ⟨⟨completes, short⟩, others⟩ := forall_mem_cons.mp each
    cases more with
    | nil =>
      cases joined
      obtain ⟨e', c', parsed, same, behind⟩ := completes.expression short (by rw [closes]; decide) here
      have last : c'.kind ≠ .comma := by
        rw [c'.kind_eq, behind, closes]
        decide
      refine ⟨[e'], c', ?_, by rw [map_singleton, same]; rfl, behind⟩
      rw [arguments, parsed, andThen, if_neg last]
    | cons next more =>
      cases joined with
      | @more _ _ vs _ comma separates joined =>
        rw [append_assoc, cons_append] at here
        obtain ⟨e', c', parsed, same, behind⟩ :=
          completes.expression short (tightness_cons separates (by decide)) here
        obtain ⟨args', c'', parsed', same', behind'⟩ := ih others joined (cons_ne_nil _ _)
          (Nat.le_of_succ_le_succ count) (advance_of_rest behind)
        refine ⟨e' :: args', c'', ?_, by rw [map_cons, same, same']; rfl, behind'⟩
        rw [arguments, parsed, andThen,
          if_pos ((kind_of_rest behind).trans separates), parsed', andThen]

theorem completes_call (isName : IsName t) (opens : opening.kind = .leftParen)
    (each : ∀ arg ∈ args, Begins .expression arg.1 ∧ Completes .expression arg.1 arg.2)
    (joined : Joined (args.map (·.1)) ts) (closes : closing.kind = .rightParen)
    : Completes .primary (t :: opening :: ts ++ [closing])
        (callNode .none t.literal (args.map (·.2))) := by
  intro nested fuel rest enough _ c here
  have here : c.rest = t :: opening :: (ts ++ closing :: rest) := by simpa using here
  simp only [Enough, length_append, length_cons, length_nil] at enough
  have next : c.advance.rest = opening :: (ts ++ closing :: rest) := advance_of_rest here
  have inner : c.advance.advance.rest = ts ++ closing :: rest := advance_of_rest next
  have kind : c.nextKind = .leftParen := by rw [c.nextKind_eq, ← c.rest_advance, next, headKind_cons, opens]
  -- An argument does not start with the closing parenthesis.
  obtain ⟨args', c', parsed, same, behind⟩ : ∃ args' c',
      (if c.advance.advance.kind = .rightParen then .ok [] c.advance.advance
        else arguments (expression nested) fuel c.advance.advance) = ok args' c'
      ∧ args'.map Expr.bare = args.map (·.2) ∧ c'.rest = closing :: rest := by
    cases args with
    | nil =>
      cases joined
      exact ⟨[], _, if_pos ((kind_of_rest inner).trans closes), rfl, inner⟩
    | cons arg more =>
      obtain ⟨⟨first, -⟩, -⟩ := (forall_mem_cons.mp each).1
      obtain ⟨t', us, tokens, starts⟩ := first
      obtain ⟨vs, whole⟩ : ∃ vs, ts = arg.1 ++ vs := Joined.exists_append joined
      have inner' : c.advance.advance.rest = t' :: (us ++ (vs ++ closing :: rest)) := by
        rw [inner, whole, tokens, append_assoc]
        rfl
      have kind' : c.advance.advance.kind ≠ .rightParen := by
        intro closes
        rw [kind_of_rest inner'] at closes
        have starts := starts.startsExpression
        rw [closes] at starts
        exact nomatch starts
      obtain ⟨count, lengths⟩ := Joined.lengths joined
      rw [length_map] at count
      rw [if_neg kind']
      refine arguments_takes (fun arg member => ⟨(each arg member).2, ?_⟩) joined (cons_ne_nil _ _)
        (by omega) ((headKind_cons closing rest).trans closes) inner
      have short := lengths arg.1 (mem_map_of_mem member)
      omega
  have result : primary (expression nested) fuel c
      = .ok (callNode { start := t.pos, stop := c'.advance.last } t.literal args') c'.advance := by
    unfold primary call
    simp only [current_of_rest here, isName.identifier, isName.free, kind, if_true, parsed]
    simp only [andThen, closed_of_kind args' behind closes]
  exact ⟨_, _, result, by rw [bare_callNode, same], advance_of_rest behind⟩

/-- The parser takes every phrase, by induction on the phrase. -/
theorem Phrase.completes (phrase : Phrase Reads level ts e) : Completes level ts e := by
  induction phrase with
  | number number value => exact completes_literal (Or.inl ⟨number, value⟩)
  | constant identifier value => exact completes_literal (Or.inr ⟨identifier, value⟩)
  | name isName => exact completes_name isName
  | call isName opens each joined closes ih =>
    refine completes_call isName opens (fun arg member => ?_) joined closes
    exact ⟨Phrase.begins (each arg member), ih arg member⟩
  | group opens _ closes ih => exact completes_group opens ih closes
  | plain _ ih => exact completes_plain ih
  | stepped target steps => exact completes_stepped target steps
  | base _ ih => exact completes_base ih
  | raised left caret _ ih ih' => exact completes_raised (Phrase.begins left) ih caret ih'
  | unsigned inner ih => exact completes_unsigned (Phrase.begins inner) ih
  | signed sign _ ih => exact completes_signed sign ih
  | steppedFirst steps identifier => exact completes_steppedFirst steps identifier
  | operand _ ih => exact completes_operand ih
  | binary _ operator _ ih ih' => exact completes_binary ih operator ih'
  | value inner ih => exact completes_value (Phrase.begins inner) ih
  | assign isName assigns _ ih => exact completes_assign isName assigns ih

end MapAlgebra.Parse
