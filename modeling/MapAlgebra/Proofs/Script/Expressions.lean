import MapAlgebra.Proofs.Script.Grammar

/-! The parser of expressions follows the grammar. What it takes is a phrase, and it takes every phrase
that nothing behind it could go on.
-/

namespace MapAlgebra.Parse

open Grammar
open Cursor
open List
open Parsed

/-- The kind of the first of some tokens. -/
def headKind (ts : List Token) : TokenKind := (ts.head?.map (·.kind)).getD .eof

theorem Cursor.kind_eq (c : Cursor) : c.kind = headKind c.rest := by
  unfold Cursor.kind Cursor.current headKind
  cases c.rest <;> rfl

theorem Cursor.nextKind_eq (c : Cursor) : c.nextKind = headKind (c.rest.drop 1) := by
  unfold Cursor.nextKind headKind
  cases c.rest.drop 1 <;> rfl

theorem Cursor.rest_advance (c : Cursor) : c.advance.rest = c.rest.drop 1 := rfl

theorem Cursor.nextKind_eq_advance (c : Cursor) : c.nextKind = c.advance.kind := by
  rw [c.advance.kind_eq, c.rest_advance, c.nextKind_eq]

variable {c c' : Cursor} {kind : TokenKind}

/-- Unless the script ends there, a cursor is in front of a token. -/
theorem Cursor.rest_eq (more : c.kind ≠ .eof) : c.rest = c.current :: c.advance.rest := by
  rw [c.kind_eq] at more
  unfold Cursor.current
  rw [c.rest_advance]
  cases rest : c.rest with
  | nil =>
    rw [rest] at more
    exact absurd rfl more
  | cons t rest => rfl

theorem Cursor.rest_of_kind (here : c.kind = kind) (more : kind ≠ .eof)
    : c.rest = c.current :: c.advance.rest :=
  rest_eq (here ▸ more)

theorem Cursor.rest_of_steps (steps : Steps c.current) : c.rest = c.current :: c.advance.rest :=
  steps.elim (rest_of_kind · (by decide)) (rest_of_kind · (by decide))

/-- What is found for the kind ahead, and not for the end, shows that a token is ahead. -/
theorem Cursor.kind_ne_eof {α : Type} {find : TokenKind → α} {a} (found : find c.kind = a)
    (ends : find .eof ≠ a)
    : c.kind ≠ .eof :=
  fun last => ends (last ▸ found)

variable {α β : Type}

theorem Parsed.andThen_eq_ok {parsed : Parsed α} {next} {b : β}
    : parsed.andThen next = .ok b c' ↔ ∃ a c, parsed = .ok a c ∧ next a c = .ok b c' := by
  cases parsed with
  | ok a c =>
    refine ⟨fun ends => ⟨a, c, rfl, ends⟩, ?_⟩
    rintro ⟨a', c1, same, ends⟩
    cases same
    exact ends
  | fail fault c =>
    refine ⟨(nomatch ·), ?_⟩
    rintro ⟨a, c1, same, -⟩
    exact nomatch same

theorem closed_eq_ok {a a' : α}
    : closed kind a c = .ok a' c' ↔ c.kind = kind ∧ a = a' ∧ c.advance = c' := by
  unfold closed
  split <;> simp_all

/-- How the parser reads numerals. -/
def Reads (text : String) (v : Sample) : Prop := Sample.parse? text = some v

/-- The span of the token ahead. -/
abbrev Cursor.span (c : Cursor) : Span := { start := c.current.pos, stop := c.advance.last }

/-- What the parser takes, rule by rule. A statement about an expression and the cursors in front of it and
behind it holds as soon as it holds of the parts of the expression and the tokens around them are right.
-/
structure Rules (holds : Level → Cursor → Expr → Cursor → Prop)
    (each : Cursor → List Expr → Cursor → Prop) : Prop where
  literal : ∀ {c v}, c.kind = .number ∧ Reads c.current.literal v
    ∨ c.kind = .identifier ∧ constant? c.current.literal = some v
    → holds .primary c (.literal c.span v) c.advance
  name : ∀ {c}, IsName c.current → holds .primary c (.read c.span c.current.literal none) c.advance
  call : ∀ {c args c'}, IsName c.current → c.advance.kind = .leftParen
    → each c.advance.advance args c' → c'.kind = .rightParen
    → holds .primary c (callNode { start := c.current.pos, stop := c'.advance.last } c.current.literal args)
        c'.advance
  nothing : ∀ c, each c [] c
  one : ∀ {c e c'}, holds .expression c e c' → each c [e] c'
  more : ∀ {c e c1 args c'}, holds .expression c e c1 → c1.kind = .comma → args ≠ []
    → each c1.advance args c' → each c (e :: args) c'
  group : ∀ {c e c'}, c.kind = .leftParen → holds .expression c.advance e c' → c'.kind = .rightParen
    → holds .primary c e c'.advance
  plain : ∀ {c e c'}, holds .primary c e c' → holds .updated c e c'
  stepped : ∀ {c span name symbol c'}, holds .primary c (.read span name symbol) c' → Steps c'.current
    → holds .updated c (.update { start := span.start, stop := c'.advance.last } name
        (c'.kind = .decrement) false none) c'.advance
  base : ∀ {c e c'}, holds .updated c e c' → holds .power c e c'
  raised : ∀ {c a c1 b c'}, holds .updated c a c1 → c1.kind = .caret → holds .unary c1.advance b c'
    → holds .power c (.binary { start := a.span.start, stop := b.span.stop } (.arith .pow) a b) c'
  unsigned : ∀ {c e c'}, holds .power c e c' → holds .unary c e c'
  signed : ∀ {c op e c'}, c.kind.unary? = some op → holds .unary c.advance e c'
    → holds .unary c (.unary { start := c.current.pos, stop := e.span.stop } op e) c'
  steppedFirst : ∀ {c}, Steps c.current → c.advance.kind = .identifier
    → holds .unary c (.update { start := c.current.pos, stop := c.advance.advance.last }
        c.advance.current.literal (c.kind = .decrement) true none) c.advance.advance
  operand : ∀ {p c e c'}, holds p.operand c e c' → holds (.chain p) c e c'
  binary : ∀ {p c a c1 op b c'}, holds (.chain p) c a c1 → p.operator? c1.kind = some op
    → holds p.operand c1.advance b c'
    → holds (.chain p) c (.binary { start := a.span.start, stop := b.span.stop } op a b) c'
  value : ∀ {c e c'}, holds (.chain .disjunction) c e c' → holds .expression c e c'
  assign : ∀ {c e c'}, IsName c.current → c.advance.kind.isAssignment = true
    → holds .expression c.advance.advance e c'
    → holds .expression c (.assign { start := c.current.pos, stop := e.span.stop } c.current.literal
        c.advance.kind.compound? e none) c'

/-- The statement holds of what a parser takes. -/
def Obeys (holds : Level → Cursor → Expr → Cursor → Prop) (level : Level) (parser : ExprParser) : Prop :=
  ∀ ⦃c e c'⦄, parser c = .ok e c' → holds level c e c'

section

variable {holds : Level → Cursor → Expr → Cursor → Prop} {each : Cursor → List Expr → Cursor → Prop}
  {expression operand : ExprParser} {fuel : Nat} (rules : Rules holds each)
include rules

section

variable (obeys : Obeys holds .expression expression)
include obeys

theorem obeys_arguments {args : List Expr} (parsed : arguments expression fuel c = .ok args c')
    : each c args c' ∧ args ≠ [] := by
  induction fuel generalizing c args with
  | zero => exact nomatch parsed
  | succ fuel ih =>
    obtain ⟨arg, c1, first, rest⟩ := andThen_eq_ok.mp parsed
    split at rest
    · next comma =>
      obtain ⟨more, c2, later, same⟩ := andThen_eq_ok.mp rest
      cases same
      obtain ⟨inner, some⟩ := ih later
      exact ⟨rules.more (obeys first) comma some inner, cons_ne_nil _ _⟩
    · cases rest
      exact ⟨rules.one (obeys first), cons_ne_nil _ _⟩

theorem obeys_call (isName : IsName c.current) (opens : c.nextKind = .leftParen) {e : Expr}
    (parsed : call expression fuel c = .ok e c')
    : holds .primary c e c' := by
  obtain ⟨args, c2, inside, same⟩ := andThen_eq_ok.mp parsed
  cases same
  obtain ⟨args', c1, taken, closing⟩ := andThen_eq_ok.mp inside
  obtain ⟨closes, rfl, rfl⟩ := closed_eq_ok.mp closing
  refine rules.call isName (c.nextKind_eq_advance ▸ opens) ?_ closes
  split at taken
  · cases taken
    exact rules.nothing _
  · exact (obeys_arguments rules obeys taken).1

theorem obeys_primary (fuel) : Obeys holds .primary (primary expression fuel) := by
  intro c e c' parsed
  unfold primary at parsed
  dsimp only at parsed
  split at parsed
  · next number =>
    split at parsed
    · next v value =>
      cases parsed
      exact rules.literal (Or.inl ⟨number, value⟩)
    · exact nomatch parsed
  · next identifier =>
    split at parsed
    · next v value =>
      cases parsed
      exact rules.literal (Or.inr ⟨identifier, value⟩)
    · next free =>
      split at parsed
      · next opens => exact obeys_call rules obeys ⟨identifier, free⟩ opens parsed
      · cases parsed
        exact rules.name ⟨identifier, free⟩
  · next opens =>
    obtain ⟨e', c1, inside, closing⟩ := andThen_eq_ok.mp parsed
    obtain ⟨closes, rfl, rfl⟩ := closed_eq_ok.mp closing
    exact rules.group opens (obeys inside) closes
  · exact nomatch parsed

theorem obeys_updated (fuel) : Obeys holds .updated (updated expression fuel) := by
  intro c e c' parsed
  obtain ⟨e', c1, first, rest⟩ := andThen_eq_ok.mp parsed
  have inner := obeys_primary rules obeys fuel first
  split at rest
  · next steps =>
    split at rest
    · cases rest
      have steps : c1.kind = .increment ∨ c1.kind = .decrement := by simpa using steps
      exact rules.stepped inner steps
    · exact nomatch rest
  · cases rest
    exact rules.plain inner

theorem obeys_power {unary : ExprParser} (obeys' : Obeys holds .unary unary) (fuel)
    : Obeys holds .power (power expression unary fuel) := by
  intro c e c' parsed
  obtain ⟨base, c1, first, rest⟩ := andThen_eq_ok.mp parsed
  have inner := obeys_updated rules obeys fuel first
  split at rest
  · next caret =>
    obtain ⟨exponent, c2, second, same⟩ := andThen_eq_ok.mp rest
    cases same
    exact rules.raised inner caret (obeys' second)
  · cases rest
    exact rules.base inner

/-- The operators in front of a power, by induction on the fuel. -/
theorem obeys_unary (fuel : Nat) : Obeys holds .unary (unary expression fuel) := by
  induction fuel with
  | zero => exact fun c e c' parsed => nomatch parsed
  | succ fuel ih =>
    intro c e c' parsed
    unfold unary at parsed
    dsimp only at parsed
    split at parsed
    · next op sign =>
      obtain ⟨operand, c1, inside, same⟩ := andThen_eq_ok.mp parsed
      cases same
      exact rules.signed sign (ih inside)
    · split at parsed
      · next steps =>
        split at parsed
        · next identifier =>
          cases parsed
          have steps : c.kind = .increment ∨ c.kind = .decrement := by simpa using steps
          exact rules.steppedFirst steps identifier
        · exact nomatch parsed
      · exact rules.unsigned (obeys_power rules obeys ih fuel parsed)

end

variable {p : Precedence}

/-- The operators of one precedence, by induction on the fuel. -/
theorem obeys_chainFrom (obeys : Obeys holds p.operand operand) {c1 : Cursor} {left e}
    (first : holds (.chain p) c left c1)
    (parsed : chainFrom operand p.operator? fuel left c1 = .ok e c')
    : holds (.chain p) c e c' := by
  induction fuel generalizing left c1 with
  | zero =>
    cases parsed
    exact first
  | succ fuel ih =>
    unfold chainFrom at parsed
    split at parsed
    · cases parsed
      exact first
    · next op operator =>
      obtain ⟨right, c2, inside, rest⟩ := andThen_eq_ok.mp parsed
      exact ih (rules.binary first operator (obeys inside)) rest

theorem obeys_chain (obeys : Obeys holds p.operand operand) (fuel)
    : Obeys holds (.chain p) (chain fuel p.operator? operand) := by
  intro c e c' parsed
  obtain ⟨left, c1, first, rest⟩ := andThen_eq_ok.mp parsed
  exact obeys_chainFrom rules obeys (rules.operand (obeys first)) rest

theorem obeys_disjunction (obeys : Obeys holds .expression expression) (fuel)
    : Obeys holds (.chain .disjunction) (disjunction expression fuel) :=
  obeys_chain (p := .disjunction) rules (obeys_chain (p := .conjunction) rules
    (obeys_chain (p := .equality) rules (obeys_chain (p := .relational) rules
      (obeys_chain (p := .additive) rules (obeys_chain (p := .multiplicative) rules
        (obeys_unary rules obeys fuel) fuel) fuel) fuel) fuel) fuel) fuel

/-- The statement holds of all expressions, by induction on the fuel. -/
theorem obeys_expression (fuel : Nat) : Obeys holds .expression (Parse.expression fuel) := by
  induction fuel with
  | zero => exact fun c e c' parsed => nomatch parsed
  | succ fuel ih =>
    intro c e c' parsed
    unfold Parse.expression at parsed
    dsimp only at parsed
    split at parsed
    · next ahead =>
      simp only [Bool.and_eq_true, decide_eq_true_eq, c.nextKind_eq_advance] at ahead
      split at parsed
      · exact nomatch parsed
      · next free =>
        obtain ⟨value, c1, inside, same⟩ := andThen_eq_ok.mp parsed
        cases same
        rw [c.nextKind_eq_advance]
        exact rules.assign ⟨ahead.1, by simpa using free⟩ ahead.2 (ih inside)
    · obtain ⟨e', c1, inside, rest⟩ := andThen_eq_ok.mp parsed
      have inner := obeys_disjunction rules ih (fuel + 1) inside
      split at rest
      · exact nomatch rest
      · cases rest
        exact rules.value inner

end

/-- A phrase with the tree of a variable is a name, which may stand in parentheses, by induction on the
phrase.
-/
theorem variable_of_phrase {Denotes ts e} (phrase : Phrase Denotes level ts e) {name symbol}
    (tree : e = .read .none name symbol)
    : Variable ts name := by
  induction phrase with
  | name isName =>
    cases tree
    exact .name isName
  | group opens _ closes ih => exact .group opens (ih tree) closes
  | plain _ ih | base _ ih | unsigned _ ih | operand _ ih | value _ ih => exact ih tree
  | call =>
    unfold callNode at tree
    split at tree <;> exact nomatch tree
  | number | constant | stepped | raised | signed | steppedFirst | binary | assign => exact nomatch tree

/-- The tokens between two cursors are a phrase. -/
def SpansPhrase (level : Level) (c : Cursor) (e : Expr) (c' : Cursor) : Prop :=
  ∃ ts, c.rest = ts ++ c'.rest ∧ Phrase Reads level ts e.bare

/-- The tokens between two cursors are phrases with commas between them. -/
def SpansPhrases (c : Cursor) (args : List Expr) (c' : Cursor) : Prop :=
  ∃ (parts : List (List Token × Expr)) (ts : List Token), c.rest = ts ++ c'.rest
    ∧ (∀ part ∈ parts, Phrase Reads .expression part.1 part.2) ∧ Joined (parts.map (·.1)) ts
    ∧ parts.map (·.2) = args.map Expr.bare

theorem rules_phrase : Rules SpansPhrase SpansPhrases where
  literal := by
    rintro c v (⟨number, value⟩ | ⟨identifier, value⟩)
    · exact ⟨[c.current], rest_of_kind number (by decide), .number number value⟩
    · exact ⟨[c.current], rest_of_kind identifier (by decide), .constant identifier value⟩
  name {c} isName := ⟨[c.current], rest_of_kind isName.identifier (by decide), .name isName⟩
  call := by
    rintro c args c' isName opens ⟨parts, ts, taken, each, joined, trees⟩ closes
    refine ⟨c.current :: c.advance.current :: ts ++ [c'.current], ?_, ?_⟩
    · rw [rest_of_kind isName.identifier (by decide), rest_of_kind opens (by decide), taken,
        rest_of_kind closes (by decide)]
      simp
    · rw [bare_callNode, ← trees]
      exact .call isName opens each joined closes
  nothing c := ⟨[], [], rfl, forall_mem_nil _, .none, rfl⟩
  one := by
    rintro c e c' ⟨ts, taken, phrase⟩
    exact ⟨[(ts, e.bare)], ts, taken, forall_mem_singleton.mpr phrase, .one, rfl⟩
  more := by
    rintro c e c1 (_ | ⟨e', args⟩) c' ⟨ts, taken, phrase⟩ comma some ⟨parts, us, taken', each, joined, trees⟩
    · exact absurd rfl some
    · obtain ⟨part, parts, rfl, -⟩ := map_eq_cons_iff.mp trees
      refine ⟨(ts, e.bare) :: part :: parts, ts ++ c1.current :: us, ?_,
        forall_mem_cons.mpr ⟨phrase, each⟩, .more comma joined, congrArg _ trees⟩
      rw [taken, rest_of_kind comma (by decide), taken']
      simp
  group := by
    rintro c e c' opens ⟨ts, taken, phrase⟩ closes
    refine ⟨c.current :: ts ++ [c'.current], ?_, .group opens phrase closes⟩
    rw [rest_of_kind opens (by decide), taken, rest_of_kind closes (by decide)]
    simp
  plain | ⟨ts, taken, phrase⟩ => ⟨ts, taken, .plain phrase⟩
  stepped := by
    rintro c span name symbol c' ⟨ts, taken, phrase⟩ steps
    refine ⟨ts ++ [c'.current], ?_, .stepped (variable_of_phrase phrase rfl) steps⟩
    rw [taken, rest_of_steps steps]
    simp
  base | ⟨ts, taken, phrase⟩ => ⟨ts, taken, .base phrase⟩
  raised := by
    rintro c a c1 b c' ⟨ts, taken, phrase⟩ caret ⟨us, taken', phrase'⟩
    refine ⟨ts ++ c1.current :: us, ?_, .raised phrase caret phrase'⟩
    rw [taken, rest_of_kind caret (by decide), taken']
    simp
  unsigned | ⟨ts, taken, phrase⟩ => ⟨ts, taken, .unsigned phrase⟩
  signed := by
    rintro c op e c' sign ⟨ts, taken, phrase⟩
    refine ⟨c.current :: ts, ?_, .signed sign phrase⟩
    rw [rest_eq (kind_ne_eof sign nofun), taken, cons_append]
  steppedFirst {c} steps identifier := by
    refine ⟨[c.current, c.advance.current], ?_, .steppedFirst steps identifier⟩
    rw [rest_of_steps steps, rest_of_kind identifier (by decide)]
    rfl
  operand | ⟨ts, taken, phrase⟩ => ⟨ts, taken, .operand phrase⟩
  binary := by
    rintro p c a c1 op b c' ⟨ts, taken, phrase⟩ operator ⟨us, taken', phrase'⟩
    refine ⟨ts ++ c1.current :: us, ?_, .binary phrase operator phrase'⟩
    rw [taken, rest_eq (kind_ne_eof operator (by cases p <;> nofun)), taken']
    simp
  value | ⟨ts, taken, phrase⟩ => ⟨ts, taken, .value phrase⟩
  assign := by
    rintro c e c' isName assigns ⟨ts, taken, phrase⟩
    refine ⟨c.current :: c.advance.current :: ts, ?_, .assign isName assigns phrase⟩
    rw [rest_of_kind isName.identifier (by decide), rest_eq (kind_ne_eof assigns nofun),
      taken]
    rfl

/-- What the parser takes for an expression is one. -/
theorem expression_sound (fuel : Nat) : Obeys SpansPhrase .expression (expression fuel) :=
  obeys_expression rules_phrase fuel

end MapAlgebra.Parse
