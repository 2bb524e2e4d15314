import MapAlgebra.Proofs.Script.Consumption

/-! The spans of a syntax tree. They are put together from the starts of tokens, the ends of tokens and
the ends of subtrees. Nevertheless the span of a node encloses those of its children, which stand one
behind the other.
-/

namespace MapAlgebra

open List

/-- A place of a text. Its line and column are those of its offset. -/
structure Position.Within (source : Bytes) (p : Position) : Prop extends p.Marks source where
  inside : p.offset ≤ source.length

namespace Span

/-- The spans are those between places of a text, and stand one behind the other between two offsets. -/
def Aligned (source : Bytes) : (low high : Nat) → List Span → Prop
  | low, high, [] => low ≤ high
  | low, high, span :: rest =>
    span.start.Within source ∧ span.stop.Within source
    ∧ low ≤ span.start.offset ∧ span.start.offset ≤ span.stop.offset
    ∧ Aligned source span.stop.offset high rest

/-- The spans stand one behind the other inside of another. -/
def Encloses (source : Bytes) (span : Span) (inner : List Span) : Prop :=
  Aligned source span.start.offset span.stop.offset inner

/-- The bytes of a span. -/
def text (source : Bytes) (span : Span) : Bytes :=
  (source.take span.stop.offset).drop span.start.offset

end Span

open MapAlgebra.Span (Aligned)

mutual

/-- All nodes of an expression enclose their children, and variables are spelled as they stand in the
text.
-/
def Expr.Nested (source : Bytes) : Expr → Prop
  | .literal .. | .update .. => True
  | .read span name _ => span.text source = Text.toBytes name
  | .binary span _ left right =>
    span.Encloses source [left.span, right.span] ∧ left.Nested source ∧ right.Nested source
  | .unary span _ operand | .assign span _ _ operand _ =>
    span.Encloses source [operand.span] ∧ operand.Nested source
  | .builtin span _ _ args | .call span _ args _ =>
    span.Encloses source (args.map Expr.span) ∧ exprsNested source args

def exprsNested (source : Bytes) : List Expr → Prop
  | [] => True
  | e :: rest => e.Nested source ∧ exprsNested source rest

end

mutual

/-- All nodes of a statement enclose their children. -/
def Stmt.Nested (source : Bytes) : Stmt → Prop
  | .expr e => e.Nested source
  | .block span body => span.Encloses source (body.map Stmt.span) ∧ stmtsNested source body
  | .ifThen span test body | .loop span test body =>
    span.Encloses source [test.span, body.span] ∧ test.Nested source ∧ body.Nested source
  | .ifElse span test yes no =>
    span.Encloses source [test.span, yes.span, no.span]
    ∧ test.Nested source ∧ yes.Nested source ∧ no.Nested source

def stmtsNested (source : Bytes) : List Stmt → Prop
  | [] => True
  | s :: rest => s.Nested source ∧ stmtsNested source rest

end

/-- The span of a script is inside of its text, and all nodes enclose their children: the init block and
the statements behind it, and what is inside of these.
-/
structure Program.Nested (source : Bytes) (p : Program) : Prop where
  inside : Aligned source 0 source.length [p.span]
  parts : p.span.Encloses source (p.init.toList.map (·.span) ++ p.body.map Stmt.span)
  init : ∀ block ∈ p.init,
    block.span.Encloses source (block.body.map Stmt.span) ∧ stmtsNested source block.body
  body : stmtsNested source p.body

namespace Span.Aligned

variable {source : Bytes} {low low' middle high high' : Nat} {spans inner more : List Span}

theorem widen (aligned : Aligned source low high spans) (before : low' ≤ low) (behind : high ≤ high')
    : Aligned source low' high' spans := by
  induction spans generalizing low low' with
  | nil => exact Nat.le_trans before (Nat.le_trans aligned behind)
  | cons span spans ih =>
    obtain ⟨start, stop, first, forward, rest⟩ := aligned
    exact ⟨start, stop, Nat.le_trans before first, forward, ih rest (Nat.le_refl _)⟩

theorem append (aligned : Aligned source low middle spans) (aligned' : Aligned source middle high more)
    : Aligned source low high (spans ++ more) := by
  induction spans generalizing low with
  | nil => exact aligned'.widen aligned (Nat.le_refl _)
  | cons span spans ih =>
    obtain ⟨start, stop, first, forward, rest⟩ := aligned
    exact ⟨start, stop, first, forward, ih rest⟩

theorem sublist (aligned : Aligned source low high spans) (part : inner.Sublist spans)
    : Aligned source low high inner := by
  induction part generalizing low with
  | slnil => exact aligned
  | cons span _ ih =>
    obtain ⟨-, -, first, forward, rest⟩ := aligned
    exact (ih rest).widen (Nat.le_trans first forward) (Nat.le_refl _)
  | cons_cons span _ ih =>
    obtain ⟨start, stop, first, forward, rest⟩ := aligned
    exact ⟨start, stop, first, forward, ih rest⟩

/-- The last of some spans ends at a place, and the spans stand in front of it. -/
theorem last {z} (aligned : Aligned source low high (spans ++ [z]))
    : z.stop.Within source ∧ z.stop.offset ≤ high
      ∧ Aligned source low z.stop.offset (spans ++ [z]) := by
  induction spans generalizing low with
  | nil =>
    obtain ⟨start, stop, first, forward, inside⟩ := aligned
    exact ⟨stop, inside, start, stop, first, forward, Nat.le_refl _⟩
  | cons span spans ih =>
    obtain ⟨start, stop, first, forward, rest⟩ := aligned
    obtain ⟨place, inside, again⟩ := ih rest
    exact ⟨place, inside, start, stop, first, forward, again⟩

end Span.Aligned

theorem Expr.nested_callNode {source span name args}
    (encloses : span.Encloses source (args.map Expr.span)) (nested : exprsNested source args)
    : (Parse.callNode span name args).Nested source := by
  unfold Parse.callNode
  split <;> exact ⟨encloses, nested⟩

theorem Expr.span_callNode (span name args) : (Parse.callNode span name args).span = span := by
  unfold Parse.callNode
  split <;> rfl

namespace Parse

variable {source : Bytes} {low : Nat} {c c' : Cursor} {fuel : Nat}

/-- Tokens that stand in a text behind an offset, spelled as there, and where they end. -/
def Standing (source : Bytes) : (low : Nat) → List Token → (stop : Position) → Prop
  | low, [], stop => low ≤ stop.offset ∧ stop.Within source
  | low, t :: ts, stop =>
    low ≤ t.pos.offset ∧ t.pos.Within source ∧ t.stop.Within source
    ∧ Span.text source ⟨t.pos, t.stop⟩ = Text.toBytes t.literal
    ∧ Standing source t.stop.offset ts stop

/-- The tokens ahead of a cursor stand in the text behind an offset. -/
def Cursor.Ahead (source : Bytes) (low : Nat) (c : Cursor) : Prop :=
  Standing source low c.rest c.stop

/-- The token ahead, or the end of the script. -/
theorem Cursor.Ahead.current (ahead : c.Ahead source low)
    : low ≤ c.current.pos.offset ∧ c.current.pos.Within source
      ∧ c.Ahead source c.current.pos.offset := by
  unfold Ahead at ahead ⊢
  unfold Cursor.current
  cases rest : c.rest with
  | nil =>
    rw [rest] at ahead
    exact ⟨ahead.1, ahead.2, Nat.le_refl _, ahead.2⟩
  | cons t ts =>
    rw [rest] at ahead
    exact ⟨ahead.1, ahead.2.1, Nat.le_refl _, ahead.2⟩

theorem Standing.widen {low' ts stop} (standing : Standing source low ts stop) (before : low' ≤ low)
    : Standing source low' ts stop := by
  cases ts with
  | nil => exact ⟨Nat.le_trans before standing.1, standing.2⟩
  | cons t ts => exact ⟨Nat.le_trans before standing.1, standing.2⟩

/-- Behind spans that stand between an offset and the end of the last token, the other tokens stand. -/
structure Sits (source : Bytes) (low : Nat) (spans : List Span) (c : Cursor) : Prop where
  aligned : Aligned source low c.last.offset spans
  last : c.last.Within source
  ahead : c.Ahead source c.last.offset

theorem Cursor.Ahead.sits_spelled (ahead : c.Ahead source low) (more : c.kind ≠ .eof)
    : Sits source low [c.span] c.advance
      ∧ c.span.text source = Text.toBytes c.current.literal := by
  unfold Ahead at ahead
  rw [Cursor.rest_eq more] at ahead
  obtain ⟨before, start, stop, spelled, behind⟩ := ahead
  exact ⟨⟨⟨start, stop, before, Nat.le_add_right _ _, Nat.le_refl _⟩, stop, behind⟩, spelled⟩

theorem Cursor.Ahead.passed {kind} (ahead : c.Ahead source low) (here : c.kind = kind)
    (other : kind ≠ .eof)
    : Sits source low [c.span] c.advance :=
  (ahead.sits_spelled (here ▸ other)).1

namespace Sits

variable {spans first second inner : List Span} {a z : Span}

theorem append (sits : Sits source low first c) (sits' : Sits source c.last.offset second c')
    : Sits source low (first ++ second) c' :=
  { sits' with aligned := sits.aligned.append sits'.aligned }

theorem sublist (sits : Sits source low spans c) (part : inner.Sublist spans)
    : Sits source low inner c :=
  { sits with aligned := sits.aligned.sublist part }

/-- From the start of the first of some spans to a place behind them there is a span that encloses
them.
-/
theorem spanning {stop} (sits : Sits source low (a :: spans) c) (place : stop.Within source)
    (inside : stop.offset ≤ c.last.offset) (aligned : Aligned source low stop.offset (a :: spans))
    : Sits source low [⟨a.start, stop⟩] c ∧ Span.Encloses source ⟨a.start, stop⟩ (a :: spans) := by
  obtain ⟨start, behind, first, forward, rest⟩ := aligned
  have ends : a.start.offset ≤ stop.offset := rest.widen forward (Nat.le_refl _) |>.sublist (nil_sublist _)
  exact ⟨{ sits with aligned := ⟨start, place, first, ends, inside⟩ },
    start, behind, Nat.le_refl _, forward, rest⟩

/-- The span from the first of some spans up to the last token encloses them. -/
theorem upToLast (sits : Sits source low (a :: spans) c) (inner : List Span)
    (part : inner.Sublist (a :: spans))
    : Sits source low [⟨a.start, c.last⟩] c ∧ Span.Encloses source ⟨a.start, c.last⟩ inner := by
  obtain ⟨sits', encloses⟩ := sits.spanning sits.last (Nat.le_refl _) sits.aligned
  exact ⟨sits', encloses.sublist part⟩

/-- The span from the first of some spans up to the last of them encloses them. -/
theorem upTo (sits : Sits source low (a :: spans ++ [z]) c) (inner : List Span)
    (part : inner.Sublist (a :: spans ++ [z]))
    : Sits source low [⟨a.start, z.stop⟩] c ∧ Span.Encloses source ⟨a.start, z.stop⟩ inner := by
  obtain ⟨place, inside, aligned⟩ := sits.aligned.last
  obtain ⟨sits', encloses⟩ := sits.spanning place inside aligned
  exact ⟨sits', encloses.sublist part⟩

end Sits

/-- An expression that is taken is nested, and its span stands behind what is in front. -/
def Nests (source : Bytes) (c : Cursor) (e : Expr) (c' : Cursor) : Prop :=
  ∀ ⦃low⦄, c.Ahead source low → e.Nested source ∧ Sits source low [e.span] c'

/-- Expressions that are taken behind a token are nested, and their spans stand behind it. -/
def AllNest (source : Bytes) (c : Cursor) (args : List Expr) (c' : Cursor) : Prop :=
  c.last.Within source → c.Ahead source c.last.offset
    → exprsNested source args ∧ Sits source c.last.offset (args.map Expr.span) c'

theorem call_nests {args} (identifier : c.kind = .identifier) (opens : c.advance.kind = .leftParen)
    (inside : AllNest source c.advance.advance args c') (closes : c'.kind = .rightParen)
    : Nests source c (callNode { start := c.current.pos, stop := c'.advance.last } c.current.literal args)
        c'.advance := by
  intro low ahead
  have named := ahead.passed identifier (by decide)
  have opened := named.ahead.passed opens (by decide)
  obtain ⟨nested, sits⟩ := inside opened.last opened.ahead
  have closed := sits.ahead.passed closes (by decide)
  obtain ⟨sits', encloses⟩ := (((named.append opened).append sits).append closed).upToLast
    (args.map Expr.span) (.cons _ (.cons _ (sublist_append_left _ _)))
  rw [Expr.span_callNode]
  exact ⟨Expr.nested_callNode encloses nested, sits'⟩

/-- An expression in parentheses has the span that it has without them. -/
theorem group_nests {e} (opens : c.kind = .leftParen) (inside : Nests source c.advance e c')
    (closes : c'.kind = .rightParen)
    : Nests source c e c'.advance := by
  intro low ahead
  have opened := ahead.passed opens (by decide)
  obtain ⟨nested, sits⟩ := inside opened.ahead
  have closed := sits.ahead.passed closes (by decide)
  exact ⟨nested, ((opened.append sits).append closed).sublist (.cons _ (.cons_cons _ (.cons _ .slnil)))⟩

theorem binary_nests {left right c1} (op) (first : Nests source c left c1) (more : c1.kind ≠ .eof)
    (second : Nests source c1.advance right c')
    : Nests source c (.binary { start := left.span.start, stop := right.span.stop } op left right) c' := by
  intro low ahead
  obtain ⟨nested, sits⟩ := first ahead
  obtain ⟨passed, -⟩ := sits.ahead.sits_spelled more
  obtain ⟨nested', sits'⟩ := second passed.ahead
  have all : Sits source low (left.span :: [c1.span] ++ [right.span]) c' :=
    (sits.append passed).append sits'
  obtain ⟨whole, encloses⟩ := all.upTo [left.span, right.span]
    (.cons_cons _ (.cons _ (.refl _)))
  exact ⟨⟨encloses, nested, nested'⟩, whole⟩

theorem Cursor.kind_ne_eof_of_steps (steps : Grammar.Steps c.current) : c.kind ≠ .eof := by
  rintro ends
  rcases steps with steps | steps <;> exact absurd (ends.symm.trans steps) (by decide)

theorem rules_nest : Rules (fun _ => Nests source) (AllNest source) where
  literal := by
    intro c v numeral low ahead
    rcases numeral with ⟨number, -⟩ | ⟨identifier, -⟩
    · exact ⟨trivial, ahead.passed number (by decide)⟩
    · exact ⟨trivial, ahead.passed identifier (by decide)⟩
  name := by
    intro c isName low ahead
    have more : c.kind ≠ .eof := fun ends => absurd (isName.identifier.symm.trans ends) (by decide)
    obtain ⟨passed, spelled⟩ := ahead.sits_spelled more
    exact ⟨spelled, passed⟩
  call isName := call_nests isName.identifier
  nothing _ last ahead := ⟨trivial, Nat.le_refl _, last, ahead⟩
  one nests _ ahead := by
    obtain ⟨nested, sits⟩ := nests ahead
    exact ⟨⟨nested, trivial⟩, sits⟩
  more := by
    intro c e c1 args c' nests comma _ later last ahead
    obtain ⟨nested, sits⟩ := nests ahead
    have passed := sits.ahead.passed comma (by decide)
    obtain ⟨nested', sits'⟩ := later passed.last passed.ahead
    refine ⟨⟨nested, nested'⟩, ((sits.append passed).append sits').sublist ?_⟩
    exact .cons_cons _ (.cons _ (.refl _))
  group := group_nests
  plain := id
  stepped := by
    intro c span name symbol c' nests steps low ahead
    obtain ⟨-, sits⟩ := nests ahead
    obtain ⟨passed, -⟩ := sits.ahead.sits_spelled (Cursor.kind_ne_eof_of_steps steps)
    exact ⟨trivial, ((sits.append passed).upToLast [] (nil_sublist _)).1⟩
  base := id
  raised first caret second := binary_nests _ first (caret ▸ by decide) second
  unsigned := id
  signed := by
    intro c op e c' sign nests low ahead
    obtain ⟨passed, -⟩ := ahead.sits_spelled (Cursor.kind_ne_eof sign nofun)
    obtain ⟨nested, sits⟩ := nests passed.ahead
    -- The operator is no node, but the span of the node starts with it.
    have all : Sits source low (c.span :: [] ++ [e.span]) c' := passed.append sits
    obtain ⟨whole, encloses⟩ := all.upTo [e.span] (.cons _ (.refl _))
    exact ⟨⟨encloses, nested⟩, whole⟩
  steppedFirst := by
    intro c steps identifier low ahead
    obtain ⟨passed, -⟩ := ahead.sits_spelled (Cursor.kind_ne_eof_of_steps steps)
    have named := passed.ahead.passed identifier (by decide)
    exact ⟨trivial, ((passed.append named).upToLast [] (nil_sublist _)).1⟩
  operand := id
  binary := by
    intro p c a c1 op b c' first operator second
    have more := Cursor.kind_ne_eof operator (by cases p <;> nofun)
    exact binary_nests op first more second
  value := id
  assign := by
    intro c e c' isName assigns nests low ahead
    have named := ahead.passed isName.identifier (by decide)
    obtain ⟨passed, -⟩ := named.ahead.sits_spelled (Cursor.kind_ne_eof assigns nofun)
    obtain ⟨nested, sits⟩ := nests passed.ahead
    have all : Sits source low (c.span :: [c.advance.span] ++ [e.span]) c' :=
      (named.append passed).append sits
    obtain ⟨whole, encloses⟩ := all.upTo [e.span] (.cons _ (.cons _ (.refl _)))
    exact ⟨⟨encloses, nested⟩, whole⟩

theorem expression_nests {e} (parsed : expression fuel c = .ok e c') : Nests source c e c' :=
  obeys_expression rules_nest fuel parsed

/-- A statement is nested, and its span stands behind what is in front. Behind nothing the tokens stand as
before.
-/
def Outcome.Nests (source : Bytes) (low : Nat) (outcome : Outcome (Option Stmt)) : Prop :=
  match outcome.value with
  | none => outcome.cursor.Ahead source low
  | some s => s.Nested source ∧ Sits source low [s.span] outcome.cursor

/-- Statements are nested, and their spans stand one behind the other in front of what is left. -/
def Outcome.AllNest (source : Bytes) (low : Nat) (outcome : Outcome (List Stmt)) : Prop :=
  stmtsNested source outcome.value
  ∧ ∃ high, Aligned source low high (outcome.value.map Stmt.span) ∧ outcome.cursor.Ahead source high

/-- The statements that a parser takes without a problem are nested. -/
def NestsClean (source : Bytes) (parser : StmtParser) : Prop :=
  ∀ ⦃low c⦄, c.Ahead source low → (parser c).problems = [] → (parser c).Nests source low

variable {parser : StmtParser} {spans inner : List Span} {a : Span} {e : Expr}

theorem Outcome.Nests.followed {first : Outcome (Option Stmt)} {more : Outcome (List Stmt)}
    (nests : first.Nests source low)
    (later : ∀ {low}, first.cursor.Ahead source low → more.AllNest source low)
    : Outcome.AllNest source low ⟨first.value.toList ++ more.value, first.problems ++ more.problems,
        more.cursor⟩ := by
  obtain ⟨value, problems, cursor⟩ := first
  cases value with
  | none => exact later nests
  | some s =>
    obtain ⟨nested, sits⟩ := nests
    obtain ⟨all, high, aligned, ahead⟩ := later sits.ahead
    exact ⟨⟨nested, all⟩, high, sits.aligned.append aligned, ahead⟩

/-- A statement that ends with another one, behind what stands in front of that. -/
theorem Outcome.Nests.map {outcome : Outcome (Option Stmt)} {node}
    (nests : outcome.Nests source c.last.offset) (sits : Sits source low (a :: spans) c)
    (part : inner.Sublist (a :: spans)) (problems : Problems)
    (whole : ∀ s, s.Nested source
      → Span.Encloses source ⟨a.start, outcome.cursor.last⟩ (inner ++ [s.span])
      → (node s).Nested source ∧ (node s).span = ⟨a.start, outcome.cursor.last⟩)
    : Outcome.Nests source low ⟨outcome.value.map node, problems, outcome.cursor⟩ := by
  obtain ⟨value, problems', cursor⟩ := outcome
  cases value with
  | none => exact Standing.widen nests (sits.aligned.sublist (nil_sublist _))
  | some s =>
    obtain ⟨nested, sits'⟩ := nests
    obtain ⟨sits'', encloses⟩ := (sits.append sits').upToLast (inner ++ [s.span])
      (part.append (.refl _))
    obtain ⟨nested', same⟩ := whole s nested encloses
    exact ⟨nested', same ▸ sits''⟩

theorem condition_nests {keyword} (parsed : condition keyword fuel c = .ok e c')
    : Nests source c e c' := by
  unfold condition at parsed
  split at parsed
  · next opens =>
    obtain ⟨e', c1, inside, closing⟩ := Parsed.andThen_eq_ok.mp parsed
    obtain ⟨closes, rfl, rfl⟩ := closed_eq_ok.mp closing
    exact group_nests opens (expression_nests inside) closes
  · cases parsed

theorem orRecover_nests {parsed : Parsed Expr} {next}
    (clean : (parsed.orRecover next).problems = [])
    (goesOn : ∀ e c, parsed = .ok e c → (next e c).problems = [] → (next e c).Nests source low)
    : (parsed.orRecover next).Nests source low := by
  cases parsed with
  | ok e c => exact goesOn e c rfl clean
  | fail fault c => cases clean

theorem exprStatement_nests (fuel) : NestsClean source (exprStatement fuel) := by
  intro low c ahead clean
  refine orRecover_nests clean fun e c1 taken clean => ?_
  obtain ⟨nested, sits⟩ := expression_nests taken ahead
  split at clean
  · next semicolon =>
    rw [if_pos semicolon]
    have passed := sits.ahead.passed semicolon (by decide)
    exact ⟨nested, (sits.append passed).sublist (.cons_cons _ (.cons _ .slnil))⟩
  · cases clean

section

variable (nests : NestsClean source parser)
include nests

theorem branch_nests : NestsClean source (branch parser) := by
  intro low c ahead clean
  unfold branch at clean ⊢
  split at clean
  · next semicolon =>
    rw [if_pos semicolon]
    have passed := ahead.passed semicolon (by decide)
    obtain ⟨whole, encloses⟩ := passed.upToLast [] (nil_sublist _)
    exact ⟨⟨encloses, trivial⟩, whole⟩
  · next other =>
    rw [if_neg other]
    exact nests ahead clean

theorem afterBranch_nests {yes : Outcome (Option Stmt)} (sits : Sits source low [a, e.span] c)
    (nested : e.Nested source) (first : yes.problems = [] → yes.Nests source c.last.offset)
    (clean : (afterBranch parser a.start e yes).problems = [])
    : (afterBranch parser a.start e yes).Nests source low := by
  obtain ⟨value, problems, cursor⟩ := yes
  cases value with
  | none => exact Standing.widen (first clean) (sits.aligned.sublist (nil_sublist _))
  | some s =>
    unfold afterBranch at clean ⊢
    dsimp only at clean ⊢
    split at clean
    · next more =>
      rw [if_pos more]
      obtain ⟨cleanYes, cleanNo⟩ := append_eq_nil_iff.mp clean
      obtain ⟨nestedYes, sitsYes⟩ := first cleanYes
      have passed := sitsYes.ahead.passed more (by decide)
      -- Of the condition, the first branch and the words around them, the nodes are left.
      refine Outcome.Nests.map (branch_nests nests passed.ahead cleanNo)
        ((sits.append sitsYes).append passed)
        (.cons _ (.cons_cons e.span (.cons_cons s.span (.cons _ .slnil)))) _
        fun no nestedNo encloses => ⟨⟨encloses, nested, nestedYes, nestedNo⟩, rfl⟩
    · next last =>
      rw [if_neg last]
      have whole : Outcome.Nests source low
          ⟨Option.map (.ifThen ⟨a.start, cursor.last⟩ e) (some s), problems, cursor⟩ :=
        (first clean).map sits (.cons _ (.refl [e.span])) _
          fun yes nestedYes encloses => ⟨⟨encloses, nested, nestedYes⟩, rfl⟩
      exact whole

section

variable (ahead : c.Ahead source low)
include ahead

theorem conditional_nests (starts : c.kind = .ifWord)
    (clean : (conditional parser fuel c).problems = [])
    : (conditional parser fuel c).Nests source low := by
  rw [conditional_eq] at clean ⊢
  refine orRecover_nests clean fun test c1 tested clean => ?_
  have passed := ahead.passed starts (by decide)
  obtain ⟨nested, sits⟩ := condition_nests tested passed.ahead
  exact afterBranch_nests nests (passed.append sits) nested (branch_nests nests sits.ahead) clean

theorem loop_nests (starts : c.kind = .whileWord) (clean : (loop parser fuel c).problems = [])
    : (loop parser fuel c).Nests source low := by
  rw [loop_eq] at clean ⊢
  refine orRecover_nests clean fun test c1 tested clean => ?_
  have passed := ahead.passed starts (by decide)
  obtain ⟨nested, sits⟩ := condition_nests tested passed.ahead
  exact (branch_nests nests sits.ahead clean).map (passed.append sits) (.cons _ (.refl [test.span])) _
    fun body nestedBody encloses => ⟨⟨encloses, nested, nestedBody⟩, rfl⟩

theorem statements_nest (clean : (statements parser fuel c).problems = [])
    : (statements parser fuel c).AllNest source low := by
  induction fuel generalizing c low with
  | zero => exact ⟨trivial, low, Nat.le_refl _, ahead⟩
  | succ fuel ih =>
    unfold statements at clean ⊢
    split at clean
    · next ended =>
      rw [if_pos ended]
      exact ⟨trivial, low, Nat.le_refl _, ahead⟩
    · next more =>
      rw [if_neg more]
      obtain ⟨cleanFirst, cleanMore⟩ := append_eq_nil_iff.mp clean
      exact (nests ahead cleanFirst).followed fun ahead => ih ahead cleanMore

theorem block_nests (opens : c.kind = .leftBrace) (clean : (block parser fuel c).problems = [])
    : (Stmt.block (block parser fuel c).value.1 (block parser fuel c).value.2).Nested source
      ∧ Sits source low [(block parser fuel c).value.1] (block parser fuel c).cursor := by
  unfold block at clean ⊢
  dsimp only at clean ⊢
  have opened := ahead.passed opens (by decide)
  split at clean
  · next closes =>
    rw [if_pos closes]
    obtain ⟨nested, high, aligned, behind⟩ := statements_nest nests opened.ahead clean
    have closed := behind.passed closes (by decide)
    have all := Sits.mk (opened.aligned.append (aligned.append closed.aligned)) closed.last closed.ahead
    obtain ⟨whole, encloses⟩ := all.upToLast
      ((statements parser fuel c.advance).value.map Stmt.span)
      (.cons _ (sublist_append_left _ _))
    exact ⟨⟨encloses, nested⟩, whole⟩
  · exact absurd clean (append_ne_nil_of_right_ne_nil _ (cons_ne_nil _ _))

end

end

theorem statement_nests (fuel) : NestsClean source (statement fuel) := by
  induction fuel with
  | zero => exact fun low c ahead _ => ahead
  | succ fuel ih =>
    intro low c ahead clean
    unfold statement at clean ⊢
    split at clean
    · next opens => exact block_nests ih ahead opens clean
    · next starts => exact conditional_nests ih ahead starts clean
    · next starts => exact loop_nests ih ahead starts clean
    · next semicolon =>
      have passed := ahead.passed semicolon (by decide)
      exact Standing.widen passed.ahead (passed.aligned.sublist (nil_sublist _))
    · cases clean
    · exact exprStatement_nests (fuel + 1) ahead clean

theorem toplevel_nest (nests : NestsClean source parser) (ahead : c.Ahead source low)
    (clean : (toplevel parser fuel c).problems = [])
    : (toplevel parser fuel c).AllNest source low := by
  have same := toplevel_eq_statements (Or.inl clean)
  rw [same] at clean ⊢
  exact statements_nest nests ahead clean

/-- The init block encloses its statements, and the other tokens stand behind it. -/
theorem optionalInit_nests (ahead : c.Ahead source low) (clean : (optionalInit fuel c).problems = [])
    : (∀ block ∈ (optionalInit fuel c).value,
        block.span.Encloses source (block.body.map Stmt.span) ∧ stmtsNested source block.body)
      ∧ ∃ high, Aligned source low high ((optionalInit fuel c).value.toList.map (·.span))
        ∧ (optionalInit fuel c).cursor.Ahead source high := by
  unfold optionalInit at clean ⊢
  split at clean
  · next starts =>
    rw [if_pos starts]
    unfold initBlock at clean ⊢
    dsimp only at clean ⊢
    split at clean
    · next opens =>
      rw [if_pos opens]
      have passed := ahead.passed starts (by decide)
      obtain ⟨⟨encloses, nested⟩, sits⟩ := block_nests (statement_nests fuel) passed.ahead opens clean
      -- The span of the init block starts with its word, that of the block inside with the brace.
      obtain ⟨whole, -, -, first, -, inside⟩ := (passed.append sits).upToLast [_] (.cons _ (.refl _))
      refine ⟨fun block same => ?_, _, whole.aligned, whole.ahead⟩
      cases same
      exact ⟨encloses.widen first inside, nested⟩
    · cases clean
  · next other =>
    rw [if_neg other]
    refine ⟨fun block absent => ?_, low, Nat.le_refl _, ahead⟩
    cases absent

theorem program_nested (ahead : c.Ahead source low) (clean : (program c).problems = [])
    : (program c).value.Nested source := by
  obtain ⟨-, start, ahead⟩ := ahead.current
  obtain ⟨cleanInit, cleanBody⟩ := append_eq_nil_iff.mp clean
  obtain ⟨init, middle, first, ahead⟩ := optionalInit_nests ahead cleanInit
  obtain ⟨nested, high, second, ahead⟩ := toplevel_nest (statement_nests _) ahead cleanBody
  obtain ⟨behind, stop, -⟩ := ahead.current
  have parts := (first.append second).widen (Nat.le_refl _) behind
  exact ⟨⟨start, stop, Nat.zero_le _, parts.sublist (nil_sublist _), stop.inside⟩, parts, init, nested⟩

section

variable {script : Bytes} {front taken behind text : List Scalar}

open Position (start take_offset marks_advanceAll)

theorem offset_advanceAll_le (split : Scalar.decode script = front ++ behind)
    : (start.advanceAll front).offset ≤ script.length := by
  have size := Scalar.size_decode script
  rw [split, Scalar.size_append] at size
  rw [Position.offset_advanceAll, show start.offset = 0 from rfl]
  omega

/-- Going over scalars from the start leads to a place of the text, also if that goes on behind them. -/
theorem within_advanceAll (part : script <+: source) (split : Scalar.decode script = front ++ behind)
    : (start.advanceAll front).Within source := by
  obtain ⟨more, rfl⟩ := part
  have inside := offset_advanceAll_le split
  have marks := marks_advanceAll split
  refine ⟨⟨?_, ?_⟩, ?_⟩
  · rw [take_append_of_le_length inside]
    exact marks.line
  · rw [take_append_of_le_length inside]
    exact marks.column
  · rw [length_append]
    omega

theorem text_advanceAll (part : script <+: source)
    (split : Scalar.decode script = front ++ taken ++ behind)
    : Span.text source ⟨start.advanceAll front, start.advanceAll (front ++ taken)⟩
      = taken.flatMap (·.bytes) := by
  obtain ⟨more, rfl⟩ := part
  rw [Span.text, take_append_of_le_length (offset_advanceAll_le split), (take_offset split).1,
    flatMap_append]
  refine drop_left' ?_
  rw [Position.offset_advanceAll]
  exact (Nat.zero_add _).symm

/-- The tokens of a text that has no malformed ones stand in it, by induction on them. -/
theorem standing_of_laid {tokens p} (laid : Lexeme.Laid text p tokens) (part : script <+: source)
    (split : Scalar.decode script = front ++ text) (place : p = start.advanceAll front)
    (sound : ∀ t ∈ tokens, t.kind ≠ .error)
    : ∃ ts stop, tokens = ts ++ [.eof stop] ∧ Standing source p.offset ts stop := by
  induction laid generalizing front with
  | @last text p blank =>
    refine ⟨[], _, rfl, ?_, ?_⟩
    · rw [Position.offset_advanceAll]
      exact Nat.le_add_right _ _
    · rw [place, ← Position.advanceAll_append]
      exact within_advanceAll part (split.trans (append_nil _).symm)
  | @token gap taken rest p t ts _ _ _ pos spelled stops _ _ ih =>
    obtain ⟨proper, sound⟩ := forall_mem_cons.mp sound
    rw [← append_assoc, ← append_assoc] at split
    have stop := stops proper
    -- All places are counted from the start of the text, over what stands in front of them.
    rw [place, ← Position.advanceAll_append start front] at pos stop ih
    rw [← Position.advanceAll_append start] at stop ih
    obtain ⟨ts, last, rfl, standing⟩ := ih split rfl sound
    refine ⟨t :: ts, last, rfl, ?_, ?_, ?_, ?_, ?_⟩
    · rw [pos, place, Position.advanceAll_append, Position.offset_advanceAll _ gap]
      exact Nat.le_add_right _ _
    · rw [pos]
      exact within_advanceAll part (split.trans (append_assoc ..))
    · rw [stop]
      exact within_advanceAll part split
    · rw [pos, stop, spelled proper]
      exact text_advanceAll part split
    · rw [stop]
      exact standing

end

end Parse

/-- The spans of a script nest: each lies within that of its parent and behind those of its elder siblings,
its ends are places of the text, and the span of a name spells it.
-/
theorem parse_nested {source : Bytes} {script : Script} (parsed : parse source = .ok script)
    : script.program.Nested source := by
  have sound := (derives_of_parse parsed).2
  obtain ⟨clean, rfl⟩ := parse_eq_ok_iff.mp parsed
  obtain ⟨ts, stop, tokens, standing⟩ := Parse.standing_of_laid (laid_allTokens source).2
    (List.takeWhile_prefix _) (nil_append _).symm rfl sound
  obtain ⟨rfl, last⟩ := append_inj' tokens rfl
  cases last
  exact Parse.program_nested standing clean

/-- A script with an init block, parentheses, an empty branch and characters of two bytes in comments. -/
def braced : Bytes :=
  Text.toBytes
    "init \x7b k = 2; \x7d /* é\n*/ if ((a)) ; else \x7b b += f(a, (k)) ^ 2; \x7d while (b) b--; // ü"

theorem parse_nested_braced
    : ∃ script, parse braced = .ok script ∧ script.program.init.isSome = true
      ∧ script.program.body.map (·.span.start.offset) = [25, 65] ∧ script.program.Nested braced := by
  have accepted : (parse braced).toOption.any (fun script => script.program.init.isSome
      && script.program.body.map (·.span.start.offset) == [25, 65]) = true := by
    decide +kernel
  obtain ⟨script, parsed, holds⟩ := exists_parsed accepted
  obtain ⟨init, body⟩ := (Bool.and_eq_true ..).mp holds
  exact ⟨script, parsed, init, eq_of_beq body, parse_nested parsed⟩

end MapAlgebra
