import MapAlgebra.Proofs.Script.Completeness
import MapAlgebra.Proofs.Script.Totality

/-! The parser of scripts follows the grammar. What it takes without a problem is a script, with every
alternative at the nearest condition, and it takes every script.
-/

namespace MapAlgebra.Parse

open Grammar
open List
open Option
open Cursor

variable {ts us rest : List Token} {t : Token} {s : Option Stmt} {c : Cursor} {fuel bound : Nat}
variable {parser : StmtParser}

/-- The tokens that statements with a tree start with. -/
def startsStatement (kind : TokenKind) : Bool :=
  startsExpression kind || kind = .leftBrace || kind = .ifWord || kind = .whileWord

variable {Denotes : String → Sample → Prop} {test : Expr} {keyword : TokenKind}

theorem Head.starts (head : Head Denotes keyword ts test)
    : ∃ t us, ts = t :: us ∧ t.kind = keyword := by
  cases head with
  | condition starts => exact ⟨_, _, rfl, starts⟩

theorem Head.length_pos (head : Head Denotes keyword ts test)
    : 0 < ts.length := by
  obtain ⟨t, us, rfl, -⟩ := Head.starts head
  exact Nat.succ_pos _

/-- An empty statement is a semicolon, and the others start otherwise. -/
theorem Sentence.starts (sentence : Sentence Denotes ts s)
    : ∃ t us, ts = t :: us
      ∧ match s with
        | none => us = [] ∧ t.kind = .semicolon
        | some _ => startsStatement t.kind = true := by
  cases sentence with
  | empty ends => exact ⟨_, _, rfl, rfl, ends⟩
  | expr value _ =>
    obtain ⟨t, us, rfl, starts⟩ := (Phrase.begins value).starts
    exact ⟨t, _, rfl, by simp [startsStatement, starts.startsExpression]⟩
  | block opens _ _ => exact ⟨_, _, rfl, by rw [opens]; rfl⟩
  | ifThen head _ | loop head _ =>
    obtain ⟨t, us, rfl, kind⟩ := Head.starts head
    exact ⟨t, _, rfl, by rw [kind]; rfl⟩
  | ifElse head _ _ _ =>
    obtain ⟨t, us, rfl, kind⟩ := Head.starts head
    exact ⟨t, _, rfl, by rw [kind]; rfl⟩

/-- Whatever a parser takes without a problem, of so many tokens at most, is a statement. -/
def SoundBelow (bound : Nat) (parser : StmtParser) : Prop :=
  ∀ c : Cursor, c.rest.length < bound → (parser c).problems = []
    → ∃ ts, c.rest = ts ++ (parser c).cursor.rest
      ∧ Sentence Reads ts ((parser c).value.map Stmt.bare)

theorem condition_sound {keyword c' e} (parsed : condition keyword fuel c = .ok e c')
    : ∃ opening closing ts, c.rest = opening :: ts ++ closing :: c'.rest ∧ opening.kind = .leftParen
      ∧ closing.kind = .rightParen ∧ Phrase Reads .expression ts e.bare := by
  unfold condition at parsed
  split at parsed
  · next opens =>
    have token := rest_of_kind opens (by decide)
    obtain ⟨e', c1, inside, closing⟩ := Parsed.andThen_eq_ok.mp parsed
    obtain ⟨closes, rfl, rfl⟩ := closed_eq_ok.mp closing
    obtain ⟨ts, taken, phrase⟩ := expression_sound fuel inside
    have token' := rest_of_kind closes (by decide)
    refine ⟨_, _, ts, ?_, opens, closes, phrase⟩
    rw [token, taken, token']
    rfl
  · exact nomatch parsed

section

variable (sound : SoundBelow bound parser)
include sound

theorem branch_sound (small : c.rest.length < bound) (clean : (branch parser c).problems = [])
    : ∃ us s tree, c.rest = us ++ (branch parser c).cursor.rest ∧ Sentence Reads us s
      ∧ (branch parser c).value = some tree ∧ tree.bare = controlled s := by
  unfold branch at clean ⊢
  split at clean
  · next ends =>
    rw [if_pos ends]
    exact ⟨[_], none, _, rest_of_kind ends (by decide), .empty ends, rfl, rfl⟩
  · next other =>
    rw [if_neg other]
    obtain ⟨us, taken, sentence⟩ := sound c small clean
    cases value : (parser c).value with
    | some tree => exact ⟨us, _, tree, taken, sentence, rfl, by rw [value]; rfl⟩
    | none =>
      rw [value] at sentence
      obtain ⟨t, us', rfl, -, kind⟩ := Sentence.starts sentence
      exact absurd ((kind_of_rest taken).trans kind) other

theorem statements_sound (small : c.rest.length < bound)
    (clean : (statements parser fuel c).problems = [])
    : ∃ parts : List (List Token × Option Stmt),
      c.rest = parts.flatMap (·.1) ++ (statements parser fuel c).cursor.rest
      ∧ (∀ part ∈ parts, Sentence Reads part.1 part.2)
      ∧ (statements parser fuel c).value.map Stmt.bare = parts.filterMap (·.2) := by
  induction fuel generalizing c with
  | zero => exact ⟨[], rfl, forall_mem_nil _, rfl⟩
  | succ fuel ih =>
    unfold statements at clean ⊢
    split at clean
    · next ends =>
      rw [if_pos ends]
      exact ⟨[], rfl, forall_mem_nil _, rfl⟩
    · next more =>
      rw [if_neg more]
      obtain ⟨clean, clean'⟩ := append_eq_nil_iff.mp clean
      obtain ⟨ts, taken, sentence⟩ := sound c small clean
      have small' : (parser c).cursor.rest.length < bound := by
        rw [taken, length_append] at small
        omega
      obtain ⟨parts, taken', each, trees⟩ := ih small' clean'
      refine ⟨(ts, (parser c).value.map Stmt.bare) :: parts, ?_, ?_, ?_⟩
      · rw [flatMap_cons, append_assoc, ← taken', ← taken]
      · exact forall_mem_cons.mpr ⟨sentence, each⟩
      · rw [map_append, trees]
        cases (parser c).value <;> rfl

theorem block_sound (small : c.rest.length < bound + 1) (opens : c.kind = .leftBrace)
    (clean : (block parser fuel c).problems = [])
    : ∃ (opening closing : Token) (parts : List (List Token × Option Stmt)),
      c.rest = opening :: parts.flatMap (·.1) ++ closing :: (block parser fuel c).cursor.rest
      ∧ opening.kind = .leftBrace ∧ closing.kind = .rightBrace
      ∧ (∀ part ∈ parts, Sentence Reads part.1 part.2)
      ∧ (block parser fuel c).value.2.map Stmt.bare = parts.filterMap (·.2) := by
  have token := rest_of_kind opens (by decide)
  have small' : c.advance.rest.length < bound := by
    rw [token, length_cons] at small
    omega
  unfold block at clean ⊢
  dsimp only at clean ⊢
  split at clean
  · next closes =>
    rw [if_pos closes]
    obtain ⟨parts, taken, each, trees⟩ := statements_sound sound small' clean
    have token' := rest_of_kind closes (by decide)
    refine ⟨_, _, parts, ?_, opens, closes, each, trees⟩
    rw [token, taken, token']
    rfl
  · exact absurd (append_eq_nil_iff.mp clean).2 (cons_ne_nil _ _)

end

theorem head_sound {name e c'} (starts : c.kind = keyword) (more : keyword ≠ .eof)
    (parsed : condition name fuel c.advance = .ok e c')
    : ∃ ts, c.rest = ts ++ c'.rest ∧ Head Reads keyword ts e.bare ∧ c'.rest.length < c.rest.length := by
  have token := rest_of_kind starts more
  obtain ⟨opening, closing, ts, taken, opens, closes, phrase⟩ := condition_sound parsed
  refine ⟨_ :: opening :: ts ++ [closing], ?_, .condition starts opens phrase closes, ?_⟩
  · rw [token, taken]
    simp
  · rw [token, taken]
    simp only [length_append, length_cons]
    omega

theorem Parsed.ok_of_clean {parsed : Parsed Expr} {next}
    (clean : (parsed.orRecover next).problems = [])
    : ∃ e c, parsed = .ok e c := by
  cases parsed with
  | ok e c => exact ⟨e, c, rfl⟩
  | fail fault c => exact nomatch clean

theorem prefix_afterBranch (start test) (yes : Outcome (Option Stmt))
    : yes.problems <+: (afterBranch parser start test yes).problems := by
  unfold afterBranch
  split
  · exact prefix_refl _
  · split
    · exact prefix_append _ _
    · exact prefix_refl _

theorem conditional_sound (sound : SoundBelow bound parser) (small : c.rest.length < bound + 1)
    (starts : c.kind = .ifWord) (clean : (conditional parser fuel c).problems = [])
    : ∃ ts, c.rest = ts ++ (conditional parser fuel c).cursor.rest
      ∧ Sentence Reads ts ((conditional parser fuel c).value.map Stmt.bare) := by
  rw [conditional_eq] at clean ⊢
  obtain ⟨test, c1, parsed⟩ := Parsed.ok_of_clean clean
  obtain ⟨ts, taken, head, shorter⟩ := head_sound starts (by decide) parsed
  rw [parsed, Parsed.orRecover] at clean ⊢
  have small1 : c1.rest.length < bound := by omega
  obtain ⟨us, s, yes, taken1, first, value, tree⟩ := branch_sound sound small1
    (prefix_nil.mp (clean ▸ prefix_afterBranch c.current.pos test (branch parser c1)))
  simp only [afterBranch, value] at clean ⊢
  split at clean
  · next otherwise =>
    rw [if_pos otherwise]
    have token := rest_of_kind otherwise (by decide)
    have small2 : (branch parser c1).cursor.advance.rest.length < bound := by
      rw [taken1, length_append, token, length_cons] at small1
      omega
    obtain ⟨vs, s', no, taken2, second, value', tree'⟩ :=
      branch_sound sound small2 (append_eq_nil_iff.mp clean).2
    refine ⟨ts ++ us ++ (branch parser c1).cursor.current :: vs, ?_, ?_⟩
    · rw [taken, taken1, token, taken2]
      simp
    · rw [value', map_some, map_some, Stmt.bare, tree, tree']
      exact .ifElse head first otherwise second
  · next other =>
    rw [if_neg other]
    refine ⟨ts ++ us, ?_, ?_⟩
    · rw [taken, taken1, append_assoc]
    · rw [map_some, Stmt.bare, tree]
      exact .ifThen head first

theorem loop_sound (sound : SoundBelow bound parser) (small : c.rest.length < bound + 1)
    (starts : c.kind = .whileWord) (clean : (loop parser fuel c).problems = [])
    : ∃ ts, c.rest = ts ++ (loop parser fuel c).cursor.rest
      ∧ Sentence Reads ts ((loop parser fuel c).value.map Stmt.bare) := by
  rw [loop_eq] at clean ⊢
  obtain ⟨test, c1, parsed⟩ := Parsed.ok_of_clean clean
  obtain ⟨ts, taken, head, shorter⟩ := head_sound starts (by decide) parsed
  rw [parsed, Parsed.orRecover] at clean ⊢
  obtain ⟨us, s, body, taken1, inner, value, tree⟩ := branch_sound sound (by omega) clean
  refine ⟨ts ++ us, ?_, ?_⟩
  · rw [taken, taken1, append_assoc]
  · rw [value, map_some, map_some, Stmt.bare, tree]
    exact .loop head inner

theorem exprStatement_sound (clean : (exprStatement fuel c).problems = [])
    : ∃ ts, c.rest = ts ++ (exprStatement fuel c).cursor.rest
      ∧ Sentence Reads ts ((exprStatement fuel c).value.map Stmt.bare) := by
  unfold exprStatement at clean ⊢
  obtain ⟨e, c1, parsed⟩ := Parsed.ok_of_clean clean
  obtain ⟨ts, taken, phrase⟩ := expression_sound fuel parsed
  simp only [parsed] at clean ⊢
  split at clean
  · next ends =>
    rw [if_pos ends]
    refine ⟨ts ++ [_], ?_, .expr phrase ends⟩
    rw [taken, rest_of_kind ends (by decide)]
    simp
  · exact nomatch clean

/-- What the parser takes for a statement is one, by induction on the fuel. -/
theorem statement_sound (fuel : Nat) : SoundBelow fuel (statement fuel) := by
  induction fuel with
  | zero => exact fun c small => absurd small (Nat.not_lt_zero _)
  | succ fuel ih =>
    intro c small clean
    unfold statement at clean ⊢
    split at clean
    · next opens =>
      obtain ⟨opening, closing, parts, taken, kind, kind', each, trees⟩ :=
        block_sound ih small opens clean
      refine ⟨opening :: parts.flatMap (·.1) ++ [closing], ?_, ?_⟩
      · simpa using taken
      · have whole := Sentence.block kind each kind'
        rw [← trees, ← stmtsBare_eq_map] at whole
        exact whole
    · next starts => exact conditional_sound ih small starts clean
    · next starts => exact loop_sound ih small starts clean
    · next ends =>
      exact ⟨[_], rest_of_kind ends (by decide), .empty ends⟩
    · exact nomatch clean
    · exact exprStatement_sound clean

/-- At the top level statements are taken as inside a block, if no brace is in the way. -/
theorem toplevel_eq_statements (unhindered : (toplevel parser fuel c).problems = []
      ∨ (statements parser fuel c).cursor.kind ≠ .rightBrace)
    : toplevel parser fuel c = statements parser fuel c := by
  induction fuel generalizing c with
  | zero => rfl
  | succ fuel ih =>
    rw [toplevel, statements] at *
    by_cases ended : c.kind = .eof
    · simp [ended]
    · by_cases stray : c.kind = .rightBrace
      · simp [stray] at unhindered
      · simp only [ended, stray, if_false, decide_false, Bool.or_self, Bool.false_eq_true,
          append_eq_nil_iff] at unhindered ⊢
        rw [ih (unhindered.imp_left And.right)]

theorem toplevel_sound (enough : c.rest.length < fuel) (unended : ∀ t ∈ c.rest, t.kind ≠ .eof)
    (clean : (toplevel (statement fuel) fuel c).problems = [])
    : ∃ parts : List (List Token × Option Stmt), c.rest = parts.flatMap (·.1)
      ∧ (∀ part ∈ parts, Sentence Reads part.1 part.2)
      ∧ (toplevel (statement fuel) fuel c).value.map Stmt.bare = parts.filterMap (·.2) := by
  have ended := (toplevel_ends enough enough enough enough).2
  have same := toplevel_eq_statements (Or.inl clean)
  rw [same] at clean ended ⊢
  obtain ⟨parts, taken, each, trees⟩ := statements_sound (statement_sound fuel) enough clean
  refine ⟨parts, ?_, each, trees⟩
  rw [taken] at unended
  rw [kind_eq] at ended
  rw [taken, eq_nil_of_eof (forall_mem_append.mp unended).2 ended, append_nil]

theorem program_sound (unended : ∀ t ∈ c.rest, t.kind ≠ .eof) (clean : (program c).problems = [])
    : Derives Reads c.rest (program c).value.bare := by
  unfold program at clean ⊢
  dsimp only at clean ⊢
  obtain ⟨clean, clean'⟩ := append_eq_nil_iff.mp clean
  by_cases starts : c.kind = .initWord
  · rw [if_pos starts] at clean clean' ⊢
    have token := rest_of_kind starts (by decide)
    have length : c.rest.length = c.advance.rest.length + 1 := congrArg List.length token
    unfold initBlock at clean clean' ⊢
    by_cases opens : c.advance.kind = .leftBrace
    · simp only [if_pos opens] at clean clean' ⊢
      obtain ⟨opening, closing, first, taken, kind', kind'', block, trees⟩ :=
        block_sound (statement_sound _) (by omega) opens clean
      have shorter := congrArg List.length taken
      simp only [length_append, length_cons] at shorter
      obtain ⟨parts, taken', each, trees'⟩ := toplevel_sound (by omega)
        (fun t member => unended t (by rw [token, taken]; simp [member])) clean'
      have tokens : c.rest
          = c.current :: opening :: first.flatMap (·.1) ++ closing :: parts.flatMap (·.1) := by
        rw [token, taken, taken']
        rfl
      have derives := Derives.init starts kind' block kind'' each
      rw [← tokens, ← trees, ← trees', ← stmtsBare_eq_map, ← stmtsBare_eq_map] at derives
      exact derives
    · simp only [if_neg opens] at clean
      exact nomatch clean
  · rw [if_neg starts] at clean clean' ⊢
    obtain ⟨parts, taken, each, trees⟩ := toplevel_sound (Nat.lt_succ_self _) unended clean'
    have derives := Derives.body each
    rw [← taken, ← trees, ← stmtsBare_eq_map] at derives
    exact derives

/-- An outcome without problems, with a value that stands for a tree, in front of the given tokens. -/
structure Clean {α β : Type} (outcome : Outcome α) (view : α → β) (tree : β) (rest : List Token)
    : Prop where
  problems : outcome.problems = []
  value : view outcome.value = tree
  rest : outcome.cursor.rest = rest

/-- A parser takes the tokens of a statement in front of others. -/
def TakesStatement (parser : StmtParser) (ts : List Token) (s : Option Stmt) (rest : List Token) : Prop :=
  ∀ c : Cursor, c.rest = ts ++ rest → Clean (parser c) (Option.map Stmt.bare) s rest

/-- What stands behind a statement is not an alternative that it could go on with. -/
def Complete (s : Option Stmt) (rest : List Token) : Prop :=
  endsOpen (controlled s) = true → headKind rest ≠ .elseWord

theorem condition_takes (name) (head : Head Reads keyword ts test) (enough : ts.length ≤ fuel)
    (here : c.rest = ts ++ rest)
    : ∃ e' c', condition name fuel c.advance = .ok e' c' ∧ e'.bare = test ∧ c'.rest = rest := by
  cases head with
  | @condition word opening closing ts test starts opens inner closes =>
    have here : c.rest = word :: opening :: (ts ++ closing :: rest) := by simpa using here
    simp only [length_append, length_cons, length_nil] at enough
    have next : c.advance.rest = opening :: (ts ++ closing :: rest) := advance_of_rest here
    obtain ⟨e', c', parsed, same, behind⟩ := (Phrase.completes inner).expression
      (show ts.length ≤ fuel by omega) (tightness_cons closes (by decide)) (advance_of_rest next)
    refine ⟨e', c'.advance, ?_, same, advance_of_rest behind⟩
    rw [condition, if_pos ((kind_of_rest next).trans opens), parsed]
    exact closed_of_kind e' behind closes

theorem branch_takes (sentence : Sentence Reads us s) (takes : TakesStatement parser us s rest)
    (here : c.rest = us ++ rest)
    : Clean (branch parser c) (Option.map Stmt.bare) (some (controlled s)) rest := by
  obtain ⟨t, us, rfl, starts⟩ := Sentence.starts sentence
  have kind : c.kind = t.kind := kind_of_rest here
  cases s with
  | none =>
    obtain ⟨rfl, ends⟩ := starts
    rw [branch, if_pos (kind.trans ends)]
    exact ⟨rfl, rfl, advance_of_rest here⟩
  | some s =>
    have other : c.kind ≠ .semicolon := by
      rw [kind]
      intro ends
      have starts : startsStatement t.kind = true := starts
      rw [ends] at starts
      exact nomatch starts
    rw [branch, if_neg other]
    exact takes c here

theorem statement_of_startsExpression (starts : startsExpression c.kind = true)
    : statement (fuel + 1) c = exprStatement (fuel + 1) c := by
  unfold statement
  cases kind : c.kind <;> first | rfl | (rw [kind] at starts; cases starts)

theorem takes_expr {e} (value : Phrase Reads .expression ts e) (ends : t.kind = .semicolon)
    (enough : ts.length ≤ fuel + 1)
    : TakesStatement (statement (fuel + 1)) (ts ++ [t]) (some (.expr e)) rest := by
  intro c here
  rw [append_assoc] at here
  obtain ⟨e', c', parsed, same, behind⟩ :=
    (Phrase.completes value).expression enough (tightness_cons ends (by decide)) here
  obtain ⟨u, us, rfl, starts⟩ := (Phrase.begins value).starts
  have kind : c.kind = u.kind := kind_of_rest here
  rw [statement_of_startsExpression (kind ▸ starts.startsExpression)]
  rw [exprStatement, parsed]
  simp only [if_pos ((kind_of_rest behind).trans ends)]
  exact ⟨rfl, by rw [map_some, Stmt.bare, same], advance_of_rest behind⟩

variable {parts : List (List Token × Option Stmt)}

theorem Sentence.headKind_ne (sentence : Sentence Reads ts s) (rest)
    : headKind (ts ++ rest) ≠ .elseWord ∧ headKind (ts ++ rest) ≠ .rightBrace
      ∧ headKind (ts ++ rest) ≠ .eof := by
  obtain ⟨t, us, rfl, starts⟩ := Sentence.starts sentence
  show t.kind ≠ .elseWord ∧ t.kind ≠ .rightBrace ∧ t.kind ≠ .eof
  cases s with
  | none => simp [starts.2]
  | some s =>
    have starts : startsStatement t.kind = true := starts
    refine ⟨?_, ?_, ?_⟩ <;> intro kind <;> rw [kind] at starts <;> exact nomatch starts

theorem headKind_parts_ne (each : ∀ part ∈ parts, Sentence Reads part.1 part.2)
    (ends : headKind rest ≠ .elseWord)
    : headKind (parts.flatMap (·.1) ++ rest) ≠ .elseWord := by
  cases parts with
  | nil => exact ends
  | cons part more =>
    rw [flatMap_cons, append_assoc]
    exact (Sentence.headKind_ne (each part mem_cons_self) _).1

theorem length_le_flatMap (each : ∀ part ∈ parts, Sentence Reads part.1 part.2)
    : parts.length ≤ (parts.flatMap (·.1)).length := by
  induction parts with
  | nil => exact Nat.le_refl 0
  | cons part more ih =>
    obtain ⟨sentence, others⟩ := forall_mem_cons.mp each
    obtain ⟨t, us, tokens, -⟩ := Sentence.starts sentence
    have rest := ih others
    rw [flatMap_cons, length_append, tokens, length_cons, length_cons]
    omega

/-- Each of several statements is taken in front of anything but an alternative. -/
def EachTaken (parser : StmtParser) (parts : List (List Token × Option Stmt)) : Prop :=
  ∀ part ∈ parts, Sentence Reads part.1 part.2
    ∧ ∀ rest, headKind rest ≠ .elseWord → TakesStatement parser part.1 part.2 rest

theorem statements_takes (each : EachTaken parser parts)
    (ends : headKind rest = .rightBrace ∨ headKind rest = .eof)
    (count : parts.length ≤ fuel) (here : c.rest = parts.flatMap (·.1) ++ rest)
    : Clean (statements parser fuel c) (List.map Stmt.bare) (parts.filterMap (·.2)) rest := by
  induction parts generalizing fuel c with
  | nil =>
    have stops : statements parser fuel c = { value := [], problems := [], cursor := c } := by
      cases fuel with
      | zero => rfl
      | succ fuel =>
        have kind : c.kind = headKind rest := by
          rw [c.kind_eq, here]
          rfl
        rw [statements, kind, if_pos (by simpa using ends)]
    rw [stops]
    exact ⟨rfl, rfl, here⟩
  | cons part more ih =>
    obtain ⟨⟨sentence, taken⟩, others⟩ := forall_mem_cons.mp each
    obtain ⟨fuel, rfl⟩ : ∃ fuel', fuel = fuel' + 1 := by
      rw [length_cons] at count
      exact ⟨fuel - 1, by omega⟩
    rw [flatMap_cons, append_assoc] at here
    have kind := Sentence.headKind_ne sentence (more.flatMap (·.1) ++ rest)
    rw [← here, ← c.kind_eq] at kind
    have behind : headKind (more.flatMap (·.1) ++ rest) ≠ .elseWord :=
      headKind_parts_ne (fun part member => (others part member).1)
        (by rcases ends with ends | ends <;> simp [ends])
    have first := taken _ behind c here
    have rest := ih others (Nat.le_of_succ_le_succ count) first.rest
    rw [statements, if_neg (by simp [kind])]
    refine ⟨?_, ?_, rest.rest⟩
    · show _ ++ _ = []
      rw [first.problems, rest.problems, append_nil]
    · show ((parser c).value.toList ++ _).map Stmt.bare = _
      rw [map_append, rest.value, filterMap_cons, ← first.value]
      cases (parser c).value <;> rfl

theorem block_takes {opening closing} (each : EachTaken parser parts)
    (closes : closing.kind = .rightBrace) (count : parts.length ≤ fuel)
    (here : c.rest = opening :: parts.flatMap (·.1) ++ closing :: rest)
    : Clean (block parser fuel c) (fun value => value.2.map Stmt.bare) (parts.filterMap (·.2)) rest := by
  have next : c.advance.rest = parts.flatMap (·.1) ++ closing :: rest := advance_of_rest here
  have body := statements_takes each (Or.inl ((headKind_cons closing rest).trans closes)) count next
  have kind : (statements parser fuel c.advance).cursor.kind = .rightBrace :=
    (kind_of_rest body.rest).trans closes
  unfold block
  simp only [kind, if_true]
  exact ⟨body.problems, body.value, advance_of_rest body.rest⟩

/-- What remains to be shown for the statements inside another one: they are taken in their place. -/
def Taken (fuel : Nat) (ts : List Token) (s : Option Stmt) : Prop :=
  ∀ rest, Complete s rest → TakesStatement (statement fuel) ts s rest

theorem takes_ifThen {yes} (head : Head Reads .ifWord ts test) (enough : ts.length ≤ fuel)
    (first : Sentence Reads us yes) (taken : Taken fuel us yes) (ends : headKind rest ≠ .elseWord)
    : TakesStatement (statement (fuel + 1)) (ts ++ us) (some (.ifThen .none test (controlled yes))) rest := by
  intro c here
  rw [append_assoc] at here
  obtain ⟨t, ts', rfl, kind⟩ := Head.starts head
  obtain ⟨e', c', parsed, same, behind⟩ := condition_takes "if" head enough here
  have clean := branch_takes first (taken rest fun _ => ends) behind
  obtain ⟨s, value, tree⟩ := map_eq_some_iff.mp clean.value
  have other : (branch (statement fuel) c').cursor.kind ≠ .elseWord := by
    rw [kind_eq, clean.rest]
    exact ends
  rw [statement, (kind_of_rest here).trans kind]
  simp only [conditional, parsed, value, if_neg other]
  exact ⟨clean.problems, by rw [map_some, Stmt.bare, same, tree], clean.rest⟩

theorem takes_ifElse {vs yes no} (head : Head Reads .ifWord ts test) (enough : ts.length ≤ fuel)
    (first : Sentence Reads us yes) (taken : Taken fuel us yes)
    (closed : endsOpen (controlled yes) = false) (otherwise : t.kind = .elseWord)
    (second : Sentence Reads vs no) (taken' : Taken fuel vs no) (ends : Complete no rest)
    : TakesStatement (statement (fuel + 1)) (ts ++ us ++ t :: vs)
        (some (.ifElse .none test (controlled yes) (controlled no))) rest := by
  intro c here
  rw [append_assoc, append_assoc, cons_append] at here
  obtain ⟨word, ts', rfl, kind⟩ := Head.starts head
  obtain ⟨e', c', parsed, same, behind⟩ := condition_takes "if" head enough here
  have complete : Complete yes (t :: (vs ++ rest)) := fun opened => nomatch closed.symm.trans opened
  have clean := branch_takes first (taken _ complete) behind
  obtain ⟨s, value, tree⟩ := map_eq_some_iff.mp clean.value
  have next : (branch (statement fuel) c').cursor.kind = .elseWord :=
    (kind_of_rest clean.rest).trans otherwise
  have clean' := branch_takes second (taken' rest ends) (advance_of_rest clean.rest)
  obtain ⟨s', value', tree'⟩ := map_eq_some_iff.mp clean'.value
  rw [statement, (kind_of_rest here).trans kind]
  simp only [conditional, parsed, value, if_pos next, value', map_some]
  refine ⟨?_, by rw [map_some, Stmt.bare, same, tree, tree'], clean'.rest⟩
  rw [clean.problems, clean'.problems, append_nil]

theorem takes_loop {body} (head : Head Reads .whileWord ts test) (enough : ts.length ≤ fuel)
    (inner : Sentence Reads us body) (taken : Taken fuel us body) (ends : Complete body rest)
    : TakesStatement (statement (fuel + 1)) (ts ++ us) (some (.loop .none test (controlled body))) rest := by
  intro c here
  rw [append_assoc] at here
  obtain ⟨t, ts', rfl, kind⟩ := Head.starts head
  obtain ⟨e', c', parsed, same, behind⟩ := condition_takes "while" head enough here
  have clean := branch_takes inner (taken rest ends) behind
  obtain ⟨s, value, tree⟩ := map_eq_some_iff.mp clean.value
  rw [statement, (kind_of_rest here).trans kind]
  simp only [loop, parsed, value, map_some]
  exact ⟨clean.problems, by rw [map_some, Stmt.bare, same, tree], clean.rest⟩

/-- Several statements are each taken, if they have their alternatives at the nearest conditions and there
is fuel for all their tokens.
-/
theorem eachTaken (each : ∀ part ∈ parts, Sentence Reads part.1 part.2)
    (taken : ∀ part ∈ parts, Nearest (controlled part.2) → part.1.length < fuel
      → Taken fuel part.1 part.2)
    (nearest : AllNearest (parts.filterMap (·.2))) (enough : (parts.flatMap (·.1)).length < fuel)
    : EachTaken (statement fuel) parts := by
  intro part member
  have near : Nearest (controlled part.2) := by
    cases tree : part.2 with
    | none => trivial
    | some s => exact (allNearest_iff _).mp nearest s (mem_filterMap.mpr ⟨part, member, tree⟩)
  have short : part.1.length ≤ (parts.flatMap (·.1)).length :=
    (sublist_flatten_of_mem (mem_map_of_mem member)).length_le
  exact ⟨each part member, fun rest ends => taken part member near (by omega) rest fun _ => ends⟩

/-- The parser takes every statement with its alternatives at the nearest conditions, by induction on the
statement.
-/
theorem Sentence.taken (sentence : Sentence Reads ts s) (nearest : Nearest (controlled s))
    (enough : ts.length < fuel)
    : Taken fuel ts s := by
  induction sentence generalizing fuel with
  | empty ends =>
    intro rest _ c here
    obtain ⟨fuel, rfl⟩ : ∃ fuel', fuel = fuel' + 1 := ⟨fuel - 1, by omega⟩
    rw [statement, (kind_of_rest here).trans ends]
    exact ⟨rfl, rfl, advance_of_rest here⟩
  | expr value ends =>
    intro rest _
    simp only [length_append, length_cons, length_nil] at enough
    obtain ⟨fuel, rfl⟩ : ∃ fuel', fuel = fuel' + 1 := ⟨fuel - 1, by omega⟩
    exact takes_expr value ends (by omega)
  | @block opening closing parts opens each closes ih =>
    intro rest _ c here
    simp only [length_append, length_cons, length_nil] at enough
    obtain ⟨fuel, rfl⟩ : ∃ fuel', fuel = fuel' + 1 := ⟨fuel - 1, by omega⟩
    have count : parts.length ≤ fuel := by
      have shorter := length_le_flatMap each
      omega
    have inner : EachTaken (statement fuel) parts :=
      eachTaken each (fun part member near short => ih part member near short) nearest (by omega)
    have here : c.rest = opening :: parts.flatMap (·.1) ++ closing :: rest := by simpa using here
    have clean := block_takes inner closes count here
    rw [statement, (kind_of_rest here).trans opens]
    refine ⟨clean.problems, ?_, clean.rest⟩
    rw [map_some, Stmt.bare, stmtsBare_eq_map]
    exact congrArg (fun body => some (Stmt.block .none body)) clean.value
  | @ifThen ts us test yes head first ih =>
    intro rest ends
    rw [length_append] at enough
    have positive := Head.length_pos head
    obtain ⟨fuel, rfl⟩ : ∃ fuel', fuel = fuel' + 1 := ⟨fuel - 1, by omega⟩
    exact takes_ifThen head (by omega) first (ih nearest (by omega)) (ends rfl)
  | @ifElse t ts us vs test yes no head first otherwise second ih ih' =>
    intro rest ends
    simp only [length_append, length_cons] at enough
    have positive := Head.length_pos head
    obtain ⟨fuel, rfl⟩ : ∃ fuel', fuel = fuel' + 1 := ⟨fuel - 1, by omega⟩
    obtain ⟨closed, nearest, nearest'⟩ := nearest
    exact takes_ifElse head (by omega) first (ih nearest (by omega)) closed otherwise second
      (ih' nearest' (by omega)) ends
  | @loop ts us test body head inner ih =>
    intro rest ends
    rw [length_append] at enough
    have positive := Head.length_pos head
    obtain ⟨fuel, rfl⟩ : ∃ fuel', fuel = fuel' + 1 := ⟨fuel - 1, by omega⟩
    exact takes_loop head (by omega) inner (ih nearest (by omega)) ends

theorem toplevel_takes (each : EachTaken parser parts) (count : parts.length ≤ fuel)
    (here : c.rest = parts.flatMap (·.1))
    : Clean (toplevel parser fuel c) (List.map Stmt.bare) (parts.filterMap (·.2)) [] := by
  have body : Clean (statements parser fuel c) (List.map Stmt.bare) (parts.filterMap (·.2)) [] :=
    statements_takes each (Or.inr rfl) count (here.trans (append_nil _).symm)
  rwa [toplevel_eq_statements (Or.inr ?_)]
  rw [kind_eq, body.rest]
  decide

theorem Sentence.headKind_ne_initWord (sentence : Sentence Reads ts s) (rest)
    : headKind (ts ++ rest) ≠ .initWord := by
  obtain ⟨t, us, rfl, starts⟩ := Sentence.starts sentence
  show t.kind ≠ .initWord
  intro kind
  cases s with
  | none => exact nomatch kind.symm.trans starts.2
  | some s =>
    have starts : startsStatement t.kind = true := starts
    rw [kind] at starts
    exact nomatch starts

theorem program_takes {tree} (derives : Derives Reads ts tree) (nearest : ProgramNearest tree)
    (here : c.rest = ts)
    : Clean (program c) Program.bare tree [] := by
  have all {parts : List (List Token × Option Stmt)} (each : ∀ part ∈ parts, Sentence Reads part.1 part.2)
      (nearest : AllNearest (parts.filterMap (·.2)))
      (enough : (parts.flatMap (·.1)).length ≤ c.rest.length)
      : EachTaken (statement (c.rest.length + 1)) parts ∧ parts.length ≤ c.rest.length + 1 := by
    have count := length_le_flatMap each
    refine ⟨eachTaken each (fun part member near short => ?_) nearest (by omega), by omega⟩
    exact Sentence.taken (each part member) near short
  cases derives with
  | @body parts each =>
    have kind : c.kind ≠ .initWord := by
      rw [c.kind_eq, here]
      cases parts with
      | nil => decide
      | cons part more => exact Sentence.headKind_ne_initWord (each part mem_cons_self) _
    obtain ⟨taken, count⟩ := all each nearest (Nat.le_of_eq (congrArg List.length here.symm))
    have clean := toplevel_takes taken count here
    unfold program
    simp only [if_neg kind]
    refine ⟨clean.problems, ?_, clean.rest⟩
    rw [Program.bare, stmtsBare_eq_map, clean.value]
    rfl
  | @init word opening closing first parts starts opens block closes each =>
    have length := congrArg List.length here
    simp only [length_append, length_cons] at length
    obtain ⟨early, late⟩ : AllNearest (first.filterMap (·.2)) ∧ AllNearest (parts.filterMap (·.2)) := by
      simpa [allNearest_iff, ProgramNearest, Program.statements, or_imp, forall_and] using nearest
    obtain ⟨taken, count⟩ := all block early (by omega)
    obtain ⟨taken', count'⟩ := all each late (by omega)
    have next : c.advance.rest
        = opening :: first.flatMap (·.1) ++ closing :: parts.flatMap (·.1) := advance_of_rest here
    have clean := block_takes taken closes count next
    have clean' := toplevel_takes taken' count' clean.rest
    have kind : c.kind = .initWord := (kind_of_rest here).trans starts
    have kind' : c.advance.kind = .leftBrace := (kind_of_rest next).trans opens
    unfold program initBlock
    simp only [if_pos kind, if_pos kind']
    refine ⟨?_, ?_, clean'.rest⟩
    · show _ ++ _ = []
      rw [clean.problems, clean'.problems, append_nil]
    · simp only [Program.bare, stmtsBare_eq_map, map_some, clean.value, clean'.value]

/-- Tokens are a script exactly if the parser finds no problem, and it gives the only tree that has every
alternative at the nearest condition.
-/
theorem parseTokens_clean_iff {tokens} (unended : ∀ t ∈ tokens, t.kind ≠ .eof) (stop : Position)
    : ((parseTokens tokens stop).problems = [] ↔ ∃ tree, Derives Reads tokens tree)
      ∧ ((parseTokens tokens stop).problems = []
        → Derives Reads tokens (parseTokens tokens stop).value.bare
          ∧ ProgramNearest (parseTokens tokens stop).value.bare
          ∧ ∀ tree, Derives Reads tokens tree → ProgramNearest tree
            → tree = (parseTokens tokens stop).value.bare) := by
  have taken (tree : Program) (derives : Derives Reads tokens tree) (nearest : ProgramNearest tree)
      : Clean (parseTokens tokens stop) Program.bare tree [] :=
    program_takes derives nearest rfl
  refine ⟨⟨fun clean => ⟨_, program_sound unended clean⟩, fun ⟨tree, derives⟩ => ?_⟩, fun clean => ?_⟩
  · obtain ⟨tree', derives', nearest⟩ := derives.exists_nearest
    exact (taken tree' derives' nearest).problems
  · have derives : Derives Reads tokens (parseTokens tokens stop).value.bare :=
      program_sound (c := { last := .none, rest := tokens, stop }) unended clean
    obtain ⟨tree', derives', nearest⟩ := derives.exists_nearest
    have same := (taken tree' derives' nearest).value
    refine ⟨derives, same ▸ nearest, fun tree derives nearest => ?_⟩
    exact (taken tree derives nearest).value.symm

end MapAlgebra.Parse
