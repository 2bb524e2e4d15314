import MapAlgebra.Script.Parse

/-! The grammar of scripts, as a relation between tokens and trees. Trees of the grammar have no places
in the text.
-/

namespace MapAlgebra

open List

mutual

/-- An expression without its places in the text. -/
def Expr.bare : Expr → Expr
  | .literal _ value => .literal .none value
  | .read _ name symbol => .read .none name symbol
  | .binary _ op left right => .binary .none op left.bare right.bare
  | .unary _ op operand => .unary .none op operand.bare
  | .assign _ target step value symbol => .assign .none target step value.bare symbol
  | .update _ target decrement before symbol => .update .none target decrement before symbol
  | .builtin _ name which args => .builtin .none name which (exprsBare args)
  | .call _ name args function => .call .none name (exprsBare args) function

def exprsBare : List Expr → List Expr
  | [] => []
  | e :: rest => e.bare :: exprsBare rest

end

mutual

/-- A statement without its places in the text. -/
def Stmt.bare : Stmt → Stmt
  | .expr e => .expr e.bare
  | .block _ body => .block .none (stmtsBare body)
  | .ifThen _ test yes => .ifThen .none test.bare yes.bare
  | .ifElse _ test yes no => .ifElse .none test.bare yes.bare no.bare
  | .loop _ test body => .loop .none test.bare body.bare

def stmtsBare : List Stmt → List Stmt
  | [] => []
  | s :: rest => s.bare :: stmtsBare rest

end

/-- A script without its places in the text. -/
def Program.bare (p : Program) : Program :=
  { span := .none
    init := p.init.map fun block => { span := .none, body := stmtsBare block.body }
    body := stmtsBare p.body }

theorem exprsBare_eq_map (args) : exprsBare args = args.map Expr.bare := by
  induction args with
  | nil => rfl
  | cons e rest ih => rw [exprsBare, ih, map_cons]

theorem stmtsBare_eq_map (body) : stmtsBare body = body.map Stmt.bare := by
  induction body with
  | nil => rfl
  | cons s rest ih => rw [stmtsBare, ih, map_cons]

theorem bare_callNode (span name args)
    : (Parse.callNode span name args).bare = Parse.callNode .none name (args.map Expr.bare) := by
  unfold Parse.callNode
  split <;> rw [Expr.bare, exprsBare_eq_map]

namespace Grammar

/-- The precedences of the operators between two operands, from the loosest to the tightest. -/
inductive Precedence where
  | disjunction | conjunction | equality | relational | additive | multiplicative
deriving DecidableEq

/-- The kinds of expressions, each of which may stand for the one before. -/
inductive Level where
  | expression
  | chain (precedence : Precedence)
  | unary
  | power
  | updated
  | primary
deriving DecidableEq

namespace Precedence

/-- The operators of a precedence. -/
def operator? : Precedence → TokenKind → Option BinaryOp
  | disjunction => TokenKind.disjunction?
  | conjunction => TokenKind.conjunction?
  | equality => TokenKind.equality?
  | relational => TokenKind.relational?
  | additive => TokenKind.additive?
  | multiplicative => TokenKind.multiplicative?

/-- What the operators of a precedence stand between. -/
def operand : Precedence → Level
  | disjunction => .chain conjunction
  | conjunction => .chain equality
  | equality => .chain relational
  | relational => .chain additive
  | additive => .chain multiplicative
  | multiplicative => .unary

end Precedence

/-- The operators that step a variable. -/
def Steps (t : Token) : Prop := t.kind = .increment ∨ t.kind = .decrement

/-- A name that is not a constant. -/
structure IsName (t : Token) : Prop where
  identifier : t.kind = .identifier
  free : constant? t.literal = none

/-- A name, which may stand in parentheses. -/
inductive Variable : List Token → String → Prop where
  | name {t} (isName : IsName t) : Variable [t] t.literal
  | group {opening closing ts name}
    (opens : opening.kind = .leftParen) (inner : Variable ts name) (closes : closing.kind = .rightParen)
    : Variable (opening :: ts ++ [closing]) name

/-- Pieces with commas between them. -/
inductive Joined : List (List Token) → List Token → Prop where
  | none : Joined [] []
  | one {ts} : Joined [ts] ts
  | more {ts us vs pieces comma}
    (separates : comma.kind = .comma) (rest : Joined (us :: pieces) vs)
    : Joined (ts :: us :: pieces) (ts ++ comma :: vs)

/-- The expressions of each kind, where `Denotes` gives the values of numerals. -/
inductive Phrase (Denotes : String → Sample → Prop) : Level → List Token → Expr → Prop where
  | number {t v} (number : t.kind = .number) (value : Denotes t.literal v)
    : Phrase Denotes .primary [t] (.literal .none v)
  | constant {t v} (identifier : t.kind = .identifier)
    (value : constant? t.literal = some v)
    : Phrase Denotes .primary [t] (.literal .none v)
  | name {t} (isName : IsName t) : Phrase Denotes .primary [t] (.read .none t.literal none)
  | call {t opening closing ts} {args : List (List Token × Expr)}
    (isName : IsName t) (opens : opening.kind = .leftParen)
    (each : ∀ arg ∈ args, Phrase Denotes .expression arg.1 arg.2)
    (joined : Joined (args.map (·.1)) ts) (closes : closing.kind = .rightParen)
    : Phrase Denotes .primary (t :: opening :: ts ++ [closing])
        (Parse.callNode .none t.literal (args.map (·.2)))
  | group {opening closing ts e} (opens : opening.kind = .leftParen)
    (inner : Phrase Denotes .expression ts e) (closes : closing.kind = .rightParen)
    : Phrase Denotes .primary (opening :: ts ++ [closing]) e
  | plain {ts e} (inner : Phrase Denotes .primary ts e)
    : Phrase Denotes .updated ts e
  | stepped {t ts name} (target : Variable ts name)
    (steps : Steps t)
    : Phrase Denotes .updated (ts ++ [t]) (.update .none name (t.kind = .decrement) false none)
  | base {ts e} (inner : Phrase Denotes .updated ts e)
    : Phrase Denotes .power ts e
  | raised {t ts us base exponent}
    (left : Phrase Denotes .updated ts base) (caret : t.kind = .caret)
    (right : Phrase Denotes .unary us exponent)
    : Phrase Denotes .power (ts ++ t :: us) (.binary .none (.arith .pow) base exponent)
  | unsigned {ts e} (inner : Phrase Denotes .power ts e)
    : Phrase Denotes .unary ts e
  | signed {t op ts e} (sign : t.kind.unary? = some op)
    (inner : Phrase Denotes .unary ts e)
    : Phrase Denotes .unary (t :: ts) (.unary .none op e)
  | steppedFirst {t u} (steps : Steps t) (identifier : u.kind = .identifier)
    : Phrase Denotes .unary [t, u] (.update .none u.literal (t.kind = .decrement) true none)
  | operand {p ts e} (inner : Phrase Denotes p.operand ts e)
    : Phrase Denotes (.chain p) ts e
  | binary {p t op ts us a b}
    (left : Phrase Denotes (.chain p) ts a) (operator : p.operator? t.kind = some op)
    (right : Phrase Denotes p.operand us b)
    : Phrase Denotes (.chain p) (ts ++ t :: us) (.binary .none op a b)
  | value {ts e} (inner : Phrase Denotes (.chain .disjunction) ts e)
    : Phrase Denotes .expression ts e
  | assign {t u ts e} (isName : IsName t)
    (assigns : u.kind.isAssignment = true) (inner : Phrase Denotes .expression ts e)
    : Phrase Denotes .expression (t :: u :: ts) (.assign .none t.literal u.kind.compound? e none)

/-- What a condition controls. An empty statement counts as an empty block there. -/
def controlled (s : Option Stmt) : Stmt := s.getD (.block .none [])

/-- A keyword and a condition in parentheses. -/
inductive Head (Denotes : String → Sample → Prop) (keyword : TokenKind) : List Token → Expr → Prop where
  | condition {word opening closing ts test} (starts : word.kind = keyword)
    (opens : opening.kind = .leftParen) (inner : Phrase Denotes .expression ts test)
    (closes : closing.kind = .rightParen)
    : Head Denotes keyword (word :: opening :: ts ++ [closing]) test

/-- The statements. An empty one has no tree. -/
inductive Sentence (Denotes : String → Sample → Prop) : List Token → Option Stmt → Prop where
  | empty {t} (ends : t.kind = .semicolon) : Sentence Denotes [t] none
  | expr {t ts e} (value : Phrase Denotes .expression ts e)
    (ends : t.kind = .semicolon)
    : Sentence Denotes (ts ++ [t]) (some (.expr e))
  | block {opening closing} {parts : List (List Token × Option Stmt)}
    (opens : opening.kind = .leftBrace) (each : ∀ part ∈ parts, Sentence Denotes part.1 part.2)
    (closes : closing.kind = .rightBrace)
    : Sentence Denotes (opening :: parts.flatMap (·.1) ++ [closing])
        (some (.block .none (parts.filterMap (·.2))))
  | ifThen {ts us} {test : Expr} {yes} (head : Head Denotes .ifWord ts test)
    (first : Sentence Denotes us yes)
    : Sentence Denotes (ts ++ us) (some (.ifThen .none test (controlled yes)))
  | ifElse {t ts us vs test yes no}
    (head : Head Denotes .ifWord ts test) (first : Sentence Denotes us yes)
    (otherwise : t.kind = .elseWord) (second : Sentence Denotes vs no)
    : Sentence Denotes (ts ++ us ++ t :: vs)
        (some (.ifElse .none test (controlled yes) (controlled no)))
  | loop {ts us test body} (head : Head Denotes .whileWord ts test)
    (inner : Sentence Denotes us body)
    : Sentence Denotes (ts ++ us) (some (.loop .none test (controlled body)))

/-- The scripts. Empty statements leave no trace in lists of statements. -/
inductive Derives (Denotes : String → Sample → Prop) : List Token → Program → Prop where
  | body {parts : List (List Token × Option Stmt)}
    (each : ∀ part ∈ parts, Sentence Denotes part.1 part.2)
    : Derives Denotes (parts.flatMap (·.1))
        { span := .none, init := none, body := parts.filterMap (·.2) }
  | init {word opening closing} {first parts : List (List Token × Option Stmt)}
    (starts : word.kind = .initWord) (opens : opening.kind = .leftBrace)
    (block : ∀ part ∈ first, Sentence Denotes part.1 part.2) (closes : closing.kind = .rightBrace)
    (each : ∀ part ∈ parts, Sentence Denotes part.1 part.2)
    : Derives Denotes (word :: opening :: first.flatMap (·.1) ++ closing :: parts.flatMap (·.1))
        { span := .none
          init := some { span := .none, body := first.filterMap (·.2) }
          body := parts.filterMap (·.2) }

/-- A statement could go on with an alternative: it ends with a condition that has none. -/
def endsOpen : Stmt → Bool
  | .expr _ | .block _ _ => false
  | .ifThen _ _ _ => true
  | .ifElse _ _ _ no => endsOpen no
  | .loop _ _ body => endsOpen body

mutual

/-- Every alternative belongs to the nearest condition that could have it. -/
def Nearest : Stmt → Prop
  | .expr _ => True
  | .block _ body => AllNearest body
  | .ifThen _ _ yes => Nearest yes
  | .ifElse _ _ yes no => endsOpen yes = false ∧ Nearest yes ∧ Nearest no
  | .loop _ _ body => Nearest body

def AllNearest : List Stmt → Prop
  | [] => True
  | s :: rest => Nearest s ∧ AllNearest rest

end

/-- Every alternative of a script belongs to the nearest condition that could have it. -/
def ProgramNearest (p : Program) : Prop := AllNearest p.statements

theorem allNearest_iff (body) : AllNearest body ↔ ∀ s ∈ body, Nearest s := by
  induction body with
  | nil => simp [AllNearest]
  | cons s rest ih => simp [AllNearest, ih]

variable {Denotes : String → Sample → Prop} {ts us vs : List Token} {t : Token} {s s' : Option Stmt}

/-- An alternative behind a statement that could go on with it becomes part of that statement, by
induction on the statement.
-/
theorem Sentence.attach (sentence : Sentence Denotes us s) (nearest : Nearest (controlled s))
    (opened : endsOpen (controlled s) = true) (otherwise : t.kind = .elseWord)
    (second : Sentence Denotes vs s') (nearest' : Nearest (controlled s'))
    : ∃ whole, Sentence Denotes (us ++ t :: vs) (some whole) ∧ Nearest whole := by
  induction sentence with
  | empty | expr | block => exact nomatch opened
  | @ifThen ts us test yes head first ih =>
    cases inner : endsOpen (controlled yes) with
    | true =>
      obtain ⟨whole, longer, better⟩ := ih nearest inner
      have sentence := Sentence.ifThen head longer
      rw [← append_assoc] at sentence
      exact ⟨_, sentence, better⟩
    | false => exact ⟨_, .ifElse head first otherwise second, inner, nearest, nearest'⟩
  | @ifElse t' ts us vs' test yes no head first otherwise' second' _ ih =>
    obtain ⟨whole, longer, better⟩ := ih nearest.2.2 opened
    have sentence := Sentence.ifElse head first otherwise' longer
    rw [← cons_append, ← append_assoc] at sentence
    exact ⟨_, sentence, nearest.1, nearest.2.1, better⟩
  | @loop ts us test body head inner ih =>
    obtain ⟨whole, longer, better⟩ := ih nearest opened
    have sentence := Sentence.loop head longer
    rw [← append_assoc] at sentence
    exact ⟨_, sentence, better⟩

variable {parts : List (List Token × Option Stmt)}

/-- Such trees for the tokens of several statements, if there is one for each. -/
theorem exists_nearest_parts
    (each : ∀ part ∈ parts, ∃ s, Sentence Denotes part.1 s ∧ Nearest (controlled s))
    : ∃ parts' : List (List Token × Option Stmt),
        parts'.flatMap (·.1) = parts.flatMap (·.1)
        ∧ ∀ part ∈ parts', Sentence Denotes part.1 part.2 ∧ Nearest (controlled part.2) := by
  induction parts with
  | nil => exact ⟨[], rfl, fun _ member => nomatch member⟩
  | cons part rest ih =>
    obtain ⟨s, first⟩ := each part mem_cons_self
    obtain ⟨rest', same, others⟩ := ih fun part member => each part (mem_cons_of_mem _ member)
    refine ⟨(part.1, s) :: rest', ?_, ?_⟩
    · rw [flatMap_cons, flatMap_cons, same]
    · intro part' member
      rcases mem_cons.mp member with rfl | later
      · exact first
      · exact others part' later

theorem allNearest_filterMap (each : ∀ part ∈ parts, Nearest (controlled part.2))
    : AllNearest (parts.filterMap (·.2)) := by
  refine (allNearest_iff _).mpr fun s member => ?_
  obtain ⟨part, there, same⟩ := mem_filterMap.mp member
  have nearest := each part there
  rwa [same] at nearest

/-- The tokens of a statement also have a tree in which every alternative belongs to the nearest
condition.
-/
theorem Sentence.exists_nearest (sentence : Sentence Denotes ts s)
    : ∃ s', Sentence Denotes ts s' ∧ Nearest (controlled s') := by
  induction sentence with
  | empty ends => exact ⟨none, .empty ends, trivial⟩
  | expr value ends => exact ⟨_, .expr value ends, trivial⟩
  | block opens each closes ih =>
    obtain ⟨parts, same, all⟩ := exists_nearest_parts ih
    have sentence := Sentence.block opens (fun part member => (all part member).1) closes
    rw [same] at sentence
    exact ⟨_, sentence, allNearest_filterMap fun part member => (all part member).2⟩
  | ifThen head first ih =>
    obtain ⟨yes, first, nearest⟩ := ih
    exact ⟨_, .ifThen head first, nearest⟩
  | @ifElse t ts us vs test yes no head first otherwise second ih ih' =>
    obtain ⟨yes, first, nearest⟩ := ih
    obtain ⟨no, second, nearest'⟩ := ih'
    cases opened : endsOpen (controlled yes) with
    | false => exact ⟨_, .ifElse head first otherwise second, opened, nearest, nearest'⟩
    | true =>
      obtain ⟨whole, longer, better⟩ := first.attach nearest opened otherwise second nearest'
      have sentence := Sentence.ifThen head longer
      rw [← append_assoc] at sentence
      exact ⟨_, sentence, better⟩
  | loop head inner ih =>
    obtain ⟨body, inner, nearest⟩ := ih
    exact ⟨_, .loop head inner, nearest⟩

variable {program : Program}

theorem Derives.exists_nearest (derives : Derives Denotes ts program)
    : ∃ program', Derives Denotes ts program' ∧ ProgramNearest program' := by
  cases derives with
  | body each =>
    obtain ⟨parts, same, all⟩ := exists_nearest_parts fun part member => (each part member).exists_nearest
    have derives := Derives.body fun part member => (all part member).1
    rw [same] at derives
    exact ⟨_, derives, allNearest_filterMap fun part member => (all part member).2⟩
  | init starts opens block closes each =>
    obtain ⟨first, same, all⟩ := exists_nearest_parts fun part member => (block part member).exists_nearest
    obtain ⟨parts, same', all'⟩ := exists_nearest_parts fun part member => (each part member).exists_nearest
    have derives := Derives.init starts opens (fun part member => (all part member).1) closes
      fun part member => (all' part member).1
    rw [same, same'] at derives
    refine ⟨_, derives, (allNearest_iff _).mpr fun s member => ?_⟩
    rcases mem_append.mp member with early | late
    · exact (allNearest_iff _).mp
        (allNearest_filterMap fun part member => (all part member).2) s early
    · exact (allNearest_iff _).mp
        (allNearest_filterMap fun part member => (all' part member).2) s late

variable {Denotes' : String → Sample → Prop} {level : Level} {e : Expr}

/-- A token that a phrase may have: it is no error, and a numeral has a value. -/
def Proper (Denotes : String → Sample → Prop) (t : Token) : Prop :=
  t.kind ≠ .error ∧ (t.kind = .number → ∃ v, Denotes t.literal v)

theorem proper_of_kind (kind : t.kind ≠ .error ∧ t.kind ≠ .number) : Proper Denotes t :=
  ⟨kind.1, fun number => absurd number kind.2⟩

/-- Proper tokens stay so between a token that opens and one that closes. -/
theorem proper_enclosed {first last} (opens : first.kind ≠ .error ∧ first.kind ≠ .number)
    (inside : ∀ t ∈ ts, Proper Denotes t) (closes : last.kind ≠ .error ∧ last.kind ≠ .number)
    : ∀ t ∈ first :: ts ++ [last], Proper Denotes t :=
  forall_mem_append.mpr ⟨forall_mem_cons.mpr ⟨proper_of_kind opens, inside⟩,
    forall_mem_singleton.mpr (proper_of_kind closes)⟩

theorem proper_of_steps (steps : Steps t) : Proper Denotes t := by
  rcases steps with kind | kind <;> exact proper_of_kind (by rw [kind]; decide)

theorem Precedence.kind_of_operator {p : Precedence} {kind op}
    (operator : p.operator? kind = some op)
    : kind ≠ .error ∧ kind ≠ .number := by
  constructor <;> rintro rfl <;> cases p <;> exact nomatch operator

theorem Variable.proper {name} (target : Variable ts name) : ∀ t ∈ ts, Proper Denotes t := by
  induction target with
  | name isName =>
    simp only [forall_mem_singleton]
    exact proper_of_kind (by rw [isName.identifier]; decide)
  | group opens _ closes ih =>
    exact proper_enclosed (by rw [opens]; decide) ih (by rw [closes]; decide)

theorem Joined.proper {pieces} (joined : Joined pieces ts)
    (each : ∀ piece ∈ pieces, ∀ t ∈ piece, Proper Denotes t)
    : ∀ t ∈ ts, Proper Denotes t := by
  induction joined with
  | none => exact fun _ member => nomatch member
  | one => exact each _ mem_cons_self
  | more separates _ ih =>
    simp only [forall_mem_cons, forall_mem_append] at each ⊢
    exact ⟨each.1, proper_of_kind (by rw [separates]; decide),
      ih (forall_mem_cons.mpr each.2)⟩

/-- All tokens of a phrase are proper, by induction on the phrase. -/
theorem Phrase.proper (phrase : Phrase Denotes level ts e) : ∀ t ∈ ts, Proper Denotes t := by
  induction phrase with
  | number number value =>
    simp only [forall_mem_singleton]
    exact ⟨by rw [number]; decide, fun _ => ⟨_, value⟩⟩
  | constant identifier value =>
    simp only [forall_mem_singleton]
    exact proper_of_kind (by rw [identifier]; decide)
  | name isName =>
    simp only [forall_mem_singleton]
    exact proper_of_kind (by rw [isName.identifier]; decide)
  | call isName opens _ joined closes ih =>
    refine proper_enclosed (by rw [isName.identifier]; decide)
      (forall_mem_cons.mpr ⟨?_, joined.proper (forall_mem_map.mpr ih)⟩)
      (by rw [closes]; decide)
    exact proper_of_kind (by rw [opens]; decide)
  | group opens _ closes ih =>
    exact proper_enclosed (by rw [opens]; decide) ih (by rw [closes]; decide)
  | plain _ ih | base _ ih | unsigned _ ih | operand _ ih | value _ ih => exact ih
  | stepped target steps =>
    simp only [forall_mem_append, forall_mem_singleton]
    exact ⟨target.proper, proper_of_steps steps⟩
  | raised _ caret _ ih ih' =>
    simp only [forall_mem_append, forall_mem_cons]
    exact ⟨ih, proper_of_kind (by rw [caret]; decide), ih'⟩
  | @signed t op _ _ sign _ ih =>
    simp only [forall_mem_cons]
    refine ⟨proper_of_kind ?_, ih⟩
    constructor <;> intro kind <;> rw [kind] at sign <;> cases sign
  | steppedFirst steps identifier =>
    refine forall_mem_cons.mpr ⟨proper_of_steps steps, forall_mem_singleton.mpr ?_⟩
    exact proper_of_kind (by rw [identifier]; decide)
  | binary _ operator _ ih ih' =>
    simp only [forall_mem_append, forall_mem_cons]
    exact ⟨ih, proper_of_kind (Precedence.kind_of_operator operator), ih'⟩
  | assign isName assigns _ ih =>
    simp only [forall_mem_cons]
    refine ⟨proper_of_kind (by rw [isName.identifier]; decide), proper_of_kind ?_, ih⟩
    constructor <;> intro kind <;> rw [kind] at assigns <;> cases assigns

theorem Head.proper {keyword} (head : Head Denotes keyword ts e)
    (word : keyword ≠ .error ∧ keyword ≠ .number)
    : ∀ t ∈ ts, Proper Denotes t := by
  cases head with
  | condition starts opens inner closes =>
    refine proper_enclosed (starts ▸ word) (forall_mem_cons.mpr ⟨?_, inner.proper⟩)
      (by rw [closes]; decide)
    exact proper_of_kind (by rw [opens]; decide)

theorem Sentence.proper (sentence : Sentence Denotes ts s) : ∀ t ∈ ts, Proper Denotes t := by
  induction sentence with
  | empty ends => exact forall_mem_singleton.mpr (proper_of_kind (by rw [ends]; decide))
  | expr value ends =>
    refine forall_mem_append.mpr ⟨value.proper, forall_mem_singleton.mpr ?_⟩
    exact proper_of_kind (by rw [ends]; decide)
  | block opens _ closes ih =>
    refine proper_enclosed (by rw [opens]; decide) (fun t member => ?_) (by rw [closes]; decide)
    obtain ⟨part, there, inside⟩ := mem_flatMap.mp member
    exact ih part there t inside
  | ifThen head _ ih | loop head _ ih =>
    exact forall_mem_append.mpr ⟨head.proper (by decide), ih⟩
  | ifElse head _ otherwise _ ih ih' =>
    refine forall_mem_append.mpr ⟨forall_mem_append.mpr ⟨head.proper (by decide), ih⟩,
      forall_mem_cons.mpr ⟨?_, ih'⟩⟩
    exact proper_of_kind (by rw [otherwise]; decide)

theorem Derives.proper (derives : Derives Denotes ts program)
    : ∀ t ∈ ts, Proper Denotes t := by
  have parts {parts : List (List Token × Option Stmt)}
      (each : ∀ part ∈ parts, Sentence Denotes part.1 part.2)
      : ∀ t ∈ parts.flatMap (·.1), Proper Denotes t := by
    intro t member
    obtain ⟨part, there, inside⟩ := mem_flatMap.mp member
    exact (each part there).proper t inside
  cases derives with
  | body each => exact parts each
  | init starts opens block closes each =>
    refine forall_mem_append.mpr ⟨forall_mem_cons.mpr ⟨?_, forall_mem_cons.mpr
      ⟨?_, parts block⟩⟩, forall_mem_cons.mpr ⟨?_, parts each⟩⟩
    · exact proper_of_kind (by rw [starts]; decide)
    · exact proper_of_kind (by rw [opens]; decide)
    · exact proper_of_kind (by rw [closes]; decide)

/-- The numerals among some tokens that have a value have the same one by another reading. -/
def Agrees (Denotes Denotes' : String → Sample → Prop) (ts : List Token) : Prop :=
  ∀ t ∈ ts, t.kind = .number → ∀ v, Denotes t.literal v → Denotes' t.literal v

theorem agrees_cons : Agrees Denotes Denotes' (t :: ts) → Agrees Denotes Denotes' ts :=
  fun agrees => (forall_mem_cons.mp agrees).2

theorem agrees_append
    : Agrees Denotes Denotes' (ts ++ us) ↔ Agrees Denotes Denotes' ts ∧ Agrees Denotes Denotes' us :=
  forall_mem_append

theorem Joined.agrees {pieces} (joined : Joined pieces ts) (agrees : Agrees Denotes Denotes' ts)
    : ∀ piece ∈ pieces, Agrees Denotes Denotes' piece := by
  induction joined with
  | none => exact fun _ member => nomatch member
  | one => exact forall_mem_singleton.mpr agrees
  | more _ _ ih =>
    obtain ⟨first, later⟩ := agrees_append.mp agrees
    exact forall_mem_cons.mpr ⟨first, ih (agrees_cons later)⟩

/-- A phrase is also one by a reading that agrees on its numerals, by induction on the phrase. -/
theorem Phrase.mono (phrase : Phrase Denotes level ts e) (agrees : Agrees Denotes Denotes' ts)
    : Phrase Denotes' level ts e := by
  induction phrase with
  | number number value => exact .number number (agrees _ mem_cons_self number _ value)
  | constant identifier value => exact .constant identifier value
  | name isName => exact .name isName
  | call isName opens _ joined closes ih =>
    have inner := joined.agrees (agrees_cons (agrees_cons (agrees_append.mp agrees).1))
    refine .call isName opens (fun arg member => ?_) joined closes
    exact ih arg member (inner _ (mem_map_of_mem member))
  | group opens _ closes ih =>
    exact .group opens (ih (agrees_cons (agrees_append.mp agrees).1)) closes
  | plain _ ih => exact .plain (ih agrees)
  | stepped target steps => exact .stepped target steps
  | base _ ih => exact .base (ih agrees)
  | raised _ caret _ ih ih' =>
    obtain ⟨left, right⟩ := agrees_append.mp agrees
    exact .raised (ih left) caret (ih' (agrees_cons right))
  | unsigned _ ih => exact .unsigned (ih agrees)
  | signed sign _ ih => exact .signed sign (ih (agrees_cons agrees))
  | steppedFirst steps identifier => exact .steppedFirst steps identifier
  | operand _ ih => exact .operand (ih agrees)
  | binary _ operator _ ih ih' =>
    obtain ⟨left, right⟩ := agrees_append.mp agrees
    exact .binary (ih left) operator (ih' (agrees_cons right))
  | value _ ih => exact .value (ih agrees)
  | assign isName assigns _ ih =>
    exact .assign isName assigns (ih (agrees_cons (agrees_cons agrees)))

theorem Head.mono {keyword} (head : Head Denotes keyword ts e) (agrees : Agrees Denotes Denotes' ts)
    : Head Denotes' keyword ts e := by
  cases head with
  | condition starts opens inner closes =>
    have within := agrees_cons (agrees_cons (agrees_append.mp agrees).1)
    exact .condition starts opens (inner.mono within) closes

theorem agrees_parts (agrees : Agrees Denotes Denotes' (parts.flatMap (·.1)))
    : ∀ part ∈ parts, Agrees Denotes Denotes' part.1 :=
  fun part there t inside => agrees t (mem_flatMap.mpr ⟨part, there, inside⟩)

theorem Sentence.mono (sentence : Sentence Denotes ts s) (agrees : Agrees Denotes Denotes' ts)
    : Sentence Denotes' ts s := by
  induction sentence with
  | empty ends => exact .empty ends
  | expr value ends => exact .expr (value.mono (agrees_append.mp agrees).1) ends
  | block opens _ closes ih =>
    have inner := agrees_parts (agrees_cons (agrees_append.mp agrees).1)
    exact .block opens (fun part member => ih part member (inner part member)) closes
  | ifThen head _ ih =>
    obtain ⟨condition, first⟩ := agrees_append.mp agrees
    exact .ifThen (head.mono condition) (ih first)
  | ifElse head _ otherwise _ ih ih' =>
    obtain ⟨before, after⟩ := agrees_append.mp agrees
    obtain ⟨condition, first⟩ := agrees_append.mp before
    exact .ifElse (head.mono condition) (ih first) otherwise (ih' (agrees_cons after))
  | loop head _ ih =>
    obtain ⟨condition, body⟩ := agrees_append.mp agrees
    exact .loop (head.mono condition) (ih body)

theorem Derives.mono (derives : Derives Denotes ts program) (agrees : Agrees Denotes Denotes' ts)
    : Derives Denotes' ts program := by
  cases derives with
  | body each =>
    exact .body fun part member => (each part member).mono (agrees_parts agrees part member)
  | init starts opens block closes each =>
    obtain ⟨before, after⟩ := agrees_append.mp agrees
    have first := agrees_parts (agrees_cons (agrees_cons before))
    have rest := agrees_parts (agrees_cons after)
    exact .init starts opens (fun part member => (block part member).mono (first part member)) closes
      fun part member => (each part member).mono (rest part member)

end Grammar

end MapAlgebra
