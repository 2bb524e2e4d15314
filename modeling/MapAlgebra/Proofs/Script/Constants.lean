import MapAlgebra.Proofs.Script.Consumption
import MapAlgebra.Proofs.Script.Nodes

/-! Constants are no variables. An operator that assigns takes a name in front of it, and names of
constants are refused there; an operator that steps the name behind it takes any name. So a tree has a
constant for a variable just where such an operator stands in front of a constant.
-/

namespace MapAlgebra

open List

/-- The name that an expression itself reads, assigns or calls. -/
def Expr.name? : Expr → Option String
  | .literal .. | .binary .. | .unary .. => none
  | .read _ name _ => some name
  | .assign _ target _ _ _ => some target
  | .update _ target _ _ _ => some target
  | .builtin _ name _ _ => some name
  | .call _ name _ _ => some name

/-- An increment or decrement with its operator in front. -/
def Expr.stepsFirst : Expr → Bool
  | .update _ _ _ before _ => before
  | _ => false

/-- An expression itself takes no constant for a variable or a function. -/
def Expr.Free (e : Expr) : Prop := ∀ name ∈ e.name?, constant? name = none

theorem Expr.free_of_unnamed {e : Expr} (unnamed : e.name? = none) : e.Free := by
  intro name member
  rw [unnamed] at member
  cases member

theorem Expr.name?_bare (e : Expr) : e.bare.name? = e.name? := by
  cases e <;> rfl

theorem Expr.stepsFirst_bare (e : Expr) : e.bare.stepsFirst = e.stepsFirst := by
  cases e <;> rfl

theorem Expr.free_bare {e : Expr} : e.bare.Free ↔ e.Free := by
  rw [Expr.Free, Expr.name?_bare, Expr.Free]

mutual

theorem Expr.nodes_bare (e : Expr) : e.bare.nodes = e.nodes.map Expr.bare := by
  cases e with
  | literal | read | update => rfl
  | binary span op left right => simp [Expr.bare, Expr.nodes, left.nodes_bare, right.nodes_bare]
  | unary span op operand => simp [Expr.bare, Expr.nodes, operand.nodes_bare]
  | assign span target step value symbol => simp [Expr.bare, Expr.nodes, value.nodes_bare]
  | builtin span name which args => simp [Expr.bare, Expr.nodes, exprsNodes_bare args]
  | call span name args function => simp [Expr.bare, Expr.nodes, exprsNodes_bare args]

theorem exprsNodes_bare (args : List Expr)
    : exprsNodes (exprsBare args) = (exprsNodes args).map Expr.bare := by
  cases args with
  | nil => rfl
  | cons e rest => simp [exprsBare, exprsNodes, e.nodes_bare, exprsNodes_bare rest]

end

mutual

theorem Stmt.nodes_bare (s : Stmt) : s.bare.nodes = s.nodes.map Expr.bare := by
  cases s with
  | expr e => exact e.nodes_bare
  | block span body => exact stmtsNodes_bare body
  | ifThen span test yes => simp [Stmt.bare, Stmt.nodes, test.nodes_bare, yes.nodes_bare]
  | ifElse span test yes no =>
    simp [Stmt.bare, Stmt.nodes, test.nodes_bare, yes.nodes_bare, no.nodes_bare]
  | loop span test body => simp [Stmt.bare, Stmt.nodes, test.nodes_bare, body.nodes_bare]

theorem stmtsNodes_bare (body : List Stmt)
    : stmtsNodes (stmtsBare body) = (stmtsNodes body).map Expr.bare := by
  cases body with
  | nil => rfl
  | cons s rest => simp [stmtsBare, stmtsNodes, s.nodes_bare, stmtsNodes_bare rest]

end

theorem Program.nodes_bare (p : Program)
    : stmtsNodes p.bare.statements = (stmtsNodes p.statements).map Expr.bare := by
  obtain ⟨span, init, body⟩ := p
  cases init with
  | none => exact stmtsNodes_bare body
  | some block =>
    rw [Program.bare, Program.statements, Program.statements, stmtsNodes_append, stmtsNodes_append,
      map_append, ← stmtsNodes_bare body]
    exact congrArg (· ++ _) (stmtsNodes_bare block.body)

namespace Grammar

open Parse (Reads)

variable {ts us front : List Token} {ns ms : List Expr} {t u : Token} {e : Expr}

/-- A name that is a constant. -/
structure IsConstant (t : Token) : Prop where
  identifier : t.kind = .identifier
  fixed : (constant? t.literal).isSome

/-- A constant, which may stand in parentheses. -/
inductive Fixed : List Token → Prop where
  | constant {t : Token} (isConstant : IsConstant t) : Fixed [t]
  | group {opening closing ts} (opens : opening.kind = .leftParen)
    (inner : Fixed ts) (closes : closing.kind = .rightParen)
    : Fixed (opening :: ts ++ [closing])

/-- The tokens end with a constant, which may stand in parentheses. -/
def EndsFixed (ts : List Token) : Prop := ∃ us, Fixed us ∧ us <:+ ts

/-- The tokens end with the condition of a statement. -/
def EndsConditional (ts : List Token) : Prop :=
  ∃ us test, us <:+ ts ∧ (Head Reads .ifWord us test ∨ Head Reads .whileWord us test)

instance : DecidablePred Steps := fun t =>
  inferInstanceAs (Decidable (t.kind = .increment ∨ t.kind = .decrement))

instance : DecidablePred IsConstant := fun t =>
  decidable_of_iff (t.kind = .identifier ∧ (constant? t.literal).isSome)
    ⟨fun both => ⟨both.1, both.2⟩, fun isConstant => ⟨isConstant.identifier, isConstant.fixed⟩⟩

theorem not_isConstant_of_kind (kind : t.kind ≠ .identifier) : ¬ IsConstant t :=
  fun isConstant => kind isConstant.identifier

theorem IsName.not_isConstant (isName : IsName t) : ¬ IsConstant t := by
  intro isConstant
  have fixed := isConstant.fixed
  rw [isName.free] at fixed
  cases fixed

/-- A constant in parentheses has no other name in it. -/
theorem Fixed.filter_identifier (fixed : Fixed ts)
    : ∃ t, IsConstant t ∧ ts.filter (·.kind = .identifier) = [t] := by
  induction fixed with
  | constant isConstant => exact ⟨_, isConstant, by simp [isConstant.identifier]⟩
  | group opens _ closes ih =>
    obtain ⟨t, isConstant, only⟩ := ih
    exact ⟨t, isConstant, by simp [opens, closes, only]⟩

theorem Fixed.exists_last (fixed : Fixed ts)
    : ∃ us t, ts = us ++ [t] ∧ (IsConstant t ∨ t.kind = .rightParen) := by
  cases fixed with
  | constant isConstant => exact ⟨[], _, rfl, Or.inl isConstant⟩
  | group _ _ closes => exact ⟨_, _, rfl, Or.inr closes⟩

theorem not_endsFixed_concat (free : ¬ IsConstant t) (inside : t.kind ≠ .rightParen)
    : ¬ EndsFixed (front ++ [t]) := by
  rintro ⟨us, fixed, before, whole⟩
  obtain ⟨vs, u, rfl, last⟩ := fixed.exists_last
  rw [← append_assoc] at whole
  obtain ⟨-, same⟩ := append_inj' whole rfl
  cases same
  rcases last with isConstant | closes
  · exact free isConstant
  · exact inside closes

/-- A token that may stand behind others: it assigns no constant. -/
structure Admits (front : List Token) (t : Token) : Prop where
  assigns : t.kind.isAssignment = true → ¬ EndsFixed front
  steps : Steps t → EndsFixed front → EndsConditional front

theorem Admits.of_not_endsFixed (free : ¬ EndsFixed front) : Admits front t :=
  ⟨fun _ => free, fun _ ends => absurd ends free⟩

/-- None of some tokens assigns a constant in front of it, where others stand in front of them all. -/
def Sealed : (front : List Token) → List Token → Prop
  | _, [] => True
  | front, t :: ts => Admits front t ∧ Sealed (front ++ [t]) ts

theorem sealed_append : Sealed front (ts ++ us) ↔ Sealed front ts ∧ Sealed (front ++ ts) us := by
  induction ts generalizing front with
  | nil => simp [Sealed]
  | cons t ts ih => simp [Sealed, ih, and_assoc]

/-- An operator that steps stands in front of no parenthesis, and a number in front of no name. -/
def Adjoins (t u : Token) : Prop :=
  (Steps t → u.kind ≠ .leftParen) ∧ (t.kind = .number → u.kind ≠ .identifier)

/-- Tokens assign no constant but by an operator in front of it, and the nodes that they give a tree
have no constant for a name but where the tokens do so.
-/
structure Guarded (ts : List Token) (ns : List Expr) : Prop where
  named : ∀ e ∈ ns, e.stepsFirst = false → e.Free
  exact : (∀ e ∈ ns, e.Free) ↔ ts.IsChain fun t u => ¬ (Steps t ∧ IsConstant u)
  adjoined : ts.IsChain Adjoins
  admitted : ∀ front, (∀ t ∈ ts.head?, Admits front t) → Sealed front ts

/-- An operand behind such a token starts anew. -/
structure Separates (t : Token) : Prop where
  free : ¬ IsConstant t
  steady : ¬ Steps t
  uncounted : t.kind ≠ .number
  inside : t.kind ≠ .rightParen

/-- Such a token neither starts an operand nor assigns the one in front of it. -/
structure Continues (t : Token) : Prop where
  unnamed : t.kind ≠ .identifier
  steady : ¬ Steps t
  outside : t.kind ≠ .leftParen
  unassigned : ¬ t.kind.isAssignment = true

/-- The kinds of tokens that are no part of a target and do not assign one. -/
def isNeutral : TokenKind → Bool
  | .number | .identifier | .leftParen | .rightParen | .increment | .decrement => false
  | kind => !kind.isAssignment

variable {kind : TokenKind}

theorem kind_ne_of_isNeutral (neutral : isNeutral t.kind = true) (other : isNeutral kind = false)
    : t.kind ≠ kind := by
  intro same
  rw [same, other] at neutral
  cases neutral

theorem separates_of_isNeutral (neutral : isNeutral t.kind = true) : Separates t where
  free := not_isConstant_of_kind (kind_ne_of_isNeutral neutral rfl)
  steady := not_or.mpr ⟨kind_ne_of_isNeutral neutral rfl, kind_ne_of_isNeutral neutral rfl⟩
  uncounted := kind_ne_of_isNeutral neutral rfl
  inside := kind_ne_of_isNeutral neutral rfl

theorem isAssignment_of_isNeutral (neutral : isNeutral kind = true)
    : kind.isAssignment = false := by
  cases kind <;> first | rfl | cases neutral

theorem continues_of_isNeutral (neutral : isNeutral t.kind = true) : Continues t where
  unnamed := kind_ne_of_isNeutral neutral rfl
  steady := (separates_of_isNeutral neutral).steady
  outside := kind_ne_of_isNeutral neutral rfl
  unassigned := by
    rw [isAssignment_of_isNeutral neutral]
    exact Bool.false_ne_true

theorem isNeutral_of_operator {p : Precedence} {op} (operator : p.operator? kind = some op)
    : isNeutral kind = true := by
  cases p <;> cases kind <;> first | rfl | cases operator

theorem isNeutral_of_sign {op} (sign : kind.unary? = some op) : isNeutral kind = true := by
  cases kind <;> first | rfl | cases sign

theorem separates_of_opens (opens : t.kind = .leftParen) : Separates t where
  free := not_isConstant_of_kind (by simp [opens])
  steady := by simp [Steps, opens]
  uncounted := by simp [opens]
  inside := by simp [opens]

theorem continues_of_closes (closes : t.kind = .rightParen) : Continues t where
  unnamed := by simp [closes]
  steady := by simp [Steps, closes]
  outside := by simp [closes]
  unassigned := by simp [closes, TokenKind.isAssignment]

theorem separates_of_assigns (assigns : t.kind.isAssignment = true) : Separates t := by
  have apart {kind : TokenKind} (other : kind.isAssignment = false) : t.kind ≠ kind := by
    intro same
    rw [same, other] at assigns
    cases assigns
  exact ⟨not_isConstant_of_kind (apart rfl), not_or.mpr ⟨apart rfl, apart rfl⟩, apart rfl, apart rfl⟩

theorem IsName.separates (isName : IsName t) : Separates t where
  free := isName.not_isConstant
  steady := by simp [Steps, isName.identifier]
  uncounted := by simp [isName.identifier]
  inside := by simp [isName.identifier]

namespace Guarded

theorem nil : Guarded [] [] where
  named := forall_mem_nil _
  exact := iff_of_true (forall_mem_nil _) .nil
  adjoined := .nil
  admitted _ _ := trivial

theorem token (t)
    : Guarded [t] [] where
  named := forall_mem_nil _
  exact := iff_of_true (forall_mem_nil _) (.singleton t)
  adjoined := .singleton t
  admitted _ first := ⟨first t rfl, trivial⟩

theorem node (guarded : Guarded ts ns) (free : e.Free) : Guarded ts (e :: ns) where
  named := forall_mem_cons.mpr ⟨fun _ => free, guarded.named⟩
  exact := by
    rw [← guarded.exact, forall_mem_cons]
    exact and_iff_right free
  adjoined := guarded.adjoined
  admitted := guarded.admitted

/-- Tokens one after the other, where no operator stands at the end of the first ones that the next
one does not agree with.
-/
theorem append (left : Guarded ts ns) (right : Guarded us ms)
    (apart : ∀ t ∈ ts.getLast?, ∀ u ∈ us.head?, ¬ (Steps t ∧ IsConstant u) ∧ Adjoins t u)
    (admits : ∀ front, ∀ u ∈ us.head?, Admits (front ++ ts) u) (some : ts ≠ [])
    : Guarded (ts ++ us) (ns ++ ms) where
  named := forall_mem_append.mpr ⟨left.named, right.named⟩
  exact := by
    -- No new pair of a step and a constant comes about where the tokens meet.
    rw [forall_mem_append, left.exact, right.exact, isChain_append]
    constructor
    · rintro ⟨first, second⟩
      exact ⟨first, second, fun t last u next => (apart t last u next).1⟩
    · rintro ⟨first, second, -⟩
      exact ⟨first, second⟩
  adjoined := isChain_append.mpr ⟨left.adjoined, right.adjoined,
    fun t last u next => (apart t last u next).2⟩
  admitted front first := by
    rw [List.head?_append_of_ne_nil _ some] at first
    exact sealed_append.mpr ⟨left.admitted front first, right.admitted _ (admits front)⟩

/-- The first tokens end with one that separates them from the others. -/
theorem append_of_last (left : Guarded (ts ++ [t]) ns) (separates : Separates t) (right : Guarded us ms)
    : Guarded (ts ++ [t] ++ us) (ns ++ ms) := by
  refine left.append right ?_ ?_ (append_ne_nil_of_right_ne_nil ts (cons_ne_nil t []))
  · intro t' last u _
    rw [List.getLast?_append_cons, List.getLast?_singleton] at last
    cases last
    exact ⟨fun both => separates.steady both.1, fun steps => absurd steps separates.steady,
      fun number => absurd number separates.uncounted⟩
  · intro front u _
    rw [← append_assoc]
    exact .of_not_endsFixed (not_endsFixed_concat separates.free separates.inside)

theorem before (separates : Separates t) (inner : Guarded ts ns) : Guarded (t :: ts) ns := by
  have first : Guarded ([] ++ [t]) [] := .token t
  exact first.append_of_last separates inner

theorem behind (inner : Guarded ts ns) (continues : Continues t) : Guarded (ts ++ [t]) ns := by
  by_cases some : ts = []
  · subst some
    exact ⟨inner.named, inner.exact.trans (iff_of_true .nil (.singleton t)), .singleton t,
      fun _ first => ⟨first t rfl, trivial⟩⟩
  · rw [← append_nil ns]
    refine inner.append (.token t) ?_ ?_ some
    · intro _ _ t' same
      cases same
      exact ⟨fun both => continues.unnamed both.2.identifier, fun _ => continues.outside,
        fun _ => continues.unnamed⟩
    · intro front t' same
      cases same
      exact ⟨fun assigns => absurd assigns continues.unassigned,
        fun steps => absurd steps continues.steady⟩

theorem join (left : Guarded ts ns) (neutral : isNeutral t.kind = true) (right : Guarded us ms)
    : Guarded (ts ++ t :: us) (ns ++ ms) := by
  have whole := append_of_last (left.behind (continues_of_isNeutral neutral))
    (separates_of_isNeutral neutral) right
  rwa [append_assoc] at whole

theorem group {opening closing} (opens : opening.kind = .leftParen) (inner : Guarded ts ns)
    (closes : closing.kind = .rightParen)
    : Guarded (opening :: ts ++ [closing]) ns :=
  (before (separates_of_opens opens) inner).behind (continues_of_closes closes)

end Guarded

variable {level : Level} {s : Option Stmt} {name : String}

section

variable (target : Variable ts name)
include target

theorem Variable.filter_identifier
    : ∃ t, IsName t ∧ t.literal = name ∧ ts.filter (·.kind = .identifier) = [t] := by
  induction target with
  | name isName => exact ⟨_, isName, rfl, by simp [isName.identifier]⟩
  | group opens _ closes ih =>
    obtain ⟨t, isName, named, only⟩ := ih
    exact ⟨t, isName, named, by simp [opens, closes, only]⟩

/-- No constant ends where a variable does, since the last name is either the one or the other. -/
theorem Variable.not_endsFixed (front : List Token) : ¬ EndsFixed (front ++ ts) := by
  rintro ⟨us, fixed, before, whole⟩
  obtain ⟨t, isName, -, only⟩ := target.filter_identifier
  obtain ⟨u, isConstant, only'⟩ := fixed.filter_identifier
  -- Parentheses may differ, so the names are compared and not the tokens.
  have last := congrArg (fun ts => (ts.filter (·.kind = .identifier)).getLast?) whole
  simp only [filter_append, only, only', List.getLast?_append,
    List.getLast?_singleton] at last
  cases last
  exact isName.not_isConstant isConstant

theorem Variable.guarded : Guarded ts [] := by
  induction target with
  | name isName => exact .token _
  | group opens _ closes ih => exact .group opens ih closes

theorem Variable.guarded_step {decrement} (steps : Steps t)
    : Guarded (ts ++ [t]) [.update .none name decrement false none] := by
  have some : ts ≠ [] := by cases target <;> exact cons_ne_nil _ _
  refine Guarded.node (target.guarded.append (.token t) ?_ ?_ some) ?_
  · intro _ _ u same
    cases same
    have apart : t.kind ≠ .identifier ∧ t.kind ≠ .leftParen := by
      rcases steps with kind | kind <;> simp [kind]
    exact ⟨fun both => apart.1 both.2.identifier, fun _ => apart.2, fun _ => apart.1⟩
  · intro front _ _
    exact .of_not_endsFixed (target.not_endsFixed front)
  · obtain ⟨v, isName, rfl, -⟩ := target.filter_identifier
    rintro name ⟨⟩
    exact isName.free

end

/-- A step in front of a name has a constant for a variable just if the name is one. -/
theorem guarded_stepFirst {decrement} (steps : Steps t) (identifier : u.kind = .identifier)
    : Guarded [t, u] [.update .none u.literal decrement true none] where
  named := by
    rw [forall_mem_singleton]
    intro other
    cases other
  exact := by
    rw [forall_mem_singleton, isChain_pair]
    constructor
    · rintro free ⟨-, isConstant⟩
      have fixed := isConstant.fixed
      rw [free u.literal rfl] at fixed
      cases fixed
    · rintro apart name ⟨⟩
      by_contra fixed
      exact apart ⟨steps, identifier, Option.isSome_iff_ne_none.mpr fixed⟩
  adjoined := isChain_pair.mpr ⟨fun _ => by simp [identifier], fun number => by
    rcases steps with kind | kind <;> rw [kind] at number <;> cases number⟩
  admitted front first :=
    ⟨first t rfl, ⟨by simp [identifier, TokenKind.isAssignment], by simp [Steps, identifier]⟩, trivial⟩

theorem nodes_callNode (name args)
    : (Parse.callNode .none name args).nodes = Parse.callNode .none name args :: exprsNodes args := by
  unfold Parse.callNode
  split <;> rfl

theorem free_callNode {args} (free : constant? name = none)
    : (Parse.callNode .none name args).Free := by
  unfold Parse.callNode
  split <;> rintro _ ⟨⟩ <;> exact free

/-- Arguments with commas between them, by induction on the arguments. -/
theorem Joined.guarded {args : List (List Token × Expr)} (joined : Joined (args.map (·.1)) ts)
    (each : ∀ arg ∈ args, Guarded arg.1 arg.2.nodes)
    : Guarded ts (exprsNodes (args.map (·.2))) := by
  induction args generalizing ts with
  | nil =>
    cases joined
    exact .nil
  | cons arg rest ih =>
    obtain ⟨first, others⟩ := forall_mem_cons.mp each
    cases rest with
    | nil =>
      cases joined
      rw [map_singleton, exprsNodes, exprsNodes, append_nil]
      exact first
    | cons arg' rest =>
      cases joined with
      | more separates joined =>
        exact first.join (by rw [separates]; rfl) (ih joined others)

/-- Expressions assign no constant but by an operator in front of it, by induction on the
expression.
-/
theorem Phrase.guarded (phrase : Phrase Reads level ts e) : Guarded ts e.nodes := by
  induction phrase with
  | number | constant => exact .node (.token _) (Expr.free_of_unnamed rfl)
  | name isName =>
    refine .node (.token _) ?_
    rintro name ⟨⟩
    exact isName.free
  | call isName opens _ joined closes ih =>
    rw [nodes_callNode]
    exact .node (.before isName.separates (.group opens (joined.guarded ih) closes))
      (free_callNode isName.free)
  | group opens _ closes ih => exact .group opens ih closes
  | plain _ ih | base _ ih | unsigned _ ih | operand _ ih | value _ ih => exact ih
  | stepped target steps => exact target.guarded_step steps
  | raised _ caret _ ih ih' => exact .node (ih.join (by rw [caret]; rfl) ih') (Expr.free_of_unnamed rfl)
  | signed sign _ ih =>
    exact .node (.before (separates_of_isNeutral (isNeutral_of_sign sign)) ih)
      (Expr.free_of_unnamed rfl)
  | steppedFirst steps identifier => exact guarded_stepFirst steps identifier
  | binary _ operator _ ih ih' =>
    exact .node (ih.join (isNeutral_of_operator operator) ih') (Expr.free_of_unnamed rfl)
  | assign isName assigns _ ih =>
    refine .node (.before isName.separates (.before (separates_of_assigns assigns) ih)) ?_
    rintro name ⟨⟩
    exact isName.free

theorem Head.guarded {keyword} (head : Head Reads keyword ts e) (neutral : isNeutral keyword = true)
    : Guarded ts e.nodes := by
  cases head with
  | condition starts opens inner closes =>
    exact .before (separates_of_isNeutral (by rw [starts, neutral])) (.group opens inner.guarded closes)

theorem Sentence.exists_last (sentence : Sentence Reads ts s) : ∃ us t, ts = us ++ [t] ∧ Separates t := by
  induction sentence with
  | empty ends => exact ⟨[], _, rfl, separates_of_isNeutral (by rw [ends]; rfl)⟩
  | expr _ ends => exact ⟨_, _, rfl, separates_of_isNeutral (by rw [ends]; rfl)⟩
  | block _ _ closes => exact ⟨_, _, rfl, separates_of_isNeutral (by rw [closes]; rfl)⟩
  | ifThen _ _ ih | loop _ _ ih =>
    obtain ⟨us, t, rfl, separates⟩ := ih
    exact ⟨_, t, (append_assoc ..).symm, separates⟩
  | ifElse _ _ _ _ _ ih =>
    obtain ⟨us, t, rfl, separates⟩ := ih
    exact ⟨_, t, by rw [← cons_append, ← append_assoc], separates⟩

theorem Sentence.not_isAssignment (sentence : Sentence Reads ts s)
    : ∀ t ∈ ts.head?, t.kind.isAssignment = false := by
  obtain ⟨t, us, rfl, starts⟩ := Parse.Sentence.starts sentence
  rintro _ ⟨⟩
  cases s with
  | none => rw [starts.2]; rfl
  | some s =>
    cases kind : t.kind <;> rw [kind] at starts <;> first | rfl | cases starts

/-- A condition and what it controls. An operator that steps may stand behind the condition. -/
theorem Head.guarded_controlled {keyword} (head : Head Reads keyword ts e)
    (word : keyword = .ifWord ∨ keyword = .whileWord) (inner : Sentence Reads us s)
    (guarded : Guarded us (controlled s).nodes)
    : Guarded (ts ++ us) (e.nodes ++ (controlled s).nodes) := by
  have neutral : isNeutral keyword = true := by rcases word with rfl | rfl <;> rfl
  refine (head.guarded neutral).append guarded ?_ ?_ ?_
  · intro t last u _
    cases head with
    | condition _ _ _ closes =>
      rw [List.getLast?_append_cons, List.getLast?_singleton] at last
      cases last
      have steady := (continues_of_closes closes).steady
      exact ⟨fun both => steady both.1, fun steps => absurd steps steady, by simp [closes]⟩
  · intro front u first
    -- A test may be a constant, so what stands behind the condition is told from an operator of the test.
    refine ⟨fun assigns => ?_, fun _ _ => ⟨ts, e, suffix_append front ts, ?_⟩⟩
    · rw [inner.not_isAssignment u first] at assigns
      cases assigns
    · rcases word with rfl | rfl
      · exact Or.inl head
      · exact Or.inr head
  · cases head
    exact cons_ne_nil _ _

theorem nodes_controlled (parts : List (List Token × Option Stmt)) (part : List Token × Option Stmt)
    : stmtsNodes ((part :: parts).filterMap (·.2))
      = (controlled part.2).nodes ++ stmtsNodes (parts.filterMap (·.2)) := by
  obtain ⟨ts, s⟩ := part
  cases s <;> rfl

theorem guarded_parts {parts : List (List Token × Option Stmt)}
    (each : ∀ part ∈ parts, Sentence Reads part.1 part.2)
    (guarded : ∀ part ∈ parts, Guarded part.1 (controlled part.2).nodes)
    : Guarded (parts.flatMap (·.1)) (stmtsNodes (parts.filterMap (·.2))) := by
  induction parts with
  | nil => exact .nil
  | cons part parts ih =>
    obtain ⟨sentence, others⟩ := forall_mem_cons.mp each
    obtain ⟨first, rest⟩ := forall_mem_cons.mp guarded
    obtain ⟨us, t, same, separates⟩ := sentence.exists_last
    rw [flatMap_cons, nodes_controlled]
    rw [same] at first ⊢
    exact first.append_of_last separates (ih others rest)

/-- Statements assign no constant but by an operator in front of it, by induction on the statement. -/
theorem Sentence.guarded (sentence : Sentence Reads ts s) : Guarded ts (controlled s).nodes := by
  induction sentence with
  | empty => exact .token _
  | expr value ends => exact value.guarded.behind (continues_of_isNeutral (by rw [ends]; rfl))
  | block opens each closes ih =>
    exact (Guarded.before (separates_of_isNeutral (by rw [opens]; rfl)) (guarded_parts each ih)).behind
      (continues_of_isNeutral (by rw [closes]; rfl))
  | ifThen head first ih => exact head.guarded_controlled (Or.inl rfl) first ih
  | ifElse head first otherwise _ ih ih' =>
    exact (head.guarded_controlled (Or.inl rfl) first ih).join (by rw [otherwise]; rfl) ih'
  | loop head inner ih => exact head.guarded_controlled (Or.inr rfl) inner ih

theorem Derives.guarded {program : Program} (derives : Derives Reads ts program)
    : Guarded ts (stmtsNodes program.statements) := by
  cases derives with
  | body each => exact guarded_parts each fun part member => (each part member).guarded
  | init starts opens block closes each =>
    have first := guarded_parts block fun part member => (block part member).guarded
    have rest := guarded_parts each fun part member => (each part member).guarded
    rw [Program.statements, stmtsNodes_append]
    exact (Guarded.before (separates_of_isNeutral (by rw [starts]; rfl))
      (.before (separates_of_isNeutral (by rw [opens]; rfl)) first)).join (by rw [closes]; rfl) rest

/-- Tokens that assign a constant by an operator behind it, or by one in front of its parentheses. Behind
a condition, an operator that steps belongs to the statement that follows.
-/
inductive AssignsConstant : List Token → Prop where
  | assigned {t : Token} {front ts back} (fixed : Fixed ts)
    (assigns : t.kind.isAssignment = true)
    : AssignsConstant (front ++ ts ++ t :: back)
  | stepped {t : Token} {front ts back} (fixed : Fixed ts) (steps : Steps t)
    (operand : ¬ EndsConditional (front ++ ts))
    : AssignsConstant (front ++ ts ++ t :: back)
  | steppedFirst {t : Token} {front ts back} (steps : Steps t) (fixed : Fixed ts)
    (grouped : 1 < ts.length)
    : AssignsConstant (front ++ t :: ts ++ back)

theorem Guarded.not_assignsConstant (guarded : Guarded ts ns) : ¬ AssignsConstant ts := by
  have unfixed : ¬ EndsFixed [] := by
    rintro ⟨us, fixed, ends⟩
    cases fixed <;> cases suffix_nil.mp ends
  have admitted := guarded.admitted [] fun t _ => .of_not_endsFixed unfixed
  intro assigned
  cases assigned with
  | @assigned t front us back fixed assigns =>
    exact (sealed_append.mp admitted).2.1.assigns assigns ⟨us, fixed, suffix_append front us⟩
  | @stepped t front us back fixed steps operand =>
    exact operand ((sealed_append.mp admitted).2.1.steps steps ⟨us, fixed, suffix_append front us⟩)
  | @steppedFirst t front us back steps fixed grouped =>
    cases fixed with
    | constant => exact absurd grouped (Nat.lt_irrefl 1)
    | group opens =>
      have chain := guarded.adjoined
      simp only [append_assoc, cons_append] at chain
      exact (isChain_append_cons_cons.mp chain).2.1.1 steps opens

end Grammar

open Grammar

/-- Constants are never variables, except where an increment or decrement stands directly in front of one.
In a script no other expression has the name of a constant, and none has it at all just if there is no such
place. A text that assigns a constant in another way is no script: it has errors of the syntax, and no
other problems.
-/
theorem constants_kept (source : Bytes)
    : (∀ script, parse source = .ok script →
        (∀ e ∈ stmtsNodes script.program.statements, e.stepsFirst = false → e.Free)
        ∧ ((∀ e ∈ stmtsNodes script.program.statements, e.Free)
          ↔ (scan source).1.IsChain fun t u => ¬ (Steps t ∧ IsConstant u)))
      ∧ (AssignsConstant (scan source).1 →
        ∃ problems, parse source = .error problems ∧ problems ≠ []
          ∧ ∀ p ∈ problems, p.code = .syntaxError ∧ p.severity = .error) := by
  constructor
  · intro script parsed
    have guarded := (derives_of_parse parsed).1.guarded
    rw [Program.nodes_bare] at guarded
    refine ⟨?_, ?_⟩
    · intro e member other
      rw [← Expr.free_bare]
      exact guarded.named e.bare (mem_map_of_mem member) (e.stepsFirst_bare.trans other)
    · rw [← guarded.exact, forall_mem_map]
      simp only [Expr.free_bare]
  · intro assigned
    cases parsed : parse source with
    | ok script => exact absurd assigned (derives_of_parse parsed).1.guarded.not_assignsConstant
    | error problems =>
      obtain ⟨found, some⟩ := parse_eq_error parsed
      have reported := Parse.program_reported ⟨.none, (scan source).1, (scan source).2⟩
      have inOrder := reported.inOrder (scan_ordered source).1
      rw [found] at some ⊢
      exact ⟨_, rfl, some, inOrder.errors⟩

/-- A condition that is a constant, with a step of a variable behind it. -/
def forced : Bytes := Text.toBytes "if (true) ++a; out = a ^ -b--;"

/-- A constant in parentheses that is to be raised. -/
def raised : Bytes := Text.toBytes "(true) += 2;"

theorem constants_kept_forced
    : (∃ script, parse forced = .ok script ∧ ∀ e ∈ stmtsNodes script.program.statements, e.Free)
      ∧ AssignsConstant (scan raised).1
      ∧ ∃ problems, parse raised = .error problems ∧ problems ≠ [] := by
  have steady : (scan forced).1.IsChain fun t u => ¬ (Steps t ∧ IsConstant u) := by decide +kernel
  have accepted : (parse forced).toOption.any (fun _ => true) = true := by decide +kernel
  have tokens : (scan raised).1
      = [] ++ [⟨.leftParen, "(", 0, 1, 1⟩, ⟨.identifier, "true", 1, 1, 2⟩, ⟨.rightParen, ")", 5, 1, 6⟩]
        ++ ⟨.plusAssign, "+=", 7, 1, 8⟩
          :: [⟨.number, "2", 10, 1, 11⟩, ⟨.semicolon, ";", 11, 1, 12⟩] := by
    decide +kernel
  have assigned : AssignsConstant (scan raised).1 := by
    rw [tokens]
    exact .assigned (.group rfl (.constant (by decide +kernel)) rfl) rfl
  refine ⟨?_, assigned, ?_⟩
  · obtain ⟨script, parsed, -⟩ := exists_parsed accepted
    exact ⟨script, parsed, (((constants_kept forced).1 script parsed).2).mpr steady⟩
  · obtain ⟨problems, parsed, some, -⟩ := (constants_kept raised).2 assigned
    exact ⟨problems, parsed, some⟩

/-- A constant with an increment in front of it. -/
def incremented : Bytes := Text.toBytes "++true;"

theorem incremented_constant
    : ∃ script, parse incremented = .ok script
      ∧ ∃ e ∈ stmtsNodes script.program.statements, ∃ name ∈ e.name?, (constant? name).isSome := by
  have named : (parse incremented).toOption.any
      (fun script => (stmtsNodes script.program.statements).map Expr.name? == [some "true"]) = true := by
    decide +kernel
  obtain ⟨script, parsed, names⟩ := exists_parsed named
  obtain ⟨e, member, name⟩ := mem_map.mp (eq_of_beq names ▸ mem_singleton_self (some "true"))
  exact ⟨script, parsed, e, member, "true", name, by decide +kernel⟩

end MapAlgebra
