import MapAlgebra.Proofs.Eval.Assignment
import MapAlgebra.Proofs.Scope.Resolved

/-! Names stand for variables that were assigned before. A variable is visible only behind the assignment
that declares it and not behind the scope of that assignment, so what is visible was surely assigned.
-/

namespace MapAlgebra

open List

/-- The node is a plain assignment. -/
def Expr.isPlainAssignment : Expr → Bool
  | .assign _ _ none _ _ => true
  | _ => false

/-- The node is the assignment that declares a variable. -/
def Expr.Declares (symbol : Symbol) : Expr → Prop
  | .assign span _ none _ target => target = some symbol ∧ symbol.span = span
  | _ => False

instance (symbol : Symbol) : DecidablePred (Expr.Declares symbol)
  | .assign span _ none _ target => inferInstanceAs (Decidable (target = some symbol ∧ symbol.span = span))
  | .assign _ _ (some _) .. | .literal .. | .read .. | .binary .. | .unary .. | .update .. | .builtin ..
  | .call .. => isFalse not_false

/-- No plain assignment stands in the second operand of a logical operator, which may not be run. -/
def Expr.AssignsSurely : Expr → Prop
  | .binary _ .and _ right | .binary _ .or _ right => ∀ n ∈ right.nodes, n.isPlainAssignment = false
  | _ => True

instance : DecidablePred Expr.AssignsSurely
  | .binary _ .and _ right | .binary _ .or _ right =>
    inferInstanceAs (Decidable (∀ n ∈ right.nodes, n.isPlainAssignment = false))
  | .binary _ (.arith _) .. | .literal .. | .read .. | .unary .. | .assign .. | .update .. | .builtin ..
  | .call .. => isTrue trivial

/-- No compound assignment to a variable has the assignment that declares it in its value, which is run
when the variable has been loaded.
-/
def Expr.DeclaresFirst : Expr → Prop
  | .assign _ _ (some _) value (some symbol) =>
    symbol.role.isImage = false → ∀ n ∈ value.nodes, ¬ n.Declares symbol
  | _ => True

instance : DecidablePred Expr.DeclaresFirst
  | .assign _ _ (some _) value (some symbol) =>
    inferInstanceAs (Decidable (symbol.role.isImage = false → ∀ n ∈ value.nodes, ¬ n.Declares symbol))
  | .assign _ _ (some _) _ none | .assign _ _ none .. | .literal .. | .read .. | .binary .. | .unary ..
  | .update .. | .builtin .. | .call .. => isTrue trivial

/-- The node is looked at in the order in which it is run. -/
def Expr.InOrder (n : Expr) : Prop := n.AssignsSurely ∧ n.DeclaresFirst

instance : DecidablePred Expr.InOrder :=
  fun n => inferInstanceAs (Decidable (n.AssignsSurely ∧ n.DeclaresFirst))

variable {found : Option Symbol} {symbol : Symbol} {n : Expr} {nodes more : List Expr}

/-- All of the node is run, apart from second operands of logical operators: a built-in has no
arguments.
-/
def Expr.Argless : Expr → Prop
  | .builtin _ _ _ args => args = []
  | _ => True

/-- The nodes are looked at in order, and all of them are run. -/
def Settled (nodes : List Expr) : Prop := ∀ n ∈ nodes, n.InOrder ∧ n.Argless

theorem settled_cons : Settled (n :: nodes) ↔ (n.InOrder ∧ n.Argless) ∧ Settled nodes :=
  forall_mem_cons

theorem settled_append : Settled (nodes ++ more) ↔ Settled nodes ∧ Settled more :=
  forall_mem_append

theorem Expr.Declares.isPlainAssignment (declares : n.Declares symbol)
    : n.isPlainAssignment = true := by
  unfold Expr.Declares at declares
  split at declares
  · rfl
  · exact declares.elim

mutual

/-- What an expression declares it has surely stored, by induction on it. -/
theorem slot_mem_stored {symbol} (isVariable : symbol.role.isImage = false) (e : Expr)
    (settled : Settled e.nodes) {n} (member : n ∈ e.nodes) (declares : n.Declares symbol)
    : symbol.slot ∈ e.stored := by
  have here := settled e (Expr.mem_nodes e)
  cases e with
  | literal | read | update =>
    cases mem_singleton.mp member
    exact declares.elim
  | binary span op left right =>
    simp only [Expr.nodes, settled_cons, settled_append] at settled
    obtain ⟨-, settledLeft, settledRight⟩ := settled
    rcases mem_cons.mp member with rfl | member
    · exact declares.elim
    · rcases mem_append.mp member with inLeft | inRight
      · have stored := slot_mem_stored isVariable left settledLeft inLeft declares
        cases op with
        | arith op => exact Or.inl stored
        | and | or => exact stored
      · cases op with
        | arith op =>
          exact Or.inr (slot_mem_stored isVariable right settledRight inRight declares)
        | and | or =>
          cases (here.1.1 n inRight).symm.trans declares.isPlainAssignment
  | unary span op operand =>
    simp only [Expr.nodes, settled_cons] at settled
    rcases mem_cons.mp member with rfl | member
    · exact declares.elim
    · exact slot_mem_stored isVariable operand settled.2 member declares
  | assign span target step value found =>
    simp only [Expr.nodes, settled_cons] at settled
    rcases mem_cons.mp member with rfl | member
    · cases step with
      | none => exact Or.inr (mem_varSlots.mpr ⟨symbol, declares.1, isVariable, rfl⟩)
      | some op => exact declares.elim
    · exact Or.inl (slot_mem_stored isVariable value settled.2 member declares)
  | builtin span name which args =>
    have none : args = [] := here.2
    cases none
    cases mem_singleton.mp member
    exact declares.elim
  | call span name args function =>
    simp only [Expr.nodes, settled_cons] at settled
    rcases mem_cons.mp member with rfl | member
    · exact declares.elim
    · exact slot_mem_exprsStored isVariable args settled.2 member declares

theorem slot_mem_exprsStored {symbol} (isVariable : symbol.role.isImage = false) (es)
    (settled : Settled (exprsNodes es)) {n} (member : n ∈ exprsNodes es)
    (declares : n.Declares symbol)
    : symbol.slot ∈ exprsStored es := by
  cases es with
  | nil => cases member
  | cons e rest =>
    simp only [exprsNodes, settled_append] at settled
    rcases mem_append.mp member with here | later
    · exact Or.inl (slot_mem_stored isVariable e settled.1 here declares)
    · exact Or.inr (slot_mem_exprsStored isVariable rest settled.2 later declares)

end

namespace Resolve

/-- The symbol is a variable of an open scope. -/
def Visible (scopes : List Scope) (symbol : Symbol) : Prop :=
  symbol.role.isImage = false ∧ ∃ scope ∈ scopes, symbol ∈ scope.symbols

/-- The slots of the variables of open scopes. -/
def visibleSlots (scopes : List Scope) : Set Nat :=
  { slot | ∃ symbol, Visible scopes symbol ∧ symbol.slot = slot }

/-- A walk that declares nothing. -/
def Still {α : Type} (m : ResolveM α) : Prop :=
  ∀ s, (m.run s).2.scopes = s.scopes ∧ (m.run s).2.locals = s.locals

variable {α β : Type} {ctx : Context} {s t u : State}

theorem Still.pure (a : α) : Still (Pure.pure a) :=
  fun _ => ⟨rfl, rfl⟩

variable {m : ResolveM α} {name : String}

theorem Still.bind {next : α → ResolveM β} (first : Still m) (rest : ∀ a, Still (next a))
    : Still (m >>= next) := by
  intro s
  obtain ⟨scopes, locals⟩ := first s
  obtain ⟨scopes', locals'⟩ := rest (m.run s).1 (m.run s).2
  exact ⟨scopes'.trans scopes, locals'.trans locals⟩

theorem Still.ite {m' test} [Decidable test] (yes : Still m) (no : Still m')
    : Still (if test then m else m') := by
  split
  · exact yes
  · exact no

theorem still_report (cause span) : Still (report cause span) :=
  fun _ => ⟨rfl, rfl⟩

theorem still_noteWritten (name) : Still (noteWritten name) :=
  fun _ => ⟨rfl, rfl⟩

theorem still_readImage (ctx symbol span) : Still (readImage ctx symbol span) := by
  refine .ite (still_report _ span) (.ite (fun _ => ⟨rfl, rfl⟩) ?_)
  refine .bind (fun _ => ⟨rfl, rfl⟩) fun found => ?_
  exact .ite (still_report _ span) (.pure _)

theorem still_reportUnresolved (ctx name span) : Still (reportUnresolved ctx name span) :=
  .ite (still_report _ span) (still_report _ span)

theorem still_checkBuiltin (ctx name which argc span)
    : Still (checkBuiltin ctx name which argc span) := by
  have placed : Still (if which.isPositional && ctx.inInit then report (.positionInInit name) span
      else Pure.pure ()) :=
    .ite (still_report _ span) (.pure _)
  unfold checkBuiltin
  dsimp only
  split
  · exact (still_report _ span).bind fun _ => placed
  · exact placed

theorem still_calling (ctx name argc span) : Still (calling ctx name argc span) := by
  unfold calling
  split
  · exact (still_report _ span).bind fun _ => .pure _
  · exact .ite (.pure _) ((still_report _ span).bind fun _ => .pure _)

/-- What was found is visible if it is a variable. -/
def AllVisible (scopes : List Scope) (found : Option Symbol) : Prop :=
  ∀ symbol, found = some symbol → symbol.role.isImage = false → Visible scopes symbol

namespace AllVisible

variable {scopes : List Scope}

theorem lookup (found : Scope.lookupChain scopes name = some symbol)
    : AllVisible scopes (some symbol) := by
  rintro symbol ⟨⟩ isVariable
  obtain ⟨scope, isOpen, here⟩ := exists_of_findSome?_eq_some found
  exact ⟨isVariable, scope, isOpen, mem_of_find?_eq_some here⟩

theorem varSlots_subset (visible : AllVisible scopes found)
    : varSlots found ⊆ visibleSlots scopes := by
  intro slot stands
  obtain ⟨symbol, same, isVariable, rfl⟩ := mem_varSlots.mp stands
  exact ⟨symbol, visible symbol same isVariable, rfl⟩

end AllVisible

/-- A name was looked up, and what was found is what the open scopes know it as. -/
structure Looked (name : String) (s : State) (found : Option Symbol) (t : State) : Prop where
  scopes : t.scopes = s.scopes
  locals : t.locals = s.locals
  known : ∀ symbol, found = some symbol → Scope.lookupChain s.scopes name = some symbol

namespace Looked

theorem nothing (still : Still m) : Looked name s none (m.run s).2 :=
  ⟨(still s).1, (still s).2, by rintro symbol ⟨⟩⟩

theorem something (still : Still m) (here : Scope.lookupChain s.scopes name = some symbol)
    : Looked name s (some symbol) (m.run s).2 :=
  ⟨(still s).1, (still s).2, by rintro symbol ⟨⟩; exact here⟩

theorem visible (looked : Looked name s found t) : AllVisible s.scopes found :=
  fun symbol same => AllVisible.lookup (looked.known symbol same) symbol rfl

end Looked

theorem looked_reading (ctx name span s)
    : Looked name s ((reading ctx name span).run s).1 ((reading ctx name span).run s).2 := by
  unfold reading
  split
  · exact .nothing (still_report _ span)
  · rw [run_lookup_bind]
    cases found : Scope.lookupChain s.scopes name with
    | none => exact .nothing (still_reportUnresolved ctx name span)
    | some symbol =>
      dsimp only
      split
      · exact .something (still_readImage ctx symbol span) found
      · exact .something (.pure ()) found

theorem looked_updating (ctx name span s)
    : Looked name s ((updating ctx name span).run s).1 ((updating ctx name span).run s).2 := by
  unfold updating
  split
  · exact .nothing (still_report _ span)
  · rw [run_lookup_bind]
    cases found : Scope.lookupChain s.scopes name with
    | none => exact .nothing (still_reportUnresolved ctx name span)
    | some symbol =>
      dsimp only
      split
      · exact .something (.pure ()) found
      · split
        · exact .nothing (still_report _ span)
        · split
          · exact .nothing (still_report _ span)
          · exact .something ((still_readImage ctx symbol span).bind fun _ => still_noteWritten name)
              found

/-- The variable that a plain assignment declares. -/
def declaredAt (s : State) (inInit : Bool) (span : Span) (name : String) : Symbol :=
  { name, role := .ofVariable, scope := (s.scopes.headD default).name, slot := s.locals.size
    persistent := inInit, span }

/-- A plain assignment declares its target if it is new and no built-in. -/
theorem assigning_cases (ctx : Context) (name : String) (span : Span) (s : State)
    : Looked name s ((assigning ctx name span).run s).1 ((assigning ctx name span).run s).2
      ∨ Scope.lookupChain s.scopes name = none
        ∧ ((assigning ctx name span).run s).1 = some (declaredAt s ctx.inInit span name)
        ∧ ((assigning ctx name span).run s).2.scopes
          = (s.scopes.headD default).define (declaredAt s ctx.inInit span name) :: s.scopes.tail
        ∧ ((assigning ctx name span).run s).2.locals
          = s.locals.push (declaredAt s ctx.inInit span name) := by
  unfold assigning
  split
  · exact Or.inl (.nothing (still_report _ span))
  · rw [run_lookup_bind]
    cases found : Scope.lookupChain s.scopes name with
    | none =>
      -- A warning that a function has the name changes neither scopes nor variables.
      cases shadows : (ctx.registry.lookup name).isSome with
      | true => exact Or.inr ⟨rfl, rfl, rfl, rfl⟩
      | false => exact Or.inr ⟨rfl, rfl, rfl, rfl⟩
    | some symbol =>
      refine Or.inl ?_
      dsimp only
      split
      · exact .something (.pure ()) found
      · split
        · exact .nothing (still_report _ span)
        · split
          · exact .nothing (still_report _ span)
          · exact .something (still_noteWritten _) found

/-- A walk adds to the innermost scope and to the variables. Of what it makes visible something is
known.
-/
structure Walked (ctx : Context) (declared : Symbol → Prop) (s t : State) : Prop where
  tail : t.scopes.tail = s.scopes.tail
  locals : ∀ symbol ∈ s.locals, symbol ∈ t.locals
  fresh : ∀ symbol, Visible t.scopes symbol → Visible s.scopes symbol
    ∨ symbol ∈ t.locals ∧ symbol.persistent = ctx.inInit ∧ declared symbol

namespace Walked

variable {declared later : Symbol → Prop}

theorem trans (first : Walked ctx declared s t) (second : Walked ctx later t u)
    : Walked ctx (fun symbol => declared symbol ∨ later symbol) s u where
  tail := second.tail.trans first.tail
  locals symbol member := second.locals symbol (first.locals symbol member)
  fresh symbol visible := by
    rcases second.fresh symbol visible with visible | ⟨member, persistent, known⟩
    · rcases first.fresh symbol visible with visible | ⟨member, persistent, known⟩
      · exact Or.inl visible
      · exact Or.inr ⟨second.locals symbol member, persistent, Or.inl known⟩
    · exact Or.inr ⟨member, persistent, Or.inr known⟩

theorem imp (walked : Walked ctx declared s t)
    (implies : ∀ symbol, symbol.role.isImage = false → declared symbol → later symbol)
    : Walked ctx later s t where
  tail := walked.tail
  locals := walked.locals
  fresh symbol visible :=
    (walked.fresh symbol visible).imp_right fun known =>
      ⟨known.1, known.2.1, implies symbol visible.1 known.2.2⟩

theorem of_same (scopes : t.scopes = s.scopes) (locals : ∀ symbol ∈ s.locals, symbol ∈ t.locals)
    : Walked ctx declared s t :=
  ⟨by rw [scopes], locals, fun symbol visible => Or.inl (scopes ▸ visible)⟩

theorem followed (walked : Walked ctx declared s t) (scopes : u.scopes = t.scopes)
    (locals : ∀ symbol ∈ t.locals, symbol ∈ u.locals)
    : Walked ctx declared s u :=
  (walked.trans (of_same scopes locals)).imp fun _ _ known => known.elim id id

theorem of_looked (looked : Looked name s found t) : Walked ctx declared s t :=
  of_same looked.scopes fun _ member => looked.locals ▸ member

theorem andThen (walked : Walked ctx declared s t) (still : Still m)
    : Walked ctx declared s (m.run t).2 :=
  walked.followed (still t).1 fun _ member => (still t).2 ▸ member

end Walked

theorem walked_assigning (ctx name span s)
    : Walked ctx
        (fun symbol => ((assigning ctx name span).run s).1 = some symbol ∧ symbol.span = span) s
        ((assigning ctx name span).run s).2 := by
  obtain looked | ⟨-, found, scopes, locals⟩ := assigning_cases ctx name span s
  · exact .of_looked looked
  · refine ⟨by rw [scopes, tail_cons], fun symbol member => ?_, fun symbol visible => ?_⟩
    · rw [locals]
      exact Array.mem_push.mpr (Or.inl member)
    · obtain ⟨isVariable, scope, isOpen, member⟩ := visible
      rw [scopes] at isOpen
      rcases mem_cons.mp isOpen with rfl | outer
      · rcases mem_cons.mp member with rfl | older
        · rw [locals]
          exact Or.inr ⟨Array.mem_push.mpr (Or.inr rfl), rfl, found, rfl⟩
        · cases scopes : s.scopes with
          | nil =>
            rw [scopes] at older
            cases older
          | cons head tail =>
            rw [scopes] at older
            exact Or.inl ⟨isVariable, head, mem_cons_self, older⟩
      · exact Or.inl ⟨isVariable, scope, mem_of_mem_tail outer, member⟩

/-- The symbol is declared by one of the nodes. -/
def DeclaredIn (nodes : List Expr) (symbol : Symbol) : Prop :=
  ∃ n ∈ nodes, n.Declares symbol

theorem DeclaredIn.subset (declared : DeclaredIn nodes symbol) (subset : nodes ⊆ more)
    : DeclaredIn more symbol := by
  obtain ⟨n, member, declares⟩ := declared
  exact ⟨n, subset member, declares⟩

/-- What a walk over expressions tells: what it makes visible is declared there, and if all is looked
at in the order in which it is run, only what was visible before is loaded.
-/
structure ExprWalk (ctx : Context) (nodes : List Expr) (definite : Set Nat → Prop) (s t : State)
    : Prop where
  walked : Walked ctx (DeclaredIn nodes) s t
  definite : Settled nodes → definite (visibleSlots s.scopes)

namespace Walked

theorem subset (walked : Walked ctx (DeclaredIn nodes) s t) (subset : nodes ⊆ more)
    : Walked ctx (DeclaredIn more) s t :=
  walked.imp fun _ _ declared => declared.subset subset

theorem append (first : Walked ctx (DeclaredIn nodes) s t) (second : Walked ctx (DeclaredIn more) t u)
    : Walked ctx (DeclaredIn (nodes ++ more)) s u := by
  refine (first.trans second).imp fun symbol _ declared => ?_
  rcases declared with declared | declared
  · exact declared.subset (subset_append_left _ _)
  · exact declared.subset (subset_append_right _ _)

theorem visibleSlots_subset {stored} (walked : Walked ctx (fun symbol => symbol.slot ∈ stored) s t)
    : visibleSlots t.scopes ⊆ visibleSlots s.scopes ∪ stored := by
  rintro slot ⟨symbol, visible, rfl⟩
  rcases walked.fresh symbol visible with before | ⟨-, -, known⟩
  · exact Or.inl ⟨symbol, before, rfl⟩
  · exact Or.inr known

theorem stored {e : Expr} (walked : Walked ctx (DeclaredIn e.nodes) s t) (settled : Settled e.nodes)
    : Walked ctx (fun symbol => symbol.slot ∈ e.stored) s t := by
  refine walked.imp fun symbol isVariable declared => ?_
  obtain ⟨n, member, declares⟩ := declared
  exact slot_mem_stored isVariable e settled member declares

end Walked

mutual

/-- Expressions load only what is visible, by induction on the expression. -/
theorem walk_expr (ctx : Context) (e : Expr) (s : State)
    : ExprWalk ctx ((expr ctx e).run s).1.nodes ((expr ctx e).run s).1.Definite s
        ((expr ctx e).run s).2 := by
  cases e with
  | literal span v => exact ⟨.of_same rfl fun _ => id, fun _ => trivial⟩
  | read span name symbol =>
    have looked := looked_reading ctx name span s
    exact ⟨.of_looked looked, fun _ => looked.visible.varSlots_subset⟩
  | binary span op left right =>
    have first := walk_expr ctx left s
    have second := walk_expr ctx right ((expr ctx left).run s).2
    refine ⟨(first.walked.append second.walked).subset (subset_cons_self _ _), fun settled => ?_⟩
    obtain ⟨-, settled⟩ := settled_cons.mp settled
    obtain ⟨settledLeft, settledRight⟩ := settled_append.mp settled
    exact ⟨first.definite settledLeft, Expr.Definite.mono
      (first.walked.stored settledLeft).visibleSlots_subset _ (second.definite settledRight)⟩
  | unary span op operand =>
    have inner := walk_expr ctx operand s
    exact ⟨inner.walked.subset (subset_cons_self _ _), fun settled =>
      inner.definite (settled_cons.mp settled).2⟩
  | assign span target step value symbol =>
    have first := walk_expr ctx value s
    cases step with
    | none =>
      have second := walked_assigning ctx target span ((expr ctx value).run s).2
      refine ⟨(first.walked.trans second).imp fun symbol _ declared => ?_, fun settled =>
        first.definite (settled_cons.mp settled).2⟩
      rcases declared with declared | declares
      · exact declared.subset (subset_cons_self _ _)
      · exact ⟨_, mem_cons_self, declares⟩
    | some op =>
      have looked := looked_updating ctx target span ((expr ctx value).run s).2
      refine ⟨(first.walked.followed looked.scopes fun _ member => looked.locals ▸ member).subset
        (subset_cons_self _ _), fun settled => ?_⟩
      obtain ⟨inOrder, settled⟩ := settled_cons.mp settled
      refine ⟨AllVisible.varSlots_subset fun symbol found isVariable => ?_, first.definite settled⟩
      -- The target is looked up behind the value, which does not declare it.
      rcases first.walked.fresh symbol (looked.visible symbol found isVariable) with before | ⟨-, -, n, member, declares⟩
      · exact before
      · rw [found] at inOrder
        exact absurd declares (inOrder.1.2 isVariable n member)
  | update span target decrement before symbol =>
    have looked := looked_updating ctx target span s
    exact ⟨.of_looked looked, fun _ => looked.visible.varSlots_subset⟩
  | builtin span name which args =>
    have still := still_checkBuiltin ctx name which ((exprs ctx args).run s).1.length span
    exact ⟨((walk_exprs ctx args s).walked.andThen still).subset (subset_cons_self _ _),
      fun _ => trivial⟩
  | call span name args function =>
    have inner := walk_exprs ctx args s
    have still := still_calling ctx name ((exprs ctx args).run s).1.length span
    exact ⟨(inner.walked.andThen still).subset (subset_cons_self _ _), fun settled =>
      inner.definite (settled_cons.mp settled).2⟩

theorem walk_exprs (ctx es s)
    : ExprWalk ctx (exprsNodes ((exprs ctx es).run s).1)
        (exprsDefinite · ((exprs ctx es).run s).1) s ((exprs ctx es).run s).2 := by
  cases es with
  | nil => exact ⟨.of_same rfl fun _ => id, fun _ => trivial⟩
  | cons e rest =>
    have first := walk_expr ctx e s
    have second := walk_exprs ctx rest ((expr ctx e).run s).2
    refine ⟨first.walked.append second.walked, fun settled => ?_⟩
    obtain ⟨settledFirst, settledRest⟩ := settled_append.mp settled
    exact ⟨first.definite settledFirst, exprsDefinite_mono
      (first.walked.stored settledFirst).visibleSlots_subset _ (second.definite settledRest)⟩

end

/-- What a walk over statements tells: what stays visible is stored, if all is looked at in the order in
which it is run, and only what was visible before is loaded. Nothing stays visible behind a scope.
-/
structure StmtWalk (ctx : Context) (scope : Option String) (nodes : List Expr) (stored : Set Nat)
    (definite : Set Nat → Prop) (s t : State) : Prop where
  walked : Walked ctx (fun symbol => Settled nodes → symbol.slot ∈ stored) s t
  definite : Settled nodes → definite (visibleSlots s.scopes)
  closed : scope.isSome = true → t.scopes = s.scopes

/-- A new scope makes nothing visible. -/
theorem visibleSlots_cons (name : String) (scopes : List Scope)
    : visibleSlots ({ name, symbols := [] } :: scopes) = visibleSlots scopes := by
  ext slot
  constructor
  · rintro ⟨symbol, ⟨isVariable, scope, isOpen, member⟩, rfl⟩
    rcases mem_cons.mp isOpen with rfl | outer
    · cases member
    · exact ⟨symbol, ⟨isVariable, scope, outer, member⟩, rfl⟩
  · rintro ⟨symbol, ⟨isVariable, scope, isOpen, member⟩, rfl⟩
    exact ⟨symbol, ⟨isVariable, scope, mem_cons_of_mem _ isOpen, member⟩, rfl⟩

theorem walk_scoped (nodes : α → List Expr) (stored : α → Set Nat) (definite : α → Set Nat → Prop)
    {m} {declared : State → Symbol → Prop} (name scope)
    (walked : ∀ s, Walked ctx (declared s) s (m.run s).2)
    (loads : ∀ s, Settled (nodes (m.run s).1) → definite (m.run s).1 (visibleSlots s.scopes)) (s)
    : StmtWalk ctx scope (nodes ((within (some name) m).run s).1)
        (stored ((within (some name) m).run s).1) (definite ((within (some name) m).run s).1) s
        ((within (some name) m).run s).2 := by
  have inner := walked { s with scopes := { name, symbols := [] } :: s.scopes }
  refine ⟨.of_same inner.tail inner.locals, fun settled => ?_, fun _ => inner.tail⟩
  have loaded := loads { s with scopes := { name, symbols := [] } :: s.scopes } settled
  rwa [visibleSlots_cons] at loaded

theorem walk_within {m : ResolveM Stmt} (scope)
    (inner : ∀ s, StmtWalk ctx none (m.run s).1.nodes (m.run s).1.stored (m.run s).1.Definite s
      (m.run s).2) (s)
    : StmtWalk ctx scope ((within scope m).run s).1.nodes ((within scope m).run s).1.stored
        ((within scope m).run s).1.Definite s ((within scope m).run s).2 := by
  cases scope with
  | none => exact inner s
  | some name =>
    exact walk_scoped Stmt.nodes Stmt.stored (fun s known => s.Definite known) name (some name)
      (fun s => (inner s).walked) (fun s => (inner s).definite) s

theorem ExprWalk.stores {e : Expr} (walk : ExprWalk ctx e.nodes e.Definite s t)
    (settled : Settled nodes → Settled e.nodes)
    : Walked ctx (fun symbol => Settled nodes → symbol.slot ∈ e.stored) s t := by
  refine walk.walked.imp fun symbol isVariable declared all => ?_
  obtain ⟨n, member, declares⟩ := declared
  exact slot_mem_stored isVariable e (settled all) member declares

/-- What is run behind a test in a scope of its own may load what the test has stored. -/
theorem ExprWalk.branch {test : Expr} {body : Stmt}
    (first : ExprWalk ctx test.nodes test.Definite s t)
    (second : StmtWalk ctx (some name) body.nodes body.stored body.Definite t u)
    : StmtWalk ctx none (test.nodes ++ body.nodes) test.stored
        (fun known => test.Definite known ∧ body.Definite (known ∪ test.stored)) s u := by
  refine ⟨(first.stores fun all => (settled_append.mp all).1).followed (second.closed rfl)
    second.walked.locals, fun settled => ?_, by rintro ⟨⟩⟩
  obtain ⟨settledTest, settledBody⟩ := settled_append.mp settled
  exact ⟨first.definite settledTest, Stmt.Definite.mono
    (first.walked.stored settledTest).visibleSlots_subset _ (second.definite settledBody)⟩

mutual

/-- Statements load only what is visible, by induction on the statement. -/
theorem walk_stmt (ctx : Context) (scope : Option String) (body : Stmt) (s : State)
    : StmtWalk ctx scope ((stmt ctx scope body).run s).1.nodes ((stmt ctx scope body).run s).1.stored
        ((stmt ctx scope body).run s).1.Definite s ((stmt ctx scope body).run s).2 := by
  cases body with
  | expr e =>
    refine walk_within scope (fun s => ?_) s
    have walk := walk_expr ctx e s
    exact ⟨walk.stores id, walk.definite, by rintro ⟨⟩⟩
  | block span body =>
    exact walk_scoped (m := do return .block span (← stmts ctx body)) Stmt.nodes Stmt.stored
      (fun s known => s.Definite known) (scope.getD "block") scope
      (fun s => (walk_stmts ctx body s).walked) (fun s => (walk_stmts ctx body s).definite) s
  | ifThen span test yes =>
    refine walk_within scope (fun s => ?_) s
    exact (walk_expr ctx test s).branch (walk_stmt ctx (some "then") yes ((expr ctx test).run s).2)
  | ifElse span test yes no =>
    refine walk_within scope (fun s => ?_) s
    have first := walk_expr ctx test s
    have second := walk_stmt ctx (some "then") yes ((expr ctx test).run s).2
    have third := walk_stmt ctx (some "else") no
      ((stmt ctx (some "then") yes).run ((expr ctx test).run s).2).2
    have branch := first.branch second
    refine ⟨(branch.walked.followed (third.closed rfl) third.walked.locals).imp
      fun _ _ stored settled => stored (settled_append.mp settled).1, fun settled => ?_,
      by rintro ⟨⟩⟩
    obtain ⟨settled, settledNo⟩ := settled_append.mp settled
    obtain ⟨settledTest, -⟩ := settled_append.mp settled
    -- The other branch starts where the first one did.
    have definiteNo := third.definite settledNo
    rw [second.closed rfl] at definiteNo
    obtain ⟨definiteTest, definiteYes⟩ := branch.definite settled
    exact ⟨definiteTest, definiteYes, Stmt.Definite.mono
      (first.walked.stored settledTest).visibleSlots_subset _ definiteNo⟩
  | loop span test body =>
    refine walk_within scope (fun s => ?_) s
    exact (walk_expr ctx test s).branch (walk_stmt ctx (some "while") body ((expr ctx test).run s).2)

theorem walk_stmts (ctx body s)
    : StmtWalk ctx none (stmtsNodes ((stmts ctx body).run s).1) (stmtsStored ((stmts ctx body).run s).1)
        (stmtsDefinite · ((stmts ctx body).run s).1) s ((stmts ctx body).run s).2 := by
  cases body with
  | nil => exact ⟨.of_same rfl fun _ => id, fun _ => trivial, fun _ => rfl⟩
  | cons first rest =>
    have walk := walk_stmt ctx none first s
    have walk' := walk_stmts ctx rest ((stmt ctx none first).run s).2
    refine ⟨(walk.walked.trans walk'.walked).imp fun symbol _ stored settled => ?_, fun settled => ?_,
      by rintro ⟨⟩⟩
    · obtain ⟨settledFirst, settledRest⟩ := settled_append.mp settled
      exact stored.imp (· settledFirst) (· settledRest)
    · obtain ⟨settledFirst, settledRest⟩ := settled_append.mp settled
      have subset := (walk.walked.imp fun _ _ stored => stored settledFirst).visibleSlots_subset
      exact ⟨walk.definite settledFirst, stmtsDefinite_mono subset _ (walk'.definite settledRest)⟩

end

end Resolve

/-- The init block loads only what it has stored, and the body only what it has stored or the init
block has stored in variables that last.
-/
structure Program.Definite (lasting : List Nat) (p : Program) : Prop where
  init : stmtsDefinite ∅ p.initBody
  body : stmtsDefinite { slot | slot ∈ lasting ∧ slot ∈ stmtsStored p.initBody } p.body

namespace Resolve

/-- A script that is looked at in the order in which it is run loads only what it has stored, if nothing
is visible before it.
-/
theorem definite_program (registry : Registry) (p : Program) {s}
    (bare : ∀ symbol, ¬ Visible s.scopes symbol) (images : List Symbol) (root : Scope)
    (init : Settled (stmtsNodes ((program registry p).run s).1.initBody))
    (body : Settled (stmtsNodes ((program registry p).run s).1.body))
    : ((program registry p).run s).1.Definite
        (SymbolTable.persistentSlots
          { images, locals := ((program registry p).run s).2.locals, root }) := by
  have nothing : visibleSlots s.scopes ⊆ ∅ := by
    rintro slot ⟨symbol, visible, -⟩
    exact absurd visible (bare symbol)
  have walkBody (s : State) :=
    walk_scoped stmtsNodes stmtsStored (fun body known => stmtsDefinite known body) "pixel"
      (some "pixel") (fun s => (walk_stmts (contextOf registry p false) p.body s).walked)
      (fun s => (walk_stmts (contextOf registry p false) p.body s).definite) s
  cases given : p.init with
  | none =>
    unfold program at init body ⊢
    simp only [given] at init body ⊢
    exact ⟨trivial,
      stmtsDefinite_mono (nothing.trans (Set.empty_subset _)) _ ((walkBody s).definite body)⟩
  | some block =>
    unfold program at init body ⊢
    simp only [given] at init body ⊢
    have first := walk_stmts (contextOf registry p true) block.body s
    have second := walkBody ((stmts (contextOf registry p true) block.body).run s).2
    refine ⟨stmtsDefinite_mono nothing _ (first.definite init),
      stmtsDefinite_mono ?_ _ (second.definite body)⟩
    rintro slot ⟨symbol, visible, rfl⟩
    rcases first.walked.fresh symbol visible with visible | ⟨member, persistent, stored⟩
    · exact absurd visible (bare symbol)
    · refine ⟨mem_map_of_mem (mem_filter.mpr ⟨?_, persistent⟩), stored init⟩
      exact Array.mem_toList_iff.mpr (second.walked.locals symbol member)

end Resolve

/-- A resolved node has no arguments that are not run. -/
theorem Expr.Resolved.argless {names} (resolved : n.Resolved names) : n.Argless := by
  cases n with
  | builtin span name which args => exact resolved.1
  | _ => trivial

theorem Program.exists_init {p : Program} (member : n ∈ stmtsNodes p.initBody)
    : ∃ block, p.init = some block ∧ n ∈ stmtsNodes block.body := by
  unfold Program.initBody at member
  cases given : p.init with
  | none =>
    rw [given] at member
    cases member
  | some block =>
    rw [given] at member
    exact ⟨block, rfl, member⟩

/-- An accepted script that is looked at in the order in which it is run loads only what it has
stored.
-/
theorem definite_of_inOrder {bindings : Bindings} {registry program}
    (valid : bindings.error? = none)
    (accepted : (resolve bindings registry program).problems.hasErrors = false)
    (inOrder : ∀ n ∈ stmtsNodes (resolve bindings registry program).program.statements, n.InOrder)
    : (resolve bindings registry program).program.Definite
        (resolve bindings registry program).table.persistentSlots := by
  obtain ⟨resolved, -⟩ := resolve_allResolved registry valid accepted
  rw [Program.statements, stmtsNodes_append, forall_mem_append] at inOrder
  refine Resolve.definite_program registry program (fun symbol visible => ?_) _ _
    (fun n member => ⟨inOrder.1 n member, ?_⟩)
    (fun n member => ⟨inOrder.2 n member, (resolved.body n member).argless⟩)
  · obtain ⟨isVariable, scope, isOpen, member⟩ := visible
    cases mem_singleton.mp isOpen
    have image := Scope.isImage_imageSymbols valid symbol (mem_reverse.mp member)
    cases isVariable.symm.trans image
  · obtain ⟨block, given, member⟩ := Program.exists_init member
    exact (resolved.init block given n member).argless

end MapAlgebra
