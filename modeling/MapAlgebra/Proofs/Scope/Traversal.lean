import MapAlgebra.Proofs.Script.Nodes
import MapAlgebra.Scope.Resolve

/-! Statements about the walk over a script that carry over from its steps. Such a statement relates the
nodes that a part of the walk annotates to what is found before it and behind it.
-/

namespace MapAlgebra

open Resolve

/-- The statements of the init block, if there is one. -/
def Program.initBody (p : Program) : List Stmt :=
  (p.init.map (·.body)).getD []

namespace Resolve

/-- What is known of a script while its init block or its body is looked at. -/
def contextOf (registry : Registry) (p : Program) (inInit : Bool) : Context :=
  { registry, assigned := (p.targets.filter (·.2)).map (·.1), inInit }

/-- Annotates a node whose operands are annotated. -/
def annotate (ctx : Context) : Expr → ResolveM Expr
  | .read span name _ => return .read span name (← reading ctx name span)
  | .assign span target none value _ =>
    return .assign span target none value (← assigning ctx target span)
  | .assign span target (some op) value _ =>
    return .assign span target (some op) value (← updating ctx target span)
  | .update span target decrement before _ =>
    return .update span target decrement before (← updating ctx target span)
  | .builtin span name which args => do
    checkBuiltin ctx name which args.length span
    return .builtin span name which args
  | .call span name args _ => return .call span name args (← calling ctx name args.length span)
  | n => return n

/-- A statement that holds of annotating a node, of one part of a walk after another, and of a part in a
scope of its own. The order of the nodes does not matter.
-/
structure Traverses (ctx : Context) (holds : List Expr → State → State → Prop) : Prop where
  nothing : ∀ s, holds [] s s
  own : ∀ n s, holds [((annotate ctx n).run s).1] s ((annotate ctx n).run s).2
  append : ∀ {nodes more s t u}, holds nodes s t → holds more t u → holds (nodes ++ more) s u
  congr : ∀ {nodes more s t}, (∀ n, n ∈ more ↔ n ∈ nodes) → holds nodes s t → holds more s t
  enclosed : ∀ {name nodes s t}, holds nodes { s with scopes := { name, symbols := [] } :: s.scopes } t
    → holds nodes s { t with scopes := t.scopes.tail }

namespace Traverses

variable {ctx : Context} {holds : List Expr → State → State → Prop}

/-- A node is annotated behind its operands, but stands before them. -/
theorem node (traverses : Traverses ctx holds) {nodes s t} (operands : holds nodes s t) (n : Expr)
    : holds (((annotate ctx n).run t).1 :: nodes) s ((annotate ctx n).run t).2 :=
  traverses.congr (fun _ => by simp [or_comm]) (traverses.append operands (traverses.own n t))

mutual

/-- The statement holds of an expression, by induction on it. -/
theorem expr (traverses : Traverses ctx holds) (e : Expr) (s : State)
    : holds ((expr ctx e).run s).1.nodes s ((expr ctx e).run s).2 := by
  cases e with
  | literal span v => exact traverses.own (.literal span v) s
  | read span name symbol => exact traverses.own (.read span name symbol) s
  | update span target decrement before symbol =>
    exact traverses.own (.update span target decrement before symbol) s
  | binary span op left right =>
    have operands := traverses.append (traverses.expr left s) (traverses.expr right _)
    exact traverses.node operands (.binary span op _ _)
  | unary span op operand => exact traverses.node (traverses.expr operand s) (.unary span op _)
  | assign span target step value symbol =>
    have operand := traverses.expr value s
    cases step with
    | none => exact traverses.node operand (.assign span target none _ none)
    | some op => exact traverses.node operand (.assign span target (some op) _ none)
  | builtin span name which args =>
    exact traverses.node (traverses.exprs args s) (.builtin span name which _)
  | call span name args function =>
    exact traverses.node (traverses.exprs args s) (.call span name _ none)

theorem exprs (traverses : Traverses ctx holds) (es s)
    : holds (exprsNodes ((exprs ctx es).run s).1) s ((exprs ctx es).run s).2 := by
  cases es with
  | nil => exact traverses.nothing s
  | cons e rest => exact traverses.append (traverses.expr e s) (traverses.exprs rest _)

end

theorem within (traverses : Traverses ctx holds) {α : Type} {m} (nodes : α → List Expr)
    (inner : ∀ s, holds (nodes (m.run s).1) s (m.run s).2) (scope s)
    : holds (nodes ((within scope m).run s).1) s ((within scope m).run s).2 := by
  cases scope with
  | none => exact inner s
  | some name => exact traverses.enclosed (inner _)

mutual

/-- The statement holds of a statement of the script, by induction on that. -/
theorem stmt (traverses : Traverses ctx holds) (scope : Option String) (body : Stmt) (s : State)
    : holds ((stmt ctx scope body).run s).1.nodes s ((stmt ctx scope body).run s).2 := by
  cases body with
  | expr e =>
    refine traverses.within Stmt.nodes (fun s => ?_) scope s
    exact traverses.expr e s
  | block span body =>
    refine traverses.within Stmt.nodes (fun s => ?_) (some (scope.getD "block")) s
    exact traverses.stmts body s
  | ifThen span test yes =>
    refine traverses.within Stmt.nodes (fun s => ?_) scope s
    exact traverses.append (traverses.expr test s) (traverses.stmt (some "then") yes _)
  | ifElse span test yes no =>
    refine traverses.within Stmt.nodes (fun s => ?_) scope s
    have first := traverses.append (traverses.expr test s) (traverses.stmt (some "then") yes _)
    exact traverses.append first (traverses.stmt (some "else") no _)
  | loop span test body =>
    refine traverses.within Stmt.nodes (fun s => ?_) scope s
    exact traverses.append (traverses.expr test s) (traverses.stmt (some "while") body _)

theorem stmts (traverses : Traverses ctx holds) (body s)
    : holds (stmtsNodes ((stmts ctx body).run s).1) s ((stmts ctx body).run s).2 := by
  cases body with
  | nil => exact traverses.nothing s
  | cons first rest => exact traverses.append (traverses.stmt none first s) (traverses.stmts rest _)

end

/-- A script is walked over in two parts, the init block and the body in a scope of its own. -/
theorem program {registry p later} (init : Traverses (contextOf registry p true) holds)
    (body : Traverses (contextOf registry p false) later) (s : State)
    : ∃ t, holds (stmtsNodes ((Resolve.program registry p).run s).1.initBody) s t
      ∧ later (stmtsNodes ((Resolve.program registry p).run s).1.body) t
        ((Resolve.program registry p).run s).2 := by
  have rest (t : State) := body.within stmtsNodes (body.stmts p.body) (some "pixel") t
  unfold Resolve.program
  cases p.init with
  | none => exact ⟨s, init.nothing s, rest s⟩
  | some block => exact ⟨_, init.stmts block.body s, rest _⟩

end Traverses

end Resolve

end MapAlgebra
