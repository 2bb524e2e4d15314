import MapAlgebra.Eval.Tree
import MapAlgebra.Proofs.Script.Nodes

/-! Statements about evaluations that carry over from parts to wholes. Such a statement holds of a
script as soon as it holds of the operations that the nodes of the script ask for.
-/

namespace MapAlgebra

open List

/-- A statement about evaluations that holds of giving a value and of one evaluation after another. -/
structure Eval.Chains (holds : ∀ ⦃α : Type⦄, EvalM α → Prop) : Prop where
  pure : ∀ {α : Type} (a : α), holds (Pure.pure a : EvalM α)
  bind : ∀ {α β : Type} {m : EvalM α} {next : α → EvalM β},
    holds m → (∀ a, holds (next a)) → holds (m >>= next)

/-- The statement also holds of what loops do by themselves. -/
structure Eval.Composes (holds : ∀ ⦃α : Type⦄, EvalM α → Prop) : Prop extends Eval.Chains holds where
  tick : holds EvalM.tick
  unfinished : holds (throw .unfinished : EvalM Unit)

/-- A statement holds of the operations that a node asks for itself. A call takes the values of its
arguments, of which there are as many as arguments.
-/
def Expr.Runs (holds : ∀ ⦃α : Type⦄, EvalM α → Prop) : Expr → Prop
  | .literal .. | .binary .. | .unary .. => True
  | .read _ _ symbol => holds (Eval.load symbol)
  | .assign _ _ _ _ symbol | .update _ _ _ _ symbol =>
    holds (Eval.load symbol) ∧ ∀ v, holds (Eval.store symbol v)
  | .builtin _ _ which _ => holds (EvalM.builtin which)
  | .call span name args function =>
    holds (Eval.exprs args) → holds (Eval.expr (.call span name args function))

namespace Eval

/-- Arguments give a value each, by induction on the list. -/
theorem length_of_exprs {es env env' vs} (ran : (exprs es).run env = .ok vs env')
    : vs.length = es.length := by
  induction es generalizing env vs with
  | nil =>
    cases ran
    rfl
  | cons e rest ih =>
    simp only [exprs, EStateM.run_bind] at ran
    cases first : (expr e).run env with
    | error stop env1 => exact nomatch first ▸ ran
    | ok v env1 =>
      simp only [first] at ran
      cases more : (exprs rest).run env1 with
      | error stop env2 => exact nomatch more ▸ ran
      | ok vs' env2 =>
        simp only [more] at ran
        cases ran
        exact congrArg (· + 1) (ih more)

namespace Chains

variable {holds : ∀ ⦃α : Type⦄, EvalM α → Prop}

theorem runs_call (chains : Chains holds) {span name args function}
    (call : ∀ vs, holds (do EvalM.call (← EvalM.orCrash function) vs))
    : Expr.Runs holds (.call span name args function) := by
  intro given
  exact chains.bind given call

mutual

/-- What holds of the nodes of an expression holds of the expression, by induction on it. -/
theorem expr (chains : Chains holds) (e : Expr) (runs : ∀ n ∈ e.nodes, n.Runs holds)
    : holds (Eval.expr e) := by
  have here := runs e (Expr.mem_nodes e)
  cases e with
  | literal span v => exact chains.pure _
  | read span name symbol => exact here
  | binary span op left right =>
    simp only [Expr.nodes, forall_mem_cons, forall_mem_append] at runs
    obtain ⟨-, runsLeft, runsRight⟩ := runs
    have holdsLeft := chains.expr left runsLeft
    have holdsRight := chains.expr right runsRight
    cases op with
    | arith op =>
      exact chains.bind holdsLeft fun a => chains.bind holdsRight fun b =>
        chains.pure _
    | and =>
      refine chains.bind holdsLeft fun a => ?_
      split
      · exact chains.bind holdsRight fun b => chains.pure _
      · exact chains.pure _
    | or =>
      refine chains.bind holdsLeft fun a => ?_
      split
      · exact chains.pure _
      · exact chains.bind holdsRight fun b => chains.pure _
  | unary span op operand =>
    simp only [Expr.nodes, forall_mem_cons] at runs
    exact chains.bind (chains.expr operand runs.2) fun v => chains.pure _
  | assign span target step value symbol =>
    obtain ⟨loads, stores⟩ := here
    simp only [Expr.nodes, forall_mem_cons] at runs
    have holdsValue := chains.expr value runs.2
    cases step with
    | none =>
      exact chains.bind holdsValue fun v => chains.bind (stores v) fun _ =>
        chains.pure _
    | some op =>
      exact chains.bind loads fun old => chains.bind holdsValue fun b =>
        chains.bind (stores _) fun _ => chains.pure _
  | update span target decrement before symbol =>
    obtain ⟨loads, stores⟩ := here
    exact chains.bind loads fun old => chains.bind (stores _) fun _ =>
      chains.pure _
  | builtin span name which args => exact here
  | call span name args function =>
    simp only [Expr.nodes, forall_mem_cons] at runs
    exact here (chains.exprs args runs.2)

theorem exprs (chains : Chains holds) (es) (runs : ∀ n ∈ exprsNodes es, n.Runs holds)
    : holds (Eval.exprs es) := by
  cases es with
  | nil => exact chains.pure _
  | cons e rest =>
    simp only [exprsNodes, forall_mem_append] at runs
    exact chains.bind (chains.expr e runs.1) fun v =>
      chains.bind (chains.exprs rest runs.2) fun vs => chains.pure _

end

/-- What holds of a test and of a body holds of repeating them. -/
def Loops (holds : ∀ ⦃α : Type⦄, EvalM α → Prop) (fuel : Nat) : Prop :=
  ∀ {test : EvalM Sample} {body : EvalM Unit}, holds test → holds body
    → holds (Eval.repeating test body fuel)

mutual

/-- What holds of the nodes of a statement holds of the statement, by induction on it. -/
theorem stmt (chains : Chains holds) {fuel} (loops : Loops holds fuel) (s : Stmt)
    (runs : ∀ n ∈ s.nodes, n.Runs holds)
    : holds (Eval.stmt fuel s) := by
  cases s with
  | expr e =>
    exact chains.bind (chains.expr e runs) fun _ => chains.pure _
  | block span body => exact chains.stmts loops body runs
  | ifThen span test yes =>
    simp only [Stmt.nodes, forall_mem_append] at runs
    refine chains.bind (chains.expr test runs.1) fun v => ?_
    split
    · exact chains.stmt loops yes runs.2
    · exact chains.pure _
  | ifElse span test yes no =>
    simp only [Stmt.nodes, forall_mem_append] at runs
    refine chains.bind (chains.expr test runs.1.1) fun v => ?_
    split
    · exact chains.stmt loops yes runs.1.2
    · exact chains.stmt loops no runs.2
  | loop span test body =>
    simp only [Stmt.nodes, forall_mem_append] at runs
    exact loops (chains.expr test runs.1) (chains.stmt loops body runs.2)

theorem stmts (chains : Chains holds) {fuel} (loops : Loops holds fuel) (body)
    (runs : ∀ n ∈ stmtsNodes body, n.Runs holds)
    : holds (Eval.stmts fuel body) := by
  cases body with
  | nil => exact chains.pure _
  | cons s rest =>
    simp only [stmtsNodes, forall_mem_append] at runs
    exact chains.bind (chains.stmt loops s runs.1) fun _ => chains.stmts loops rest runs.2

end

end Chains

namespace Composes

variable {holds : ∀ ⦃α : Type⦄, EvalM α → Prop}

/-- What holds of a test and of a body holds of repeating them, by induction on the fuel. -/
theorem loops (composes : Composes holds) (fuel : Nat) : Chains.Loops holds fuel := by
  intro test body holdsTest holdsBody
  induction fuel with
  | zero => exact composes.unfinished
  | succ fuel ih =>
    refine composes.bind holdsTest fun v => ?_
    split
    · exact composes.bind holdsBody fun _ => composes.bind composes.tick fun _ => ih
    · exact composes.pure _

theorem stmts (composes : Composes holds) (fuel body) (runs : ∀ n ∈ stmtsNodes body, n.Runs holds)
    : holds (Eval.stmts fuel body) :=
  composes.toChains.stmts (composes.loops fuel) body runs

end Composes

end Eval

end MapAlgebra
