import MapAlgebra.Script.Tree

/-! The expressions that a tree is made of, so that a fact about every place of a script is a fact
about the members of one list.
-/

namespace MapAlgebra

mutual

/-- An expression and all expressions inside it. -/
def Expr.nodes : Expr → List Expr
  | .literal span v => [.literal span v]
  | .read span name symbol => [.read span name symbol]
  | .binary span op left right => .binary span op left right :: (left.nodes ++ right.nodes)
  | .unary span op operand => .unary span op operand :: operand.nodes
  | .assign span target step value symbol => .assign span target step value symbol :: value.nodes
  | .update span target decrement before symbol => [.update span target decrement before symbol]
  | .builtin span name which args => .builtin span name which args :: exprsNodes args
  | .call span name args function => .call span name args function :: exprsNodes args

/-- All expressions inside several. -/
def exprsNodes : List Expr → List Expr
  | [] => []
  | e :: rest => e.nodes ++ exprsNodes rest

end

mutual

/-- All expressions inside a statement. -/
def Stmt.nodes : Stmt → List Expr
  | .expr e => e.nodes
  | .block _ body => stmtsNodes body
  | .ifThen _ test yes => test.nodes ++ yes.nodes
  | .ifElse _ test yes no => test.nodes ++ yes.nodes ++ no.nodes
  | .loop _ test body => test.nodes ++ body.nodes

/-- All expressions inside several statements. -/
def stmtsNodes : List Stmt → List Expr
  | [] => []
  | s :: rest => s.nodes ++ stmtsNodes rest

end

theorem Expr.mem_nodes (e : Expr) : e ∈ e.nodes := by
  cases e <;> simp [Expr.nodes]

theorem stmtsNodes_append (body more)
    : stmtsNodes (body ++ more) = stmtsNodes body ++ stmtsNodes more := by
  induction body with
  | nil => rfl
  | cons s rest ih => rw [List.cons_append, stmtsNodes, ih, stmtsNodes, List.append_assoc]

end MapAlgebra
