import MapAlgebra.Function
import MapAlgebra.Script.Operator
import MapAlgebra.Script.Symbol
import MapAlgebra.Script.Vocabulary

/-! Syntax trees of scripts. The parser leaves the symbols and functions of a tree open; resolving
names fills in those that the bindings and the registry know.
-/

namespace MapAlgebra

inductive Expr where
  | literal (span : Span) (value : Sample)
  /-- The value of a variable, or of an image at the current pixel. -/
  | read (span : Span) (name : String) (symbol : Option Symbol)
  | binary (span : Span) (op : BinaryOp) (left right : Expr)
  | unary (span : Span) (op : UnaryOp) (operand : Expr)
  /-- An assignment, with the arithmetic step of a compound one. -/
  | assign (span : Span) (target : String) (step : Option Arith) (value : Expr)
    (symbol : Option Symbol)
  /-- An increment or decrement by one; `before` when the operator stands in front. -/
  | update (span : Span) (target : String) (decrement before : Bool) (symbol : Option Symbol)
  | builtin (span : Span) (name : String) (which : Builtin) (args : List Expr)
  | call (span : Span) (name : String) (args : List Expr) (function : Option Function)

def Expr.span : Expr → Span
  | literal s .. | read s .. | binary s .. | unary s .. | assign s .. | update s ..
  | builtin s .. | call s .. => s

inductive Stmt where
  | expr (e : Expr)
  | block (span : Span) (body : List Stmt)
  | ifThen (span : Span) (test : Expr) (yes : Stmt)
  | ifElse (span : Span) (test : Expr) (yes no : Stmt)
  | loop (span : Span) (test : Expr) (body : Stmt)

def Stmt.span : Stmt → Span
  | expr e => e.span
  | block s .. | ifThen s .. | ifElse s .. | loop s .. => s

/-- The statements that run once before the sweep over the pixels. -/
structure InitBlock where
  span : Span
  body : List Stmt

structure Program where
  span : Span
  init : Option InitBlock
  body : List Stmt

/-- All statements of a script, those of the init block first. -/
def Program.statements (p : Program) : List Stmt :=
  (p.init.map (·.body)).getD [] ++ p.body

mutual

def Expr.targets : Expr → List (String × Bool)
  | .literal .. | .read .. => []
  | .binary _ _ left right => left.targets ++ right.targets
  | .unary _ _ operand => operand.targets
  | .assign _ target step value _ => (target, step.isNone) :: value.targets
  | .update _ target _ _ _ => [(target, false)]
  | .builtin _ _ _ args => exprsTargets args
  | .call _ _ args _ => exprsTargets args

def exprsTargets : List Expr → List (String × Bool)
  | [] => []
  | e :: rest => e.targets ++ exprsTargets rest

end

mutual

def Stmt.targets : Stmt → List (String × Bool)
  | .expr e => e.targets
  | .block _ body => stmtsTargets body
  | .ifThen _ test yes => test.targets ++ yes.targets
  | .ifElse _ test yes no => test.targets ++ yes.targets ++ no.targets
  | .loop _ test body => test.targets ++ body.targets

def stmtsTargets : List Stmt → List (String × Bool)
  | [] => []
  | s :: rest => s.targets ++ stmtsTargets rest

end

def Program.targets (p : Program) : List (String × Bool) :=
  stmtsTargets p.statements

end MapAlgebra
