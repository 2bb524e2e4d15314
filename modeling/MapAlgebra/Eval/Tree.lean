import MapAlgebra.Eval.Env
import MapAlgebra.Eval.Operator
import MapAlgebra.Script.Tree

/-! Running a resolved tree directly. -/

namespace MapAlgebra.Eval

def load (symbol : Option Symbol) : EvalM Sample := do
  let symbol ← EvalM.orCrash symbol
  if symbol.role.isImage then EvalM.readImage symbol.slot else EvalM.readVar symbol.slot

def store (symbol : Option Symbol) (v : Sample) : EvalM Unit := do
  let symbol ← EvalM.orCrash symbol
  if symbol.role.isImage then EvalM.writeImage symbol.slot v else EvalM.writeVar symbol.slot v

mutual

def expr : Expr → EvalM Sample
  | .literal _ v => return v
  | .read _ _ symbol => load symbol
  | .binary _ (.arith op) left right => do
    let a ← expr left
    let b ← expr right
    return op.apply a b
  | .binary _ .and left right => do
    let a ← expr left
    if a.truthy then
      let b ← expr right
      return .ofBool b.truthy
    else return .zero
  | .binary _ .or left right => do
    let a ← expr left
    if a.truthy then return .one
    else
      let b ← expr right
      return .ofBool b.truthy
  | .unary _ op operand => do
    let v ← expr operand
    return op.apply v
  | .assign _ _ none value symbol => do
    let v ← expr value
    store symbol v
    return v
  | .assign _ _ (some op) value symbol => do
    let old ← load symbol
    let b ← expr value
    let v := op.apply old b
    store symbol v
    return v
  | .update _ _ decrement before symbol => do
    let old ← load symbol
    let new := if decrement then old.sub .one else old.add .one
    store symbol new
    return if before then new else old
  | .builtin _ _ which _ => EvalM.builtin which
  | .call _ _ args function => do
    let args ← exprs args
    let function ← EvalM.orCrash function
    EvalM.call function args

def exprs : List Expr → EvalM (List Sample)
  | [] => return []
  | e :: rest => do
    let v ← expr e
    let vs ← exprs rest
    return v :: vs

end

def repeating (test : EvalM Sample) (body : EvalM Unit) : (fuel : Nat) → EvalM Unit
  | 0 => throw .unfinished
  | fuel + 1 => do
    let v ← test
    if v.truthy then
      body
      EvalM.tick
      repeating test body fuel

mutual

/-- Runs a statement; the fuel bounds the rounds of each loop. -/
def stmt (fuel : Nat) : Stmt → EvalM Unit
  | .expr e => do
    let _ ← expr e
  | .block _ body => stmts fuel body
  | .ifThen _ test yes => do
    let v ← expr test
    if v.truthy then stmt fuel yes
  | .ifElse _ test yes no => do
    let v ← expr test
    if v.truthy then stmt fuel yes else stmt fuel no
  | .loop _ test body => repeating (expr test) (stmt fuel body) fuel

def stmts (fuel : Nat) : List Stmt → EvalM Unit
  | [] => return
  | s :: rest => do
    stmt fuel s
    stmts fuel rest

end

end MapAlgebra.Eval
