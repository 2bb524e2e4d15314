import MapAlgebra.Code.Chunk
import MapAlgebra.Scope

/-! Lowering resolved statements to code. The code of a tree is put together from the codes of its
parts, and jumps span the sizes of those parts, so no distance has to be filled in later. Every
instruction is noted with the height of the stack in front of it.
-/

namespace MapAlgebra

inductive LowerError where
  | unresolvedSymbol
  | unresolvedFunction (name : String)
  | tooManyImages (name : String)
  | tooManyVariables (name : String)
  | jump (error : JumpError)
  | inInit (error : LowerError)
deriving DecidableEq

def LowerError.message : LowerError → String
  | unresolvedSymbol => "unresolved symbol"
  | unresolvedFunction name => s!"unresolved function {name}"
  | tooManyImages name => s!"image {name}: more than 256 images"
  | tooManyVariables name => s!"variable {name}: more than 65536 variables"
  | jump error => error.message
  | inInit error => "init block: " ++ error.message

namespace Lower

/-- The constants and functions that code refers to. -/
structure Pools where
  constants : Array Sample
  functions : Array Function

mutual

/-- Adds what the code of an expression refers to, in the order of the code. The arguments of a
built-in have no code.
-/
def poolExpr (pools : Pools) : Expr → Pools
  | .literal _ v =>
    if (Chunk.shortConstant? v).isSome then pools
    else { pools with constants := Chunk.withConstant pools.constants v }
  | .read .. | .update .. | .builtin .. => pools
  | .binary _ _ left right => poolExpr (poolExpr pools left) right
  | .unary _ _ operand => poolExpr pools operand
  | .assign _ _ _ value _ => poolExpr pools value
  | .call _ _ args function =>
    let pools := poolExprs pools args
    match function with
    | some f => { pools with functions := Chunk.withFunction pools.functions f }
    | none => pools

def poolExprs (pools : Pools) : List Expr → Pools
  | [] => pools
  | e :: rest => poolExprs (poolExpr pools e) rest

end

mutual

def poolStmt (pools : Pools) : Stmt → Pools
  | .expr e => poolExpr pools e
  | .block _ body => poolStmts pools body
  | .ifThen _ test yes => poolStmt (poolExpr pools test) yes
  | .ifElse _ test yes no => poolStmt (poolStmt (poolExpr pools test) yes) no
  | .loop _ test body => poolStmt (poolExpr pools test) body

def poolStmts (pools : Pools) : List Stmt → Pools
  | [] => pools
  | s :: rest => poolStmts (poolStmt pools s) rest

end

/-- A piece of code: an instruction with the height of the stack in front of it, or the place in the
script that the following code comes from.
-/
inductive Item where
  | instr (i : Instr) (depth : Nat)
  | mark (p : Position)
deriving DecidableEq

def Item.encode : Item → List UInt8
  | .instr i _ => i.encode
  | .mark _ => []

def Item.length : Item → Nat
  | .instr i _ => i.length
  | .mark _ => 0

def size (items : List Item) : Nat :=
  (items.map Item.length).sum

abbrev Lowered := Except LowerError (List Item)

def jumpOver (jump : Int → Instr) (depth bytes : Nat) : Lowered :=
  if fitsDistance bytes then .ok [.instr (jump bytes) depth] else .error (.jump (.jumpTooFar bytes))

/-- A backward jump over a number of bytes, its own ones included. -/
def back (bytes : Nat) : Lowered :=
  if fitsDistance (-bytes) then .ok [.instr (.loop (-bytes)) 0]
  else .error (.jump (.loopTooLong bytes))

def imageOperand (symbol : Symbol) : Except LowerError UInt8 :=
  if symbol.slot > 255 then .error (.tooManyImages symbol.name) else .ok symbol.slot.toUInt8

def varOperand (symbol : Symbol) : Except LowerError UInt16 :=
  if symbol.slot > 65535 then .error (.tooManyVariables symbol.name) else .ok symbol.slot.toUInt16

def load (depth : Nat) (symbol : Option Symbol) : Lowered :=
  match symbol with
  | none => .error .unresolvedSymbol
  | some symbol =>
    if symbol.role.isImage then do
      return [.instr (.readImage (← imageOperand symbol)) depth]
    else do
      return [.instr (.loadVar (← varOperand symbol)) depth]

def store (depth : Nat) (symbol : Option Symbol) : Lowered :=
  match symbol with
  | none => .error .unresolvedSymbol
  | some symbol =>
    if symbol.role.isImage then do
      return [.instr (.writeImage (← imageOperand symbol)) depth]
    else do
      return [.instr (.storeVar (← varOperand symbol)) depth]

/-- Stores the value on top, of which a copy stays if it is still needed. -/
def storeTop (depth : Nat) (keep : Bool) (symbol : Option Symbol) : Lowered :=
  if keep then do
    return .instr .dup (depth + 1) :: (← store (depth + 2) symbol)
  else store (depth + 1) symbol

/-- Increments or decrements; the value that stays is the new one if the operator stands in
front.
-/
def update (depth : Nat) (keep decrement before : Bool) (symbol : Option Symbol) : Lowered := do
  let old ← load depth symbol
  let op : Arith := if decrement then .sub else .add
  if keep && !before then
    let stored ← store (depth + 2) symbol
    return old ++
      [.instr .dup (depth + 1), .instr .constOne (depth + 2), .instr (.arith op) (depth + 3)]
      ++ stored
  else
    let stored ← storeTop depth keep symbol
    return old ++ [.instr .constOne (depth + 1), .instr (.arith op) (depth + 2)] ++ stored

/-- Assigns the value of an expression, of which a copy stays if it is still needed. A compound
assignment loads its target first.
-/
def assign (depth : Nat) (keep : Bool) (symbol : Option Symbol) (value : Nat → Lowered)
    : Option Arith → Lowered
  | none => do
    let value ← value depth
    return value ++ (← storeTop depth keep symbol)
  | some op => do
    let old ← load depth symbol
    let value ← value (depth + 1)
    return old ++ value ++ .instr (.arith op) (depth + 2) :: (← storeTop depth keep symbol)

def constant (pools : Pools) (depth : Nat) (v : Sample) : Item :=
  match Chunk.shortConstant? v with
  | some i => .instr i depth
  | none => .instr (.const (Chunk.constantIndex pools.constants v).toUInt16) depth

/-- The value of the second operand as one or zero, or the given constant when the first operand
decides.
-/
def shortCircuit (depth : Nat) (jump : Int → Instr) (decided : Instr) (left right : List Item)
    : Lowered := do
  let short ← jumpOver jump (depth + 1) (size right + 4)
  return left ++ short ++ right
    ++ [.instr .truthy (depth + 1), .instr (.jump 1) (depth + 1), .instr decided depth]

mutual

def expr (pools : Pools) (depth : Nat) : Expr → Lowered
  | .literal _ v => return [constant pools depth v]
  | .read _ _ symbol => load depth symbol
  | .binary _ (.arith op) left right => do
    let left ← expr pools depth left
    let right ← expr pools (depth + 1) right
    return left ++ right ++ [.instr (.arith op) (depth + 2)]
  | .binary _ .and left right => do
    let left ← expr pools depth left
    let right ← expr pools depth right
    shortCircuit depth .jumpFalse .constZero left right
  | .binary _ .or left right => do
    let left ← expr pools depth left
    let right ← expr pools depth right
    shortCircuit depth .jumpTrue .constOne left right
  | .unary _ op operand => do
    let operand ← expr pools depth operand
    match op with
    | .neg => return operand ++ [.instr .neg (depth + 1)]
    | .not => return operand ++ [.instr .not (depth + 1)]
    | .plus => return operand
  | .assign _ _ step value symbol => assign depth true symbol (expr pools · value) step
  | .update _ _ decrement before symbol => update depth true decrement before symbol
  | .builtin _ _ which _ => return [.instr (.builtin which) depth]
  | .call _ name args function =>
    match function with
    | none => .error (.unresolvedFunction name)
    | some f => do
      let code ← exprs pools depth args
      let index := (Chunk.functionIndex pools.functions f).toUInt16
      return code ++ [.instr (.call index args.length.toUInt8) (depth + args.length)]

def exprs (pools : Pools) (depth : Nat) : List Expr → Lowered
  | [] => return []
  | e :: rest => do
    let first ← expr pools depth e
    let more ← exprs pools (depth + 1) rest
    return first ++ more

end

def effect (pools : Pools) : Expr → Lowered
  | .assign _ _ step value symbol => assign 0 false symbol (expr pools · value) step
  | .update _ _ decrement before symbol => update 0 false decrement before symbol
  | e => do
    return (← expr pools 0 e) ++ [.instr .pop 1]

mutual

/-- The code of a statement, which starts and ends with an empty stack. -/
def stmt (pools : Pools) : Stmt → Lowered
  | .expr e => do
    return .mark e.span.start :: (← effect pools e)
  | .block span body => do
    return .mark span.start :: (← stmts pools body)
  | .ifThen span test yes => do
    let test ← expr pools 0 test
    let yes ← stmt pools yes
    let skip ← jumpOver .jumpFalse 1 (size yes)
    return .mark span.start :: test ++ skip ++ yes
  | .ifElse span test yes no => do
    let test ← expr pools 0 test
    let yes ← stmt pools yes
    let skip ← jumpOver .jumpFalse 1 (size yes + 3)
    let no ← stmt pools no
    let leave ← jumpOver .jump 0 (size no)
    return .mark span.start :: test ++ skip ++ yes ++ leave ++ no
  | .loop span test body => do
    let test ← expr pools 0 test
    let body ← stmt pools body
    let again ← back (size test + size body + 6)
    let skip ← jumpOver .jumpFalse 1 (size body + 3)
    return .mark span.start :: test ++ skip ++ body ++ again

def stmts (pools : Pools) : List Stmt → Lowered
  | [] => return []
  | s :: rest => do
    let first ← stmt pools s
    let more ← stmts pools rest
    return first ++ more

end

def maxDepth (items : List Item) : Nat :=
  items.foldl (fun depth item =>
    match item with
    | .instr _ d => max depth d
    | .mark _ => depth) 0

def marksFrom (marks : Array SourceMark) : (offset : Nat) → List Item → Array SourceMark
  | _, [] => marks
  | offset, .mark p :: rest =>
    marksFrom (Chunk.withMark marks (.ofPosition offset p)) offset rest
  | offset, .instr i _ :: rest => marksFrom marks (offset + i.length) rest

def chunk (name : String) (table : SymbolTable) (body : List Stmt) : Except LowerError Chunk := do
  let pools := poolStmts { constants := #[], functions := #[] } body
  let items ← stmts pools body
  let items := items ++ [.instr .finish 0]
  return {
    name
    code := (items.flatMap Item.encode).toArray
    constants := pools.constants
    functions := pools.functions
    maxStack := maxDepth items
    varNames := table.localNames
    imageNames := table.images.map (·.name)
    marks := marksFrom #[] 0 items }

end Lower

structure ScriptCode where
  init : Option Chunk
  body : Chunk

def lower (program : Program) (table : SymbolTable) : Except LowerError ScriptCode := do
  let init ←
    match program.init with
    | none => pure none
    | some block =>
      match Lower.chunk "init" table block.body with
      | .ok chunk => pure (some chunk)
      | .error error => throw (.inInit error)
  let body ← Lower.chunk "body" table program.body
  return { init, body }

end MapAlgebra
