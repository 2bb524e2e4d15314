import MapAlgebra.Code.Listing
import MapAlgebra.Code.Lower
import MapAlgebra.Scope.Resolve
import MapAlgebra.Script.Parse

/-! Compiling scripts: reading, resolving and, unless the tree is to be run as it is, lowering. -/

namespace MapAlgebra

inductive Strategy where
  | bytecode
  | tree
  | other (number : Int)
deriving DecidableEq

namespace Strategy

def ofNumber : Int → Strategy
  | 0 => bytecode
  | 1 => tree
  | n => other n

def name : Strategy → String
  | bytecode => "bytecode"
  | tree => "tree"
  | other n => s!"Strategy({n})"

/-- The strategy with a name; bytecode is what an empty name means. -/
def ofName? (name : String) : Option Strategy :=
  if name = "" || name = "bytecode" then some bytecode
  else if name = "tree" then some tree
  else none

def unknownName (name : String) : String := "unknown strategy " ++ Text.quote name

end Strategy

/-- What is run for one entry point of a script. -/
inductive Code where
  | chunk (chunk : Chunk)
  | tree (body : List Stmt)

/-- A script that is ready to run. It holds no rasters and no values of variables. -/
structure Executable where
  images : List Binding
  varNames : List String
  /-- For each variable, whether it keeps its value from pixel to pixel. -/
  persistent : List Bool
  strategy : Strategy
  init : Option Code
  body : Code

namespace Executable

def imageIndex? (program : Executable) (name : String) : Option Nat :=
  program.images.findIdx? (·.name == name)

def listing (program : Executable) : String :=
  let text : Code → String
    | .chunk chunk => chunk.render ++ "\n"
    | .tree _ => ""
  String.join ((program.init.toList ++ [program.body]).map text)

end Executable

inductive CompileError where
  | unparsed (problems : Problems)
  | invalidBindings (error : BindingError)
  /-- Some of the problems are errors. -/
  | unresolved (problems : Problems)
  | unlowered (error : LowerError) (problems : Problems)
  | unknownStrategy (strategy : Strategy) (problems : Problems)

namespace CompileError

def message : CompileError → String
  | unparsed problems | unresolved problems => problems.failureMessage
  | invalidBindings error => "invalid bindings: " ++ error.message
  | unlowered error _ => "code generation: " ++ error.message
  | unknownStrategy strategy _ => "unknown strategy " ++ strategy.name

/-- The problems that were found before compiling stopped; none at all if the bindings were not
even looked at.
-/
def problems? : CompileError → Option Problems
  | unparsed problems | unresolved problems | unlowered _ problems
  | unknownStrategy _ problems => some problems
  | invalidBindings _ => none

end CompileError

structure Compiled where
  script : Script
  symbols : SymbolTable
  problems : Problems
  program : Executable

def Strategy.code (strategy : Strategy) (resolution : Resolution)
    : Except CompileError (Option Code × Code) :=
  let program := resolution.program
  match strategy with
  | .tree => .ok (program.init.map fun block => .tree block.body, .tree program.body)
  | .bytecode =>
    match lower program resolution.table with
    | .ok code => .ok (code.init.map .chunk, .chunk code.body)
    | .error error => .error (.unlowered error resolution.problems)
  | .other _ => .error (.unknownStrategy strategy resolution.problems)

def compileScript (script : Script) (bindings : Bindings) (registry : Registry)
    (strategy : Strategy) : Except CompileError Compiled := do
  if let some error := bindings.error? then throw (.invalidBindings error)
  let resolution := resolve bindings registry script.program
  if resolution.problems.hasErrors then throw (.unresolved resolution.problems)
  let (init, body) ← strategy.code resolution
  let program : Executable := {
    images := bindings
    varNames := resolution.table.localNames
    persistent := resolution.table.locals.toList.map (·.persistent)
    strategy, init, body }
  return { script, symbols := resolution.table, problems := resolution.problems, program }

def compile (source : Bytes) (bindings : Bindings) (registry : Registry) (strategy : Strategy)
    : Except CompileError Compiled :=
  match parse source with
  | .error problems => .error (.unparsed problems)
  | .ok script => compileScript script bindings registry strategy

/-- The problems of a script: those of its text, else of the bindings, else of what it means. -/
def check (source : Bytes) (bindings : Bindings) (registry : Registry) : Problems :=
  match parse source with
  | .error problems => problems
  | .ok script =>
    match bindings.problems with
    | [] => (resolve bindings registry script.program).problems
    | problems => problems

end MapAlgebra
