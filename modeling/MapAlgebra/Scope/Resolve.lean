import MapAlgebra.Scope

/-! Resolving the names of a script against its bindings and a registry. The walk follows evaluation
order: the value of an assignment comes before its target. A first plain assignment declares a
variable in the scope it stands in.
-/

namespace MapAlgebra.Resolve

structure Context where
  registry : Registry
  /-- The names that a plain assignment targets anywhere in the script. -/
  assigned : List String
  inInit : Bool

/-- What the walk has found so far. -/
structure State where
  /-- The open scopes, the innermost first. -/
  scopes : List Scope
  locals : Array Symbol
  problems : Array Problem
  /-- The destinations assigned so far. -/
  written : List String
  /-- The sources read so far. -/
  read : List String

abbrev ResolveM := StateM State

def report (cause : Cause) (span : Span) : ResolveM Unit :=
  modify fun s => { s with problems := s.problems.push { cause, span } }

def lookup (name : String) : ResolveM (Option Symbol) :=
  return Scope.lookupChain (← get).scopes name

def declare (ctx : Context) (name : String) (span : Span) : ResolveM Symbol :=
  modifyGet fun s =>
    let scope := s.scopes.headD default
    let symbol : Symbol :=
      { name, role := .ofVariable, scope := scope.name, slot := s.locals.size
        persistent := ctx.inInit, span }
    (symbol,
      { s with
        scopes := scope.define symbol :: s.scopes.tail
        locals := s.locals.push symbol })

/-- A name that no open scope knows was assigned elsewhere or never. -/
def reportUnresolved (ctx : Context) (name : String) (span : Span) : ResolveM Unit :=
  if ctx.assigned.contains name then report (.usedBeforeAssigned name) span
  else report (.undeclared name) span

/-- Reading an image: not in the init block, and a mere destination only after it was written. -/
def readImage (ctx : Context) (symbol : Symbol) (span : Span) : ResolveM Unit := do
  if ctx.inInit then report (.imageReadInInit symbol.name) span
  else if symbol.role.isSource then
    modify fun s => { s with read := s.read.insert symbol.name }
  else if !(← get).written.contains symbol.name then
    report (.readBeforeWritten symbol.name) span

def noteWritten (name : String) : ResolveM Unit :=
  modify fun s => { s with written := s.written.insert name }

def reading (ctx : Context) (name : String) (span : Span) : ResolveM (Option Symbol) := do
  if (builtin? name).isSome then
    report (.builtinRead name) span
    return none
  match ← lookup name with
  | none =>
    reportUnresolved ctx name span
    return none
  | some symbol =>
    if symbol.role.isImage then readImage ctx symbol span
    return some symbol

/-- The symbol of the target of a plain assignment, which declares a variable if there is none. -/
def assigning (ctx : Context) (name : String) (span : Span) : ResolveM (Option Symbol) := do
  if (builtin? name).isSome then
    report (.builtinAssigned name) span
    return none
  match ← lookup name with
  | none =>
    let symbol ← declare ctx name span
    if (ctx.registry.lookup name).isSome then report (.functionShadowed name) span
    return some symbol
  | some symbol =>
    if !symbol.role.isImage then return some symbol
    else if ctx.inInit then
      report (.imageAssignedInInit symbol.name) span
      return none
    else if !symbol.role.isDestination then
      report (.sourceAssigned symbol.name) span
      return none
    else
      noteWritten symbol.name
      return some symbol

/-- The symbol of a target that is read and then written: a compound assignment, an increment or a
decrement.
-/
def updating (ctx : Context) (name : String) (span : Span) : ResolveM (Option Symbol) := do
  if (builtin? name).isSome then
    report (.builtinAssigned name) span
    return none
  match ← lookup name with
  | none =>
    reportUnresolved ctx name span
    return none
  | some symbol =>
    if !symbol.role.isImage then return some symbol
    else if ctx.inInit then
      report (.imageAssignedInInit name) span
      return none
    else if !symbol.role.isDestination then
      report (.sourceAssigned name) span
      return none
    else
      readImage ctx symbol span
      noteWritten name
      return some symbol

/-- A built-in takes no arguments, and one about the current pixel has no place in the init
block.
-/
def checkBuiltin (ctx : Context) (name : String) (which : Builtin) (argc : Nat) (span : Span)
    : ResolveM Unit := do
  if argc != 0 then report (.builtinArguments name argc) span
  if which.isPositional && ctx.inInit then report (.positionInInit name) span

/-- The function that a call means, if its number of arguments is right. -/
def calling (ctx : Context) (name : String) (argc : Nat) (span : Span)
    : ResolveM (Option Function) := do
  match ctx.registry.lookup name with
  | none =>
    report (.unknownFunction name) span
    return none
  | some f =>
    if f.arity = argc then return some f
    else
      report (.argumentCount name f.arity argc) span
      return none

mutual

def expr (ctx : Context) : Expr → ResolveM Expr
  | .literal span v => return .literal span v
  | .read span name _ => return .read span name (← reading ctx name span)
  | .binary span op left right => do
    let left ← expr ctx left
    let right ← expr ctx right
    return .binary span op left right
  | .unary span op operand => return .unary span op (← expr ctx operand)
  | .assign span target step value _ => do
    let value ← expr ctx value
    let symbol ←
      match step with
      | none => assigning ctx target span
      | some _ => updating ctx target span
    return .assign span target step value symbol
  | .update span target decrement before _ =>
    return .update span target decrement before (← updating ctx target span)
  | .builtin span name which args => do
    let args ← exprs ctx args
    checkBuiltin ctx name which args.length span
    return .builtin span name which args
  | .call span name args _ => do
    let args ← exprs ctx args
    return .call span name args (← calling ctx name args.length span)

def exprs (ctx : Context) : List Expr → ResolveM (List Expr)
  | [] => return []
  | e :: rest => do
    let e ← expr ctx e
    let rest ← exprs ctx rest
    return e :: rest

end

/-- Walks in a new scope with the given name, or in the present one. -/
def within {α : Type} (scope : Option String) (walk : ResolveM α) : ResolveM α :=
  match scope with
  | none => walk
  | some name => do
    modify fun s => { s with scopes := { name, symbols := [] } :: s.scopes }
    let result ← walk
    modify fun s => { s with scopes := s.scopes.tail }
    return result

mutual

/-- Resolves a statement. Branches and loop bodies get a scope with the given name; a block that
is a branch opens no second one.
-/
def stmt (ctx : Context) (scope : Option String) : Stmt → ResolveM Stmt
  | .expr e => within scope do
    return .expr (← expr ctx e)
  | .block span body => within (some (scope.getD "block")) do
    return .block span (← stmts ctx body)
  | .ifThen span test yes => within scope do
    let test ← expr ctx test
    let yes ← stmt ctx (some "then") yes
    return .ifThen span test yes
  | .ifElse span test yes no => within scope do
    let test ← expr ctx test
    let yes ← stmt ctx (some "then") yes
    let no ← stmt ctx (some "else") no
    return .ifElse span test yes no
  | .loop span test body => within scope do
    let test ← expr ctx test
    let body ← stmt ctx (some "while") body
    return .loop span test body

def stmts (ctx : Context) : List Stmt → ResolveM (List Stmt)
  | [] => return []
  | s :: rest => do
    let s ← stmt ctx none s
    let rest ← stmts ctx rest
    return s :: rest

end

/-- An image that is a destination in the outermost scope and the target of some assignment. -/
def isAssigned (bindings : Bindings) (program : Program) (name : String) : Bool :=
  program.targets.any (·.1 == name)
    && ((Scope.root bindings).lookup name).any (·.role.isDestination)

/-- The problems of a whole script: destinations that are never assigned and sources that are never
read.
-/
def imageProblems (bindings : Bindings) (program : Program) (read : List String) : Problems :=
  let images := Scope.imageSymbols bindings
  let span := Span.point program.span.start
  let unassigned := images.filter fun i =>
    i.role.isDestination && !isAssigned bindings program i.name
  let unread := images.filter fun i => i.role.isSource && !read.contains i.name
  unassigned.map (fun i => { cause := .destinationUnassigned i.name, span })
    ++ unread.map (fun i => { cause := .sourceUnread i.name, span })

/-- Resolves a whole script: the init block in the outermost scope, the rest in a scope for each
pixel.
-/
def program (registry : Registry) (p : Program) : ResolveM Program := do
  let assigned := (p.targets.filter (·.2)).map (·.1)
  let init ←
    match p.init with
    | none => pure none
    | some block => do
      let body ← stmts { registry, assigned, inInit := true } block.body
      pure (some { block with body })
  let body ← within (some "pixel") (stmts { registry, assigned, inInit := false } p.body)
  return { p with init, body }

end Resolve

structure Resolution where
  program : Program
  table : SymbolTable
  problems : Problems

def resolve (bindings : Bindings) (registry : Registry) (program : Program) : Resolution :=
  let start : Resolve.State :=
    { scopes := [.root bindings], locals := #[], problems := #[], written := [], read := [] }
  let (resolved, state) := (Resolve.program registry program).run start
  { program := resolved
    table :=
      { images := Scope.imageSymbols bindings
        locals := state.locals
        root := state.scopes.headD default }
    problems := state.problems.toList ++ Resolve.imageProblems bindings program state.read }

end MapAlgebra
