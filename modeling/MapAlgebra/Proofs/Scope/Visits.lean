import MapAlgebra.Proofs.Scope.Declaration

/-! The walk over a script as a list of visits. Operands are visited before the expression that they
stand in, and the visits of a scope stand between its opening and its closing. The state behind a walk
is what the visits make of it one after another, so that the points of a walk are the beginnings of the
list.
-/

namespace MapAlgebra

open List

mutual

/-- An expression and all expressions inside it, operands first. -/
def Expr.operandsFirst : Expr → List Expr
  | .literal span v => [.literal span v]
  | .read span name symbol => [.read span name symbol]
  | .binary span op left right =>
    left.operandsFirst ++ right.operandsFirst ++ [.binary span op left right]
  | .unary span op operand => operand.operandsFirst ++ [.unary span op operand]
  | .assign span target step value symbol =>
    value.operandsFirst ++ [.assign span target step value symbol]
  | .update span target decrement before symbol => [.update span target decrement before symbol]
  | .builtin span name which args => exprsOperandsFirst args ++ [.builtin span name which args]
  | .call span name args function => exprsOperandsFirst args ++ [.call span name args function]

/-- All expressions inside several, operands first. -/
def exprsOperandsFirst : List Expr → List Expr
  | [] => []
  | e :: rest => e.operandsFirst ++ exprsOperandsFirst rest

end

variable {nodes : List Expr}

theorem mem_concat_iff_mem_cons {n e operands} (same : n ∈ operands ↔ n ∈ nodes)
    : n ∈ operands ++ [e] ↔ n ∈ e :: nodes := by
  rw [mem_append, mem_singleton, mem_cons, same, or_comm]

mutual

/-- The order of visits leaves out nothing and adds nothing, by induction on the expression. -/
theorem Expr.mem_operandsFirst {n} (e : Expr) : n ∈ e.operandsFirst ↔ n ∈ e.nodes := by
  cases e with
  | literal | read | update => rfl
  | binary span op left right =>
    refine mem_concat_iff_mem_cons ?_
    rw [mem_append, mem_append, Expr.mem_operandsFirst left,
      Expr.mem_operandsFirst right]
  | unary span op operand => exact mem_concat_iff_mem_cons (Expr.mem_operandsFirst operand)
  | assign span target step value symbol =>
    exact mem_concat_iff_mem_cons (Expr.mem_operandsFirst value)
  | builtin span name which args => exact mem_concat_iff_mem_cons (mem_exprsOperandsFirst args)
  | call span name args function => exact mem_concat_iff_mem_cons (mem_exprsOperandsFirst args)

theorem mem_exprsOperandsFirst {n} (es) : n ∈ exprsOperandsFirst es ↔ n ∈ exprsNodes es := by
  cases es with
  | nil => rfl
  | cons e rest =>
    rw [exprsOperandsFirst, exprsNodes, mem_append, mem_append, Expr.mem_operandsFirst e,
      mem_exprsOperandsFirst rest]

end

namespace Resolve

/-- What the walk does next. -/
inductive Visit where
  /-- It settles an expression of the init block or of the body, whose operands it has settled. -/
  | node (inInit : Bool) (n : Expr)
  | enter (scope : String)
  | leave

/-- The visits of a walk in a new scope with the given name, or in the present one. -/
def inScope (scope : Option String) (visits : List Visit) : List Visit :=
  match scope with
  | none => visits
  | some name => .enter name :: (visits ++ [.leave])

mutual

/-- The visits of a statement. -/
def stmtVisits (inInit : Bool) (scope : Option String) : Stmt → List Visit
  | .expr e => inScope scope (e.operandsFirst.map (.node inInit))
  | .block _ body => inScope (some (scope.getD "block")) (stmtsVisits inInit body)
  | .ifThen _ test yes =>
    inScope scope (test.operandsFirst.map (.node inInit) ++ stmtVisits inInit (some "then") yes)
  | .ifElse _ test yes no =>
    inScope scope (test.operandsFirst.map (.node inInit) ++ stmtVisits inInit (some "then") yes
      ++ stmtVisits inInit (some "else") no)
  | .loop _ test body =>
    inScope scope (test.operandsFirst.map (.node inInit) ++ stmtVisits inInit (some "while") body)

/-- The visits of several statements. -/
def stmtsVisits (inInit : Bool) : List Stmt → List Visit
  | [] => []
  | s :: rest => stmtVisits inInit none s ++ stmtsVisits inInit rest

end

/-- The visits of a script: the init block in the outermost scope, the rest in a scope for each
pixel.
-/
def visits (p : Program) : List Visit :=
  stmtsVisits true p.initBody ++ inScope (some "pixel") (stmtsVisits false p.body)

variable {inInit block : Bool} {n : Expr}

variable {vs rest : List Visit} {depth : Nat}

theorem node_mem_inScope {scope} : .node inInit n ∈ inScope scope vs ↔ .node inInit n ∈ vs := by
  cases scope with
  | none => rfl
  | some name => simp [inScope]

theorem node_mem_map
    : Visit.node inInit n ∈ nodes.map (.node block) ↔ inInit = block ∧ n ∈ nodes := by
  simp only [mem_map, Visit.node.injEq]
  constructor
  · rintro ⟨n, member, rfl, rfl⟩
    exact ⟨rfl, member⟩
  · rintro ⟨rfl, member⟩
    exact ⟨n, member, rfl, rfl⟩

mutual

/-- The nodes of a statement are visited and no others, by induction on the statement. -/
theorem node_mem_stmtVisits (scope : Option String) (body : Stmt)
    : .node inInit n ∈ stmtVisits block scope body ↔ inInit = block ∧ n ∈ body.nodes := by
  cases body with
  | expr e => rw [stmtVisits, node_mem_inScope, node_mem_map, Expr.mem_operandsFirst e, Stmt.nodes]
  | block span body => rw [stmtVisits, node_mem_inScope, node_mem_stmtsVisits body, Stmt.nodes]
  | ifThen span test yes =>
    rw [stmtVisits, node_mem_inScope, mem_append, node_mem_map, Expr.mem_operandsFirst test,
      node_mem_stmtVisits (some "then") yes, ← and_or_left, Stmt.nodes, mem_append]
  | ifElse span test yes no =>
    rw [stmtVisits, node_mem_inScope, mem_append, mem_append, node_mem_map,
      Expr.mem_operandsFirst test, node_mem_stmtVisits (some "then") yes,
      node_mem_stmtVisits (some "else") no, ← and_or_left, ← and_or_left, Stmt.nodes,
      mem_append, mem_append]
  | loop span test body =>
    rw [stmtVisits, node_mem_inScope, mem_append, node_mem_map, Expr.mem_operandsFirst test,
      node_mem_stmtVisits (some "while") body, ← and_or_left, Stmt.nodes, mem_append]

theorem node_mem_stmtsVisits (body)
    : .node inInit n ∈ stmtsVisits block body ↔ inInit = block ∧ n ∈ stmtsNodes body := by
  cases body with
  | nil => simp [stmtsVisits, stmtsNodes]
  | cons first rest =>
    rw [stmtsVisits, mem_append, node_mem_stmtVisits none first, node_mem_stmtsVisits rest,
      ← and_or_left, stmtsNodes, mem_append]

end

/-- The nodes of a script are visited and no others, those of the init block as such. -/
theorem node_mem_visits {p}
    : .node inInit n ∈ visits p
      ↔ inInit = true ∧ n ∈ stmtsNodes p.initBody ∨ inInit = false ∧ n ∈ stmtsNodes p.body := by
  rw [visits, mem_append, node_mem_inScope, node_mem_stmtsVisits, node_mem_stmtsVisits]

/-- What the walk does with an expression whose operands it has settled. -/
def settle (ctx : Context) : Expr → ResolveM Unit
  | .literal .. | .binary .. | .unary .. => return
  | .read span name _ => discard (reading ctx name span)
  | .assign span target none _ _ => discard (assigning ctx target span)
  | .assign span target (some _) _ _ | .update span target _ _ _ => discard (updating ctx target span)
  | .builtin span name which args => checkBuiltin ctx name which args.length span
  | .call span name args _ => discard (calling ctx name args.length span)

/-- What a visit makes of what was found so far. -/
def perform (registry : Registry) (p : Program) (s : State) : Visit → State
  | .node inInit n => ((settle (contextOf registry p inInit) n).run s).2
  | .enter name => { s with scopes := { name, symbols := [] } :: s.scopes }
  | .leave => { s with scopes := s.scopes.tail }

/-- What visits make of what was found so far. -/
def after (registry : Registry) (p : Program) (s : State) (visits : List Visit) : State :=
  visits.foldl (perform registry p) s

variable {registry : Registry} {p : Program}

theorem after_append (s first rest)
    : after registry p s (first ++ rest) = after registry p (after registry p s first) rest :=
  foldl_append

theorem after_concat (s first v)
    : after registry p s (first ++ [v]) = perform registry p (after registry p s first) v :=
  after_append s first [v]

theorem run_within {α : Type} {m : ResolveM α} (walk : ∀ s, (m.run s).2 = after registry p s vs)
    (scope s)
    : ((within scope m).run s).2 = after registry p s (inScope scope vs) := by
  cases scope with
  | none => exact walk s
  | some name =>
    have inner := walk { s with scopes := { name, symbols := [] } :: s.scopes }
    change perform registry p (m.run _).2 .leave = _
    rw [inner]
    exact (after_concat _ vs .leave).symm

theorem length_exprs (ctx es s) : ((exprs ctx es).run s).1.length = es.length := by
  induction es generalizing s with
  | nil => rfl
  | cons e rest ih => exact congrArg (· + 1) (ih ((expr ctx e).run s).2)

mutual

/-- Resolving an expression makes its visits, by induction on the expression. -/
theorem run_expr (e : Expr) (s : State)
    : ((expr (contextOf registry p inInit) e).run s).2
        = after registry p s (e.operandsFirst.map (.node inInit)) := by
  cases e with
  | literal | read | update => rfl
  | binary span op left right =>
    rw [Expr.operandsFirst, map_append, map_append, after_append, after_append,
      ← run_expr left, ← run_expr right]
    rfl
  | unary span op operand =>
    rw [Expr.operandsFirst, map_append, after_append, ← run_expr operand]
    rfl
  | assign span target step value symbol =>
    rw [Expr.operandsFirst, map_append, after_append, ← run_expr value]
    cases step with
    | none => rfl
    | some op => rfl
  | builtin span name which args =>
    rw [Expr.operandsFirst, map_append, after_append, ← run_exprs args]
    let ctx := contextOf registry p inInit
    exact congrArg
      (fun argc => ((checkBuiltin ctx name which argc span).run ((exprs ctx args).run s).2).2)
      (length_exprs ctx args s)
  | call span name args function =>
    rw [Expr.operandsFirst, map_append, after_append, ← run_exprs args]
    let ctx := contextOf registry p inInit
    exact congrArg (fun argc => ((calling ctx name argc span).run ((exprs ctx args).run s).2).2)
      (length_exprs ctx args s)

theorem run_exprs (es s)
    : ((exprs (contextOf registry p inInit) es).run s).2
        = after registry p s ((exprsOperandsFirst es).map (.node inInit)) := by
  cases es with
  | nil => rfl
  | cons e rest =>
    rw [exprsOperandsFirst, map_append, after_append, ← run_expr e, ← run_exprs rest]
    rfl

end

mutual

theorem run_stmt (scope body s)
    : ((stmt (contextOf registry p inInit) scope body).run s).2
        = after registry p s (stmtVisits inInit scope body) := by
  cases body with
  | expr e =>
    refine run_within (fun s => ?_) scope s
    exact run_expr e s
  | block span body =>
    refine run_within (fun s => ?_) (some (scope.getD "block")) s
    exact run_stmts body s
  | ifThen span test yes =>
    refine run_within (fun s => ?_) scope s
    rw [after_append, ← run_expr test, ← run_stmt (some "then") yes]
    rfl
  | ifElse span test yes no =>
    refine run_within (fun s => ?_) scope s
    rw [after_append, after_append, ← run_expr test, ← run_stmt (some "then") yes,
      ← run_stmt (some "else") no]
    rfl
  | loop span test body =>
    refine run_within (fun s => ?_) scope s
    rw [after_append, ← run_expr test, ← run_stmt (some "while") body]
    rfl

theorem run_stmts (body s)
    : ((stmts (contextOf registry p inInit) body).run s).2
        = after registry p s (stmtsVisits inInit body) := by
  cases body with
  | nil => rfl
  | cons first rest =>
    rw [stmtsVisits, after_append, ← run_stmt none first, ← run_stmts rest]
    rfl

end

theorem run_program (registry p s)
    : ((program registry p).run s).2 = after registry p s (visits p) := by
  have body (s : State)
      : ((within (some "pixel") (stmts (contextOf registry p false) p.body)).run s).2
        = after registry p s (inScope (some "pixel") (stmtsVisits false p.body)) :=
    run_within (fun s => run_stmts p.body s) _ s
  rw [visits, after_append, ← body]
  unfold program Program.initBody
  cases p.init with
  | none => rfl
  | some block =>
    have init : ((stmts (contextOf registry p true) block.body).run s).2
        = after registry p s (stmtsVisits true block.body) :=
      run_stmts block.body s
    dsimp only [Option.map_some, Option.getD_some]
    rw [← init]
    rfl

/-- The visits close no scope but those that they open and the given number of others. -/
def Nested : Nat → List Visit → Prop
  | _, [] => True
  | depth, .node .. :: rest => Nested depth rest
  | depth, .enter _ :: rest => Nested (depth + 1) rest
  | 0, .leave :: _ => False
  | depth + 1, .leave :: rest => Nested depth rest

theorem nested_nodes (nodes : List Expr) (nested : Nested depth rest)
    : Nested depth (nodes.map (.node inInit) ++ rest) := by
  induction nodes with
  | nil => exact nested
  | cons n nodes ih => exact ih

theorem nested_inScope (inner : ∀ {depth rest}, Nested depth rest → Nested depth (vs ++ rest))
    (scope) (nested : Nested depth rest)
    : Nested depth (inScope scope vs ++ rest) := by
  cases scope with
  | none => exact inner nested
  | some name =>
    have closed : Nested (depth + 1) (vs ++ .leave :: rest) := inner nested
    rw [inScope, cons_append, append_assoc]
    exact closed

mutual

/-- A statement closes the scopes that it opens, by induction on the statement. -/
theorem nested_stmt {depth rest} (scope : Option String) (body : Stmt) (nested : Nested depth rest)
    : Nested depth (stmtVisits inInit scope body ++ rest) := by
  cases body with
  | expr e => exact nested_inScope (fun nested => nested_nodes _ nested) scope nested
  | block span body => exact nested_inScope (fun nested => nested_stmts body nested) _ nested
  | ifThen span test yes =>
    refine nested_inScope (fun nested => ?_) scope nested
    rw [append_assoc]
    exact nested_nodes _ (nested_stmt _ yes nested)
  | ifElse span test yes no =>
    refine nested_inScope (fun nested => ?_) scope nested
    rw [append_assoc, append_assoc]
    exact nested_nodes _ (nested_stmt _ yes (nested_stmt _ no nested))
  | loop span test body =>
    refine nested_inScope (fun nested => ?_) scope nested
    rw [append_assoc]
    exact nested_nodes _ (nested_stmt _ body nested)

theorem nested_stmts {depth rest} (body) (nested : Nested depth rest)
    : Nested depth (stmtsVisits inInit body ++ rest) := by
  cases body with
  | nil => exact nested
  | cons first others =>
    rw [stmtsVisits, append_assoc]
    exact nested_stmt none first (nested_stmts others nested)

end

/-- The outermost scope is never closed. -/
theorem nested_visits (p : Program) : Nested 0 (visits p) := by
  refine nested_stmts p.initBody ?_
  have body : Nested 0 (inScope (some "pixel") (stmtsVisits false p.body) ++ []) :=
    nested_inScope (fun nested => nested_stmts p.body nested) _ trivial
  simpa only [append_nil] using body

/-- What a visit can do to the scopes and the variables: a plain assignment to a name that no open scope
knows declares a variable, and no other expression does anything.
-/
inductive Moves (s t : State) : Visit → Prop where
  | still {inInit : Bool} {n} (scopes : t.scopes = s.scopes) (locals : t.locals = s.locals)
    : Moves s t (.node inInit n)
  | declares {inInit : Bool} {span name value old}
    (fresh : Scope.lookupChain s.scopes name = none)
    (scopes : t.scopes
      = (s.scopes.headD default).define (declaredAt s inInit span name) :: s.scopes.tail)
    (locals : t.locals = s.locals.push (declaredAt s inInit span name))
    : Moves s t (.node inInit (.assign span name none value old))
  | enters {name} (scopes : t.scopes = { name, symbols := [] } :: s.scopes)
    (locals : t.locals = s.locals)
    : Moves s t (.enter name)
  | leaves (scopes : t.scopes = s.scopes.tail) (locals : t.locals = s.locals)
    : Moves s t .leave

theorem Moves.of_looked {name : String} {s t} {found : Option Symbol}
    (looked : Looked name s found t)
    : Moves s t (.node inInit n) :=
  .still looked.scopes looked.locals

theorem moves_assigning (ctx span name value old s)
    : Moves s ((assigning ctx name span).run s).2
        (.node ctx.inInit (.assign span name none value old)) := by
  obtain looked | ⟨fresh, -, scopes, locals⟩ := assigning_cases ctx name span s
  · exact .of_looked looked
  · exact .declares fresh scopes locals

theorem moves_perform (s v) : Moves s (perform registry p s v) v := by
  cases v with
  | enter name => exact .enters rfl rfl
  | leave => exact .leaves rfl rfl
  | node inInit n =>
    cases n with
    | literal | binary | unary => exact .still rfl rfl
    | read span name symbol => exact .of_looked (looked_reading _ name span s)
    | assign span target step value symbol =>
      cases step with
      | none => exact moves_assigning (contextOf registry p inInit) span target value symbol s
      | some op => exact .of_looked (looked_updating _ target span s)
    | update span target decrement before symbol =>
      exact .of_looked (looked_updating _ target span s)
    | builtin span name which args =>
      have still := still_checkBuiltin (contextOf registry p inInit) name which args.length span s
      exact .still still.1 still.2
    | call span name args function =>
      have still := still_calling (contextOf registry p inInit) name args.length span s
      exact .still still.1 still.2

end Resolve

end MapAlgebra
