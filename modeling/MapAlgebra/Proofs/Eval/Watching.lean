import MapAlgebra.Scene

/-! Watching the variables of a tree. A watched run notes every load and store of a variable and does
otherwise what the run does.
-/

namespace MapAlgebra

/-- What a run does with a variable. -/
inductive Access where
  | load (slot : Nat)
  | store (slot : Nat)
deriving DecidableEq

/-- A state with the accesses that led to it, the newest first. -/
structure Watched where
  env : Env
  history : List Access

/-- A watched evaluation. -/
abbrev WatchM := EStateM Stop Watched

namespace Watch

variable {α β : Type}

/-- The state that a run leaves, however it ends. -/
def left : EStateM.Result Stop Watched α → Watched
  | .ok _ w => w
  | .error _ w => w

/-- The result of a run without its history. -/
def unwatched : EStateM.Result Stop Watched α → EStateM.Result Stop Env α
  | .ok a w => .ok a w.env
  | .error stop w => .error stop w.env

/-- Carries out an evaluation without noting anything. -/
def unnoted (m : EvalM α) : WatchM α := fun w =>
  match m.run w.env with
  | .ok a env => .ok a { w with env }
  | .error stop env => .error stop { w with env }

/-- Notes an access to a variable, if there is one. -/
def note (access : Nat → Access) : (slot : Option Nat) → WatchM Unit
  | none => pure ()
  | some slot => modify fun w => { w with history := access slot :: w.history }

/-- The slot of the variable that a symbol stands for. -/
def varSlot? : Option Symbol → Option Nat
  | none => none
  | some symbol => if symbol.role.isImage then none else some symbol.slot

/-- Reads what a symbol stands for. -/
def load (symbol : Option Symbol) : WatchM Sample := do
  note .load (varSlot? symbol)
  unnoted (Eval.load symbol)

/-- Writes what a symbol stands for. -/
def store (symbol : Option Symbol) (v : Sample) : WatchM Unit := do
  unnoted (Eval.store symbol v)
  note .store (varSlot? symbol)

mutual

/-- The value of an expression. -/
def expr : Expr → WatchM Sample
  | .literal _ v => return v
  | .read _ _ symbol => load symbol
  | .binary _ (.arith op) left right => do
    let a ← expr left
    let b ← expr right
    return op.apply a b
  | .binary _ .and left right => do
    let a ← expr left
    if a.truthy then
      let b ← expr right
      return .ofBool b.truthy
    else return .zero
  | .binary _ .or left right => do
    let a ← expr left
    if a.truthy then return .one
    else
      let b ← expr right
      return .ofBool b.truthy
  | .unary _ op operand => do
    let v ← expr operand
    return op.apply v
  | .assign _ _ none value symbol => do
    let v ← expr value
    store symbol v
    return v
  | .assign _ _ (some op) value symbol => do
    let old ← load symbol
    let b ← expr value
    let v := op.apply old b
    store symbol v
    return v
  | .update _ _ decrement before symbol => do
    let old ← load symbol
    let new := if decrement then old.sub .one else old.add .one
    store symbol new
    return if before then new else old
  | .builtin _ _ which _ => unnoted (EvalM.builtin which)
  | .call _ _ args function => do
    let args ← exprs args
    unnoted (do EvalM.call (← EvalM.orCrash function) args)

/-- The values of expressions from left to right. -/
def exprs : List Expr → WatchM (List Sample)
  | [] => return []
  | e :: rest => do
    let v ← expr e
    let vs ← exprs rest
    return v :: vs

end

/-- Repeats a body while a test is truthy. -/
def repeating (test : WatchM Sample) (body : WatchM Unit) : (fuel : Nat) → WatchM Unit
  | 0 => throw .unfinished
  | fuel + 1 => do
    let v ← test
    if v.truthy then
      body
      unnoted EvalM.tick
      repeating test body fuel

mutual

/-- Runs a statement. -/
def stmt (fuel : Nat) : Stmt → WatchM Unit
  | .expr e => do
    let _ ← expr e
  | .block _ body => stmts fuel body
  | .ifThen _ test yes => do
    let v ← expr test
    if v.truthy then stmt fuel yes
  | .ifElse _ test yes no => do
    let v ← expr test
    if v.truthy then stmt fuel yes else stmt fuel no
  | .loop _ test body => repeating (expr test) (stmt fuel body) fuel

/-- Runs statements in order. -/
def stmts (fuel : Nat) : List Stmt → WatchM Unit
  | [] => return
  | s :: rest => do
    stmt fuel s
    stmts fuel rest

end

/-- Apart from its history a watched evaluation does what an evaluation does. -/
def Mirrors (watched : WatchM α) (m : EvalM α) : Prop :=
  ∀ w, unwatched (watched.run w) = m.run w.env

namespace Mirrors

theorem pure (a : α) : Mirrors (Pure.pure a) (Pure.pure a) :=
  fun _ => rfl

theorem throw (stop) : Mirrors (throw stop : WatchM α) (throw stop) :=
  fun _ => rfl

theorem unnoted (m : EvalM α) : Mirrors (unnoted m) m := by
  intro w
  simp only [Watch.unnoted, EStateM.run]
  cases m w.env <;> rfl

theorem bind {watched m next} {next' : α → EvalM β} (first : Mirrors watched m)
    (rest : ∀ a, Mirrors (next a) (next' a))
    : Mirrors (watched >>= next) (m >>= next') := by
  intro w
  have same := first w
  rw [EStateM.run_bind, EStateM.run_bind, ← same]
  cases watched.run w with
  | ok a w' => exact rest a w'
  | error stop w' => rfl

theorem note (access : Nat → Access) (slot) : Mirrors (note access slot) (Pure.pure ()) := by
  cases slot with
  | none => exact .pure ()
  | some slot => exact fun w => rfl

theorem ite {watched watched'} {m m' : EvalM α} (test : Bool) (yes : Mirrors watched m)
    (no : Mirrors watched' m')
    : Mirrors (if test then watched else watched') (if test then m else m') := by
  cases test with
  | true => exact yes
  | false => exact no

end Mirrors

theorem mirrors_load (symbol) : Mirrors (load symbol) (Eval.load symbol) := by
  have whole := (Mirrors.note .load (varSlot? symbol)).bind fun _ => Mirrors.unnoted (Eval.load symbol)
  rwa [pure_bind] at whole

theorem mirrors_store (symbol v) : Mirrors (store symbol v) (Eval.store symbol v) := by
  have whole := (Mirrors.unnoted (Eval.store symbol v)).bind fun _ =>
    Mirrors.note .store (varSlot? symbol)
  rwa [bind_pure] at whole

mutual

/-- Watching an expression changes nothing, by induction on it. -/
theorem mirrors_expr (e : Expr) : Mirrors (expr e) (Eval.expr e) := by
  cases e with
  | literal span v => exact .pure v
  | read span name symbol => exact mirrors_load symbol
  | binary span op left right =>
    cases op with
    | arith op => exact (mirrors_expr left).bind fun a => (mirrors_expr right).bind fun b => .pure _
    | and =>
      exact (mirrors_expr left).bind fun a =>
        .ite _ ((mirrors_expr right).bind fun b => .pure _) (.pure _)
    | or =>
      exact (mirrors_expr left).bind fun a =>
        .ite _ (.pure _) ((mirrors_expr right).bind fun b => .pure _)
  | unary span op operand =>
    exact (mirrors_expr operand).bind fun v => .pure _
  | assign span target step value symbol =>
    cases step with
    | none =>
      exact (mirrors_expr value).bind fun v => (mirrors_store symbol v).bind fun _ => .pure _
    | some op =>
      exact (mirrors_load symbol).bind fun old => (mirrors_expr value).bind fun b =>
        (mirrors_store symbol _).bind fun _ => .pure _
  | update span target decrement before symbol =>
    exact (mirrors_load symbol).bind fun old => (mirrors_store symbol _).bind fun _ => .pure _
  | builtin span name which args =>
    exact .unnoted _
  | call span name args function =>
    exact (mirrors_exprs args).bind fun vs => .unnoted _

theorem mirrors_exprs (es) : Mirrors (exprs es) (Eval.exprs es) := by
  cases es with
  | nil => exact .pure []
  | cons e rest =>
    exact (mirrors_expr e).bind fun v => (mirrors_exprs rest).bind fun vs => .pure _

end

theorem mirrors_repeating {test} {test' : EvalM Sample} {body} {body' : EvalM Unit}
    (tests : Mirrors test test') (bodies : Mirrors body body') (fuel)
    : Mirrors (repeating test body fuel) (Eval.repeating test' body' fuel) := by
  induction fuel with
  | zero => exact .throw _
  | succ fuel ih =>
    exact tests.bind fun v =>
      .ite _ (bodies.bind fun _ => (Mirrors.unnoted EvalM.tick).bind fun _ => ih) (.pure _)

mutual

theorem mirrors_stmt (fuel s) : Mirrors (stmt fuel s) (Eval.stmt fuel s) := by
  cases s with
  | expr e =>
    exact (mirrors_expr e).bind fun _ => .pure _
  | block span body =>
    exact mirrors_stmts fuel body
  | ifThen span test yes =>
    exact (mirrors_expr test).bind fun v => .ite _ (mirrors_stmt fuel yes) (.pure _)
  | ifElse span test yes no =>
    exact (mirrors_expr test).bind fun v => .ite _ (mirrors_stmt fuel yes) (mirrors_stmt fuel no)
  | loop span test body =>
    exact mirrors_repeating (mirrors_expr test) (mirrors_stmt fuel body) fuel

theorem mirrors_stmts (fuel body) : Mirrors (stmts fuel body) (Eval.stmts fuel body) := by
  cases body with
  | nil => exact .pure _
  | cons s rest =>
    exact (mirrors_stmt fuel s).bind fun _ => mirrors_stmts fuel rest

end

end Watch

end MapAlgebra
