import MapAlgebra.Proofs.Eval.Watching
import Mathlib.Data.Set.Insert

/-! Definite assignment. From the text of a tree alone one can tell which variables it surely stores, and
whether it loads only such as were stored before. A run of a tree that passes the test never loads
a variable that nothing was stored in.
-/

namespace MapAlgebra

open Set

/-- The variable in a slot, if one is given. -/
def slots (slot : Option Nat) : Set Nat :=
  { held | slot = some held }

/-- The variable that a symbol stands for. -/
def varSlots (symbol : Option Symbol) : Set Nat :=
  slots (Watch.varSlot? symbol)

theorem mem_varSlots {symbol slot}
    : slot ∈ varSlots symbol ↔ ∃ s, symbol = some s ∧ s.role.isImage = false ∧ s.slot = slot := by
  cases symbol <;> simp [varSlots, slots, Watch.varSlot?]

mutual

/-- The variables that an expression has stored when its value is known. The second operand of a
logical operator may not have been looked at.
-/
def Expr.stored : Expr → Set Nat
  | .literal .. | .read .. | .builtin .. => ∅
  | .binary _ (.arith _) left right => left.stored ∪ right.stored
  | .binary _ .and left _ | .binary _ .or left _ => left.stored
  | .unary _ _ operand => operand.stored
  | .assign _ _ _ value symbol => value.stored ∪ varSlots symbol
  | .update _ _ _ _ symbol => varSlots symbol
  | .call _ _ args _ => exprsStored args

/-- The variables that several expressions have stored. -/
def exprsStored : List Expr → Set Nat
  | [] => ∅
  | e :: rest => e.stored ∪ exprsStored rest

end

mutual

/-- An expression loads only variables that are known or that it has stored before. -/
def Expr.Definite (known : Set Nat) : Expr → Prop
  | .literal .. | .builtin .. => True
  | .read _ _ symbol => varSlots symbol ⊆ known
  | .binary _ _ left right => left.Definite known ∧ right.Definite (known ∪ left.stored)
  | .unary _ _ operand => operand.Definite known
  | .assign _ _ none value _ => value.Definite known
  | .assign _ _ (some _) value symbol => varSlots symbol ⊆ known ∧ value.Definite known
  | .update _ _ _ _ symbol => varSlots symbol ⊆ known
  | .call _ _ args _ => exprsDefinite known args

/-- Several expressions load only variables that are known or that they have stored before. -/
def exprsDefinite (known : Set Nat) : List Expr → Prop
  | [] => True
  | e :: rest => e.Definite known ∧ exprsDefinite (known ∪ e.stored) rest

end

/-- The variables that a statement has stored behind it, apart from those in blocks and branches. -/
def Stmt.stored : Stmt → Set Nat
  | .expr e => e.stored
  | .block .. => ∅
  | .ifThen _ test _ | .ifElse _ test _ _ | .loop _ test _ => test.stored

/-- The variables that several statements have stored. -/
def stmtsStored : List Stmt → Set Nat
  | [] => ∅
  | s :: rest => s.stored ∪ stmtsStored rest

mutual

/-- A statement loads only variables that are known or that it has stored before. -/
def Stmt.Definite (known : Set Nat) : Stmt → Prop
  | .expr e => e.Definite known
  | .block _ body => stmtsDefinite known body
  | .ifThen _ test yes => test.Definite known ∧ yes.Definite (known ∪ test.stored)
  | .ifElse _ test yes no =>
    test.Definite known ∧ yes.Definite (known ∪ test.stored) ∧ no.Definite (known ∪ test.stored)
  | .loop _ test body => test.Definite known ∧ body.Definite (known ∪ test.stored)

/-- Several statements load only variables that are known or that they have stored before. -/
def stmtsDefinite (known : Set Nat) : List Stmt → Prop
  | [] => True
  | s :: rest => s.Definite known ∧ stmtsDefinite (known ∪ s.stored) rest

end

mutual

theorem Expr.Definite.mono {known more} (subset : known ⊆ more) (e : Expr)
    (definite : e.Definite known)
    : e.Definite more := by
  cases e with
  | literal | builtin => trivial
  | read | update => exact definite.trans subset
  | binary span op left right =>
    exact ⟨Expr.Definite.mono subset left definite.1,
      Expr.Definite.mono (union_subset_union_left _ subset) right definite.2⟩
  | unary span op operand => exact Expr.Definite.mono subset operand definite
  | assign span target step value symbol =>
    cases step with
    | none => exact Expr.Definite.mono subset value definite
    | some op => exact ⟨definite.1.trans subset, Expr.Definite.mono subset value definite.2⟩
  | call span name args function => exact exprsDefinite_mono subset args definite

theorem exprsDefinite_mono {known more} (subset : known ⊆ more) (es : List Expr)
    (definite : exprsDefinite known es)
    : exprsDefinite more es := by
  cases es with
  | nil => trivial
  | cons e rest =>
    exact ⟨Expr.Definite.mono subset e definite.1,
      exprsDefinite_mono (union_subset_union_left _ subset) rest definite.2⟩

end

mutual

theorem Stmt.Definite.mono {known more} (subset : known ⊆ more) (s : Stmt)
    (definite : s.Definite known)
    : s.Definite more := by
  cases s with
  | expr e => exact Expr.Definite.mono subset e definite
  | block span body => exact stmtsDefinite_mono subset body definite
  | ifThen span test yes | loop span test yes =>
    exact ⟨Expr.Definite.mono subset test definite.1,
      Stmt.Definite.mono (union_subset_union_left _ subset) yes definite.2⟩
  | ifElse span test yes no =>
    exact ⟨Expr.Definite.mono subset test definite.1,
      Stmt.Definite.mono (union_subset_union_left _ subset) yes definite.2.1,
      Stmt.Definite.mono (union_subset_union_left _ subset) no definite.2.2⟩

theorem stmtsDefinite_mono {known more} (subset : known ⊆ more) (body : List Stmt)
    (definite : stmtsDefinite known body)
    : stmtsDefinite more body := by
  cases body with
  | nil => trivial
  | cons s rest =>
    exact ⟨Stmt.Definite.mono subset s definite.1,
      stmtsDefinite_mono (union_subset_union_left _ subset) rest definite.2⟩

end

namespace Watch

variable {α β : Type} {known before after later : Set Nat} {history : List Access}

/-- Whenever a variable is loaded, it is known or was stored earlier. -/
def Covered (known : Set Nat) (history : List Access) : Prop :=
  ∀ newer slot older, history = newer ++ .load slot :: older → slot ∈ known ∨ .store slot ∈ older

/-- The variables are known or were stored. -/
def Holds (known : Set Nat) (slots : Set Nat) (history : List Access) : Prop :=
  ∀ slot ∈ slots, slot ∈ known ∨ .store slot ∈ history

/-- A run that starts when some variables hold values loads no others. When it comes to an end without
a stop, the given ones hold values.
-/
def Safe (known before after : Set Nat) (m : WatchM α) : Prop :=
  ∀ w, Covered known w.history → Holds known before w.history
    → Covered known (left (m.run w)).history
      ∧ ∀ a w', m.run w = .ok a w' → Holds known after w'.history

theorem covered_nil : Covered known [] := by
  intro newer slot older split
  cases newer <;> cases split

theorem covered_store {slot} (covered : Covered known history)
    : Covered known (.store slot :: history) := by
  intro newer slot' older split
  cases newer with
  | nil => cases split
  | cons access newer =>
    cases split
    exact covered newer slot' older rfl

theorem covered_load {slot} (covered : Covered known history)
    (holds : slot ∈ known ∨ .store slot ∈ history)
    : Covered known (.load slot :: history) := by
  intro newer slot' older split
  cases newer with
  | nil =>
    cases split
    exact holds
  | cons access newer =>
    cases split
    exact covered newer slot' older rfl

namespace Safe

theorem pure (a : α) : Safe known before before (Pure.pure a) :=
  fun w covered holds => ⟨covered, fun _ _ ran => by cases ran; exact holds⟩

theorem throw (stop) : Safe known before after (throw stop : WatchM α) :=
  fun w covered _ => ⟨covered, fun _ _ ran => by cases ran⟩

theorem bind {m} {next : α → WatchM β} (first : Safe known before after m)
    (rest : ∀ a, Safe known after later (next a))
    : Safe known before later (m >>= next) := by
  intro w covered holds
  obtain ⟨covered', holds'⟩ := first w covered holds
  rw [EStateM.run_bind]
  cases ran : m.run w with
  | ok a w' =>
    rw [ran] at covered'
    exact rest a w' covered' (holds' a w' ran)
  | error stop w' =>
    rw [ran] at covered'
    exact ⟨covered', fun _ _ ran => by cases ran⟩

theorem mono {before' after'} {m : WatchM α} (safe : Safe known before after m)
    (less : before ⊆ before') (more : after' ⊆ after)
    : Safe known before' after' m := by
  intro w covered holds
  obtain ⟨covered', holds'⟩ := safe w covered fun slot member => holds slot (less member)
  exact ⟨covered', fun a w' ran slot member => holds' a w' ran slot (more member)⟩

theorem ite {m m' : WatchM α} (test : Bool) (yes : Safe known before after m)
    (no : Safe known before after m')
    : Safe known before after (if test then m else m') := by
  cases test with
  | true => exact yes
  | false => exact no

theorem unnoted (m : EvalM α) : Safe known before before (unnoted m) := by
  intro w covered holds
  simp only [Watch.unnoted, EStateM.run]
  cases m w.env with
  | ok a env => exact ⟨covered, fun _ _ ran => by cases ran; exact holds⟩
  | error stop env => exact ⟨covered, fun _ _ ran => by cases ran⟩

end Safe

theorem safe_note_load {slot} (loaded : slots slot ⊆ before)
    : Safe known before before (note .load slot) := by
  cases slot with
  | none => exact .pure ()
  | some slot =>
    refine fun w covered holds => ⟨covered_load covered (holds slot (loaded rfl)), fun _ _ ran => ?_⟩
    cases ran
    exact fun slot member => (holds slot member).imp_right (List.mem_cons_of_mem _)

theorem safe_note_store (slot) : Safe known before (before ∪ slots slot) (note .store slot) := by
  cases slot with
  | none => exact (Safe.pure ()).mono subset_rfl (union_subset subset_rfl nofun)
  | some slot =>
    refine fun w covered holds => ⟨covered_store covered, fun _ _ ran => ?_⟩
    cases ran
    rintro slot' (member | same)
    · exact (holds slot' member).imp_right (List.mem_cons_of_mem _)
    · cases same
      exact Or.inr List.mem_cons_self

theorem safe_load {symbol} (loaded : varSlots symbol ⊆ before)
    : Safe known before before (load symbol) :=
  (safe_note_load loaded).bind fun _ => .unnoted _

theorem safe_store (symbol v) : Safe known before (before ∪ varSlots symbol) (store symbol v) :=
  (Safe.unnoted _).bind fun _ => safe_note_store _

mutual

/-- An expression loads only what holds a value, by induction on it. -/
theorem safe_expr {known before} (e : Expr) (definite : e.Definite before)
    : Safe known before (before ∪ e.stored) (expr e) := by
  cases e with
  | literal span v =>
    unfold expr Expr.stored
    rw [union_empty]
    exact .pure v
  | read span name symbol =>
    unfold expr Expr.stored
    rw [union_empty]
    exact safe_load definite
  | binary span op left right =>
    obtain ⟨first, second⟩ := definite
    have safeLeft : Safe known before (before ∪ left.stored) (expr left) := safe_expr left first
    have safeRight : Safe known (before ∪ left.stored) (before ∪ left.stored ∪ right.stored)
        (expr right) := safe_expr right second
    -- When the second operand is looked at, what it stores is not counted on.
    have looked {decided : Sample → Sample} : Safe known (before ∪ left.stored) (before ∪ left.stored)
        (do let b ← expr right; return decided b) :=
      (safeRight.mono subset_rfl subset_union_left).bind fun b => .pure _
    cases op with
    | arith op =>
      unfold expr Expr.stored
      rw [← union_assoc]
      exact safeLeft.bind fun a => safeRight.bind fun b => .pure _
    | and =>
      exact safeLeft.bind fun a => .ite _ looked (.pure _)
    | or =>
      exact safeLeft.bind fun a => .ite _ (.pure _) looked
  | unary span op operand =>
    exact (safe_expr operand definite).bind fun v => .pure _
  | assign span target step value symbol =>
    cases step with
    | none =>
      unfold expr Expr.stored
      rw [← union_assoc]
      exact (safe_expr value definite).bind fun v => (safe_store symbol v).bind fun _ => .pure _
    | some op =>
      unfold expr Expr.stored
      rw [← union_assoc]
      exact (safe_load definite.1).bind fun old => (safe_expr value definite.2).bind fun b =>
        (safe_store symbol _).bind fun _ => .pure _
  | update span target decrement before symbol =>
    exact (safe_load definite).bind fun old => (safe_store symbol _).bind fun _ => .pure _
  | builtin span name which args =>
    unfold expr Expr.stored
    rw [union_empty]
    exact .unnoted _
  | call span name args function =>
    exact (safe_exprs args definite).bind fun vs => .unnoted _

theorem safe_exprs {known before} (es) (definite : exprsDefinite before es)
    : Safe known before (before ∪ exprsStored es) (exprs es) := by
  cases es with
  | nil =>
    unfold exprs exprsStored
    rw [union_empty]
    exact .pure []
  | cons e rest =>
    unfold exprs exprsStored
    rw [← union_assoc]
    exact (safe_expr e definite.1).bind fun v => (safe_exprs rest definite.2).bind fun vs => .pure _

end

/-- A loop loads only what holds a value, by induction on the fuel. What held a value before a round
still does behind it.
-/
theorem safe_repeating {test body} (safeTest : Safe known before after test)
    (safeBody : Safe known after before body) (fuel : Nat)
    : Safe known before after (repeating test body fuel) := by
  induction fuel with
  | zero => exact .throw _
  | succ fuel ih =>
    exact safeTest.bind fun v =>
      .ite _ (safeBody.bind fun _ => (Safe.unnoted EvalM.tick).bind fun _ => ih) (.pure _)

mutual

theorem safe_stmt {known before} (fuel s) (definite : s.Definite before)
    : Safe known before (before ∪ s.stored) (stmt fuel s) := by
  cases s with
  | expr e =>
    exact (safe_expr e definite).bind fun _ => .pure _
  | block span body =>
    exact (safe_stmts fuel body definite).mono subset_rfl
      (union_subset_union_right before (empty_subset _))
  | ifThen span test yes =>
    exact (safe_expr test definite.1).bind fun v =>
      .ite _ ((safe_stmt fuel yes definite.2).mono subset_rfl subset_union_left) (.pure _)
  | ifElse span test yes no =>
    obtain ⟨first, second, third⟩ := definite
    exact (safe_expr test first).bind fun v =>
      .ite _ ((safe_stmt fuel yes second).mono subset_rfl subset_union_left)
        ((safe_stmt fuel no third).mono subset_rfl subset_union_left)
  | loop span test body =>
    refine safe_repeating (safe_expr test definite.1) ?_ fuel
    exact (safe_stmt fuel body definite.2).mono subset_rfl
      (subset_union_left.trans subset_union_left)

theorem safe_stmts {known before} (fuel body) (definite : stmtsDefinite before body)
    : Safe known before (before ∪ stmtsStored body) (stmts fuel body) := by
  cases body with
  | nil =>
    unfold stmts stmtsStored
    rw [union_empty]
    exact .pure _
  | cons s rest =>
    unfold stmts stmtsStored
    rw [← union_assoc]
    exact (safe_stmt fuel s definite.1).bind fun _ => safe_stmts fuel rest definite.2

end

end Watch

end MapAlgebra
