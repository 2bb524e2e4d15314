import MapAlgebra.Proofs.Code.Expressions

/-! Running the code of statements follows their evaluation. Statements start and end with an empty
stack, and every round of a loop is a round of the machine at least.
-/

namespace MapAlgebra.Machine

open Lower (Assembled Placed Pools Item size)
open List
open Eval

variable {names : Names} {pools : Pools} {whole items : List Item} {room offset : Nat}
  {chunk : Chunk} {env : Env} {c : Config}

/-- The code of an expression whose value is not needed follows its evaluation and leaves nothing
on the stack.
-/
theorem follows_effect (made : Assembled names.registry pools whole room chunk) {e fuel}
    (resolved : ∀ n ∈ e.nodes, n.Resolved names) (provided : ∀ r ∈ e.references, pools.Provides r)
    (lowered : Lower.effect pools e = .ok items) (placed : Placed whole offset items)
    (place : At room offset [] env c)
    : Follows chunk fuel c ((expr e).run env) fun _ env =>
        At room (offset + size items) [] env := by
  -- All but assignments and updates compute a value and drop it.
  have dropped
      (lowered : (do return (← Lower.expr pools 0 e) ++ [.instr .pop 1] : Lower.Lowered)
        = .ok items)
      : Follows chunk fuel c ((expr e).run env) fun _ env =>
          At room (offset + size items) [] env := by
    obtain ⟨code, lowered1, rfl⟩ := Lower.popped_eq_ok lowered
    have deep := made.deep _ _ placed.right.mem
    rw [← bind_pure (expr e)]
    refine (follows_expr made e resolved provided lowered1 placed.left place rfl (by omega)).bind
      fun v env c place => ?_
    refine (does_pop (made.decode placed.right trivial) place).andThen fun c place => ?_
    exact .here (place.cast (by simp; omega))
  cases e with
  | assign span target step value symbol =>
    simp only [Expr.nodes, forall_mem_cons] at resolved
    have followsValue := follows_expr made value resolved.2 (Lower.forall_value_references provided)
    exact follows_assign made followsValue lowered placed place rfl span target
  | update span target decrement before symbol =>
    exact follows_update made lowered placed place rfl span target
  | _ => exact dropped lowered

/-- A test and the jump behind it follow the evaluation of the test: what comes next is passed over
when the test fails.
-/
theorem follows_test (made : Assembled names.registry pools whole room chunk) {test}
    (followsTest : FollowsExpr pools whole room chunk test) {first} {bytes fuel : Nat}
    (lowered : Lower.expr pools 0 test = .ok first) (fits : fitsDistance bytes)
    (placed : Placed whole offset (first ++ [.instr (.jumpFalse bytes) 1]))
    (place : At room offset [] env c)
    : Follows chunk fuel c ((expr test).run env) fun v env =>
        At room (offset + size first + 3 + if v.truthy then 0 else bytes) [] env := by
  have deep := made.deep _ _ placed.right.mem
  have leads : ((offset + size first + (Instr.jumpFalse bytes).length : Nat) : Int) + bytes
      = (offset + size first + 3 + bytes : Nat) := by
    rw [Instr.length_jumpFalse]
    omega
  rw [← bind_pure (expr test)]
  refine (followsTest lowered placed.left place rfl deep).bind fun v env c place => ?_
  refine (does_jumpIf (made.decode placed.right fits) (fun _ => rfl) place leads).andThen
    fun c place => .here (place.cast ?_)
  cases v.truthy <;> simp

/-- What the code of a statement has to do: nothing stays on the stack. -/
def FollowsStmt (pools : Pools) (whole : List Item) (room : Nat) (chunk : Chunk)
    (fuel : Nat) (s : Stmt) : Prop :=
  ∀ ⦃offset : Nat⦄ ⦃items : List Item⦄ ⦃env : Env⦄ ⦃c : Config⦄,
    Lower.stmt pools s = .ok items → Placed whole offset items → At room offset [] env c
    → Follows chunk fuel c ((stmt fuel s).run env) fun _ env =>
        At room (offset + size items) [] env

/-- The code of a loop follows its rounds, by induction on how many there may be. Each round passes
the jump back, so the machine makes at least as many rounds as the loop.
-/
theorem follows_repeating (made : Assembled names.registry pools whole room chunk) {test body fuel}
    (followsTest : FollowsExpr pools whole room chunk test)
    (followsBody : FollowsStmt pools whole room chunk fuel body) {first round}
    (lowered1 : Lower.expr pools 0 test = .ok first)
    (lowered2 : Lower.stmt pools body = .ok round)
    (fits : fitsDistance (size round + 3 : Nat))
    (fits' : fitsDistance (-(size first + size round + 6 : Nat)))
    (placed : Placed whole offset
      (first ++ [.instr (.jumpFalse (size round + 3 : Nat)) 1] ++ round
        ++ [.instr (.loop (-(size first + size round + 6 : Nat))) 0]))
    {rounds} (within : rounds ≤ fuel) (place : At room offset [] env c)
    : Follows chunk rounds c
        ((repeating (expr test) (stmt fuel body) rounds).run env) fun _ env =>
          At room (offset + size first + size round + 6) [] env := by
  have placedRound : Placed whole (offset + size first + 3) round :=
    placed.left.right.cast (by simp; omega)
  have placedAgain : Placed whole (offset + size first + 3 + size round) _ :=
    placed.right.cast (by simp; omega)
  have returns : ((offset + size first + 3 + size round : Nat) : Int) + 3
      + -(size first + size round + 6 : Nat) = offset := by omega
  induction rounds generalizing env c with
  | zero => exact Or.inr ⟨rfl, 0, c, Nat.zero_le _, .refl c⟩
  | succ rounds ih =>
    refine (follows_test made followsTest lowered1 fits placed.left.left place).bind
      fun v env c place => ?_
    cases truth : v.truthy with
    | true =>
      simp only [truth, if_true] at place ⊢
      refine ((followsBody lowered2 placedRound place).mono within).bind fun _ env c place => ?_
      exact (does_loop (made.decode placedAgain fits') place returns).bind
        fun _ env c place => ih (by omega) place
    | false =>
      simp only [truth, Bool.false_eq_true, if_false] at place ⊢
      exact .here (place.cast (by omega))

mutual

/-- The code of a statement follows its evaluation, by induction on the statement. -/
theorem follows_stmt (made : Assembled names.registry pools whole room chunk) (fuel : Nat)
    (s : Stmt) (resolved : ∀ n ∈ s.nodes, n.Resolved names)
    (provided : ∀ r ∈ s.references, pools.Provides r)
    : FollowsStmt pools whole room chunk fuel s := by
  intro offset items env c lowered placed place
  cases s with
  | expr e =>
    obtain ⟨code, lowered1, rfl⟩ := Lower.stmt_expr lowered
    refine (follows_effect made resolved provided lowered1 placed.afterMark place).bind
      fun _ env c place => .here (place.cast (by simp))
  | block span body =>
    obtain ⟨code, lowered1, rfl⟩ := Lower.stmt_block lowered
    exact (follows_stmts made fuel body resolved provided lowered1 placed.afterMark place).imp
      fun _ env d place => place.cast (by simp)
  | ifThen span test yes =>
    simp only [Stmt.nodes, forall_mem_append] at resolved
    obtain ⟨providedTest, providedYes⟩ := forall_mem_append.mp provided
    obtain ⟨first, branch, lowered1, lowered2, fits, rfl⟩ := Lower.stmt_ifThen lowered
    have placed := placed.afterMark
    have placedBranch : Placed whole (offset + size first + 3) branch :=
      placed.right.cast (by simp; omega)
    refine (follows_test made (follows_expr made test resolved.1 providedTest) lowered1 fits placed.left
      place).bind fun v env c place => ?_
    cases truth : v.truthy with
    | true =>
      simp only [truth, if_true] at place ⊢
      exact (follows_stmt made fuel yes resolved.2 providedYes lowered2 placedBranch place).imp
        fun _ env d place => place.cast (by simp; omega)
    | false =>
      simp only [truth, Bool.false_eq_true, if_false] at place ⊢
      exact .here (place.cast (by simp; omega))
  | ifElse span test yes no =>
    simp only [Stmt.nodes, forall_mem_append] at resolved
    obtain ⟨providedFront, providedNo⟩ := forall_mem_append.mp provided
    obtain ⟨providedTest, providedYes⟩ := forall_mem_append.mp providedFront
    obtain ⟨first, branch, other, lowered1, lowered2, lowered3, fits, fits', rfl⟩ :=
      Lower.stmt_ifElse lowered
    have placed := placed.afterMark
    have placedBranch : Placed whole (offset + size first + 3) branch :=
      placed.left.left.right.cast (by simp; omega)
    have placedLeave : Placed whole (offset + size first + 3 + size branch) _ :=
      placed.left.right.cast (by simp; omega)
    have placedOther : Placed whole
        (offset + size first + 3 + (size branch + 3)) other :=
      placed.right.cast (by simp; omega)
    refine (follows_test made (follows_expr made test resolved.1.1 providedTest) lowered1 fits
      placed.left.left.left place).bind fun v env c place => ?_
    cases truth : v.truthy with
    | true =>
      simp only [truth, if_true] at place ⊢
      -- Behind the first branch comes a jump, which no step of the evaluation stands for.
      rw [← bind_pure (stmt fuel yes)]
      refine (follows_stmt made fuel yes resolved.1.2 providedYes lowered2 placedBranch place).bind
        fun _ env c place => ?_
      refine (does_jump (made.decode placedLeave fits') place ?_).andThen
        fun c place => .here place
      simp
      omega
    | false =>
      simp only [truth, Bool.false_eq_true, if_false] at place ⊢
      exact (follows_stmt made fuel no resolved.2 providedNo lowered3 placedOther place).imp
        fun _ env d place => place.cast (by simp; omega)
  | loop span test body =>
    simp only [Stmt.nodes, forall_mem_append] at resolved
    obtain ⟨providedTest, providedBody⟩ := forall_mem_append.mp provided
    obtain ⟨first, round, lowered1, lowered2, fits, fits', rfl⟩ := Lower.stmt_loop lowered
    refine (follows_repeating made (follows_expr made test resolved.1 providedTest)
      (follows_stmt made fuel body resolved.2 providedBody) lowered1 lowered2 fits fits'
      placed.afterMark (Nat.le_refl fuel) place).imp fun _ env d place => place.cast ?_
    simp
    omega

theorem follows_stmts (made : Assembled names.registry pools whole room chunk) (fuel body)
    (resolved : ∀ n ∈ stmtsNodes body, n.Resolved names)
    (provided : ∀ r ∈ stmtsReferences body, pools.Provides r) {offset items env c}
    (lowered : Lower.stmts pools body = .ok items) (placed : Placed whole offset items)
    (place : At room offset [] env c)
    : Follows chunk fuel c ((stmts fuel body).run env) fun _ env =>
        At room (offset + size items) [] env := by
  cases body with
  | nil =>
    cases lowered
    exact .here place
  | cons s rest =>
    simp only [stmtsNodes, forall_mem_append] at resolved
    obtain ⟨providedFirst, providedRest⟩ := forall_mem_append.mp provided
    obtain ⟨first, more, lowered1, lowered2, rfl⟩ := Lower.stmts_cons lowered
    refine (follows_stmt made fuel s resolved.1 providedFirst lowered1 placed.left place).bind
      fun _ env c place => ?_
    exact (follows_stmts made fuel rest resolved.2 providedRest lowered2 placed.right place).imp
      fun _ env d place => place.cast (by simp; omega)

end

end MapAlgebra.Machine
