import MapAlgebra.Proofs.Code.Encoding
import MapAlgebra.Proofs.Code.Instructions
import MapAlgebra.Proofs.Code.Pools

/-! Running the code of an expression follows its evaluation: the code ends with the value above
what was on the stack before, or stops where the evaluation stops.
-/

namespace MapAlgebra

open List
open Eval

/-- The tables of a chunk are within reach of the operands, and so are the arguments of its
calls.
-/
structure Chunk.Addressable (chunk : Chunk) : Prop where
  constants : chunk.constants.size ≤ 65536
  functions : chunk.functions.size ≤ 65536
  arities : ∀ f ∈ chunk.functions, f.arity ≤ 255

instance (chunk : Chunk) : Decidable chunk.Addressable :=
  decidable_of_iff
    (chunk.constants.size ≤ 65536 ∧ chunk.functions.size ≤ 65536
      ∧ ∀ f ∈ chunk.functions, f.arity ≤ 255)
    ⟨fun ⟨constants, functions, arities⟩ => ⟨constants, functions, arities⟩,
      fun reachable => ⟨reachable.constants, reachable.functions, reachable.arities⟩⟩

namespace Lower

/-- A chunk is put together from items and pools, and a stack with some room is high enough for
it.
-/
structure Assembled (registry : Registry) (pools : Pools) (whole : List Item) (room : Nat)
    (chunk : Chunk) : Prop where
  code : chunk.code = (whole.flatMap Item.encode).toArray
  constants : chunk.constants = pools.constants
  functions : chunk.functions = pools.functions
  addressable : chunk.Addressable
  registered : pools.Registered registry
  deep : ∀ i depth, .instr i depth ∈ whole → depth ≤ room

variable {registry : Registry} {pools : Pools} {chunk : Chunk}

variable {room : Nat} {whole : List Item}

theorem Assembled.decode {rest offset depth i} (made : Assembled registry pools whole room chunk)
    (placed : Placed whole offset (.instr i depth :: rest)) (encodable : i.Encodable)
    : Instr.decodeAt chunk.code offset = some (.instr i) := by
  rw [made.code]
  exact placed.decode encodable

theorem toNat_toUInt16 {n} (fits : n < 65536) : n.toUInt16.toNat = n := by
  simp only [Nat.toUInt16_eq, UInt16.toNat_ofNat']
  omega

theorem Assembled.constant (made : Assembled registry pools whole room chunk) {v}
    (member : v ∈ pools.constants)
    : chunk.constants[(Chunk.constantIndex pools.constants v).toUInt16.toNat]? = some v := by
  have found := getElem?_constantIndex member
  obtain ⟨inside, -⟩ := Array.getElem?_eq_some_iff.mp found
  have few := made.addressable.constants
  rw [made.constants] at few
  rw [made.constants, toNat_toUInt16 (by omega), found]

theorem Assembled.function (made : Assembled registry pools whole room chunk) {f}
    (member : f ∈ pools.functions)
    : chunk.functions[(Chunk.functionIndex pools.functions f).toUInt16.toNat]? = some f := by
  have inside := functionIndex_lt member
  have few := made.addressable.functions
  rw [made.functions] at few
  rw [made.functions, toNat_toUInt16 (by omega)]
  exact getElem?_functionIndex made.registered (made.registered f member) inside

end Lower

namespace Machine

open Lower (Assembled Placed Pools Addresses Item size)

variable {registry : Registry} {pools : Pools} {whole items rest : List Item}
  {room fuel offset depth : Nat} {chunk : Chunk} {values : List Sample} {v : Sample} {env : Env}
  {c : Config} {symbol : Option Symbol} {i : Instr}

section

variable (made : Assembled registry pools whole room chunk)
include made

theorem does_load (reads : Addresses .readImage .loadVar symbol i)
    (placed : Placed whole offset (.instr i depth :: rest)) (place : At room offset values env c)
    (inside : values.length < room)
    : Does chunk c ((load symbol).run env) fun v env =>
        At room (offset + i.length) (values ++ [v]) env := by
  obtain ⟨s, rfl, ⟨isImage, n, slot, rfl⟩ | ⟨isVar, n, slot, rfl⟩⟩ := reads
  · have loads : load (some s) = EvalM.readImage n.toNat := by
      simp [load, EvalM.orCrash, isImage, slot]
    rw [loads]
    exact does_push (made.decode placed trivial) (fun _ => rfl) (.readImage _) place inside
  · have loads : load (some s) = EvalM.readVar n.toNat := by
      simp [load, EvalM.orCrash, isVar, slot]
    rw [loads]
    exact does_push (made.decode placed trivial) (fun _ => rfl) (.readVar _) place inside

theorem does_assign (writes : Addresses .writeImage .storeVar symbol i)
    (placed : Placed whole offset (.instr i depth :: rest))
    (place : At room offset (values ++ [v]) env c)
    : Does chunk c ((store symbol v).run env) fun _ env =>
        At room (offset + i.length) values env := by
  obtain ⟨s, rfl, ⟨isImage, n, slot, rfl⟩ | ⟨isVar, n, slot, rfl⟩⟩ := writes
  · have stores : store (some s) v = EvalM.writeImage n.toNat v := by
      simp [store, EvalM.orCrash, isImage, slot]
    rw [stores]
    exact does_store (made.decode placed trivial) (fun _ => rfl) (.writeImage _ v) place
  · have stores : store (some s) v = EvalM.writeVar n.toNat v := by
      simp [store, EvalM.orCrash, isVar, slot]
    rw [stores]
    exact does_store (made.decode placed trivial) (fun _ => rfl) (.writeVar _ v) place

theorem follows_storeTop {keep} (lowered : Lower.storeTop depth keep symbol = .ok items)
    (placed : Placed whole offset items) (place : At room offset (values ++ [v]) env c)
    (height : values.length = depth)
    : Follows chunk fuel c ((store symbol v).run env) fun _ env =>
        At room (offset + size items) (if keep then values ++ [v] else values) env := by
  obtain ⟨i, writes, rfl⟩ := Lower.storeTop_eq_ok lowered
  cases keep with
  | false =>
    refine (does_assign made writes placed place).follows.imp fun _ env d place => ?_
    exact place.cast (by simp)
  | true =>
    -- The copy has its place because the store is noted above it.
    have room_ge := made.deep _ _ placed.afterInstr.mem
    refine (does_dup (made.decode placed trivial) place (by omega)).andThen fun d place => ?_
    refine (does_assign made writes placed.afterInstr place).follows.imp fun _ env d place => ?_
    exact place.cast (by simp; omega)

theorem does_one (placed : Placed whole offset (.instr .constOne depth :: rest))
    (place : At room offset values env c) (inside : values.length < room)
    : Does chunk c (.ok Sample.one env) fun v env =>
        At room (offset + Instr.constOne.length) (values ++ [v]) env :=
  does_push (made.decode placed trivial) (fun _ => rfl) (.pure Sample.one) place inside

end

variable {keep truth : Bool}

theorem apply_one (decrement : Bool) (old)
    : (if decrement then Arith.sub else Arith.add).apply old .one
      = if decrement then old.sub .one else old.add .one := by
  cases decrement <;> rfl

/-- The code of an update follows it, and keeps the value that the update gives if it is needed. -/
theorem follows_update (made : Assembled registry pools whole room chunk) {decrement before}
    (lowered : Lower.update depth keep decrement before symbol = .ok items)
    (placed : Placed whole offset items) (place : At room offset values env c)
    (height : values.length = depth) (span : Span) (target : String)
    : Follows chunk fuel c ((expr (.update span target decrement before symbol)).run env)
        fun v env =>
          At room (offset + size items) (if keep then values ++ [v] else values) env := by
  obtain ⟨get, reads, ⟨rfl, rfl, set, writes, rfl⟩ | ⟨kept, stored, written, rfl⟩⟩ :=
    Lower.update_eq_ok lowered
  · -- The old value stays below the new one.
    have deep := made.deep _ _ placed.afterInstr.afterInstr.afterInstr.mem
    refine (does_load made reads placed place (by omega)).follows.bind fun old env c place => ?_
    have placed := placed.afterInstr
    refine (does_dup (made.decode placed trivial) place (by omega)).andThen fun c place => ?_
    have placed := placed.afterInstr
    refine (does_one made placed place (by simp; omega)).andThen fun c place => ?_
    have placed := placed.afterInstr
    refine (does_arith (made.decode placed trivial) place).andThen fun c place => ?_
    rw [apply_one] at place
    refine (does_assign made writes placed.afterInstr place).follows.bind fun _ env c place => ?_
    refine .here (place.cast ?_)
    simp
    omega
  · have deep := made.deep _ _ placed.afterInstr.afterInstr.mem
    refine (does_load made reads placed place (by omega)).follows.bind fun old env c place => ?_
    have placed := placed.afterInstr
    refine (does_one made placed place (by simp; omega)).andThen fun c place => ?_
    have placed := placed.afterInstr
    refine (does_arith (made.decode placed trivial) place).andThen fun c place => ?_
    rw [apply_one] at place
    refine (follows_storeTop made written placed.afterInstr place height).bind
      fun _ env c place => ?_
    refine .here ?_
    cases keep with
    | false => exact place.cast (by simp; omega)
    | true =>
      rw [kept rfl]
      exact place.cast (by simp; omega)

/-- A literal is pushed by the instruction for its value, whether that has one of its own or stands
in the pool.
-/
theorem does_literal (made : Assembled registry pools whole room chunk)
    (holds : Chunk.shortConstant? v = none → v ∈ pools.constants)
    (placed : Placed whole offset [Lower.constant pools depth v])
    (place : At room offset values env c) (inside : values.length < room)
    : Does chunk c (.ok v env) fun w env =>
        At room (offset + size [Lower.constant pools depth v]) (values ++ [w]) env := by
  rcases Lower.constant_cases pools depth v with ⟨rfl, eq⟩ | ⟨rfl, eq⟩ | ⟨long, eq⟩
  · rw [eq] at placed ⊢
    exact does_push (made.decode placed trivial) (fun _ => rfl) (.pure Sample.zero) place inside
  · rw [eq] at placed ⊢
    exact does_one made placed place inside
  · rw [eq] at placed ⊢
    have found := made.constant (holds long)
    refine does_push (made.decode placed trivial) (fun f => ?_) (.pure v) place inside
    simp only [step, found]
    rfl

/-- What the code of an expression has to do: the value comes above the others. -/
def FollowsExpr (pools : Pools) (whole : List Item) (room : Nat) (chunk : Chunk) (e : Expr)
    : Prop :=
  ∀ ⦃depth offset fuel : Nat⦄ ⦃items : List Item⦄ ⦃values : List Sample⦄ ⦃env : Env⦄
    ⦃c : Config⦄, Lower.expr pools depth e = .ok items → Placed whole offset items
    → At room offset values env c → values.length = depth → depth < room
    → Follows chunk fuel c ((expr e).run env) fun v env =>
        At room (offset + size items) (values ++ [v]) env

theorem step_decidingJump (truth distance f)
    : step chunk f (Lower.decidingJump truth distance) = do
        let f ← jumpIf truth distance f
        return some f := by
  cases truth <;> rfl

theorem step_decided (truth f)
    : step chunk f (Lower.decided truth) = do
        let f ← push f (.ofBool truth)
        return some f := by
  cases truth <;> rfl

@[simp] theorem length_decidingJump (truth : Bool) (distance : Int)
    : (Lower.decidingJump truth distance).length = 3 := by
  cases truth <;> rfl

theorem encodable_decidingJump {distance} (fits : fitsDistance distance)
    : (Lower.decidingJump truth distance).Encodable := by
  cases truth <;> exact fits

theorem encodable_decided (truth) : (Lower.decided truth).Encodable := by
  cases truth <;> trivial

/-- What a first operand decides is pushed by one byte. -/
@[simp] theorem length_decided (truth : Bool) : (Lower.decided truth).length = 1 := by
  cases truth <;> rfl

section

variable (made : Assembled registry pools whole room chunk)
include made

/-- The second operand is jumped over when the first has the truth that decides, and else its own
truth is the value.
-/
theorem follows_logical {left right} (followsLeft : FollowsExpr pools whole room chunk left)
    (followsRight : FollowsExpr pools whole room chunk right)
    (codes : Lower.CodesLogical pools depth truth left right items)
    (placed : Placed whole offset items) (place : At room offset values env c)
    (height : values.length = depth) (inside : depth < room)
    : Follows chunk fuel c
        (EStateM.run (do
          let a ← expr left
          if a.truthy = truth then pure (.ofBool truth)
          else
            let b ← expr right
            pure (.ofBool b.truthy)) env)
        fun v env => At room (offset + size items) (values ++ [v]) env := by
  obtain ⟨first, second, lowered1, lowered2, fits, code⟩ := codes
  obtain ⟨join, sum⟩ : ∃ join, join = offset + size first + 3 + size second := ⟨_, rfl⟩
  have total : offset + size items = join + 5 := by
    simp [code, sum]
    omega
  rw [total]
  subst code
  -- Behind the second operand come three instructions of one, three and one bytes.
  have placedJump := placed.left.left.right
  have placedSecond : Placed whole (offset + size first + 3) second :=
    placed.left.right.cast (by simp; omega)
  have placedTruthy : Placed whole join _ := placed.right.cast (by simp; omega)
  have placedOver : Placed whole (join + 1) _ := placedTruthy.afterInstr
  have placedDecided : Placed whole (join + 4) _ := placedOver.afterInstr
  refine (followsLeft lowered1 placed.left.left.left place height inside).bind
    fun a env c place => ?_
  have leads : ((offset + size first
        + (Lower.decidingJump truth (size second + 4 : Nat)).length : Nat) : Int)
      + (size second + 4 : Nat) = (join + 4 : Nat) := by
    rw [length_decidingJump]
    omega
  refine (does_jumpIf (made.decode placedJump (encodable_decidingJump fits))
    (step_decidingJump truth _) place leads).andThen fun c place => ?_
  split
  · rename_i decides
    rw [if_pos decides] at place
    refine (does_push (made.decode placedDecided (encodable_decided truth))
      (fun f => step_decided truth f) (.pure _) place (by omega)).follows.imp
      fun v env d place => place.cast ?_
    rw [length_decided]
  · rename_i undecided
    rw [if_neg undecided, length_decidingJump] at place
    refine (followsRight lowered2 placedSecond place height inside).bind fun b env c place => ?_
    refine (does_replaceTop (made.decode placedTruthy trivial) (fun _ => rfl)
      (place.cast sum.symm)).andThen fun c place => ?_
    have beyond : ((join + 1 : Nat) : Int) + 3 + 1 = (join + 5 : Nat) := by omega
    exact (does_jump (made.decode placedOver rfl) place beyond).andThen fun c place => .here place

/-- A compound assignment reads its target first, and all compute and store the value. -/
theorem follows_assign {value} (followsValue : FollowsExpr pools whole room chunk value) {step}
    (lowered : Lower.assign depth keep symbol (Lower.expr pools · value) step = .ok items)
    (placed : Placed whole offset items) (place : At room offset values env c)
    (height : values.length = depth) (span target)
    : Follows chunk fuel c ((expr (.assign span target step value symbol)).run env) fun v env =>
        At room (offset + size items) (if keep then values ++ [v] else values) env := by
  cases step with
  | none =>
    obtain ⟨first, stored, lowered1, written, rfl⟩ := Lower.assign_none lowered
    have inside : depth < room := by
      obtain ⟨i, -, rfl⟩ := Lower.storeTop_eq_ok written
      cases keep <;> exact made.deep _ _ placed.right.mem
    refine (followsValue lowered1 placed.left place height inside).bind fun v env c place => ?_
    refine (follows_storeTop made written placed.right place height).bind fun _ env c place => ?_
    exact .here (place.cast (by simp; omega))
  | some op =>
    obtain ⟨get, second, stored, reads, lowered1, written, rfl⟩ := Lower.assign_some lowered
    have deep := made.deep _ _ placed.right.mem
    refine (does_load made reads placed.left place (by omega)).follows.bind fun old env c place => ?_
    refine (followsValue lowered1 placed.left.afterInstr place (by simp [height]) (by omega)).bind
      fun b env c place => ?_
    have placedOp : Placed whole (offset + get.length + size second) _ :=
      placed.right.cast (by simp; omega)
    refine (does_arith (made.decode placedOp trivial) place).andThen fun c place => ?_
    refine (follows_storeTop made written placedOp.afterInstr place height).bind
      fun _ env c place => ?_
    exact .here (place.cast (by simp; omega))

end

/-- A conjunction is decided by a first operand that is false. -/
theorem eval_and (span : Span) (left right : Expr)
    : expr (.binary span .and left right) = (do
        let a ← expr left
        if a.truthy = false then pure (.ofBool false)
        else
          let b ← expr right
          pure (.ofBool b.truthy)) := by
  simp only [expr]
  congr
  funext a
  cases a.truthy <;> rfl

/-- A disjunction is decided by a first operand that is true. -/
theorem eval_or (span : Span) (left right : Expr)
    : expr (.binary span .or left right) = (do
        let a ← expr left
        if a.truthy = true then pure (.ofBool true)
        else
          let b ← expr right
          pure (.ofBool b.truthy)) := by
  congr

/-- The code of a unary operator does what the operator does to the value on top. -/
theorem follows_unary (made : Assembled registry pools whole room chunk) (op : UnaryOp)
    (placed : Placed whole offset ((Lower.unaryInstr? op).toList.map (.instr · depth)))
    (place : At room offset (values ++ [v]) env c)
    : Follows chunk fuel c (.ok (op.apply v) env) fun v env =>
        At room (offset + size ((Lower.unaryInstr? op).toList.map (.instr · depth)))
          (values ++ [v]) env := by
  cases op with
  | neg =>
    exact (does_replaceTop (made.decode placed trivial) (fun _ => rfl) place).andThen
      fun d place => .here place
  | not =>
    exact (does_replaceTop (made.decode placed trivial) (fun _ => rfl) place).andThen
      fun d place => .here place
  | plus => exact .here place

variable {names : Names}

mutual

/-- The code of an expression follows its evaluation, by induction on the expression. -/
theorem follows_expr (made : Assembled names.registry pools whole room chunk) (e : Expr)
    (resolved : ∀ n ∈ e.nodes, n.Resolved names) (provided : ∀ r ∈ e.references, pools.Provides r)
    : FollowsExpr pools whole room chunk e := by
  intro depth offset fuel items values env c lowered placed place height inside
  cases e with
  | literal span v =>
    cases lowered
    exact (does_literal made (forall_mem_singleton.mp provided) placed place (by omega)).follows
  | read span name symbol =>
    obtain ⟨i, reads, rfl⟩ := Lower.load_eq_ok lowered
    exact (does_load made reads placed place (by omega)).follows
  | binary span op left right =>
    simp only [Expr.nodes, forall_mem_cons, forall_mem_append] at resolved
    obtain ⟨-, resolvedLeft, resolvedRight⟩ := resolved
    have operands : ∀ r ∈ left.references ++ right.references, pools.Provides r := by
      cases op with
      | arith => exact provided
      | and | or => exact (forall_mem_append.mp provided).1
    obtain ⟨providedLeft, providedRight⟩ := forall_mem_append.mp operands
    have followsLeft := follows_expr made left resolvedLeft providedLeft
    have followsRight := follows_expr made right resolvedRight providedRight
    cases op with
    | and =>
      rw [eval_and]
      exact follows_logical made followsLeft followsRight (Lower.expr_and lowered) placed place
        height inside
    | or =>
      rw [eval_or]
      exact follows_logical made followsLeft followsRight (Lower.expr_or lowered) placed place
        height inside
    | arith op =>
      obtain ⟨first, second, lowered1, lowered2, rfl⟩ := Lower.expr_arith lowered
      have deep := made.deep _ _ placed.right.mem
      refine (followsLeft lowered1 placed.left.left place height inside).bind
        fun a env c place => ?_
      refine (followsRight lowered2 placed.left.right place (by simp [height])
        (by omega)).bind fun b env c place => ?_
      have placedOp : Placed whole (offset + size first + size second) _ :=
        placed.right.cast (by simp; omega)
      refine (does_arith (made.decode placedOp trivial) place).andThen fun c place => ?_
      exact .here (place.cast (by simp; omega))
  | unary span op operand =>
    simp only [Expr.nodes, forall_mem_cons] at resolved
    obtain ⟨first, lowered1, rfl⟩ := Lower.expr_unary lowered
    refine (follows_expr made operand resolved.2 provided lowered1 placed.left place height
      inside).bind fun v env c place => ?_
    exact (follows_unary made op placed.right place).imp fun v env d place =>
      place.cast (by simp; omega)
  | assign span target step value symbol =>
    simp only [Expr.nodes, forall_mem_cons] at resolved
    have followsValue := follows_expr made value resolved.2 (Lower.forall_value_references provided)
    exact follows_assign made followsValue lowered placed place height span target
  | update span target decrement before symbol =>
    exact follows_update made lowered placed place height span target
  | builtin span name which args =>
    cases lowered
    exact (does_push (made.decode placed trivial) (fun _ => rfl) (.builtin which) place
      (by omega)).follows
  | call span name args function =>
    obtain ⟨f, rfl, -, count⟩ := resolved _ (Expr.mem_nodes _)
    simp only [Expr.nodes, forall_mem_cons] at resolved
    obtain ⟨providedArgs, called⟩ := forall_mem_append.mp provided
    have member : f ∈ pools.functions := called _ (mem_singleton.mpr rfl)
    obtain ⟨_, code, found, lowered1, rfl⟩ := Lower.expr_call lowered
    cases found
    have deep := made.deep _ _ placed.right.mem
    -- The count has one byte: it is told exactly only since the chunk is addressable.
    have few : args.length ≤ 255 := by
      rw [← count]
      exact made.addressable.arities f (made.functions ▸ member)
    refine (follows_exprs made args resolved.2 providedArgs lowered1 placed.left place height
      deep).bind fun vs env c ⟨place, passed⟩ => ?_
    have argc : args.length.toUInt8.toNat = vs.length := by
      simp only [Nat.toUInt8_eq, UInt8.toNat_ofNat']
      omega
    refine (does_call (made.decode placed.right trivial) (made.function member) argc place
      (by omega)).follows.imp fun v env d place => ?_
    exact place.cast (by simp; omega)

theorem follows_exprs (made : Assembled names.registry pools whole room chunk) (es)
    (resolved : ∀ n ∈ exprsNodes es, n.Resolved names)
    (provided : ∀ r ∈ exprsReferences es, pools.Provides r) {depth offset fuel items values env c}
    (lowered : Lower.exprs pools depth es = .ok items) (placed : Placed whole offset items)
    (place : At room offset values env c) (height : values.length = depth)
    (inside : depth + es.length ≤ room)
    : Follows chunk fuel c ((exprs es).run env) fun vs env c =>
        At room (offset + size items) (values ++ vs) env c ∧ vs.length = es.length := by
  cases es with
  | nil =>
    cases lowered
    exact .here ⟨by simpa using place, rfl⟩
  | cons e rest =>
    simp only [exprsNodes, forall_mem_append] at resolved
    obtain ⟨providedFirst, providedRest⟩ := forall_mem_append.mp provided
    obtain ⟨first, more, lowered1, lowered2, rfl⟩ := Lower.exprs_cons lowered
    simp only [length_cons] at inside
    refine (follows_expr made e resolved.1 providedFirst lowered1 placed.left place height
      (by omega)).bind fun v env c place => ?_
    refine (follows_exprs made rest resolved.2 providedRest lowered2 placed.right place
      (by simp [height]) (by omega)).bind fun vs env c ⟨place, count⟩ => ?_
    refine .here ⟨?_, by simp [count]⟩
    rw [append_assoc] at place
    exact place.cast (by simp; omega)

end

end Machine

end MapAlgebra
