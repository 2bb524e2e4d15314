import MapAlgebra.Proofs.Code.Lowering
import MapAlgebra.Proofs.Script.Nodes

/-! How code is put together. All code comes from single instructions by a few rules, with jumps only
over whole pieces, so a fact about code is shown once for each rule. The rules note how high the stack
is in front of a piece and behind it, and in which order the piece refers to constants, variables,
images and functions.
-/

namespace MapAlgebra

open List

namespace Instr

/-- How many values an instruction takes off the stack, as its opcode says or the operand of a call. -/
def pops : Instr → Nat
  | call _ argc => argc.toNat
  | i => i.opcode.pops.toNat

/-- How many values an instruction puts on the stack. -/
def pushes (i : Instr) : Nat := i.opcode.pushes.toNat

/-- The height behind an instruction. -/
def heightAfter (i : Instr) (depth : Nat) : Nat :=
  depth - i.pops + i.pushes

theorem pops_call (n argc) : (call n argc).pops = argc.toNat := rfl

theorem heightAfter_call (n argc depth)
    : (call n argc).heightAfter depth = depth - argc.toNat + 1 := rfl

/-- The instruction behind may come next. -/
def goesOn : Instr → Bool
  | jump _ | loop _ | finish => false
  | _ => true

/-- The distance that an instruction may jump. -/
def distance? : Instr → Option Int
  | jump d | jumpTrue d | jumpFalse d | loop d => some d
  | _ => none

/-- An instruction that takes something from outside of the stack. -/
def refers : Instr → Bool
  | const _ | constZero | constOne | loadVar _ | storeVar _ | readImage _ | writeImage _
  | call .. => true
  | _ => false

end Instr

/-- What an instruction takes from outside of the stack. -/
inductive Reference where
  | constant (v : Sample)
  | load (symbol : Option Symbol)
  | store (symbol : Option Symbol)
  | call (function : Option Function) (argc : Nat)

namespace Reference

/-- How many values the instruction of a reference is there to take. -/
def takes : Reference → Nat
  | constant _ | load _ => 0
  | store _ => 1
  | call _ argc => argc

/-- How many values the instruction of a reference leaves. -/
def leaves : Reference → Nat
  | store _ => 0
  | constant _ | load _ | call .. => 1

end Reference

mutual

/-- What the code of an expression refers to. Logical operators push what their first operand decides,
and an increment pushes a one.
-/
def Expr.references : Expr → List Reference
  | .literal _ v => [.constant v]
  | .read _ _ symbol => [.load symbol]
  | .binary _ (.arith _) left right => left.references ++ right.references
  | .binary _ .and left right => left.references ++ right.references ++ [.constant .zero]
  | .binary _ .or left right => left.references ++ right.references ++ [.constant .one]
  | .unary _ _ operand => operand.references
  | .assign _ _ none value symbol => value.references ++ [.store symbol]
  | .assign _ _ (some _) value symbol => .load symbol :: value.references ++ [.store symbol]
  | .update _ _ _ _ symbol => [.load symbol, .constant .one, .store symbol]
  | .builtin .. => []
  | .call _ _ args function => exprsReferences args ++ [.call function args.length]

/-- What the codes of several expressions refer to. -/
def exprsReferences : List Expr → List Reference
  | [] => []
  | e :: rest => e.references ++ exprsReferences rest

end

mutual

/-- What the code of a statement refers to. -/
def Stmt.references : Stmt → List Reference
  | .expr e => e.references
  | .block _ body => stmtsReferences body
  | .ifThen _ test yes => test.references ++ yes.references
  | .ifElse _ test yes no => test.references ++ yes.references ++ no.references
  | .loop _ test body => test.references ++ body.references

/-- What the codes of several statements refer to. -/
def stmtsReferences : List Stmt → List Reference
  | [] => []
  | s :: rest => s.references ++ stmtsReferences rest

end

/-- What the code of a node refers to, besides what its parts refer to. -/
def Expr.ownReferences : Expr → List Reference
  | .literal _ v => [.constant v]
  | .read _ _ symbol => [.load symbol]
  | .binary _ .and _ _ => [.constant .zero]
  | .binary _ .or _ _ => [.constant .one]
  | .assign _ _ none _ symbol => [.store symbol]
  | .assign _ _ (some _) _ symbol => [.load symbol, .store symbol]
  | .update _ _ _ _ symbol => [.load symbol, .constant .one, .store symbol]
  | .call _ _ args function => [.call function args.length]
  | .binary _ (.arith _) _ _ | .unary .. | .builtin .. => []

/-- The symbol that a node reads or assigns. -/
def Expr.symbol? : Expr → Option Symbol
  | .read _ _ symbol | .assign _ _ _ _ symbol | .update _ _ _ _ symbol => symbol
  | _ => none

/-- The symbol that a reference loads or stores. -/
def Reference.symbol? : Reference → Option Symbol
  | .load symbol | .store symbol => symbol
  | _ => none

theorem Expr.symbol?_of_ownReferences {n : Expr} {r} (refers : r ∈ n.ownReferences) {s}
    (stands : r.symbol? = some s)
    : n.symbol? = some s := by
  cases n with
  | binary span op left right =>
    cases op <;> simp only [ownReferences, mem_singleton, not_mem_nil] at refers
    all_goals
      subst refers
      cases stands
  | assign span target step value symbol =>
    cases step <;> simp only [ownReferences, mem_cons, not_mem_nil, or_false] at refers
    · subst refers
      exact stands
    · rcases refers with rfl | rfl <;> exact stands
  | update span target decrement before symbol =>
    simp only [ownReferences, mem_cons, not_mem_nil, or_false] at refers
    rcases refers with rfl | rfl | rfl
    · exact stands
    · cases stands
    · exact stands
  | read span name symbol =>
    cases mem_singleton.mp refers
    exact stands
  | literal span v | call span name args function =>
    cases mem_singleton.mp refers
    cases stands
  | unary | builtin => cases refers

theorem Expr.eq_call_of_ownReferences {n : Expr} {function argc}
    (refers : .call function argc ∈ n.ownReferences)
    : ∃ span name args, n = .call span name args function ∧ argc = args.length := by
  cases n with
  | call span name args callee =>
    cases mem_singleton.mp refers
    exact ⟨span, name, args, rfl, rfl⟩
  | binary span op left right => cases op <;> simp [ownReferences] at refers
  | assign span target step value symbol => cases step <;> simp [ownReferences] at refers
  | _ => simp [ownReferences] at refers

namespace Lower

mutual

/-- What holds of the references of all nodes holds of those of an expression, by induction on the
expression.
-/
theorem forall_expr_references {holds : Reference → Prop} (e : Expr)
    (own : ∀ n ∈ e.nodes, ∀ r ∈ n.ownReferences, holds r)
    : ∀ r ∈ e.references, holds r := by
  have here := own e (Expr.mem_nodes e)
  cases e with
  | literal | read | update => exact here
  | builtin => exact forall_mem_nil _
  | binary span op left right =>
    simp only [Expr.nodes, forall_mem_cons, forall_mem_append] at own
    have operands := forall_mem_append.mpr
      ⟨forall_expr_references left own.2.1, forall_expr_references right own.2.2⟩
    cases op with
    | arith op => exact operands
    | and | or => exact forall_mem_append.mpr ⟨operands, here⟩
  | unary span op operand =>
    simp only [Expr.nodes, forall_mem_cons] at own
    exact forall_expr_references operand own.2
  | assign span target step value symbol =>
    simp only [Expr.nodes, forall_mem_cons] at own
    have stored := forall_expr_references value own.2
    cases step with
    | none => exact forall_mem_append.mpr ⟨stored, here⟩
    | some op =>
      obtain ⟨loads, stores⟩ := forall_mem_cons.mp here
      exact forall_mem_cons.mpr ⟨loads, forall_mem_append.mpr ⟨stored, stores⟩⟩
  | call span name args function =>
    simp only [Expr.nodes, forall_mem_cons] at own
    exact forall_mem_append.mpr ⟨forall_exprs_references args own.2, here⟩

theorem forall_exprs_references {holds : Reference → Prop} (es)
    (own : ∀ n ∈ exprsNodes es, ∀ r ∈ n.ownReferences, holds r)
    : ∀ r ∈ exprsReferences es, holds r := by
  cases es with
  | nil => exact forall_mem_nil _
  | cons e rest =>
    simp only [exprsNodes, forall_mem_append] at own
    exact forall_mem_append.mpr
      ⟨forall_expr_references e own.1, forall_exprs_references rest own.2⟩

end

mutual

theorem forall_stmt_references {holds : Reference → Prop} (s : Stmt)
    (own : ∀ n ∈ s.nodes, ∀ r ∈ n.ownReferences, holds r)
    : ∀ r ∈ s.references, holds r := by
  cases s with
  | expr e => exact forall_expr_references e own
  | block span body => exact forall_stmts_references body own
  | ifThen span test yes | loop span test yes =>
    simp only [Stmt.nodes, forall_mem_append] at own
    exact forall_mem_append.mpr
      ⟨forall_expr_references test own.1, forall_stmt_references yes own.2⟩
  | ifElse span test yes no =>
    simp only [Stmt.nodes, forall_mem_append] at own
    exact forall_mem_append.mpr ⟨forall_mem_append.mpr
      ⟨forall_expr_references test own.1.1, forall_stmt_references yes own.1.2⟩,
      forall_stmt_references no own.2⟩

/-- What holds of the references of all nodes holds of those of statements, by induction on the list. -/
theorem forall_stmts_references {holds : Reference → Prop} (body : List Stmt)
    (own : ∀ n ∈ stmtsNodes body, ∀ r ∈ n.ownReferences, holds r)
    : ∀ r ∈ stmtsReferences body, holds r := by
  cases body with
  | nil => exact forall_mem_nil _
  | cons s rest =>
    simp only [stmtsNodes, forall_mem_append] at own
    exact forall_mem_append.mpr
      ⟨forall_stmt_references s own.1, forall_stmts_references rest own.2⟩

end

/-- The instruction that lowering makes of a reference. Indices and numbers of arguments are cut to
the width of the operands.
-/
def Emits (pools : Pools) : Reference → Instr → Prop
  | .constant v, i =>
    v = .zero ∧ i = .constZero ∨ v = .one ∧ i = .constOne
    ∨ Chunk.shortConstant? v = none
      ∧ i = .const (Chunk.constantIndex pools.constants v).toUInt16
  | .load symbol, i => Addresses .readImage .loadVar symbol i
  | .store symbol, i => Addresses .writeImage .storeVar symbol i
  | .call function argc, i => ∃ f, function = some f
    ∧ i = .call (Chunk.functionIndex pools.functions f).toUInt16 argc.toUInt8

theorem Emits.refers {pools r i} (emits : Emits pools r i) : i.refers = true := by
  cases r with
  | constant v =>
    obtain ⟨-, rfl⟩ | ⟨-, rfl⟩ | ⟨-, rfl⟩ := emits
    all_goals rfl
  | load symbol | store symbol =>
    obtain ⟨s, -, ⟨-, n, -, rfl⟩ | ⟨-, n, -, rfl⟩⟩ := emits
    all_goals rfl
  | call function argc =>
    obtain ⟨f, rfl, rfl⟩ := emits
    rfl

/-- A piece of code with its references, the height in front of it and the height behind it. -/
inductive Coded (pools : Pools) : List Reference → (before : Nat) → List Item → (after : Nat) → Prop
  | nil {depth} : Coded pools [] depth [] depth
  | append {references later before between after first second}
    (left : Coded pools references before first between) (right : Coded pools later between second after)
    : Coded pools (references ++ later) before (first ++ second) after
  | mark {references p items}
    (coded : Coded pools references 0 items 0)
    : Coded pools references 0 (.mark p :: items) 0
  | plain {i before after} (silent : i.refers = false) (straight : i.distance? = none)
    (goes : i.goesOn = true) (enough : i.pops ≤ before) (leaves : i.heightAfter before = after)
    : Coded pools [] before [.instr i before] after
  | one {r i before after} (depth : Nat) (emits : Emits pools r i)
    (takes : before = depth + r.takes) (leaves : after = depth + r.leaves)
    : Coded pools [r] before [.instr i before] after
  | logical {references later depth first second} (truth : Bool)
    (left : Coded pools references depth first (depth + 1))
    (right : Coded pools later depth second (depth + 1)) (fits : fitsDistance (size second + 4 : Nat))
    : Coded pools (references ++ later ++ [.constant (if truth then .one else .zero)]) depth
        (first ++ [.instr (decidingJump truth (size second + 4 : Nat)) (depth + 1)] ++ second
          ++ [.instr .truthy (depth + 1), .instr (.jump 1) (depth + 1), .instr (decided truth) depth])
        (depth + 1)
  | ifThen {references later first branch}
    (test : Coded pools references 0 first 1) (yes : Coded pools later 0 branch 0)
    (fits : fitsDistance (size branch))
    : Coded pools (references ++ later) 0
        (first ++ [.instr (.jumpFalse (size branch)) 1] ++ branch) 0
  | ifElse {references later last first branch other}
    (test : Coded pools references 0 first 1) (yes : Coded pools later 0 branch 0)
    (no : Coded pools last 0 other 0) (fits : fitsDistance (size branch + 3 : Nat))
    (fits' : fitsDistance (size other))
    : Coded pools (references ++ later ++ last) 0
        (first ++ [.instr (.jumpFalse (size branch + 3 : Nat)) 1] ++ branch
          ++ [.instr (.jump (size other)) 0] ++ other) 0
  | loop {references later first round}
    (test : Coded pools references 0 first 1) (body : Coded pools later 0 round 0)
    (fits : fitsDistance (size round + 3 : Nat))
    (fits' : fitsDistance (-(size first + size round + 6 : Nat)))
    : Coded pools (references ++ later) 0
        (first ++ [.instr (.jumpFalse (size round + 3 : Nat)) 1] ++ round
          ++ [.instr (.loop (-(size first + size round + 6 : Nat))) 0]) 0

variable {pools : Pools} {references : List Reference} {items : List Item} {i : Instr}
  {symbol : Option Symbol} {before between after depth : Nat}

theorem Coded.followed (coded : Coded pools references before items between)
    (last : Coded pools [] between [.instr i between] after)
    : Coded pools references before (items ++ [.instr i between]) after := by
  simpa only [append_nil] using coded.append last

theorem coded_arith (op depth)
    : Coded pools [] (depth + 2) [.instr (.arith op) (depth + 2)] (depth + 1) :=
  .plain rfl rfl rfl (Nat.le_add_left 2 depth) rfl

theorem coded_dup (depth) : Coded pools [] (depth + 1) [.instr .dup (depth + 1)] (depth + 2) :=
  .plain rfl rfl rfl (Nat.le_add_left 1 depth) rfl

theorem coded_load (reads : Addresses .readImage .loadVar symbol i)
    : Coded pools [.load symbol] depth [.instr i depth] (depth + 1) :=
  .one depth reads rfl rfl

theorem coded_store (writes : Addresses .writeImage .storeVar symbol i)
    : Coded pools [.store symbol] (depth + 1) [.instr i (depth + 1)] depth :=
  .one depth writes rfl rfl

theorem coded_storeTop {keep} (lowered : storeTop depth keep symbol = .ok items)
    : Coded pools [.store symbol] (depth + 1) items (if keep then depth + 1 else depth) := by
  obtain ⟨i, writes, rfl⟩ := storeTop_eq_ok lowered
  cases keep with
  | true => exact (coded_dup depth).append (coded_store writes)
  | false => exact coded_store writes

theorem coded_constant (pools depth v)
    : Coded pools [.constant v] depth [constant pools depth v] (depth + 1) := by
  rcases constant_cases pools depth v with ⟨zero, same⟩ | ⟨one, same⟩ | ⟨long, same⟩
  · rw [same]
    exact .one depth (Or.inl ⟨zero, rfl⟩) rfl rfl
  · rw [same]
    exact .one depth (Or.inr (Or.inl ⟨one, rfl⟩)) rfl rfl
  · rw [same]
    exact .one depth (Or.inr (Or.inr ⟨long, rfl⟩)) rfl rfl

/-- An update refers to its target, to a one and to its target again, whatever it leaves. -/
theorem coded_update {keep decrement before}
    (lowered : update depth keep decrement before symbol = .ok items)
    : Coded pools [.load symbol, .constant .one, .store symbol] depth items
        (if keep then depth + 1 else depth) := by
  have one (depth : Nat)
      : Coded pools [.constant .one] depth [.instr .constOne depth] (depth + 1) :=
    .one depth (Or.inr (Or.inl ⟨rfl, rfl⟩)) rfl rfl
  obtain ⟨get, reads, ⟨rfl, rfl, set, writes, rfl⟩ | ⟨-, stored, written, rfl⟩⟩ := update_eq_ok lowered
  · exact (coded_load reads).append <| (coded_dup depth).append <| (one (depth + 2)).append <|
      (coded_arith _ (depth + 1)).append (coded_store writes)
  · exact (coded_load reads).append <| (one (depth + 1)).append <|
      (coded_arith _ depth).append (coded_storeTop written)

/-- An assignment refers to what its value refers to, and to its target. -/
theorem coded_assign {keep span target step value}
    (lowered : assign depth keep symbol (expr pools · value) step = .ok items)
    (coded : ∀ {depth items}, expr pools depth value = .ok items
      → Coded pools value.references depth items (depth + 1))
    : Coded pools (Expr.assign span target step value symbol).references depth items
        (if keep then depth + 1 else depth) := by
  cases step with
  | none =>
    obtain ⟨first, stored, lowered1, written, rfl⟩ := assign_none lowered
    exact (coded lowered1).append (coded_storeTop written)
  | some op =>
    obtain ⟨get, second, stored, reads, lowered1, written, rfl⟩ := assign_some lowered
    exact ((coded_load reads).append (coded lowered1)).append
      ((coded_arith op depth).append (coded_storeTop written))

mutual

/-- The code of an expression adds one value, by induction on the expression. -/
theorem coded_expr (e : Expr) {items depth} (lowered : expr pools depth e = .ok items)
    : Coded pools e.references depth items (depth + 1) := by
  cases e with
  | literal span v =>
    cases lowered
    exact coded_constant pools depth v
  | read span name symbol =>
    obtain ⟨i, reads, rfl⟩ := load_eq_ok lowered
    exact coded_load reads
  | binary span op left right =>
    cases op with
    | arith op =>
      obtain ⟨first, second, lowered1, lowered2, rfl⟩ := expr_arith lowered
      exact ((coded_expr left lowered1).append (coded_expr right lowered2)).followed
        (coded_arith op depth)
    | and =>
      obtain ⟨first, second, lowered1, lowered2, fits, rfl⟩ := expr_and lowered
      exact .logical false (coded_expr left lowered1) (coded_expr right lowered2) fits
    | or =>
      obtain ⟨first, second, lowered1, lowered2, fits, rfl⟩ := expr_or lowered
      exact .logical true (coded_expr left lowered1) (coded_expr right lowered2) fits
  | unary span op operand =>
    obtain ⟨first, lowered1, rfl⟩ := expr_unary lowered
    have code := coded_expr operand lowered1
    cases op with
    | neg | not => exact code.followed (.plain rfl rfl rfl (Nat.le_add_left 1 depth) rfl)
    | plus =>
      simpa only [Expr.references, unaryInstr?, Option.toList_none, map_nil, append_nil]
        using code
  | assign span target step value symbol => exact coded_assign lowered (coded_expr value ·)
  | update span target decrement before symbol => exact coded_update lowered
  | builtin span name which args =>
    cases lowered
    exact .plain rfl rfl rfl (Nat.zero_le _) rfl
  | call span name args function =>
    obtain ⟨f, code, rfl, lowered1, rfl⟩ := expr_call lowered
    exact (coded_exprs args lowered1).append (.one depth ⟨f, rfl, rfl⟩ rfl rfl)

theorem coded_exprs (es) {items depth} (lowered : exprs pools depth es = .ok items)
    : Coded pools (exprsReferences es) depth items (depth + es.length) := by
  cases es with
  | nil =>
    cases lowered
    exact .nil
  | cons e rest =>
    obtain ⟨first, more, lowered1, lowered2, rfl⟩ := exprs_cons lowered
    have coded := (coded_expr e lowered1).append (coded_exprs rest lowered2)
    rwa [Nat.add_assoc, Nat.add_comm 1] at coded

end

/-- The code of an expression whose value is not needed leaves the stack empty. -/
theorem coded_effect {e} (lowered : effect pools e = .ok items)
    : Coded pools e.references 0 items 0 := by
  have popped {e : Expr}
      (lowered : (do return (← expr pools 0 e) ++ [.instr .pop 1] : Lowered) = .ok items)
      : Coded pools e.references 0 items 0 := by
    obtain ⟨code, lowered1, rfl⟩ := popped_eq_ok lowered
    exact (coded_expr e lowered1).followed (.plain rfl rfl rfl (Nat.le_refl 1) rfl)
  cases e with
  | assign span target step value symbol => exact coded_assign lowered (coded_expr value ·)
  | update span target decrement before symbol => exact coded_update lowered
  | literal | read | binary | unary | builtin | call => exact popped lowered

mutual

/-- The code of a statement starts and ends with an empty stack, by induction on the statement. -/
theorem coded_stmt (s : Stmt) {items} (lowered : stmt pools s = .ok items)
    : Coded pools s.references 0 items 0 := by
  cases s with
  | expr e =>
    obtain ⟨code, lowered1, rfl⟩ := stmt_expr lowered
    exact (coded_effect lowered1).mark
  | block span body =>
    obtain ⟨code, lowered1, rfl⟩ := stmt_block lowered
    exact (coded_stmts body lowered1).mark
  | ifThen span test yes =>
    obtain ⟨first, branch, lowered1, lowered2, fits, rfl⟩ := stmt_ifThen lowered
    exact (Coded.ifThen (coded_expr test lowered1) (coded_stmt yes lowered2) fits).mark
  | ifElse span test yes no =>
    obtain ⟨first, branch, other, lowered1, lowered2, lowered3, fits, fits', rfl⟩ :=
      stmt_ifElse lowered
    exact (Coded.ifElse (coded_expr test lowered1) (coded_stmt yes lowered2) (coded_stmt no lowered3)
      fits fits').mark
  | loop span test body =>
    obtain ⟨first, round, lowered1, lowered2, fits, fits', rfl⟩ := stmt_loop lowered
    exact (Coded.loop (coded_expr test lowered1) (coded_stmt body lowered2) fits fits').mark

theorem coded_stmts (body) {items} (lowered : stmts pools body = .ok items)
    : Coded pools (stmtsReferences body) 0 items 0 := by
  cases body with
  | nil =>
    cases lowered
    exact .nil
  | cons s rest =>
    obtain ⟨first, more, lowered1, lowered2, rfl⟩ := stmts_cons lowered
    exact (coded_stmt s lowered1).append (coded_stmts rest lowered2)

end

end Lower

end MapAlgebra
