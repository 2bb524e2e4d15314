import MapAlgebra.Code.Lower

/-! What code is made of. Lowering a tree succeeds only when lowering its parts does, and each rule
says which items the code of the tree then has.
-/

namespace MapAlgebra.Lower

variable {pools : Pools} {depth bytes : Nat} {items : List Item} {span : Span}
  {symbol : Option Symbol}

theorem bind_eq_ok {ε α β : Type} {m} {next : α → Except ε β} {b}
    : m >>= next = .ok b ↔ ∃ a, m = .ok a ∧ next a = .ok b := by
  cases m with
  | error e => simp [bind, Except.bind]
  | ok a => simp [bind, Except.bind]

theorem pure_eq_ok {ε α : Type} {a b} : (pure a : Except ε α) = .ok b ↔ b = a := by
  simp [pure, Except.pure, eq_comm]

/-- The instruction for a symbol: its operand is the slot of an image or of a variable. -/
def Addresses (image : UInt8 → Instr) (var : UInt16 → Instr) (symbol : Option Symbol) (i : Instr)
    : Prop :=
  ∃ s, symbol = some s
    ∧ ((s.role.isImage = true ∧ ∃ n : UInt8, n.toNat = s.slot ∧ i = image n)
      ∨ (s.role.isImage = false ∧ ∃ n : UInt16, n.toNat = s.slot ∧ i = var n))

theorem toNat_of_imageOperand {s n} (operand : imageOperand s = .ok n) : n.toNat = s.slot := by
  unfold imageOperand at operand
  split at operand
  · exact nomatch operand
  · cases operand
    simp only [Nat.toUInt8_eq, UInt8.toNat_ofNat']
    omega

theorem toNat_of_varOperand {s n} (operand : varOperand s = .ok n) : n.toNat = s.slot := by
  unfold varOperand at operand
  split at operand
  · exact nomatch operand
  · cases operand
    simp only [Nat.toUInt16_eq, UInt16.toNat_ofNat']
    omega

/-- Using what a symbol stands for takes one instruction, by cases on what it stands for. -/
theorem addresses_of_eq_ok {image} {var : UInt16 → Instr}
    (lowered :
      (match symbol with
        | none => .error .unresolvedSymbol
        | some s =>
          if s.role.isImage then do
            return [.instr (image (← imageOperand s)) depth]
          else do
            return [.instr (var (← varOperand s)) depth] : Lowered)
      = .ok items)
    : ∃ i, Addresses image var symbol i ∧ items = [.instr i depth] := by
  split at lowered
  · exact nomatch lowered
  · rename_i s
    split at lowered
    · rename_i isImage
      simp only [bind_eq_ok, pure_eq_ok] at lowered
      obtain ⟨n, operand, rfl⟩ := lowered
      exact ⟨_, ⟨s, rfl, Or.inl ⟨isImage, n, toNat_of_imageOperand operand, rfl⟩⟩, rfl⟩
    · rename_i notImage
      simp only [bind_eq_ok, pure_eq_ok] at lowered
      obtain ⟨n, operand, rfl⟩ := lowered
      have isVar : s.role.isImage = false := by simpa using notImage
      exact ⟨_, ⟨s, rfl, Or.inr ⟨isVar, n, toNat_of_varOperand operand, rfl⟩⟩, rfl⟩

theorem load_eq_ok (lowered : load depth symbol = .ok items)
    : ∃ i, Addresses .readImage .loadVar symbol i ∧ items = [.instr i depth] :=
  addresses_of_eq_ok lowered

theorem store_eq_ok (lowered : store depth symbol = .ok items)
    : ∃ i, Addresses .writeImage .storeVar symbol i ∧ items = [.instr i depth] :=
  addresses_of_eq_ok lowered

/-- A constant is pushed by an instruction of its own, or from the pool. -/
theorem constant_cases (pools : Pools) (depth : Nat) (v : Sample)
    : v = .zero ∧ constant pools depth v = .instr .constZero depth
      ∨ v = .one ∧ constant pools depth v = .instr .constOne depth
      ∨ Chunk.shortConstant? v = none ∧ constant pools depth v
          = .instr (.const (Chunk.constantIndex pools.constants v).toUInt16) depth := by
  unfold constant Chunk.shortConstant?
  by_cases zero : v = .zero
  · exact Or.inl ⟨zero, by simp [zero]⟩
  · by_cases one : v = .one
    · exact Or.inr (Or.inl ⟨one, by simp [one, Sample.one, Sample.zero]⟩)
    · exact Or.inr (Or.inr ⟨by simp [zero, one], by simp [zero, one]⟩)

/-- Storing the value on top takes one instruction, and one more to keep it. -/
theorem storeTop_eq_ok {keep} (lowered : storeTop depth keep symbol = .ok items)
    : ∃ i, Addresses .writeImage .storeVar symbol i
      ∧ items = if keep then [.instr .dup (depth + 1), .instr i (depth + 2)]
          else [.instr i (depth + 1)] := by
  unfold storeTop at lowered
  split at lowered
  · simp only [bind_eq_ok, pure_eq_ok] at lowered
    obtain ⟨stored, found, rfl⟩ := lowered
    obtain ⟨i, addresses, rfl⟩ := store_eq_ok found
    exact ⟨i, addresses, by simp [*]⟩
  · obtain ⟨i, addresses, rfl⟩ := store_eq_ok lowered
    exact ⟨i, addresses, by simp [*]⟩

theorem jumpOver_eq_ok {jump} (lowered : jumpOver jump depth bytes = .ok items)
    : fitsDistance bytes ∧ items = [.instr (jump bytes) depth] := by
  unfold jumpOver at lowered
  split at lowered
  · rename_i fits
    cases lowered
    exact ⟨fits, rfl⟩
  · exact nomatch lowered

theorem back_eq_ok (lowered : back bytes = .ok items)
    : fitsDistance (-bytes) ∧ items = [.instr (.loop (-bytes)) 0] := by
  unfold back at lowered
  split at lowered
  · rename_i fits
    cases lowered
    exact ⟨fits, rfl⟩
  · exact nomatch lowered

/-- An update reads, adds or subtracts one and writes. The old value is copied before if it is
needed, else the new one may be copied after.
-/
theorem update_eq_ok {keep decrement before}
    (lowered : update depth keep decrement before symbol = .ok items)
    : ∃ get, Addresses .readImage .loadVar symbol get
      ∧ ((keep = true ∧ before = false ∧ ∃ set, Addresses .writeImage .storeVar symbol set
          ∧ items = [.instr get depth, .instr .dup (depth + 1), .instr .constOne (depth + 2),
            .instr (.arith (if decrement then .sub else .add)) (depth + 3),
            .instr set (depth + 2)])
        ∨ ((keep = true → before = true) ∧ ∃ stored, storeTop depth keep symbol = .ok stored
          ∧ items = .instr get depth :: .instr .constOne (depth + 1)
            :: .instr (.arith (if decrement then .sub else .add)) (depth + 2) :: stored)) := by
  simp only [update, bind_eq_ok] at lowered
  obtain ⟨old, read, lowered⟩ := lowered
  obtain ⟨get, reads, rfl⟩ := load_eq_ok read
  refine ⟨get, reads, ?_⟩
  split at lowered
  · rename_i kept
    have kept : keep = true ∧ before = false := by simpa using kept
    simp only [bind_eq_ok, pure_eq_ok] at lowered
    obtain ⟨stored, written, rfl⟩ := lowered
    obtain ⟨set, writes, rfl⟩ := store_eq_ok written
    exact Or.inl ⟨kept.1, kept.2, set, writes, rfl⟩
  · rename_i notKept
    simp only [bind_eq_ok, pure_eq_ok] at lowered
    obtain ⟨stored, written, rfl⟩ := lowered
    exact Or.inr ⟨by simpa using notKept, stored, written, rfl⟩

variable {left right value operand : Expr}

theorem expr_arith {op}
    (lowered : expr pools depth (.binary span (.arith op) left right) = .ok items)
    : ∃ first second, expr pools depth left = .ok first
      ∧ expr pools (depth + 1) right = .ok second
      ∧ items = first ++ second ++ [.instr (.arith op) (depth + 2)] := by
  simpa only [expr, bind_eq_ok, pure_eq_ok, exists_and_left] using lowered

/-- The jump over the second operand of a logical operator, which the truth of the first decides. -/
def decidingJump (truth : Bool) (distance : Int) : Instr :=
  if truth then .jumpTrue distance else .jumpFalse distance

/-- The instruction that pushes what a first operand with a truth decides. -/
def decided (truth : Bool) : Instr :=
  if truth then .constOne else .constZero

/-- The code of a logical operator. Both operands start at its height, and the second is jumped over
when the first decides.
-/
def CodesLogical (pools : Pools) (depth : Nat) (truth : Bool) (left right : Expr)
    (items : List Item) : Prop :=
  ∃ first second, expr pools depth left = .ok first ∧ expr pools depth right = .ok second
    ∧ fitsDistance (size second + 4 : Nat)
    ∧ items = first ++ [.instr (decidingJump truth (size second + 4 : Nat)) (depth + 1)]
      ++ second
      ++ [.instr .truthy (depth + 1), .instr (.jump 1) (depth + 1), .instr (decided truth) depth]

theorem codesLogical_of_shortCircuit {truth} {first second : List Item}
    (lowered1 : expr pools depth left = .ok first) (lowered2 : expr pools depth right = .ok second)
    (short : shortCircuit depth (decidingJump truth) (decided truth) first second = .ok items)
    : CodesLogical pools depth truth left right items := by
  simp only [shortCircuit, bind_eq_ok, pure_eq_ok] at short
  obtain ⟨jump, found, rfl⟩ := short
  obtain ⟨fits, rfl⟩ := jumpOver_eq_ok found
  exact ⟨first, second, lowered1, lowered2, fits, rfl⟩

theorem expr_and (lowered : expr pools depth (.binary span .and left right) = .ok items)
    : CodesLogical pools depth false left right items := by
  simp only [expr, bind_eq_ok] at lowered
  obtain ⟨first, lowered1, second, lowered2, short⟩ := lowered
  exact codesLogical_of_shortCircuit lowered1 lowered2 short

theorem expr_or (lowered : expr pools depth (.binary span .or left right) = .ok items)
    : CodesLogical pools depth true left right items := by
  simp only [expr, bind_eq_ok] at lowered
  obtain ⟨first, lowered1, second, lowered2, short⟩ := lowered
  exact codesLogical_of_shortCircuit lowered1 lowered2 short

/-- The instruction of a unary operator, if it has one. -/
def unaryInstr? : UnaryOp → Option Instr
  | .neg => some .neg
  | .not => some .not
  | .plus => none

theorem expr_unary {op} (lowered : expr pools depth (.unary span op operand) = .ok items)
    : ∃ first, expr pools depth operand = .ok first
      ∧ items = first ++ (unaryInstr? op).toList.map (.instr · (depth + 1)) := by
  simp only [expr, bind_eq_ok] at lowered
  obtain ⟨first, found, lowered⟩ := lowered
  refine ⟨first, found, ?_⟩
  cases op with
  | neg => exact pure_eq_ok.mp lowered
  | not => exact pure_eq_ok.mp lowered
  | plus => simpa [unaryInstr?] using pure_eq_ok.mp lowered

theorem assign_none {keep} {value : Nat → Lowered}
    (lowered : assign depth keep symbol value none = .ok items)
    : ∃ first stored, value depth = .ok first ∧ storeTop depth keep symbol = .ok stored
      ∧ items = first ++ stored := by
  simpa only [assign, bind_eq_ok, pure_eq_ok, exists_and_left] using lowered

theorem assign_some {keep op} {value : Nat → Lowered}
    (lowered : assign depth keep symbol value (some op) = .ok items)
    : ∃ get second stored, Addresses .readImage .loadVar symbol get
      ∧ value (depth + 1) = .ok second ∧ storeTop depth keep symbol = .ok stored
      ∧ items = .instr get depth :: second ++ .instr (.arith op) (depth + 2) :: stored := by
  simp only [assign, bind_eq_ok, pure_eq_ok] at lowered
  obtain ⟨old, read, second, found, stored, written, rfl⟩ := lowered
  obtain ⟨get, reads, rfl⟩ := load_eq_ok read
  exact ⟨get, second, stored, reads, found, written, rfl⟩

theorem expr_call {name} {args : List Expr} {function}
    (lowered : expr pools depth (.call span name args function) = .ok items)
    : ∃ f code, function = some f ∧ exprs pools depth args = .ok code
      ∧ items = code ++ [.instr (.call (Chunk.functionIndex pools.functions f).toUInt16
          args.length.toUInt8) (depth + args.length)] := by
  unfold expr at lowered
  cases function with
  | none => exact nomatch lowered
  | some f =>
    simp only [bind_eq_ok, pure_eq_ok] at lowered
    obtain ⟨code, found, rfl⟩ := lowered
    exact ⟨f, code, rfl, found, rfl⟩

theorem exprs_cons {e} {rest : List Expr} (lowered : exprs pools depth (e :: rest) = .ok items)
    : ∃ first more, expr pools depth e = .ok first ∧ exprs pools (depth + 1) rest = .ok more
      ∧ items = first ++ more := by
  simpa only [exprs, bind_eq_ok, pure_eq_ok, exists_and_left] using lowered

theorem popped_eq_ok {e}
    (lowered : (do return (← expr pools 0 e) ++ [.instr .pop 1] : Lowered) = .ok items)
    : ∃ code, expr pools 0 e = .ok code ∧ items = code ++ [.instr .pop 1] := by
  simpa only [bind_eq_ok, pure_eq_ok] using lowered

variable {test e : Expr} {yes no body s : Stmt} {rest block : List Stmt}

theorem stmt_expr (lowered : stmt pools (.expr e) = .ok items)
    : ∃ code, effect pools e = .ok code ∧ items = .mark e.span.start :: code := by
  simpa only [stmt, bind_eq_ok, pure_eq_ok] using lowered

theorem stmt_block (lowered : stmt pools (.block span block) = .ok items)
    : ∃ code, stmts pools block = .ok code ∧ items = .mark span.start :: code := by
  simpa only [stmt, bind_eq_ok, pure_eq_ok] using lowered

theorem stmt_ifThen (lowered : stmt pools (.ifThen span test yes) = .ok items)
    : ∃ first branch, expr pools 0 test = .ok first ∧ stmt pools yes = .ok branch
      ∧ fitsDistance (size branch)
      ∧ items = .mark span.start :: first ++ [.instr (.jumpFalse (size branch)) 1] ++ branch := by
  simp only [stmt, bind_eq_ok, pure_eq_ok] at lowered
  obtain ⟨first, test, branch, yes, skip, found, rfl⟩ := lowered
  obtain ⟨fits, rfl⟩ := jumpOver_eq_ok found
  exact ⟨first, branch, test, yes, fits, rfl⟩

theorem stmt_ifElse (lowered : stmt pools (.ifElse span test yes no) = .ok items)
    : ∃ first branch other, expr pools 0 test = .ok first ∧ stmt pools yes = .ok branch
      ∧ stmt pools no = .ok other ∧ fitsDistance (size branch + 3 : Nat)
      ∧ fitsDistance (size other)
      ∧ items = .mark span.start :: first ++ [.instr (.jumpFalse (size branch + 3 : Nat)) 1]
        ++ branch ++ [.instr (.jump (size other)) 0] ++ other := by
  simp only [stmt, bind_eq_ok, pure_eq_ok] at lowered
  obtain ⟨first, test, branch, yes, skip, found, other, no, leave, found', rfl⟩ := lowered
  obtain ⟨fits, rfl⟩ := jumpOver_eq_ok found
  obtain ⟨fits', rfl⟩ := jumpOver_eq_ok found'
  exact ⟨first, branch, other, test, yes, no, fits, fits', rfl⟩

theorem stmt_loop (lowered : stmt pools (.loop span test body) = .ok items)
    : ∃ first round, expr pools 0 test = .ok first ∧ stmt pools body = .ok round
      ∧ fitsDistance (size round + 3 : Nat)
      ∧ fitsDistance (-(size first + size round + 6 : Nat))
      ∧ items = .mark span.start :: first ++ [.instr (.jumpFalse (size round + 3 : Nat)) 1]
        ++ round ++ [.instr (.loop (-(size first + size round + 6 : Nat))) 0] := by
  simp only [stmt, bind_eq_ok, pure_eq_ok] at lowered
  obtain ⟨first, test, round, body, again, found, skip, found', rfl⟩ := lowered
  obtain ⟨fits, rfl⟩ := back_eq_ok found
  obtain ⟨fits', rfl⟩ := jumpOver_eq_ok found'
  exact ⟨first, round, test, body, fits', fits, rfl⟩

theorem stmts_cons (lowered : stmts pools (s :: rest) = .ok items)
    : ∃ first more, stmt pools s = .ok first ∧ stmts pools rest = .ok more
      ∧ items = first ++ more := by
  simpa only [stmts, bind_eq_ok, pure_eq_ok, exists_and_left] using lowered

end MapAlgebra.Lower
