import MapAlgebra.Proofs.Code.Landing

/-! Stack discipline of generated code. Wherever a run of a chunk stands, the height of its stack is
the one that was noted there, so it reaches neither below nor above its stack, nor outside of its
code, its tables or the variables.
-/

namespace MapAlgebra

open EStateM
open Machine
open Lower

/-- The operand of an instruction lies in the table it refers to. -/
def Instr.InTables (chunk : Chunk) (vars : Nat) : Instr → Prop
  | .const n => n.toNat < chunk.constants.size
  | .call n _ => n.toNat < chunk.functions.size
  | .loadVar n | .storeVar n => n.toNat < vars
  | _ => True

variable {chunk : Chunk} {i : Instr} {vars : Nat}

/-- An instruction without such an operand has nothing to reach outside of. -/
theorem Instr.inTables_of_plain (plain : i.plain = true) : i.InTables chunk vars := by
  cases i with
  | const n | call n argc | loadVar n | storeVar n => exact nomatch plain
  | _ => trivial

theorem Instr.InTables.mono {vars'} (inTables : i.InTables chunk vars) (more : vars ≤ vars')
    : i.InTables chunk vars' := by
  cases i with
  | loadVar n | storeVar n => exact Nat.lt_of_lt_of_le inTables more
  | _ => exact inTables

/-- The variables that may be read have their slots below a bound. -/
def Names.VarsBelow (names : Names) (bound : Nat) : Prop :=
  ∀ s, names.Reads s → s.role.isImage = false → s.slot < bound

namespace Lower

variable {names : Names} {pools : Pools} {whole : List Item} {room : Nat} {symbol : Option Symbol}

/-- The instruction for a symbol of the table reaches no further than the variables. -/
theorem Addresses.inTables {image var} (addresses : Addresses image var symbol i)
    (below : names.VarsBelow vars) (reads : ∀ s, symbol = some s → names.Reads s)
    (images : ∀ n, (image n).InTables chunk vars)
    (bounded : ∀ n, n.toNat < vars → (var n).InTables chunk vars)
    : i.InTables chunk vars := by
  obtain ⟨s, found, ⟨-, n, -, rfl⟩ | ⟨isVar, n, slot, rfl⟩⟩ := addresses
  · exact images n
  · refine bounded n ?_
    rw [slot]
    exact below s (reads s found) isVar

theorem sends_inTables (made : Assembled names.registry pools whole room chunk)
    (below : names.VarsBelow vars) {r} (provides : pools.Provides r)
    (known : Known names.registry r) (reads : ∀ s, r.symbol? = some s → names.Reads s)
    : Sends True (Instr.InTables chunk vars) pools r := by
  cases r with
  | constant v =>
    exact sends_constant fun long =>
      (Array.getElem?_eq_some_iff.mp (made.constant (provides long))).1
  | load symbol | store symbol =>
    refine ⟨fun _ emits => Or.inr ?_, by rintro _ _ _ ⟨⟩⟩
    exact Addresses.inTables emits below reads (fun _ => trivial) fun _ less => less
  | call function argc =>
    obtain ⟨f, rfl, -, count⟩ := known
    refine ⟨?_, ?_⟩
    · rintro i ⟨g, ⟨⟩, rfl⟩
      exact Or.inr (Array.getElem?_eq_some_iff.mp (made.function provides)).1
    · rintro - g argc ⟨⟩
      rw [← count]
      exact made.addressable.arities f (made.functions ▸ provides)

end Lower

/-- The operation that an instruction asks for crashes: a raster is not there or has too few samples,
or a function reads an argument that it was not given.
-/
def Instr.OperationCrashes (chunk : Chunk) (env : Env) : Instr → Prop
  | .readImage n => ∃ env', (EvalM.readImage n.toNat).run env = .error .crash env'
  | .writeImage n => ∃ v env', (EvalM.writeImage n.toNat v).run env = .error .crash env'
  | .call n argc =>
    ∃ f args env', chunk.functions[n.toNat]? = some f ∧ args.length = argc.toNat
      ∧ (EvalM.call f args).run env = .error .crash env'
  | _ => False

namespace Machine

open EvalM (Touches left)

variable {α β : Type} {crash : Prop} {env : Env} {f : Frame} {depth : Nat} {c : Config}

/-- An evaluation crashes only if something else does. -/
def CrashesOnlyIf (crash : Prop) (m : EvalM α) (env : Env) : Prop :=
  ∀ env', m.run env = .error .crash env' → crash

theorem CrashesOnlyIf.of_ok {m} {a : α} {env'} (found : m.run env = .ok a env')
    : CrashesOnlyIf crash m env := by
  rw [CrashesOnlyIf, found]
  rintro _ ⟨⟩

theorem CrashesOnlyIf.pure (a : α) : CrashesOnlyIf crash (Pure.pure a : EvalM α) env :=
  .of_ok rfl

variable {next : α → EvalM β} {height : Int}

theorem CrashesOnlyIf.bind {m} (first : CrashesOnlyIf crash m env)
    (later : ∀ a env', m.run env = .ok a env' → CrashesOnlyIf crash (next a) env')
    : CrashesOnlyIf crash (m >>= next) env := by
  intro env'' crashed
  rw [run_bind] at crashed
  cases ran : m.run env with
  | ok a env' =>
    rw [ran] at crashed
    exact later a env' ran env'' crashed
  | error stop env' =>
    rw [ran] at crashed
    cases crashed
    exact first _ ran

theorem CrashesOnlyIf.orCrash {a} (found : a.isSome)
    (later : ∀ b, a = some b → CrashesOnlyIf crash (next b) env)
    : CrashesOnlyIf crash (EvalM.orCrash a >>= next) env := by
  obtain ⟨b, rfl⟩ := Option.isSome_iff_exists.mp found
  exact later b rfl

theorem CrashesOnlyIf.peek {next : Sample → EvalM β} (low : 0 ≤ height)
    (high : height < env.stack.size) (later : ∀ v, CrashesOnlyIf crash (next v) env)
    : CrashesOnlyIf crash (Machine.peek height >>= next) env := by
  have inside : height.toNat < env.stack.size := by omega
  have found : (Machine.peek height).run env = .ok (env.stack[height.toNat]) env := by
    simp [Machine.peek, low, EvalM.orCrash, Array.getElem?_eq_getElem inside]
  refine .bind (.of_ok found) fun v env' ran => ?_
  cases found.symm.trans ran
  exact later _

theorem CrashesOnlyIf.window {low high : Int} {next : List Sample → EvalM β}
    (inside : 0 ≤ low ∧ low ≤ high ∧ high ≤ env.stack.size)
    (later : ∀ args : List Sample, args.length = (high - low).toNat → CrashesOnlyIf crash (next args) env)
    : CrashesOnlyIf crash (Machine.window low high >>= next) env := by
  have found : (Machine.window low high).run env
      = .ok (env.stack.extract low.toNat high.toNat).toList env := by
    simp [Machine.window, inside]
  refine .bind (.of_ok found) fun args env' ran => ?_
  cases found.symm.trans ran
  exact later _ (by simp; omega)

theorem CrashesOnlyIf.poke {next : Unit → EvalM β} (v) (low : 0 ≤ height)
    (high : height < env.stack.size) (later : ∀ env', CrashesOnlyIf crash (next ()) env')
    : CrashesOnlyIf crash (Machine.poke height v >>= next) env := by
  refine .bind (fun env' => ?_) fun _ env' _ => later env'
  simp only [Machine.poke, run_bind, run_get]
  rw [if_pos ⟨low, by omega⟩]
  rintro ⟨⟩

theorem CrashesOnlyIf.push {kept : Nat → Prop} {m} (first : CrashesOnlyIf crash m env)
    (touches : Touches kept m) (low : 0 ≤ f.sp) (high : f.sp < env.stack.size)
    : CrashesOnlyIf crash (do let v ← m; return some (← push f v)) env := by
  refine first.bind fun v env' ran => ?_
  have size := (touches env).stack
  rw [ran] at size
  refine .bind (.poke v low ?_ fun _ => .pure _) fun _ _ _ => .pure _
  rw [← size] at high
  exact high

theorem CrashesOnlyIf.replaceTop (change : Sample → Sample) (low : 1 ≤ f.sp) (high : f.sp ≤ env.stack.size)
    : CrashesOnlyIf crash (do return some (← replaceTop f change)) env := by
  refine .bind (.peek (by omega) (by omega) fun v => ?_) fun _ _ _ => .pure _
  exact .poke _ (by omega) (by omega) fun _ => .pure _

/-- With the values it takes and the room it needs an instruction crashes only if its operation does, by
cases on the instruction.
-/
theorem crashesOnlyIf_step (sp : f.sp = depth) (below : depth ≤ env.stack.size)
    (enough : i.pops ≤ depth) (room : depth - i.pops + i.pushes ≤ env.stack.size)
    (inTables : i.InTables chunk env.vars.size)
    : CrashesOnlyIf (i.OperationCrashes chunk env) (step chunk f i) env := by
  -- What gives the value to push must keep the size of the stack, or its room would be unknown.
  have reads {m : EvalM Sample} (unchanged : ∀ env, left (m.run env) = env)
      : Touches (fun _ => False) m := .of_left unchanged
  cases i with
  | nop | pop | jump d | finish => exact .pure _
  | dup =>
    have taken : 1 ≤ depth := enough
    have more : depth - 1 + 2 ≤ env.stack.size := room
    exact .peek (by omega) (by omega) fun v =>
      .push (.pure v) (.pure v : Touches (fun _ => False) _) (by omega) (by omega)
  | constZero | constOne =>
    have more : depth + 1 ≤ env.stack.size := room
    exact .push (.pure _) (.pure _ : Touches (fun _ => False) _) (by omega) (by omega)
  | const n =>
    have more : depth + 1 ≤ env.stack.size := room
    have size : n.toNat < chunk.constants.size := inTables
    refine .push (fun _ crashed => ?_) (.orCrash _ : Touches (fun _ => False) _) (by omega) (by omega)
    rw [EvalM.run_orCrash, Array.getElem?_eq_getElem size] at crashed
    cases crashed
  | loadVar n =>
    have more : depth + 1 ≤ env.stack.size := room
    have size : n.toNat < env.vars.size := inTables
    refine .push (fun _ crashed => ?_) (reads (EvalM.left_readVar _)) (by omega) (by omega)
    rw [EvalM.run_readVar, Array.getElem?_eq_getElem size] at crashed
    cases crashed
  | readImage n =>
    have more : depth + 1 ≤ env.stack.size := room
    exact .push (fun env' crashed => ⟨env', crashed⟩) (reads (EvalM.left_readImage _)) (by omega)
      (by omega)
  | builtin which =>
    have more : depth + 1 ≤ env.stack.size := room
    refine .push (fun _ crashed => ?_) (reads (EvalM.left_builtin _)) (by omega) (by omega)
    cases which <;> cases crashed
  | storeVar n =>
    have taken : 1 ≤ depth := enough
    have size : n.toNat < env.vars.size := inTables
    refine .peek (by omega) (by omega) fun v => .bind (fun _ crashed => ?_) fun _ _ _ => .pure _
    rw [EvalM.run_writeVar, if_pos size] at crashed
    cases crashed
  | writeImage n =>
    have taken : 1 ≤ depth := enough
    exact .peek (by omega) (by omega) fun v =>
      .bind (fun env' crashed => ⟨v, env', crashed⟩) fun _ _ _ => .pure _
  | arith op =>
    have taken : 2 ≤ depth := enough
    exact .peek (by omega) (by omega) fun b =>
      .replaceTop _ (show 1 ≤ f.sp - 1 by omega) (show f.sp - 1 ≤ env.stack.size by omega)
  | neg | not | truthy =>
    have taken : 1 ≤ depth := enough
    exact .replaceTop _ (by omega) (by omega)
  | jumpTrue d | jumpFalse d =>
    have taken : 1 ≤ depth := enough
    exact .bind (.peek (by omega) (by omega) fun v => .pure _) fun _ _ _ => .pure _
  | loop d =>
    refine .bind (fun env' crashed => ?_) fun _ _ _ => .pure _
    rw [EvalM.run_tick] at crashed
    split at crashed <;> cases crashed
  | call n argc =>
    have taken : argc.toNat ≤ depth := enough
    have more : depth - argc.toNat + 1 ≤ env.stack.size := room
    have size : n.toNat < chunk.functions.size := inTables
    refine .orCrash (by rw [Array.getElem?_eq_getElem size]; rfl) fun function known => ?_
    refine .window (by omega) fun args length => ?_
    refine .push (fun env' crashed => ?_) (.call function args : Touches (fun _ => False) _)
      (show 0 ≤ f.sp - argc.toNat by omega) (show f.sp - argc.toNat < env.stack.size by omega)
    exact ⟨function, args, env', known, by omega, crashed⟩

/-- What holds wherever a run of a chunk stands, in front of an instruction with a height that was
noted for it.
-/
structure Disciplined (chunk : Chunk) (whole : List Item) (locals : Nat) (start : Env)
    (c : Config) (i : Instr) (depth : Nat) : Prop where
  /-- The instruction lies within the code. -/
  ahead : 0 ≤ c.frame.ip
  code : c.frame.ip + i.length ≤ chunk.code.size
  decoded : Instr.decodeAt chunk.code c.frame.ip.toNat = some (.instr i)
  /-- The height of the stack is the noted one. -/
  noted : noted? whole c.frame.ip.toNat = some (i, depth)
  height : c.frame.sp = depth
  notAbove : c.frame.sp ≤ chunk.maxStack
  /-- The stack is empty where a statement starts and where the run ends. -/
  statement : ∀ p rest, Placed whole c.frame.ip.toNat (.mark p :: rest) → c.frame.sp = 0
  last : i = .finish → c.frame.sp = 0
  /-- The places that the instruction takes values from and puts values into are on the stack. -/
  taken : 0 ≤ c.frame.sp - i.pops
  stack : chunk.maxStack ≤ c.env.stack.size
  put : c.frame.sp - i.pops + i.pushes ≤ chunk.maxStack
  /-- The operand lies in its table. -/
  operand : i.InTables chunk locals
  vars : c.env.vars.size = start.vars.size
  /-- Nothing that the machine reaches for is missing. -/
  crash : ∀ env, locals ≤ start.vars.size → (round chunk c.frame).run c.env = .error .crash env
    → i.OperationCrashes chunk c.env

theorem Stands.disciplined {whole locals start} (stands : Stands True whole c.frame i depth)
    (laid : Laid True (Instr.InTables chunk locals) whole chunk)
    (deepest : chunk.maxStack = maxDepth whole) (stack : chunk.maxStack ≤ c.env.stack.size)
    (vars : c.env.vars.size = start.vars.size)
    : Disciplined chunk whole locals start c i depth := by
  have steady := laid.all.steady stands.noted
  have sp := stands.height trivial
  have ahead := stands.ahead
  have below := (Enters.of_noted stands.noted).le_maxDepth
  have put := steady.heightAfter_le_maxDepth stands.noted
  have enough := steady.enough
  have inTables := steady.operand.elim Instr.inTables_of_plain id
  rw [Instr.heightAfter] at put
  exact {
    ahead
    code := by
      obtain ⟨rest, placed⟩ := placed_of_noted stands.noted
      have within := placed.afterInstr.le_size
      rw [laid.code, List.size_toArray, length_flatMap_encode]
      omega
    decoded := stands.decoded laid
    noted := stands.noted
    height := sp
    notAbove := by omega
    statement := fun p rest mark => by
      obtain ⟨after, steady⟩ := laid.all.placed mark
      obtain ⟨j, noted⟩ := Enters.noted steady.1
      cases stands.noted.symm.trans noted
      exact sp
    last := fun finish => by rw [sp, steady.last finish]; rfl
    taken := by omega
    stack
    put := by omega
    operand := inTables
    vars
    crash := fun env few crashed => by
      rw [stands.round_eq laid] at crashed
      refine crashesOnlyIf_step ?_ (by omega) enough (by omega) (inTables.mono (by omega)) env crashed
      exact sp }

/-- A run keeps the sizes of the stack and of the variables, by induction on the rounds. -/
theorem Steps.touched {n d} (steps : Steps chunk n c d) : c.env.Touched (fun _ => False) d.env := by
  induction steps with
  | refl c => exact .refl _
  | @head n c f env d first _ ih =>
    have touches : Touches (fun _ => False) (round chunk c.frame) := touches_round fun _ _ _ _ => id
    have here := touches c.env
    rw [first] at here
    exact here.trans ih


/-- Every run of the chunk of some statements, from whatever state and with whatever stack is left over
there, is disciplined wherever it stands. With all variables there, it crashes only where an operation
does.
-/
def KeepsDiscipline (table : SymbolTable) (body : List Stmt) (chunk : Chunk) : Prop :=
  ∃ items, stmts (bodyPools body) body = .ok items
    ∧ (∀ env n c, Steps chunk n (entry chunk env) c
      → ∃ i depth,
        Disciplined chunk (items ++ [.instr .finish 0]) table.locals.size env c i depth)
    ∧ ∀ env fuel env', table.locals.size ≤ env.vars.size
      → (run chunk fuel).run env = .error .crash env'
      → ∃ n c i, Steps chunk n (entry chunk env) c
        ∧ Instr.decodeAt chunk.code c.frame.ip.toNat = some (.instr i)
        ∧ i.OperationCrashes chunk c.env

/-- A run that crashes does so in its last round. -/
theorem exists_steps_of_crash {fuel env'} (crashed : (run chunk fuel).run env = .error .crash env')
    : ∃ n c, Steps chunk n (entry chunk env) c
      ∧ (round chunk c.frame).run c.env = .error .crash env' := by
  rw [run_run] at crashed
  rcases runFrom_cases chunk fuel (entry chunk env) with ⟨n, d, -, steps, ends⟩ | ⟨d, -, unfinished⟩
  · rw [crashed] at ends
    cases ends with
    | stopped last => exact ⟨n, d, steps, last⟩
  · exact nomatch crashed.symm.trans unfinished

/-- The chunk of resolved statements keeps discipline: its code is steady, and a run of steady code
that starts at a noted height goes on so.
-/
theorem keepsDiscipline_chunk {names name table body}
    (lowered : Lower.chunk name table body = .ok chunk)
    (resolved : ∀ n ∈ stmtsNodes body, n.Resolved names) (addressable : chunk.Addressable)
    (below : names.VarsBelow table.locals.size)
    : KeepsDiscipline table body chunk := by
  obtain ⟨items, found, deepest, assembled, provided⟩ :=
    Lower.assembled_chunk lowered resolved addressable
  have made := assembled _ (Int.le_of_eq deepest)
  have reads : ∀ r ∈ stmtsReferences body, ∀ s, r.symbol? = some s → names.Reads s :=
    Lower.forall_stmts_references body fun n member r refers s stands =>
      (resolved n member).reads (Expr.symbol?_of_ownReferences refers stands)
  obtain ⟨all, start⟩ := Lower.steady_code (fun r member =>
    Lower.sends_inTables made below (provided r member) (Lower.known_stmts body resolved r member)
      (reads r member)) found
  have laid := Lower.Laid.mk made.code all start
  have disciplined (env : Env) (n : Nat) (c : Config) (steps : Steps chunk n (entry chunk env) c)
      : ∃ i depth,
        Disciplined chunk (items ++ [.instr .finish 0]) table.locals.size env c i depth := by
    have touched := steps.touched
    have high : chunk.maxStack ≤ c.env.stack.size :=
      touched.stack ▸ le_size_reserved chunk.maxStack env
    obtain ⟨i, depth, stands⟩ := StandsIn.steps laid steps (.start laid)
    exact ⟨i, depth, stands.disciplined laid deepest high touched.count⟩
  refine ⟨items, found, disciplined, fun env fuel env' enough crashed => ?_⟩
  obtain ⟨n, c, steps, last⟩ := exists_steps_of_crash crashed
  obtain ⟨i, depth, here⟩ := disciplined env n c steps
  exact ⟨n, c, i, steps, here.decoded, here.crash env' enough last⟩

end Machine

theorem Names.varsBelow {names : Names} (dense : Dense names.locals)
    (images : ∀ s ∈ names.images, s.role.isImage = true)
    : names.VarsBelow names.locals.size := by
  rintro s (isLocal | ⟨-, isImage⟩) isVar
  · obtain ⟨slot, inside, rfl⟩ := Array.mem_iff_getElem.mp isLocal
    rw [(dense slot _ (Array.getElem?_eq_getElem inside)).1]
    exact inside
  · rw [images s isImage] at isVar
    exact nomatch isVar

/-- The chunks of an accepted script keep discipline: in every run the stack has the height that was noted,
and no instruction reaches outside of the stack, the code or a table.
-/
theorem lower_keepsDiscipline {bindings : Bindings} {registry : Registry} {program : Program}
    {code : ScriptCode} (valid : bindings.error? = none)
    (accepted : (resolve bindings registry program).problems.hasErrors = false)
    (lowered : lower (resolve bindings registry program).program
      (resolve bindings registry program).table = .ok code)
    (addressable : ∀ chunk ∈ code.chunks, chunk.Addressable)
    : Option.Rel (fun block => KeepsDiscipline (resolve bindings registry program).table
          block.body)
        (resolve bindings registry program).program.init code.init
      ∧ KeepsDiscipline (resolve bindings registry program).table
          (resolve bindings registry program).program.body code.body := by
  obtain ⟨resolved, dense⟩ := resolve_allResolved registry valid accepted
  apply lower_forall_chunks (KeepsDiscipline _) resolved lowered addressable
  intro inInit name body chunk lowered resolved addressable
  exact keepsDiscipline_chunk lowered resolved addressable
    (Names.varsBelow dense (Scope.isImage_imageSymbols valid))

theorem lower_keepsDiscipline_halving
    : halving.bindings.error? = none ∧ halving.resolution.problems.hasErrors = false
      ∧ ∃ code, lower halving.resolution.program halving.resolution.table = .ok code
        ∧ (∀ chunk ∈ code.chunks, chunk.Addressable)
        ∧ Option.Rel (fun block => KeepsDiscipline halving.resolution.table block.body)
          halving.resolution.program.init code.init
        ∧ KeepsDiscipline halving.resolution.table halving.resolution.program.body
          code.body := by
  refine ⟨halving.valid, halving.accepted, _, rfl, by decide +kernel, ?_⟩
  exact lower_keepsDiscipline halving.valid halving.accepted rfl (by decide +kernel)

end MapAlgebra
