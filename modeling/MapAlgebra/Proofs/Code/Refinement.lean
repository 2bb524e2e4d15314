import MapAlgebra.Proofs.Code.Statements
import MapAlgebra.Scene

/-! Lowering keeps the meaning of a script. The chunk of some statements and the statements themselves
come to the same end in every state, or neither comes to one.
-/

namespace MapAlgebra

namespace Lower

variable {body : List Stmt} {chunk : Chunk} {name : String} {table : SymbolTable} {depth : Nat}
  {items : List Item}

/-- A chunk holds the code of its statements, with an instruction behind it that ends the run. -/
theorem chunk_eq_ok (lowered : Lower.chunk name table body = .ok chunk)
    : ∃ items, stmts (bodyPools body) body = .ok items
      ∧ chunk.code = ((items ++ [Item.instr .finish 0]).flatMap Item.encode).toArray
      ∧ chunk.constants = (bodyPools body).constants
      ∧ chunk.functions = (bodyPools body).functions
      ∧ chunk.maxStack = maxDepth (items ++ [.instr .finish 0]) := by
  simp only [Lower.chunk, bind_eq_ok, pure_eq_ok] at lowered
  obtain ⟨items, lowered, rfl⟩ := lowered
  exact ⟨items, lowered, rfl, rfl, rfl, rfl⟩

/-- The greatest height counts the one it starts from and those of all instructions, by induction on
the items.
-/
theorem le_maxDepthFrom {start} (below : depth ≤ start ∨ ∃ i, .instr i depth ∈ items)
    : depth ≤ items.foldl (fun depth item =>
        match item with
        | .instr _ d => max depth d
        | .mark _ => depth) start := by
  induction items generalizing start with
  | nil => simpa using below
  | cons item items ih =>
    apply ih
    rcases below with below | ⟨i, member⟩
    · left
      cases item with
      | instr j d => exact Nat.le_trans below (Nat.le_max_left start d)
      | mark p => exact below
    · rcases List.mem_cons.mp member with rfl | later
      · exact Or.inl (Nat.le_max_right start depth)
      · exact Or.inr ⟨i, later⟩

theorem le_maxDepth {i} (member : .instr i depth ∈ items) : depth ≤ maxDepth items :=
  le_maxDepthFrom (Or.inr ⟨i, member⟩)

/-- The chunk of resolved statements is put together from their code and pools, for every stack that
is as high as the chunk says.
-/
theorem assembled_chunk {names} (lowered : Lower.chunk name table body = .ok chunk)
    (resolved : ∀ n ∈ stmtsNodes body, n.Resolved names) (addressable : chunk.Addressable)
    : ∃ items, stmts (bodyPools body) body = .ok items
      ∧ chunk.maxStack = maxDepth (items ++ [.instr .finish 0])
      ∧ (∀ room : Nat, chunk.maxStack ≤ room
        → Assembled names.registry (bodyPools body) (items ++ [.instr .finish 0]) room chunk)
      ∧ ∀ r ∈ stmtsReferences body, (bodyPools body).Provides r := by
  obtain ⟨items, found, code, constants, functions, maxStack⟩ := chunk_eq_ok lowered
  have collects := collects_bodyPools resolved
  refine ⟨items, found, maxStack, fun room high => ?_, collects.provides⟩
  refine { code, constants, functions, addressable, registered := collects.registered, deep := ?_ }
  intro i depth member
  have below := le_maxDepth member
  omega

end Lower

/-- How a run ended and what it left, apart from the operand stack; nothing if it is not
finished.
-/
def outcome? : EStateM.Result Stop Env Unit → Option (Except Stop Unit × Env)
  | .ok () env => some (.ok (), env.withStack #[])
  | .error .unfinished _ => none
  | .error stop env => some (.error stop, env.withStack #[])

variable {body : List Stmt} {name : String} {names : Names} {table : SymbolTable}
  {code : ScriptCode} {program : Program}

theorem outcome?_restack (stack) (result : EStateM.Result Stop Env Unit)
    : outcome? (EvalM.restack stack result) = outcome? result := by
  cases result with
  | ok _ env => rfl
  | error stop env => cases stop <;> rfl

/-- With enough fuel code comes to an end from a state. -/
def Code.EndsWith (code : Code) (env : Env) (outcome : Except Stop Unit × Env) : Prop :=
  ∃ fuel, outcome? ((code.run fuel).run env) = some outcome

/-- Two codes come to the same end from every state, or neither comes to one. The end does not
depend on the fuel.
-/
structure Code.SameMeaning (first second : Code) : Prop where
  outcomes : ∀ env outcome, first.EndsWith env outcome ↔ second.EndsWith env outcome
  unique : ∀ env outcome outcome', first.EndsWith env outcome → first.EndsWith env outcome'
    → outcome = outcome'

namespace Machine

/-- The stack that a run starts with: the one that is left over if it is high enough. -/
def reserved (depth : Int) (env : Env) : Array Sample :=
  if env.stack.size < depth then Array.replicate depth.toNat .zero else env.stack

theorem le_size_reserved (depth env) : depth ≤ (reserved depth env).size := by
  unfold reserved
  split
  · rw [Array.size_replicate]
    omega
  · omega

/-- Where the run of a chunk starts. -/
def entry (chunk : Chunk) (env : Env) : Config :=
  ⟨⟨0, 0⟩, env.withStack (reserved chunk.maxStack env)⟩

theorem run_run (chunk fuel env)
    : (run chunk fuel).run env
      = (runFrom chunk fuel (entry chunk env).frame).run (entry chunk env).env := by
  simp only [run, reserve, EStateM.run_bind, EStateM.run_modify, entry, reserved]
  split <;> rfl

variable {chunk : Chunk} {env : Env} {outcome outcome' : Except Stop Unit × Env}

/-- A chunk that comes to an end does so in a last round. -/
theorem ends_of_endsWith {fuel} (ended : outcome? ((run chunk fuel).run env) = some outcome)
    : ∃ n d result, n < fuel ∧ Steps chunk n (entry chunk env) d ∧ Ends chunk d result
      ∧ outcome? result = some outcome := by
  rw [run_run] at ended
  rcases runFrom_cases chunk fuel (entry chunk env) with
    ⟨n, d, less, steps, ends⟩ | ⟨d, -, unfinished⟩
  · exact ⟨n, d, _, less, steps, ends, ended⟩
  · rw [unfinished] at ended
    exact nomatch ended

/-- The last rounds of two runs from the same state give the same result. -/
theorem Ends.unique_of_steps {n m c d e result result'} (steps : Steps chunk n c d)
    (ends : Ends chunk d result) (steps' : Steps chunk m c e) (ends' : Ends chunk e result')
    : result = result' := by
  rw [← steps.run_of_ends ends (show n < n + m + 1 by omega),
    steps'.run_of_ends ends' (show m < n + m + 1 by omega)]

/-- A chunk comes to one end only. -/
theorem endsWith_unique (first : (Code.chunk chunk).EndsWith env outcome)
    (second : (Code.chunk chunk).EndsWith env outcome')
    : outcome = outcome' := by
  obtain ⟨_, first⟩ := first
  obtain ⟨_, second⟩ := second
  obtain ⟨n, d, result, -, steps, ends, left⟩ := ends_of_endsWith first
  obtain ⟨m, e, result', -, steps', ends', right⟩ := ends_of_endsWith second
  rw [ends.unique_of_steps steps steps' ends', right] at left
  exact (Option.some.inj left).symm

/-- The run of a chunk keeps up with the evaluation of its statements: it comes to the same end, or
has made as many rounds as the unfinished evaluation had fuel.
-/
theorem ends_or_keeps_up (lowered : Lower.chunk name table body = .ok chunk)
    (resolved : ∀ n ∈ stmtsNodes body, n.Resolved names) (addressable : chunk.Addressable)
    (fuel : Nat) (env : Env)
    : (∃ n d stack, Steps chunk n (entry chunk env) d
        ∧ Ends chunk d (EvalM.restack stack ((Eval.stmts fuel body).run env)))
      ∨ outcome? ((Eval.stmts fuel body).run env) = none
        ∧ ∃ n d, fuel ≤ n ∧ Steps chunk n (entry chunk env) d := by
  obtain ⟨items, found, -, assembled, provided⟩ :=
    Lower.assembled_chunk lowered resolved addressable
  have made := assembled _ (le_size_reserved chunk.maxStack env)
  have placed := Lower.Placed.all (items ++ [.instr .finish 0])
  have place : At _ 0 [] env (entry chunk env) :=
    ⟨reserved chunk.maxStack env, rfl, List.nil_prefix, rfl⟩
  have follows := follows_stmts made fuel body resolved provided found placed.left place
  cases evaluated : (Eval.stmts fuel body).run env with
  | ok _ env' =>
    rw [evaluated] at follows
    obtain ⟨n, d, steps, place⟩ := follows
    obtain ⟨stack, ends⟩ := ends_finish (made.decode placed.right trivial) place
    exact Or.inl ⟨n, d, stack, steps, ends⟩
  | error stop env' =>
    rw [evaluated] at follows
    rcases follows with ⟨n, d, stack, steps, ends⟩ | ⟨rfl, n, d, enough, steps⟩
    · exact Or.inl ⟨n, d, stack, steps, ends⟩
    · exact Or.inr ⟨rfl, n, d, enough, steps⟩

/-- A chunk means what its statements mean: whichever of the two comes to an end first, the other is
not far behind and cannot come to a different one.
-/
theorem sameMeaning_chunk (lowered : Lower.chunk name table body = .ok chunk)
    (resolved : ∀ n ∈ stmtsNodes body, n.Resolved names) (addressable : chunk.Addressable)
    : (Code.tree body).SameMeaning (.chunk chunk) := by
  have outcomes (env : Env) (outcome : Except Stop Unit × Env)
      : (Code.tree body).EndsWith env outcome ↔ (Code.chunk chunk).EndsWith env outcome := by
    constructor
    · rintro ⟨fuel, ended⟩
      rcases ends_or_keeps_up lowered resolved addressable fuel env with
        ⟨n, d, stack, steps, ends⟩ | ⟨unfinished, -⟩
      · refine ⟨n + 1, ?_⟩
        show outcome? ((run chunk (n + 1)).run env) = some outcome
        rw [run_run, steps.run_of_ends ends (by omega), outcome?_restack]
        exact ended
      · exact nomatch unfinished.symm.trans ended
    · rintro ⟨fuel, ended⟩
      obtain ⟨n, d, result, less, steps, ends, left⟩ := ends_of_endsWith ended
      refine ⟨fuel, ?_⟩
      rcases ends_or_keeps_up lowered resolved addressable fuel env with
        ⟨m, e, stack, steps', ends'⟩ | ⟨-, m, e, enough, steps'⟩
      · rw [← left, ends.unique_of_steps steps steps' ends', outcome?_restack]
        rfl
      · have := steps.le_of_ends ends steps'
        omega
  refine ⟨outcomes, fun env outcome outcome' first second => ?_⟩
  exact endsWith_unique ((outcomes env outcome).mp first) ((outcomes env outcome').mp second)

end Machine

/-- The chunks of a script, with that of the init block first. -/
def ScriptCode.chunks (code : ScriptCode) : List Chunk :=
  code.init.toList ++ [code.body]

/-- The code of a script has a chunk for the init block if there is one, and a chunk for the body. -/
theorem lower_eq_ok (lowered : lower program table = .ok code)
    : (program.init = none ∧ code.init = none
        ∨ ∃ block chunk, program.init = some block ∧ code.init = some chunk
          ∧ Lower.chunk "init" table block.body = .ok chunk)
      ∧ Lower.chunk "body" table program.body = .ok code.body := by
  unfold lower at lowered
  cases init : program.init with
  | none =>
    simp only [init, pure_bind, Lower.bind_eq_ok, Lower.pure_eq_ok] at lowered
    obtain ⟨body, found, rfl⟩ := lowered
    exact ⟨Or.inl ⟨rfl, rfl⟩, found⟩
  | some block =>
    simp only [init] at lowered
    cases found : Lower.chunk "init" table block.body with
    | error error => simp [found, throw, throwThe, MonadExceptOf.throw, bind, Except.bind] at lowered
    | ok chunk =>
      simp only [found, pure_bind, Lower.bind_eq_ok, Lower.pure_eq_ok] at lowered
      obtain ⟨body, found', rfl⟩ := lowered
      exact ⟨Or.inr ⟨block, chunk, rfl, rfl, found⟩, found'⟩

/-- What holds of the chunk of any resolved statements holds of the chunks of a resolved script. -/
theorem lower_forall_chunks {images locals registry}
    (P : List Stmt → Chunk → Prop) (resolved : Resolve.AllResolved images registry locals program)
    (lowered : lower program table = .ok code)
    (addressable : ∀ chunk ∈ code.chunks, chunk.Addressable)
    (each : ∀ (inInit : Bool) (name : String) (body : List Stmt) (chunk : Chunk),
      Lower.chunk name table body = .ok chunk
      → (∀ n ∈ stmtsNodes body, n.Resolved { images, locals, registry, inInit })
      → chunk.Addressable → P body chunk)
    : Option.Rel (fun block => P block.body) program.init code.init ∧ P program.body code.body := by
  obtain ⟨init, body⟩ := lower_eq_ok lowered
  refine ⟨?_, each false _ _ _ body resolved.body (addressable _ ?_)⟩
  · rcases init with ⟨noBlock, noChunk⟩ | ⟨block, chunk, isBlock, isChunk, init⟩
    · rw [noBlock, noChunk]
      exact .none
    · rw [isBlock, isChunk]
      refine .some (each true _ _ _ init (resolved.init block isBlock) (addressable _ ?_))
      simp [ScriptCode.chunks, isChunk]
  · simp [ScriptCode.chunks]

/-- The chunks of an accepted script mean what its init block and its body mean: from every state both
come to the same end, with the same error and state, or to none. A function may answer by its arguments
and all the calls before.
-/
theorem lower_sameMeaning {bindings : Bindings} {registry : Registry} {program : Program}
    {code : ScriptCode} (valid : bindings.error? = none)
    (accepted : (resolve bindings registry program).problems.hasErrors = false)
    (lowered : lower (resolve bindings registry program).program
      (resolve bindings registry program).table = .ok code)
    (addressable : ∀ chunk ∈ code.chunks, chunk.Addressable)
    : Option.Rel (fun block chunk => (Code.tree block.body).SameMeaning (.chunk chunk))
        (resolve bindings registry program).program.init code.init
      ∧ (Code.tree (resolve bindings registry program).program.body).SameMeaning
          (.chunk code.body) := by
  obtain ⟨resolved, -⟩ := resolve_allResolved registry valid accepted
  apply lower_forall_chunks (fun body chunk => (Code.tree body).SameMeaning (.chunk chunk)) resolved
    lowered addressable
  intro inInit name body chunk lowered resolved addressable
  exact Machine.sameMeaning_chunk lowered resolved addressable

/-- A script with an init block, which sets a number of rounds, and a loop that writes in each round
what a function makes of the source.
-/
def halving : Program where
  span := .none
  init := some {
    span := .none
    body := [.expr (.assign .none "most" none (.literal .none (.ofInt 3)) none)] }
  body := [
    .expr (.assign .none "i" none (.literal .none .zero) none),
    .loop .none
      (.binary .none .and
        (.binary .none (.arith .lt) (.update .none "i" false false none) (.read .none "most" none))
        (.read .none "in" none))
      (.expr (.assign .none "out" none (.call .none "half" [.read .none "in" none] none) none)),
    .expr (.assign .none "out" (some .add) (.read .none "i" none) none)]

namespace halving

/-- The images of the script. -/
def bindings : Bindings := [⟨"in", .source⟩, ⟨"out", .destination⟩]

/-- The function of the script. -/
def registry : Registry where
  functions :=
    [{ name := "half", arity := 1
       body := .fixed fun args => .ok ((args.headD .zero).div (.ofInt 2)) }]

/-- The script with its names resolved. -/
def resolution : Resolution := resolve bindings registry halving

theorem valid : bindings.error? = none := by decide +kernel

theorem accepted : resolution.problems.hasErrors = false := by decide +kernel

end halving

theorem lower_sameMeaning_halving
    : halving.bindings.error? = none ∧ halving.resolution.problems.hasErrors = false
      ∧ ∃ code, lower halving.resolution.program halving.resolution.table = .ok code
        ∧ (∀ chunk ∈ code.chunks, chunk.Addressable)
        ∧ Option.Rel (fun block chunk => (Code.tree block.body).SameMeaning (.chunk chunk))
          halving.resolution.program.init code.init
        ∧ (Code.tree halving.resolution.program.body).SameMeaning (.chunk code.body) := by
  refine ⟨halving.valid, halving.accepted, _, rfl, by decide +kernel, ?_⟩
  exact lower_sameMeaning halving.valid halving.accepted rfl (by decide +kernel)

end MapAlgebra
