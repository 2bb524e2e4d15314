import MapAlgebra.Proofs.Code.Flow
import MapAlgebra.Proofs.Code.Footprint
import MapAlgebra.Proofs.Code.Refinement

/-! Where the instructions of code lead: always to the start of another one, and backward only from the
end of a loop. So the machine carries out no instruction that was not lowered from the script, however
many arguments a call may have, and changes no variable that the script does not assign.
-/

namespace MapAlgebra.Lower

variable {level : Prop} {ok : Instr → Prop} {kept : Nat → Prop} {whole : List Item} {pools : Pools}
  {i : Instr}

variable {n : Expr} {depth offset : Nat}

theorem assigned?_of_ownReferences {symbol} (refers : .store symbol ∈ n.ownReferences)
    : n.assigned? = symbol := by
  cases n with
  | assign span target step value symbol =>
    cases step <;> simpa [Expr.ownReferences, Expr.assigned?, eq_comm] using refers
  | update => simpa [Expr.ownReferences, Expr.assigned?, eq_comm] using refers
  | binary span op left right => cases op <;> simp [Expr.ownReferences] at refers
  | _ => simp [Expr.ownReferences] at refers

/-- Only the reference to a target makes an instruction that assigns a variable. -/
theorem spares_of_ownReferences (spares : n.Spares kept) {r} (refers : r ∈ n.ownReferences)
    (emits : Emits pools r i)
    : i.Spares kept := by
  rintro slot rfl
  cases r with
  | constant v => obtain ⟨-, ⟨⟩⟩ | ⟨-, ⟨⟩⟩ | ⟨-, ⟨⟩⟩ := emits
  | load symbol => obtain ⟨s, -, ⟨-, n, -, ⟨⟩⟩ | ⟨-, n, -, ⟨⟩⟩⟩ := emits
  | call function argc => obtain ⟨f, -, ⟨⟩⟩ := emits
  | store symbol =>
    obtain ⟨s, rfl, ⟨-, n, -, ⟨⟩⟩ | ⟨isVar, _, slot, ⟨⟩⟩⟩ := emits
    rw [slot]
    exact spares s (assigned?_of_ownReferences refers) isVar

theorem sends_spares (spares : n.Spares kept)
    : ∀ r ∈ n.ownReferences, Sends False (Instr.Spares kept) pools r :=
  fun _ refers => ⟨fun _ emits => Or.inr (spares_of_ownReferences spares refers emits), nofun⟩

theorem sends_any (r) : Sends False (fun _ => True) pools r :=
  ⟨fun _ _ => Or.inr trivial, nofun⟩

/-- The code of a chunk is that of items, and all their instructions are steady. -/
structure Laid (level : Prop) (ok : Instr → Prop) (whole : List Item) (chunk : Chunk) : Prop where
  code : chunk.code = (whole.flatMap Item.encode).toArray
  all : AllSteady level ok whole 0 whole
  start : Enters level whole 0 0

theorem laid_chunk {name table body chunk} (lowered : Lower.chunk name table body = .ok chunk)
    (sends : ∀ r ∈ stmtsReferences body, Sends level ok (bodyPools body) r)
    : ∃ items, stmts (bodyPools body) body = .ok items
      ∧ Laid level ok (items ++ [Item.instr .finish 0]) chunk := by
  obtain ⟨items, found, code, -⟩ := chunk_eq_ok lowered
  obtain ⟨all, start⟩ := steady_code sends found
  exact ⟨items, found, code, all, start⟩

theorem AllSteady.exists_steady (all : AllSteady level ok whole 0 whole)
    (member : .instr i depth ∈ whole)
    : ∃ offset, Steady level ok whole offset depth i := by
  obtain ⟨before, after, split⟩ := List.append_of_mem member
  have placed : Placed whole (size before) (.instr i depth :: after) := ⟨before, [], by simp [split], rfl⟩
  exact ⟨size before, all.steady placed.noted⟩

theorem Placed.le_size {items} (placed : Placed whole offset items) : offset ≤ size whole := by
  obtain ⟨before, after, rfl, rfl⟩ := placed
  simp only [size_append]
  omega

theorem Enters.le_maxDepth (enters : Enters True whole offset depth) : depth ≤ maxDepth whole := by
  obtain ⟨i, noted⟩ := enters.noted
  obtain ⟨rest, placed⟩ := placed_of_noted noted
  exact Lower.le_maxDepth placed.mem

theorem Steady.heightAfter_le_maxDepth (steady : Steady True ok whole offset depth i)
    (noted : noted? whole offset = some (i, depth))
    : i.heightAfter depth ≤ maxDepth whole := by
  rcases steady.exists_enters with rfl | ⟨target, there⟩
  · exact (Enters.of_noted noted).le_maxDepth
  · exact there.le_maxDepth

end MapAlgebra.Lower

namespace MapAlgebra

namespace EvalM

variable {α β : Type} {post : α → Prop} {post' : β → Prop}

/-- All values that an evaluation gives have a property. -/
def Gives (m : EvalM α) (post : α → Prop) : Prop :=
  ∀ env a env', m.run env = .ok a env' → post a

theorem Gives.pure {a} (holds : post a) : Gives (Pure.pure a : EvalM α) post := by
  intro env b env' ran
  cases ran
  exact holds

variable {m : EvalM α} {next : α → EvalM β}

theorem Gives.bind (first : Gives m post) (later : ∀ a, post a → Gives (next a) post')
    : Gives (m >>= next) post' := by
  intro env b env' ran
  rw [EStateM.run_bind] at ran
  cases here : m.run env with
  | ok a env1 =>
    rw [here] at ran
    exact later a (first env a env1 here) env1 b env' ran
  | error stop env1 =>
    rw [here] at ran
    exact nomatch ran

theorem Gives.andThen (later : ∀ a, Gives (next a) post') : Gives (m >>= next) post' := by
  have first : Gives m fun _ => True := fun _ _ _ _ => trivial
  exact first.bind fun a _ => later a

end EvalM

namespace Machine

open EvalM (Touches Gives)

variable {chunk : Chunk} {kept : Nat → Prop} {f : Frame} {i : Instr}

/-- The machine goes on behind an instruction, or where that jumps to, with the height that the
instruction leaves.
-/
structure Advances (f : Frame) (i : Instr) (f' : Frame) : Prop where
  height : f'.sp = f.sp - i.pops + i.pushes
  leads : i.goesOn = true ∧ f'.ip = f.ip ∨ ∃ d, i.distance? = some d ∧ f'.ip = f.ip + d

theorem gives_push (f v) : Gives (push f v) fun f' => f' = { f with sp := f.sp + 1 } :=
  .andThen fun _ => .pure rfl

theorem gives_replaceTop (f) (change : Sample → Sample)
    : Gives (replaceTop f change) fun f' => f' = f :=
  .andThen fun _ => .andThen fun _ => .pure rfl

theorem gives_jumpIf (truth d f)
    : Gives (jumpIf truth d f) fun f' => f'.sp = f.sp - 1 ∧ (f'.ip = f.ip ∨ f'.ip = f.ip + d) := by
  refine .andThen fun v => .pure ?_
  split
  · exact ⟨rfl, Or.inr rfl⟩
  · exact ⟨rfl, Or.inl rfl⟩

/-- The machine advances as the instruction says, unless that is the last one. -/
def Next (f : Frame) (i : Instr) : Option Frame → Prop
  | some f' => Advances f i f'
  | none => i = .finish

variable {f' : Frame} {env env' : Env}

theorem Next.on (height : f'.sp = f.sp - i.pops + i.pushes)
    (leads : i.goesOn = true ∧ f'.ip = f.ip ∨ ∃ d, i.distance? = some d ∧ f'.ip = f.ip + d)
    : Next f i (some f') :=
  Advances.mk height leads

/-- Every instruction goes on behind itself or where it jumps to, by cases on the instruction. -/
theorem gives_step (chunk : Chunk) (f : Frame) (i : Instr) : Gives (step chunk f i) (Next f i) := by
  have pushes (below : Frame) (v : Sample) (same : below.ip = f.ip) (goes : i.goesOn = true)
      (height : below.sp + 1 = f.sp - i.pops + i.pushes)
      : Gives (do return some (← push below v)) (Next f i) := by
    refine (gives_push below v).bind fun f' above => .pure ?_
    subst above
    exact .on height (Or.inl ⟨goes, same⟩)
  have replaces (below : Frame) (change : Sample → Sample) (same : below.ip = f.ip)
      (goes : i.goesOn = true) (height : below.sp = f.sp - i.pops + i.pushes)
      : Gives (do return some (← replaceTop below change)) (Next f i) := by
    refine (gives_replaceTop below change).bind fun f' above => .pure ?_
    subst above
    exact .on height (Or.inl ⟨goes, same⟩)
  have kept : f.sp = f.sp - (0 : Nat) + (0 : Nat) := by omega
  have added : f.sp + 1 = f.sp - (0 : Nat) + (1 : Nat) := by omega
  have doubled : f.sp + 1 = f.sp - (1 : Nat) + (2 : Nat) := by omega
  have joined : f.sp - 1 = f.sp - (2 : Nat) + (1 : Nat) := by omega
  cases i with
  | nop => exact .pure (.on kept (Or.inl ⟨rfl, rfl⟩))
  | pop => exact .pure (.on (Int.add_zero _).symm (Or.inl ⟨rfl, rfl⟩))
  | finish => exact .pure rfl
  | jump d => exact .pure (.on kept (Or.inr ⟨d, rfl, rfl⟩))
  | dup => exact .andThen fun v => pushes f v rfl rfl doubled
  | const n | loadVar n | readImage n | builtin which =>
    exact .andThen fun v => pushes f v rfl rfl added
  | constZero | constOne => exact pushes f _ rfl rfl added
  | storeVar n | writeImage n =>
    exact .andThen fun v => .andThen fun _ =>
      .pure (.on (Int.add_zero _).symm (Or.inl ⟨rfl, rfl⟩))
  | arith op =>
    exact .andThen fun b => replaces _ _ rfl rfl joined
  | neg | not | truthy => exact replaces f _ rfl rfl (Int.sub_add_cancel _ _).symm
  | jumpTrue d | jumpFalse d =>
    refine (gives_jumpIf _ d f).bind fun f' ⟨height, leads⟩ => .pure (.on ?_ ?_)
    · exact height.trans (Int.add_zero _).symm
    · exact leads.imp (fun behind => ⟨rfl, behind⟩) fun jumped => ⟨d, rfl, jumped⟩
  | loop d => exact .andThen fun _ => .pure (.on kept (Or.inr ⟨d, rfl, rfl⟩))
  | call n argc =>
    exact .andThen fun function => .andThen fun args => .andThen fun v => pushes _ v rfl rfl rfl

variable {level : Prop} {ok : Instr → Prop} {whole : List Lower.Item} {depth : Nat}

/-- The machine stands in front of an instruction. If heights are level, its stack has the one that is
noted there.
-/
structure Stands (level : Prop) (whole : List Lower.Item) (f : Frame) (i : Instr) (depth : Nat)
    : Prop where
  ahead : 0 ≤ f.ip
  noted : Lower.noted? whole f.ip.toNat = some (i, depth)
  height : level → f.sp = depth

/-- The machine stands in front of some instruction. -/
def StandsIn (level : Prop) (whole : List Lower.Item) (f : Frame) : Prop :=
  ∃ i depth, Stands level whole f i depth

theorem StandsIn.of_enters {offset} (enters : Lower.Enters level whole offset depth)
    (ip : f.ip = offset) (height : level → f.sp = depth)
    : StandsIn level whole f := by
  obtain ⟨i, noted, here, same⟩ := enters
  refine ⟨i, noted, by omega, ?_, fun level => by rw [height level, same level]⟩
  rw [ip, Int.toNat_natCast]
  exact here

variable (laid : Lower.Laid level ok whole chunk)
include laid

theorem StandsIn.start : StandsIn level whole ⟨0, 0⟩ :=
  .of_enters laid.start rfl fun _ => rfl

section

variable (stands : Stands level whole f i depth)
include stands

theorem Stands.decoded : Instr.decodeAt chunk.code f.ip.toNat = some (.instr i) := by
  obtain ⟨rest, placed⟩ := Lower.placed_of_noted stands.noted
  rw [laid.code]
  exact placed.decode (laid.all.steady stands.noted).encodable

/-- A round carries out the instruction that the machine stands in front of. -/
theorem Stands.round_eq
    : Machine.round chunk f = step chunk { f with ip := f.ip + i.length } i := by
  simp only [Machine.round, Int.not_lt.mpr stands.ahead, if_false, stands.decoded laid]

/-- A round leads from the start of an instruction to that of another. -/
theorem Stands.round (ran : (Machine.round chunk f).run env = .ok (some f') env')
    : StandsIn level whole f' := by
  have steady := laid.all.steady stands.noted
  have ahead := stands.ahead
  rw [stands.round_eq laid] at ran
  obtain ⟨height, leads⟩ := gives_step chunk _ i env _ env' ran
  have leaves (level : level) : f'.sp = i.heightAfter depth := by
    have enough := steady.enough
    rw [height, stands.height level, Instr.heightAfter]
    omega
  rcases leads with ⟨goes, behind⟩ | ⟨d, jumps, jumped⟩
  · exact .of_enters (steady.next goes) (by rw [behind]; dsimp only; omega) leaves
  · obtain ⟨t, sum, there⟩ := steady.target d jumps
    exact .of_enters there (by rw [jumped, sum]; dsimp only; omega) leaves

end

theorem StandsIn.round (stands : StandsIn level whole f)
    (ran : (Machine.round chunk f).run env = .ok (some f') env')
    : StandsIn level whole f' := by
  obtain ⟨i, depth, stands⟩ := stands
  exact stands.round laid ran

/-- A run stands in front of an instruction after any number of rounds, by induction on them. -/
theorem StandsIn.steps {n c d} (steps : Steps chunk n c d) (stands : StandsIn level whole c.frame)
    : StandsIn level whole d.frame := by
  induction steps with
  | refl c => exact stands
  | head first _ ih => exact ih (stands.round laid first)

theorem StandsIn.ip_lt (stands : StandsIn level whole f) : 0 ≤ f.ip ∧ f.ip < chunk.code.size := by
  obtain ⟨i, depth, stands⟩ := stands
  have ahead := stands.ahead
  have decoded := stands.decoded laid
  refine ⟨ahead, Int.lt_of_not_ge fun outside => ?_⟩
  simp only [Instr.decodeAt, Array.getElem?_eq_none (show chunk.code.size ≤ f.ip.toNat by omega)] at decoded
  cases decoded

omit laid in
/-- The run of a chunk touches no variable that its statements do not assign. -/
theorem touches_chunk {name table body} (lowered : Lower.chunk name table body = .ok chunk)
    (spares : ∀ n ∈ stmtsNodes body, n.Spares kept) (fuel : Nat)
    : Touches kept (runFrom chunk fuel ⟨0, 0⟩) := by
  obtain ⟨items, -, laid⟩ := Lower.laid_chunk lowered
    (Lower.forall_stmts_references body fun n member => Lower.sends_spares (spares n member))
  refine touches_runFrom (fun f (stands : StandsIn False _ f) => ?_) fuel (.start laid)
  obtain ⟨i, depth, stands⟩ := stands
  refine ⟨touches_round fun j found => ?_, fun env f' env' => stands.round laid⟩
  cases (stands.decoded laid).symm.trans found
  rcases (laid.all.steady stands.noted).operand with plain | spares
  · rintro slot rfl
    cases plain
  · exact spares

end Machine

end MapAlgebra
