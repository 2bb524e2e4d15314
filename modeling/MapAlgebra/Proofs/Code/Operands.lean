import MapAlgebra.Proofs.Code.Layout
import MapAlgebra.Proofs.Code.References

/-! What the operands of code say. The instructions of a chunk come one for each reference of its
statements. The operands of variables and images are their slots, but the indices of constants and
functions and the numbers of arguments are cut to the width of their operands without an error.
-/

namespace MapAlgebra

open List
open Lower

/-- The instructions that stand one behind the other from an offset on. -/
def Instr.decodeFrom (code : Array UInt8) : (fuel offset : Nat) → List Instr
  | 0, _ => []
  | fuel + 1, offset =>
    match decodeAt code offset with
    | some (.instr i) => i :: decodeFrom code fuel (offset + i.length)
    | _ => []

/-- The instructions of a chunk. Each of them takes a byte at least. -/
def Chunk.instrs (chunk : Chunk) : List Instr :=
  Instr.decodeFrom chunk.code chunk.code.size 0

/-- Code that is covered decodes to what covers it, by induction on that. -/
theorem Instr.Covers.decodeFrom {code offset fuel found} (covers : Covers code offset found)
    (enough : code.size ≤ offset + fuel)
    : Instr.decodeFrom code fuel offset = found.map (·.2) := by
  induction covers generalizing fuel with
  | done =>
    cases fuel with
    | zero => rfl
    | succ fuel => simp [Instr.decodeFrom, decodeAt]
  | @next offset i rest decoded covers ih =>
    have positive := i.length_pos
    have inside := covers.le_size
    obtain ⟨more, rfl⟩ : ∃ more, fuel = more + 1 := ⟨fuel - 1, by omega⟩
    rw [Instr.decodeFrom, decoded]
    exact congrArg (i :: ·) (ih (by omega))

namespace Lower

theorem map_located (offset items)
    : (located offset items).map (·.2) = items.filterMap Item.instr? := by
  induction items generalizing offset with
  | nil => rfl
  | cons item items ih =>
    cases item with
    | mark p => exact ih offset
    | instr i d => exact congrArg (i :: ·) (ih (offset + i.length))

variable {chunk : Chunk}

theorem Laid.instrs {level ok whole} (laid : Laid level ok whole chunk)
    : chunk.instrs = whole.filterMap Item.instr? :=
  (laid.covers.decodeFrom (Nat.le_add_left _ 0)).trans (map_located 0 whole)

end Lower

/-- The instruction stands for the reference, up to the bits that its operands have no room for: an
index has sixteen bits, and a number of arguments has eight.
-/
def Reference.StandsFor (chunk : Chunk) : Reference → Instr → Prop
  | .constant v, i =>
    v = .zero ∧ i = .constZero ∨ v = .one ∧ i = .constOne
    ∨ ∃ (index : Nat) (n : UInt16), chunk.constants[index]? = some v ∧ n.toNat = index % 65536
      ∧ i = .const n
  | .load symbol, i => Addresses .readImage .loadVar symbol i
  | .store symbol, i => Addresses .writeImage .storeVar symbol i
  | .call function argc, i =>
    ∃ (f : Function) (index : Nat) (n : UInt16) (count : UInt8), function = some f
      ∧ chunk.functions[index]? = some f ∧ n.toNat = index % 65536 ∧ count.toNat = argc % 256
      ∧ i = .call n count

/-- The instruction selects what is referred to: it pushes the constant with all its bits, its operand
is the slot of the variable or image, or it calls the function with all arguments.
-/
def Reference.SelectedBy (chunk : Chunk) : Reference → Instr → Prop
  | .constant v, i =>
    v = .zero ∧ i = .constZero ∨ v = .one ∧ i = .constOne
    ∨ ∃ n : UInt16, chunk.constants[n.toNat]? = some v ∧ i = .const n
  | .load symbol, i => Addresses .readImage .loadVar symbol i
  | .store symbol, i => Addresses .writeImage .storeVar symbol i
  | .call function argc, i =>
    ∃ (f : Function) (n : UInt16) (count : UInt8), function = some f
      ∧ chunk.functions[n.toNat]? = some f ∧ count.toNat = argc ∧ i = .call n count

/-- The instructions of a chunk that refer to something select what its statements refer to, one for
each reference and in order.
-/
def Chunk.Selects (chunk : Chunk) (body : List Stmt) : Prop :=
  List.Forall₂ (Reference.SelectedBy chunk) (stmtsReferences body)
    (chunk.instrs.filter Instr.refers)

/-- What the operands of a chunk say of its statements: in any case the low bits, and everything
exactly if the tables and the numbers of arguments are within reach of the operands.
-/
structure Chunk.Operands (body : List Stmt) (chunk : Chunk) : Prop where
  low : List.Forall₂ (Reference.StandsFor chunk) (stmtsReferences body)
    (chunk.instrs.filter Instr.refers)
  exact : chunk.Selects body ↔ chunk.Addressable

namespace Lower

variable {registry : Registry} {references : List Reference} {pools : Pools} {r : Reference}
  {i : Instr}

/-- The index of a reference and its number of arguments are within reach of its operands. -/
def InReach (pools : Pools) : Reference → Prop
  | .constant v =>
    Chunk.shortConstant? v = none → Chunk.constantIndex pools.constants v < 65536
  | .call (some f) argc => Chunk.functionIndex pools.functions f < 65536 ∧ argc < 256
  | _ => True

variable {n : Nat} {f : Function} {α β : Type} {body : List Stmt} {name : String} {names : Names}
  {table : SymbolTable}

theorem constantIndex_le {constants v} (found : constants[n]? = some v)
    : Chunk.constantIndex constants v ≤ n := by
  obtain ⟨inside, here⟩ := Array.getElem?_eq_some_iff.mp found
  by_contra later
  have different := Array.not_of_lt_findIdx (Nat.lt_of_not_le later)
  simp [here] at different

theorem functionIndex_le {functions} (found : functions[n]? = some f)
    : Chunk.functionIndex functions f ≤ n := by
  obtain ⟨inside, here⟩ := Array.getElem?_eq_some_iff.mp found
  unfold Chunk.functionIndex
  cases first : functions.findIdx? (·.name == f.name) with
  | none =>
    have different := Array.findIdx?_eq_none_iff.mp first f (Array.mem_of_getElem? found)
    simp at different
  | some k =>
    obtain ⟨bound, -, before⟩ := Array.findIdx?_eq_some_iff_getElem.mp first
    by_contra later
    have different := before n (Nat.lt_of_not_le later)
    simp [here] at different

variable {chunk : Chunk}

/-- Distinct elements whose indices are all below a bound are no more than the bound. -/
theorem size_le_of_index_lt {xs : Array α} (index : α → Nat) {bound} (distinct : xs.toList.Nodup)
    (found : ∀ x ∈ xs, xs[index x]? = some x) (below : ∀ x ∈ xs, index x < bound)
    : xs.size ≤ bound := by
  by_contra many
  have inside : bound < xs.size := Nat.lt_of_not_le many
  have member := Array.getElem_mem inside
  have here := found _ member
  rw [← Array.getElem?_eq_getElem inside, ← Array.getElem?_toList, ← Array.getElem?_toList] at here
  have same := (List.getElem?_inj (by simpa using inside) distinct).mp here.symm
  have less := below _ member
  omega

section

variable (constants : chunk.constants = pools.constants)
  (functions : chunk.functions = pools.functions) (collects : pools.Collects registry references)
include constants functions collects

theorem standsFor_of_emits (member : r ∈ references) (known : Known registry r) (emits : Emits pools r i)
    : r.StandsFor chunk i := by
  have provided := collects.provides r member
  cases r with
  | constant v =>
    rcases emits with zero | one | ⟨long, rfl⟩
    · exact Or.inl zero
    · exact Or.inr (Or.inl one)
    · refine Or.inr (Or.inr ⟨_, _, ?_, UInt16.toNat_ofNat', rfl⟩)
      rw [constants]
      exact getElem?_constantIndex (provided long)
  | load | store => exact emits
  | call function argc =>
    obtain ⟨f, rfl, rfl⟩ := emits
    obtain ⟨f', same, registered, -⟩ := known
    cases same
    refine ⟨f, _, _, _, rfl, ?_, UInt16.toNat_ofNat', UInt8.toNat_ofNat', rfl⟩
    rw [functions]
    exact getElem?_functionIndex collects.registered registered (functionIndex_lt provided)

/-- An instruction of lowering selects what is referred to exactly if that is within reach. -/
theorem selectedBy_iff_inReach (member : r ∈ references) (known : Known registry r) (emits : Emits pools r i)
    : r.SelectedBy chunk i ↔ InReach pools r := by
  have provided := collects.provides r member
  cases r with
  | constant v =>
    rcases emits with ⟨rfl, rfl⟩ | ⟨rfl, rfl⟩ | ⟨long, rfl⟩
    · exact ⟨fun _ long => (by cases long), fun _ => Or.inl ⟨rfl, rfl⟩⟩
    · exact ⟨fun _ long => (by cases long), fun _ => Or.inr (Or.inl ⟨rfl, rfl⟩)⟩
    · constructor
      · rintro (⟨-, other⟩ | ⟨-, other⟩ | ⟨n, found, same⟩) -
        · cases other
        · cases other
        · rw [constants] at found
          exact Nat.lt_of_le_of_lt (constantIndex_le found) n.toNat_lt
      · intro near
        refine Or.inr (Or.inr ⟨_, ?_, rfl⟩)
        rw [constants, toNat_toUInt16 (near long)]
        exact getElem?_constantIndex (provided long)
  | load | store => exact ⟨fun _ => trivial, fun _ => emits⟩
  | call function argc =>
    obtain ⟨f, rfl, rfl⟩ := emits
    obtain ⟨f', same, registered, -⟩ := known
    cases same
    constructor
    · rintro ⟨g, n, count, same, found, whole, operands⟩
      cases same
      cases operands
      rw [functions] at found
      exact ⟨Nat.lt_of_le_of_lt (functionIndex_le found) (UInt16.toNat_lt _),
        whole ▸ UInt8.toNat_lt _⟩
    · rintro ⟨near, few⟩
      refine ⟨f, _, _, rfl, ?_, UInt8.toNat_ofNat_of_lt' few, rfl⟩
      rw [functions, toNat_toUInt16 near]
      exact getElem?_functionIndex collects.registered registered (functionIndex_lt provided)

theorem forall_inReach_iff (known : ∀ r ∈ references, Known registry r)
    : (∀ r ∈ references, InReach pools r) ↔ chunk.Addressable := by
  constructor
  · intro near
    refine ⟨?_, ?_, ?_⟩
    · rw [constants]
      refine size_le_of_index_lt _ collects.distinctConstants (fun v => getElem?_constantIndex) ?_
      intro v member
      obtain ⟨long, referred⟩ := collects.constants v member
      exact near _ referred long
    · rw [functions]
      refine size_le_of_index_lt (Chunk.functionIndex pools.functions)
        collects.distinctFunctions.of_map (fun f member => ?_) ?_
      · exact getElem?_functionIndex collects.registered (collects.registered f member)
          (functionIndex_lt member)
      · intro f member
        obtain ⟨argc, referred⟩ := collects.functions f member
        exact (near _ referred).1
    · intro f member
      rw [functions] at member
      obtain ⟨argc, referred⟩ := collects.functions f member
      obtain ⟨f', same, -, arity⟩ := known _ referred
      cases same
      have few := (near _ referred).2
      omega
  · rintro ⟨fewConstants, fewFunctions, fewArguments⟩ r member
    rw [constants] at fewConstants
    rw [functions] at fewFunctions fewArguments
    have provided := collects.provides r member
    cases r with
    | constant v =>
      intro long
      exact Nat.lt_of_lt_of_le (Array.idxOf_lt_length_of_mem (provided long)) fewConstants
    | load | store => trivial
    | call function argc =>
      obtain ⟨f, rfl, -, arity⟩ := known _ member
      have few := fewArguments f provided
      exact ⟨Nat.lt_of_lt_of_le (functionIndex_lt provided) fewFunctions, by omega⟩

end

variable {as : List α} {bs : List β} {related wanted : α → β → Prop}

/-- Related lists stay related by what follows for the elements of the first. -/
theorem forall₂_imp_of_mem (all : List.Forall₂ related as bs)
    (follows : ∀ a ∈ as, ∀ b, related a b → wanted a b)
    : List.Forall₂ wanted as bs := by
  induction all with
  | nil => exact .nil
  | cons related _ ih =>
    obtain ⟨first, others⟩ := forall_mem_cons.mp follows
    exact .cons (first _ related) (ih others)

/-- A relation that comes down to a property of the first element holds of related lists exactly if
all elements of the first have the property.
-/
theorem forall₂_iff_forall {property : α → Prop} (all : List.Forall₂ related as bs)
    (same : ∀ a ∈ as, ∀ b, related a b → (wanted a b ↔ property a))
    : List.Forall₂ wanted as bs ↔ ∀ a ∈ as, property a := by
  induction all with
  | nil => exact ⟨fun _ => forall_mem_nil _, fun _ => .nil⟩
  | cons related _ ih =>
    obtain ⟨first, others⟩ := forall_mem_cons.mp same
    rw [forall₂_cons, forall_mem_cons, first _ related, ih others]

theorem operands_chunk (lowered : Lower.chunk name table body = .ok chunk)
    (resolved : ∀ n ∈ stmtsNodes body, n.Resolved names)
    : chunk.Operands body := by
  obtain ⟨items, found, laid⟩ := laid_chunk lowered fun r _ => sends_any r
  obtain ⟨-, -, -, constants, functions, -⟩ := chunk_eq_ok lowered
  have collects := collects_bodyPools resolved
  have known := known_stmts body resolved
  have cites : Cites (bodyPools body) (stmtsReferences body) (items ++ [.instr .finish 0]) :=
    (coded_stmts body found).cites.followed rfl
  rw [Cites, ← laid.instrs] at cites
  constructor
  · exact forall₂_imp_of_mem cites fun r member i emits =>
      standsFor_of_emits constants functions collects member (known r member) emits
  · rw [Chunk.Selects, ← forall_inReach_iff constants functions collects known]
    exact forall₂_iff_forall cites fun r member i emits =>
      selectedBy_iff_inReach constants functions collects member (known r member) emits

/-- Code with a call of more than 255 arguments does not select what its statements refer to. -/
theorem not_selects_of_arity (lowered : Lower.chunk name table body = .ok chunk)
    (resolved : ∀ n ∈ stmtsNodes body, n.Resolved names) (called : f ∈ (bodyPools body).functions)
    (many : 255 < f.arity)
    : ¬ chunk.Selects body := by
  intro selects
  obtain ⟨-, -, -, -, functions, -⟩ := chunk_eq_ok lowered
  have addressable := (operands_chunk lowered resolved).exact.mp selects
  have few := addressable.arities f (functions ▸ called)
  omega

end Lower

/-- Whenever a script that is accepted is lowered, its variables and images are addressed exactly. All
other operands are right up to the bits they have no room for, and exact if and only if a chunk has no
more than 65536 constants and 65536 functions, and no function with more than 255 arguments.
-/
theorem lower_operands {bindings : Bindings} {registry : Registry} {program : Program}
    {code : ScriptCode} (valid : bindings.error? = none)
    (accepted : (resolve bindings registry program).problems.hasErrors = false)
    (lowered : lower (resolve bindings registry program).program
      (resolve bindings registry program).table = .ok code)
    : Option.Rel (fun block chunk => chunk.Operands block.body)
        (resolve bindings registry program).program.init code.init
      ∧ code.body.Operands (resolve bindings registry program).program.body := by
  obtain ⟨resolved, -⟩ := resolve_allResolved registry valid accepted
  obtain ⟨⟨absent, absent'⟩ | ⟨block, chunk, present, present', initLowered⟩, bodyLowered⟩ :=
    lower_eq_ok lowered
  · rw [absent, absent']
    exact ⟨.none, Lower.operands_chunk bodyLowered resolved.body⟩
  · rw [present, present']
    exact ⟨.some (Lower.operands_chunk initLowered (resolved.init block present)),
      Lower.operands_chunk bodyLowered resolved.body⟩

theorem lower_operands_halving
    : halving.bindings.error? = none ∧ halving.resolution.problems.hasErrors = false
      ∧ ∃ code, lower halving.resolution.program halving.resolution.table = .ok code
        ∧ Option.Rel (fun block chunk => chunk.Operands block.body)
          halving.resolution.program.init code.init
        ∧ code.body.Operands halving.resolution.program.body
        ∧ code.body.Addressable := by
  obtain ⟨init, body⟩ := lower_operands halving.valid halving.accepted rfl
  exact ⟨halving.valid, halving.accepted, _, rfl, init, body, by decide +kernel⟩

/-- A script that calls a function of 256 arguments. -/
def crowded : Program where
  span := .none
  init := none
  body := [.expr (.assign .none "out" none
    (.call .none "most" (List.replicate 256 (.literal .none .one)) none) none)]

namespace crowded

/-- The image of the script. -/
def bindings : Bindings := [⟨"out", .destination⟩]

/-- The function of the script. -/
def registry : Registry where
  functions := [{ name := "most", arity := 256, body := .fixed fun args => .ok (.ofInt args.length) }]

/-- The script with its names resolved. -/
def resolution : Resolution := resolve bindings registry crowded

end crowded

/-- A call of 256 arguments is lowered without an error, and its code does not tell how many they
are.
-/
theorem crowded_truncated
    : crowded.resolution.problems.hasErrors = false
      ∧ ∃ code, lower crowded.resolution.program crowded.resolution.table = .ok code
        ∧ ¬ code.body.Selects crowded.resolution.program.body := by
  have valid : crowded.bindings.error? = none := by decide +kernel
  have accepted : crowded.resolution.problems.hasErrors = false := by decide +kernel
  have succeeds : (lower crowded.resolution.program crowded.resolution.table).toBool = true := by
    decide +kernel
  have called : (Lower.bodyPools crowded.resolution.program.body).functions[0]?.map (·.arity)
      = some 256 := by
    decide +kernel
  have resolved : Resolve.AllResolved (Scope.imageSymbols crowded.bindings) crowded.registry
      crowded.resolution.table.locals crowded.resolution.program := by
    unfold crowded.resolution at accepted ⊢
    exact (resolve_allResolved crowded.registry valid accepted).1
  -- The resolution is large: nothing of it is looked at below.
  generalize crowded.resolution = resolution at *
  cases lowered : lower resolution.program resolution.table with
  | error error =>
    rw [lowered] at succeeds
    cases succeeds
  | ok code =>
    obtain ⟨f, member, arity⟩ := Option.map_eq_some_iff.mp called
    exact ⟨accepted, code, rfl, Lower.not_selects_of_arity (lower_eq_ok lowered).2 resolved.body
      (Array.mem_of_getElem? member) (by omega)⟩

end MapAlgebra
