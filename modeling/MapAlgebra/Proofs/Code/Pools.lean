import MapAlgebra.Proofs.Code.Assembly
import MapAlgebra.Proofs.Scope.Resolved
import Mathlib.Data.List.Nodup

/-! The pools of a chunk are those of its references. They have what the code refers to and nothing else,
each constant and function once and at the index that stands in the code.
-/

namespace MapAlgebra

open List
open Chunk

variable {f : Function} {registry : Registry} {names : Names}

theorem Registry.name_of_lookup {name} (found : registry.lookup name = some f) : f.name = name := by
  simpa using List.find?_some found

theorem Expr.Resolved.reads {n : Expr} (resolved : n.Resolved names) {s}
    (stands : n.symbol? = some s)
    : names.Reads s := by
  cases n with
  | read span name symbol =>
    obtain ⟨s', found, -, reads⟩ := resolved
    cases found.symm.trans stands
    exact reads
  | assign span target step value symbol | update span target decrement before symbol =>
    obtain ⟨s', found, -, writes⟩ := resolved
    cases found.symm.trans stands
    exact writes.reads
  | _ => cases stands

namespace Lower

variable {pools : Pools} {references later : List Reference}

/-- The functions of the pools are the registered ones. -/
def Pools.Registered (registry : Registry) (pools : Pools) : Prop :=
  ∀ f ∈ pools.functions, registry.lookup f.name = some f

/-- Pools have what others have in the same places, and more behind it. -/
structure Pools.Extends (pools more : Pools) : Prop where
  constants : ∃ values, more.constants = pools.constants ++ values
  functions : ∃ table, more.functions = pools.functions ++ table

variable {constants : Array Sample} {v : Sample} {more : Pools}

theorem getElem_constantIndex (inside : constantIndex constants v < constants.size)
    : constants[constantIndex constants v] = v := by
  have found : (constants[constantIndex constants v] == v) = true :=
    Array.findIdx_getElem (p := (· == v)) (w := inside)
  exact eq_of_beq found

theorem getElem?_constantIndex (member : v ∈ constants)
    : constants[constantIndex constants v]? = some v := by
  have inside : constantIndex constants v < constants.size :=
    Array.idxOf_lt_length_of_mem member
  rw [Array.getElem?_eq_getElem inside, getElem_constantIndex]

theorem eq_of_name_eq {g} (known : registry.lookup f.name = some f)
    (known' : registry.lookup g.name = some g) (sameName : g.name = f.name)
    : g = f := by
  rw [sameName, known] at known'
  exact (Option.some.inj known').symm

variable {functions : Array Function}

theorem functionIndex_eq : functionIndex functions f = functions.findIdx (·.name == f.name) := by
  simp [functionIndex, Array.findIdx_eq_getD_findIdx?]

theorem getElem?_functionIndex (registered : ∀ g ∈ functions, registry.lookup g.name = some g)
    (known : registry.lookup f.name = some f)
    (inside : functionIndex functions f < functions.size)
    : functions[functionIndex functions f]? = some f := by
  rw [functionIndex_eq] at *
  have sameName := Array.findIdx_getElem (p := fun g : Function => g.name == f.name) (w := inside)
  have same := eq_of_name_eq known (registered _ (Array.getElem_mem inside)) (eq_of_beq sameName)
  rw [Array.getElem?_eq_getElem inside, same]

theorem functionIndex_lt (member : f ∈ functions)
    : functionIndex functions f < functions.size := by
  rw [functionIndex_eq]
  exact Array.findIdx_lt_size_of_exists ⟨f, member, beq_self_eq_true f.name⟩

/-- The pools with what a reference needs. -/
def Pools.withReference (pools : Pools) : Reference → Pools
  | .constant v =>
    if (shortConstant? v).isSome then pools
    else { pools with constants := withConstant pools.constants v }
  | .call (some f) _ => { pools with functions := withFunction pools.functions f }
  | _ => pools

mutual

/-- An expression adds its references to the pools, by induction on the expression. -/
theorem poolExpr_eq (pools : Pools) (e : Expr)
    : poolExpr pools e = e.references.foldl Pools.withReference pools := by
  cases e with
  | literal | read | update | builtin => rfl
  | binary span op left right =>
    cases op with
    | arith op =>
      rw [poolExpr, poolExpr_eq pools left, poolExpr_eq _ right, Expr.references, foldl_append]
    | and | or =>
      rw [poolExpr, poolExpr_eq pools left, poolExpr_eq _ right, Expr.references,
        foldl_append, foldl_append]
      rfl
  | unary span op operand => rw [poolExpr, poolExpr_eq pools operand, Expr.references]
  | assign span target step value symbol =>
    cases step with
    | none =>
      rw [poolExpr, poolExpr_eq pools value, Expr.references, foldl_append]
      rfl
    | some op =>
      rw [poolExpr, poolExpr_eq pools value, Expr.references, foldl_append]
      rfl
  | call span name args function =>
    rw [Expr.references, foldl_append, ← poolExprs_eq pools args]
    cases function with
    | none => rfl
    | some f => rfl

theorem poolExprs_eq (pools es)
    : poolExprs pools es = (exprsReferences es).foldl Pools.withReference pools := by
  cases es with
  | nil => rfl
  | cons e rest =>
    rw [poolExprs, poolExpr_eq pools e, poolExprs_eq _ rest, exprsReferences, foldl_append]

end

mutual

/-- A statement adds its references to the pools, by induction on the statement. -/
theorem poolStmt_eq (pools : Pools) (s : Stmt)
    : poolStmt pools s = s.references.foldl Pools.withReference pools := by
  cases s with
  | expr e => exact poolExpr_eq pools e
  | block span body => exact poolStmts_eq pools body
  | ifThen span test yes | loop span test yes =>
    rw [poolStmt, poolExpr_eq pools test, poolStmt_eq _ yes, Stmt.references, foldl_append]
  | ifElse span test yes no =>
    rw [poolStmt, poolExpr_eq pools test, poolStmt_eq _ yes, poolStmt_eq _ no, Stmt.references,
      foldl_append, foldl_append]

theorem poolStmts_eq (pools body)
    : poolStmts pools body = (stmtsReferences body).foldl Pools.withReference pools := by
  cases body with
  | nil => rfl
  | cons s rest =>
    rw [poolStmts, poolStmt_eq pools s, poolStmts_eq _ rest, stmtsReferences, foldl_append]

end

/-- A call refers to a registered function, with as many arguments as it takes. -/
def Known (registry : Registry) : Reference → Prop
  | .call function argc => ∃ f, function = some f ∧ registry.lookup f.name = some f ∧ f.arity = argc
  | _ => True

/-- What holds of the references of an assignment holds of those of its value. -/
theorem forall_value_references {holds : Reference → Prop} {span target step value symbol}
    (all : ∀ r ∈ (Expr.assign span target step value symbol).references, holds r)
    : ∀ r ∈ value.references, holds r := by
  cases step with
  | none => exact (forall_mem_append.mp all).1
  | some op => exact (forall_mem_append.mp (forall_mem_cons.mp all).2).1

/-- The pools have what a reference needs. -/
def Pools.Provides (pools : Pools) : Reference → Prop
  | .constant v => shortConstant? v = none → v ∈ pools.constants
  | .call (some f) _ => f ∈ pools.functions
  | _ => True

/-- The pools have exactly what the references need, each thing once. -/
structure Pools.Collects (registry : Registry) (references : List Reference) (pools : Pools)
    : Prop where
  provides : ∀ r ∈ references, pools.Provides r
  constants : ∀ v ∈ pools.constants, shortConstant? v = none ∧ .constant v ∈ references
  functions : ∀ f ∈ pools.functions, ∃ argc, .call (some f) argc ∈ references
  registered : pools.Registered registry
  distinctConstants : pools.constants.toList.Nodup
  distinctFunctions : (pools.functions.toList.map (·.name)).Nodup

theorem Pools.Extends.provides (wider : pools.Extends more) {r} (provides : pools.Provides r)
    : more.Provides r := by
  obtain ⟨⟨values, constants⟩, table, functions⟩ := wider
  cases r with
  | constant v => exact fun long => constants ▸ Array.mem_append_left values (provides long)
  | load | store => trivial
  | call function argc =>
    cases function with
    | none => trivial
    | some f => exact (functions ▸ Array.mem_append_left table provides : f ∈ more.functions)

/-- A constant that a pool does not have is added behind the last. -/
theorem withConstant_cases (constants : Array Sample) (v : Sample)
    : v ∈ constants ∧ withConstant constants v = constants
      ∨ v ∉ constants ∧ withConstant constants v = constants.push v := by
  unfold withConstant
  split
  · next inside =>
    have here := Array.getElem_mem inside
    rw [getElem_constantIndex inside] at here
    exact Or.inl ⟨here, rfl⟩
  · next outside =>
    exact Or.inr ⟨fun member => outside (Array.idxOf_lt_length_of_mem member), rfl⟩

/-- A function whose name a table does not have is added behind the last. -/
theorem withFunction_cases (registered : ∀ g ∈ functions, registry.lookup g.name = some g)
    (known : registry.lookup f.name = some f)
    : f ∈ functions ∧ withFunction functions f = functions
      ∨ (∀ g ∈ functions, g.name ≠ f.name)
        ∧ withFunction functions f = functions.push f := by
  unfold withFunction
  split
  · next inside =>
    exact Or.inl ⟨Array.mem_of_getElem? (getElem?_functionIndex registered known inside), rfl⟩
  · next outside =>
    refine Or.inr ⟨fun g member sameName => outside ?_, rfl⟩
    rw [eq_of_name_eq known (registered g member) sameName] at member
    exact functionIndex_lt member

namespace Pools.Collects

variable {r : Reference}

section

variable (collects : pools.Collects registry references)
include collects

theorem constants_append (r)
    : ∀ v ∈ pools.constants, shortConstant? v = none ∧ .constant v ∈ references ++ [r] :=
  fun v member =>
    ⟨(collects.constants v member).1, mem_append_left _ (collects.constants v member).2⟩

theorem functions_append (r)
    : ∀ f ∈ pools.functions, ∃ argc, .call (some f) argc ∈ references ++ [r] := by
  intro f member
  obtain ⟨argc, referred⟩ := collects.functions f member
  exact ⟨argc, mem_append_left _ referred⟩

theorem provides_append (wider : pools.Extends more) (provides : more.Provides r)
    : ∀ r' ∈ references ++ [r], more.Provides r' :=
  forall_mem_append.mpr ⟨fun r' member => wider.provides (collects.provides r' member),
    forall_mem_singleton.mpr provides⟩

theorem same (provides : pools.Provides r)
    : pools.Collects registry (references ++ [r]) where
  provides := forall_mem_append.mpr ⟨collects.provides, forall_mem_singleton.mpr provides⟩
  constants := collects.constants_append r
  functions := collects.functions_append r
  registered := collects.registered
  distinctConstants := collects.distinctConstants
  distinctFunctions := collects.distinctFunctions

theorem withConstant (long : shortConstant? v = none)
    : Collects registry (references ++ [.constant v])
        { pools with constants := withConstant pools.constants v } := by
  rcases withConstant_cases pools.constants v with ⟨old, unchanged⟩ | ⟨new, pushed⟩
  · rw [unchanged]
    exact collects.same fun _ => old
  · rw [pushed]
    have wider : pools.Extends { pools with constants := pools.constants.push v } :=
      ⟨⟨#[v], Array.push_eq_append⟩, #[], Array.append_empty.symm⟩
    refine { collects with
      provides := collects.provides_append wider fun _ => Array.mem_push.mpr (Or.inr rfl)
      constants := ?_
      functions := collects.functions_append _
      distinctConstants := ?_ }
    · intro w member
      rcases Array.mem_push.mp member with member | rfl
      · exact collects.constants_append _ w member
      · exact ⟨long, mem_append_right _ (mem_singleton.mpr rfl)⟩
    · rw [Array.toList_push, ← concat_eq_append]
      exact collects.distinctConstants.concat (new ∘ Array.mem_toList_iff.mp)

theorem withFunction {argc} (known : registry.lookup f.name = some f)
    : Collects registry (references ++ [.call (some f) argc])
        { pools with functions := withFunction pools.functions f } := by
  rcases withFunction_cases collects.registered known with ⟨old, unchanged⟩ | ⟨new, pushed⟩
  · rw [unchanged]
    exact collects.same old
  · rw [pushed]
    have wider : pools.Extends { pools with functions := pools.functions.push f } :=
      ⟨⟨#[], Array.append_empty.symm⟩, #[f], Array.push_eq_append⟩
    refine { collects with
      provides := collects.provides_append wider (Array.mem_push.mpr (Or.inr rfl))
      constants := collects.constants_append _
      functions := ?_
      registered := ?_
      distinctFunctions := ?_ }
    · intro g member
      rcases Array.mem_push.mp member with member | rfl
      · exact collects.functions_append _ g member
      · exact ⟨argc, mem_append_right _ (mem_singleton.mpr rfl)⟩
    · intro g member
      rcases Array.mem_push.mp member with member | rfl
      · exact collects.registered g member
      · exact known
    · rw [Array.toList_push, map_append, map_singleton, ← concat_eq_append]
      refine collects.distinctFunctions.concat fun member => ?_
      obtain ⟨g, old, same⟩ := mem_map.mp member
      exact new g (Array.mem_toList_iff.mp old) same

theorem withReference (known : Known registry r)
    : (pools.withReference r).Collects registry (references ++ [r]) := by
  cases r with
  | constant v =>
    rw [Pools.withReference]
    split
    · next short =>
      refine collects.same fun long => ?_
      rw [long] at short
      cases short
    · next long => exact collects.withConstant (Option.not_isSome_iff_eq_none.mp long)
  | load | store => exact collects.same trivial
  | call function argc =>
    obtain ⟨f, rfl, registered, -⟩ := known
    exact collects.withFunction registered

theorem foldl (known : ∀ r ∈ later, Known registry r)
    : (later.foldl Pools.withReference pools).Collects registry (references ++ later) := by
  induction later generalizing pools references with
  | nil => rwa [append_nil]
  | cons r later ih =>
    obtain ⟨first, others⟩ := forall_mem_cons.mp known
    have whole := ih (collects.withReference first) others
    rwa [append_assoc] at whole

end

end Pools.Collects

theorem known_stmts (body) (resolved : ∀ n ∈ stmtsNodes body, n.Resolved names)
    : ∀ r ∈ stmtsReferences body, Known names.registry r := by
  refine forall_stmts_references body fun n member r refers => ?_
  cases r with
  | constant | load | store => trivial
  | call function argc =>
    obtain ⟨span, name, args, rfl, rfl⟩ := Expr.eq_call_of_ownReferences refers
    obtain ⟨f, rfl, registered, arity⟩ := resolved _ member
    rw [← Registry.name_of_lookup registered] at registered
    exact ⟨f, rfl, registered, arity⟩

/-- The pools for statements that have nothing in front of them. -/
def bodyPools (body : List Stmt) : Pools :=
  poolStmts { constants := #[], functions := #[] } body

theorem collects_bodyPools {body} (resolved : ∀ n ∈ stmtsNodes body, n.Resolved names)
    : (bodyPools body).Collects names.registry (stmtsReferences body) := by
  have nothing : Pools.Collects names.registry [] { constants := #[], functions := #[] } := by
    constructor <;> simp [Pools.Registered]
  rw [bodyPools, poolStmts_eq]
  exact nothing.foldl (known_stmts body resolved)

end Lower

end MapAlgebra
