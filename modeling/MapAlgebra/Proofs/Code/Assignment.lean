import MapAlgebra.Proofs.Code.Landing
import MapAlgebra.Proofs.Eval.Assignment

/-! Definite assignment in code. The code of a tree that loads only variables that hold values loads no
others, whichever way its jumps lead. What holds in front of a piece of code follows from what holds behind
it, for any number of rounds.
-/

namespace MapAlgebra

open Set

namespace Instr

/-- The variable that an instruction loads. -/
def loaded? : Instr → Option Nat
  | loadVar slot => some slot.toNat
  | _ => none

/-- The variable that an instruction stores. -/
def stored? : Instr → Option Nat
  | storeVar slot => some slot.toNat
  | _ => none

end Instr

/-- The instruction that a frame stands in front of. -/
def Machine.ahead? (chunk : Chunk) (f : Frame) : Option Instr :=
  match Instr.decodeAt chunk.code f.ip.toNat with
  | some (.instr i) => if f.ip < 0 then none else some i
  | _ => none

namespace Watch

/-- One round of a chunk, with the load or the store of its instruction noted. -/
def round (chunk : Chunk) (f : Machine.Frame) : WatchM (Option Machine.Frame) := do
  note .load ((Machine.ahead? chunk f).bind Instr.loaded?)
  let next ← unnoted (Machine.round chunk f)
  note .store ((Machine.ahead? chunk f).bind Instr.stored?)
  return next

/-- Makes rounds of a chunk until one of them ends the run. -/
def runFrom (chunk : Chunk) : (fuel : Nat) → Machine.Frame → WatchM Unit
  | 0, _ => throw .unfinished
  | fuel + 1, f => do
    match ← round chunk f with
    | some f => runFrom chunk fuel f
    | none => return

/-- Runs a chunk. -/
def run (chunk : Chunk) (fuel : Nat) : WatchM Unit := do
  unnoted (Machine.reserve chunk.maxStack)
  runFrom chunk fuel { ip := 0, sp := 0 }

theorem mirrors_round (chunk f) : Mirrors (round chunk f) (Machine.round chunk f) := by
  have whole := (Mirrors.note .load ((Machine.ahead? chunk f).bind Instr.loaded?)).bind fun _ =>
    (Mirrors.unnoted (Machine.round chunk f)).bind fun next =>
      (Mirrors.note .store ((Machine.ahead? chunk f).bind Instr.stored?)).bind fun _ => .pure next
  simp only [pure_bind, bind_pure] at whole
  exact whole

/-- Watching a run changes nothing, by induction on the fuel. -/
theorem mirrors_runFrom (chunk : Chunk) (fuel : Nat) (f : Machine.Frame)
    : Mirrors (runFrom chunk fuel f) (Machine.runFrom chunk fuel f) := by
  induction fuel generalizing f with
  | zero => exact .throw _
  | succ fuel ih =>
    intro w
    have first := mirrors_round chunk f w
    rw [Machine.run_runFrom_succ, ← first, runFrom, EStateM.run_bind]
    cases (round chunk f).run w with
    | ok next w' =>
      cases next with
      | some f => exact ih f w'
      | none => rfl
    | error stop w' => rfl

theorem mirrors_run (chunk fuel) : Mirrors (run chunk fuel) (Machine.run chunk fuel) :=
  (Mirrors.unnoted _).bind fun _ => mirrors_runFrom chunk fuel _

end Watch

open Watch (Safe)
open Lower

theorem Watch.Safe.unnoted_bind {α β : Type} {known before after} {m : EvalM α} {next : α → WatchM β}
    (rest : ∀ env a env', m.run env = .ok a env' → Safe known before after (next a))
    : Safe known before after (Watch.unnoted m >>= next) := by
  intro w covered holds
  rw [EStateM.run_bind, show (Watch.unnoted m).run w = Watch.unnoted m w from rfl, Watch.unnoted]
  cases ran : m.run w.env with
  | ok a env => exact rest _ a env ran _ covered holds
  | error stop env => exact ⟨covered, fun _ _ ran => by cases ran⟩

/-- Code with its items, the variables that are known before it runs, and those that have to hold values
when it comes to its end.
-/
structure Course where
  chunk : Chunk
  whole : List Item
  code : chunk.code = (whole.flatMap Item.encode).toArray
  known : Set Nat
  final : Set Nat

namespace Course

variable {c : Course} {held before between after : Set Nat} {items later rest first : List Item}
  {offset depth fuel t : Nat} {i : Instr} {d : Int} {symbol : Option Symbol} {pools : Pools}

/-- From an offset and with so much fuel, a run that starts when some variables hold values is safe. -/
def SafeFrom (c : Course) (fuel offset : Nat) (held : Set Nat) : Prop :=
  ∀ f : Machine.Frame, f.ip = offset → Safe c.known held c.final (Watch.runFrom c.chunk fuel f)

theorem SafeFrom.mono (safe : c.SafeFrom fuel offset held) {more} (less : held ⊆ more)
    : c.SafeFrom fuel offset more :=
  fun f here => (safe f here).mono less subset_rfl

/-- A round is safe if its instruction loads what holds a value and leads only to places that are safe. -/
theorem safeFrom_succ (placed : Placed c.whole offset (.instr i depth :: rest)) (encodable : i.Encodable)
    (loads : slots i.loaded? ⊆ held) (last : i = .finish → c.final ⊆ held)
    (next : i.goesOn = true → c.SafeFrom fuel (offset + i.length) (held ∪ slots i.stored?))
    (target : ∀ d, i.distance? = some d → ∃ t : Nat, (t : Int) = (offset + i.length : Nat) + d
      ∧ c.SafeFrom fuel t held)
    : c.SafeFrom (fuel + 1) offset held := by
  intro f here
  have decoded : Instr.decodeAt c.chunk.code f.ip.toNat = some (.instr i) := by
    rw [c.code, here]
    exact placed.decode encodable
  have inside : ¬ f.ip < 0 := by omega
  have ahead : Machine.ahead? c.chunk f = some i := by
    simp only [Machine.ahead?, decoded, inside, if_false]
  have round : Machine.round c.chunk f = Machine.step c.chunk { f with ip := f.ip + i.length } i := by
    simp only [Machine.round, inside, if_false, decoded]
  simp only [Watch.runFrom, Watch.round, ahead, Option.bind_some, round, bind_assoc, pure_bind]
  refine (Watch.safe_note_load loads).bind fun _ => .unnoted_bind fun env next' env' ran => ?_
  refine (Watch.safe_note_store _).bind fun _ => ?_
  have leads := Machine.gives_step c.chunk _ i env _ env' ran
  cases next' with
  | none => exact (Safe.pure ()).mono subset_rfl ((last leads).trans subset_union_left)
  | some f' =>
    rcases leads.leads with ⟨goes, behind⟩ | ⟨d, jumps, jumped⟩
    · exact next goes f' (by rw [behind, here]; simp)
    · obtain ⟨t, sum, safe⟩ := target d jumps
      exact safe.mono subset_union_left f' (by rw [jumped, sum, here]; simp)

theorem safeFrom_jump (placed : Placed c.whole offset (.instr i depth :: rest))
    (jumps : i.distance? = some d) (fits : fitsDistance d)
    (next : i.goesOn = true → ∀ less < fuel, c.SafeFrom less (offset + i.length) held)
    (leads : (t : Int) = (offset + i.length : Nat) + d) (target : ∀ less < fuel, c.SafeFrom less t held)
    : c.SafeFrom fuel offset held := by
  cases fuel with
  | zero => exact fun _ _ => .throw _
  | succ fuel =>
    have plain : i.loaded? = none ∧ i ≠ .finish ∧ i.Encodable := by
      cases i with
      | jump e | jumpTrue e | jumpFalse e | loop e => cases jumps; exact ⟨rfl, nofun, fits⟩
      | _ => cases jumps
    refine safeFrom_succ placed plain.2.2 (by rw [plain.1]; exact nofun) (absurd · plain.2.1)
      (fun goes => (next goes fuel (Nat.lt_succ_self _)).mono subset_union_left) fun d' jumps' => ?_
    cases jumps.symm.trans jumps'
    exact ⟨t, leads, target fuel (Nat.lt_succ_self _)⟩

/-- A piece of code leads from some variables that hold values to others: a run is safe in front of it if
every run with no more fuel is safe behind it.
-/
def Passes (c : Course) (before : Set Nat) (items : List Item) (after : Set Nat) : Prop :=
  ∀ offset fuel, Placed c.whole offset items
    → (∀ less ≤ fuel, c.SafeFrom less (offset + size items) after)
    → c.SafeFrom fuel offset before

namespace Passes

theorem nil : c.Passes before [] before :=
  fun _ fuel _ behind => behind fuel (Nat.le_refl _)

theorem append (passes : c.Passes before items between) (passes' : c.Passes between later after)
    : c.Passes before (items ++ later) after := by
  intro offset fuel placed behind
  refine passes offset fuel placed.left fun less fewer =>
    passes' _ less placed.right fun less' fewer' => ?_
  rw [Nat.add_assoc, ← size_append]
  exact behind less' (Nat.le_trans fewer' fewer)

theorem mono (passes : c.Passes before items after) {less} (fewer : less ⊆ after)
    : c.Passes before items less :=
  fun offset fuel placed behind => passes offset fuel placed fun n within => (behind n within).mono fewer

theorem mark {p} (passes : c.Passes before items after) : c.Passes before (.mark p :: items) after :=
  fun offset fuel placed behind => passes offset fuel placed.afterMark (by simpa using behind)

/-- An instruction that does not jump. -/
theorem instr (straight : i.distance? = none) (goes : i.goesOn = true) (loads : slots i.loaded? ⊆ before)
    : c.Passes before [.instr i depth] (before ∪ slots i.stored?) := by
  intro offset fuel placed behind
  cases fuel with
  | zero => exact fun _ _ => .throw _
  | succ fuel =>
    refine safeFrom_succ placed (Instr.encodable_of_straight straight) loads ?_
      (fun _ => by simpa using behind fuel (Nat.le_succ _)) (by simp [straight])
    rintro rfl
    cases goes

theorem plain (straight : i.distance? = none) (goes : i.goesOn = true) (loads : i.loaded? = none)
    : c.Passes before [.instr i depth] before :=
  (instr straight goes (by rw [loads]; exact nofun)).mono subset_union_left

theorem load (reads : Addresses .readImage .loadVar symbol i) (loaded : varSlots symbol ⊆ before)
    : c.Passes before [.instr i depth] before := by
  obtain ⟨s, rfl, ⟨isImage, n, -, rfl⟩ | ⟨isVar, n, slot, rfl⟩⟩ := reads
  · exact .plain rfl rfl rfl
  · refine mono (instr rfl rfl ?_) subset_union_left
    rintro _ ⟨⟩
    exact loaded (mem_varSlots.mpr ⟨s, rfl, isVar, slot.symm⟩)

theorem store (writes : Addresses .writeImage .storeVar symbol i)
    : c.Passes before [.instr i depth] (before ∪ varSlots symbol) := by
  obtain ⟨s, rfl, ⟨isImage, n, -, rfl⟩ | ⟨isVar, n, slot, rfl⟩⟩ := writes
  · refine mono (plain rfl rfl rfl) (union_subset subset_rfl fun slot stands => ?_)
    obtain ⟨_, ⟨⟩, isVar, -⟩ := mem_varSlots.mp stands
    cases isImage.symm.trans isVar
  · refine mono (instr rfl rfl fun _ none => by cases none)
      (union_subset_union_right _ fun _ stands => ?_)
    obtain ⟨_, ⟨⟩, -, rfl⟩ := mem_varSlots.mp stands
    exact congrArg some slot

theorem storeTop {keep} (lowered : Lower.storeTop depth keep symbol = .ok items)
    : c.Passes before items (before ∪ varSlots symbol) := by
  obtain ⟨i, writes, rfl⟩ := storeTop_eq_ok lowered
  cases keep with
  | true => exact append (plain rfl rfl rfl) (store writes)
  | false => exact store writes

theorem update {keep decrement front} (loaded : varSlots symbol ⊆ before)
    (lowered : Lower.update depth keep decrement front symbol = .ok items)
    : c.Passes before items (before ∪ varSlots symbol) := by
  obtain ⟨get, reads, ⟨-, -, set, writes, rfl⟩ | ⟨-, stored, written, rfl⟩⟩ := update_eq_ok lowered
  · exact append (load reads loaded) <| append (plain rfl rfl rfl) <| append (plain rfl rfl rfl) <|
      append (plain rfl rfl rfl) (store writes)
  · exact append (load reads loaded) <| append (plain rfl rfl rfl) <| append (plain rfl rfl rfl) <|
      storeTop written

/-- A jump over a piece to its end. -/
theorem skip (jumps : i.distance? = some (size items)) (fits : fitsDistance (size items))
    (passes : c.Passes before items after) (kept : after ⊆ before)
    : c.Passes before (.instr i depth :: items) after := by
  intro offset fuel placed behind
  refine safeFrom_jump placed jumps fits (fun _ less fewer => ?_)
    (t := offset + size (.instr i depth :: items)) (by simp; omega)
    fun less fewer => (behind less (Nat.le_of_lt fewer)).mono kept
  refine passes _ less placed.afterInstr fun less' fewer' => ?_
  simpa [Nat.add_assoc] using behind less' (by omega)

/-- A jump to one of two pieces, which join behind the second. -/
theorem branch {d' : Int} {height : Nat} (jumps : i.distance? = some d) (fits : fitsDistance d)
    (fits' : fitsDistance d') (spans : d = size items + 3) (spans' : d' = size later)
    (passes : c.Passes before items after) (passes' : c.Passes before later after)
    : c.Passes before (.instr i depth :: items ++ .instr (.jump d') height :: later) after := by
  intro offset fuel placed behind
  have leave (less : Nat) (fewer : less ≤ fuel)
      : c.SafeFrom less (offset + size (.instr i depth :: items)) after := by
    refine safeFrom_jump placed.right rfl fits' nofun
      (t := offset + size (.instr i depth :: items ++ .instr (.jump d') height :: later))
      (by simp; omega) fun less' fewer' => behind less' (by omega)
  refine safeFrom_jump placed jumps fits (fun _ less fewer => ?_)
    (t := offset + size (.instr i depth :: items) + 3) (by simp; omega) fun less fewer => ?_
  · refine passes _ less placed.left.afterInstr fun less' fewer' => ?_
    simpa [Nat.add_assoc] using leave less' (by omega)
  · refine passes' _ less placed.right.afterInstr fun less' fewer' => ?_
    simpa [Nat.add_assoc] using behind less' (by omega)

/-- A loop comes back to its test with what held values before, by induction on the fuel. -/
theorem loop (passes : c.Passes before first between) (passes' : c.Passes between items before)
    (fits : fitsDistance (size items + 3 : Nat))
    (fits' : fitsDistance (-(size first + size items + 6 : Nat)))
    : c.Passes before
        (first ++ [.instr (.jumpFalse (size items + 3 : Nat)) 1] ++ items
          ++ [.instr (.loop (-(size first + size items + 6 : Nat))) 0])
        between := by
  intro offset fuel placed behind
  induction fuel using Nat.strongRecOn with
  | ind fuel ih =>
    refine passes offset fuel placed.left.left.left fun less fewer => ?_
    refine safeFrom_jump placed.left.left.right rfl fits (fun _ less' fewer' => ?_)
      (t := offset + size first + 3 + size items + 3) (by simp; omega) fun less' fewer' => ?_
    · refine passes' _ less' (placed.left.right.cast (by simp; omega)) fun less'' fewer'' => ?_
      refine safeFrom_jump (placed.right.cast (by simp; omega)) rfl fits' nofun (t := offset)
        (by simp; omega) fun last fewest => ?_
      exact ih last (by omega) fun n within => behind n (by omega)
    · simpa [Nat.add_assoc] using behind less' (by omega)

end Passes

/-- What the second operand of a logical operator stores is not counted on. -/
theorem passes_logical {truth left right} (codes : CodesLogical pools depth truth left right items)
    (passes : ∀ {first}, expr pools depth left = .ok first → c.Passes before first between)
    (passes' : ∀ {second}, expr pools depth right = .ok second → c.Passes between second between)
    : c.Passes before items between := by
  obtain ⟨first, second, lowered, lowered', fits, rfl⟩ := codes
  have decided : c.Passes between [.instr (decided truth) depth] between := by
    cases truth <;> exact .plain rfl rfl rfl
  have branches : c.Passes between
      (.instr (decidingJump truth (size second + 4 : Nat)) (depth + 1)
        :: (second ++ [.instr .truthy (depth + 1)])
        ++ .instr (.jump 1) (depth + 1) :: [.instr (Lower.decided truth) depth])
      between :=
    .branch (by cases truth <;> rfl) fits rfl (by simp; omega) (by cases truth <;> rfl)
      ((passes' lowered').append (.plain rfl rfl rfl)) decided
  simpa using (passes lowered).append branches

/-- A compound assignment loads its target, and all store the value that they compute. -/
theorem passes_assign {keep span target step value}
    (lowered : assign depth keep symbol (expr pools · value) step = .ok items)
    (definite : (Expr.assign span target step value symbol).Definite before)
    (passes : ∀ {depth items}, expr pools depth value = .ok items → value.Definite before
      → c.Passes before items (before ∪ value.stored))
    : c.Passes before items (before ∪ (Expr.assign span target step value symbol).stored) := by
  rw [Expr.stored, ← union_assoc]
  cases step with
  | none =>
    obtain ⟨first, stored, lowered1, written, rfl⟩ := assign_none lowered
    exact (passes lowered1 definite).append (.storeTop written)
  | some op =>
    obtain ⟨get, second, stored, reads, lowered1, written, rfl⟩ := assign_some lowered
    exact ((Passes.load reads definite.1).append (passes lowered1 definite.2)).append
      ((Passes.plain rfl rfl rfl).append (.storeTop written))

mutual

/-- The code of an expression loads only what holds a value, by induction on it. -/
theorem passes_expr (e : Expr) {items depth before} (lowered : expr pools depth e = .ok items)
    (definite : e.Definite before)
    : c.Passes before items (before ∪ e.stored) := by
  cases e with
  | literal span v =>
    cases lowered
    rw [Expr.stored, union_empty]
    rcases constant_cases pools depth v with ⟨-, same⟩ | ⟨-, same⟩ | ⟨-, same⟩ <;> rw [same]
    all_goals exact .plain rfl rfl rfl
  | read span name symbol =>
    obtain ⟨i, reads, rfl⟩ := load_eq_ok lowered
    rw [Expr.stored, union_empty]
    exact .load reads definite
  | binary span op left right =>
    cases op with
    | arith op =>
      obtain ⟨first, second, lowered1, lowered2, rfl⟩ := expr_arith lowered
      rw [Expr.stored, ← union_assoc]
      exact ((passes_expr left lowered1 definite.1).append (passes_expr right lowered2 definite.2)).append
        (.plain rfl rfl rfl)
    | and =>
      exact passes_logical (expr_and lowered) (passes_expr left · definite.1) fun lowered =>
        (passes_expr right lowered definite.2).mono subset_union_left
    | or =>
      exact passes_logical (expr_or lowered) (passes_expr left · definite.1) fun lowered =>
        (passes_expr right lowered definite.2).mono subset_union_left
  | unary span op operand =>
    obtain ⟨first, lowered1, rfl⟩ := expr_unary lowered
    have passes := passes_expr operand lowered1 definite
    cases op with
    | neg | not => exact passes.append (.plain rfl rfl rfl)
    | plus => exact passes.append .nil
  | assign span target step value symbol =>
    exact passes_assign lowered definite (passes_expr value · ·)
  | update span target decrement front symbol => exact .update definite lowered
  | builtin span name which args =>
    cases lowered
    rw [Expr.stored, union_empty]
    exact .plain rfl rfl rfl
  | call span name args function =>
    obtain ⟨f, code, rfl, lowered1, rfl⟩ := expr_call lowered
    exact (passes_exprs args lowered1 definite).append (.plain rfl rfl rfl)

theorem passes_exprs (es) {items depth before} (lowered : exprs pools depth es = .ok items)
    (definite : exprsDefinite before es)
    : c.Passes before items (before ∪ exprsStored es) := by
  cases es with
  | nil =>
    cases lowered
    rw [exprsStored, union_empty]
    exact .nil
  | cons e rest =>
    obtain ⟨first, more, lowered1, lowered2, rfl⟩ := exprs_cons lowered
    rw [exprsStored, ← union_assoc]
    exact (passes_expr e lowered1 definite.1).append (passes_exprs rest lowered2 definite.2)

end

theorem passes_effect {e} (lowered : effect pools e = .ok items) (definite : e.Definite before)
    : c.Passes before items (before ∪ e.stored) := by
  have popped {e : Expr}
      (lowered : (do return (← expr pools 0 e) ++ [.instr .pop 1] : Lowered) = .ok items)
      (definite : e.Definite before)
      : c.Passes before items (before ∪ e.stored) := by
    obtain ⟨code, lowered1, rfl⟩ := popped_eq_ok lowered
    exact (passes_expr e lowered1 definite).append (.plain rfl rfl rfl)
  cases e with
  | assign span target step value symbol =>
    exact passes_assign lowered definite (passes_expr value · ·)
  | update span target decrement front symbol => exact .update definite lowered
  | literal | read | binary | unary | builtin | call => exact popped lowered definite

mutual

/-- The code of a statement loads only what holds a value, by induction on it. -/
theorem passes_stmt (s : Stmt) {items before} (lowered : stmt pools s = .ok items)
    (definite : s.Definite before)
    : c.Passes before items (before ∪ s.stored) := by
  cases s with
  | expr e =>
    obtain ⟨code, lowered1, rfl⟩ := stmt_expr lowered
    exact (passes_effect lowered1 definite).mark
  | block span body =>
    obtain ⟨code, lowered1, rfl⟩ := stmt_block lowered
    rw [Stmt.stored, union_empty]
    exact ((passes_stmts body lowered1 definite).mono subset_union_left).mark
  | ifThen span test yes =>
    obtain ⟨first, branch, lowered1, lowered2, fits, rfl⟩ := stmt_ifThen lowered
    have yes := (passes_stmt yes lowered2 definite.2).mono subset_union_left
    simpa [Stmt.stored] using ((passes_expr test lowered1 definite.1).append
      (.skip (i := .jumpFalse (size branch)) rfl fits yes subset_rfl)).mark
  | ifElse span test yes no =>
    obtain ⟨first, branch, other, lowered1, lowered2, lowered3, fits, fits', rfl⟩ :=
      stmt_ifElse lowered
    have yes := (passes_stmt yes lowered2 definite.2.1).mono subset_union_left
    have no := (passes_stmt no lowered3 definite.2.2).mono subset_union_left
    simpa [Stmt.stored] using ((passes_expr test lowered1 definite.1).append
      (.branch (i := .jumpFalse (size branch + 3 : Nat)) rfl fits fits' rfl rfl yes no)).mark
  | loop span test body =>
    obtain ⟨first, round, lowered1, lowered2, fits, fits', rfl⟩ := stmt_loop lowered
    have again := (passes_stmt body lowered2 definite.2).mono
      (subset_union_left.trans subset_union_left)
    exact (Passes.loop (passes_expr test lowered1 definite.1) again fits fits').mark

theorem passes_stmts (body) {items before} (lowered : stmts pools body = .ok items)
    (definite : stmtsDefinite before body)
    : c.Passes before items (before ∪ stmtsStored body) := by
  cases body with
  | nil =>
    cases lowered
    rw [stmtsStored, union_empty]
    exact .nil
  | cons s rest =>
    obtain ⟨first, more, lowered1, lowered2, rfl⟩ := stmts_cons lowered
    rw [stmtsStored, ← union_assoc]
    exact (passes_stmt s lowered1 definite.1).append (passes_stmts rest lowered2 definite.2)

end

end Course

/-- The chunk of statements that load only what holds a value does so as well. -/
theorem Watch.safe_chunk {name table body chunk known before}
    (lowered : Lower.chunk name table body = .ok chunk) (definite : stmtsDefinite before body) (fuel : Nat)
    : Safe known before (before ∪ stmtsStored body) (run chunk fuel) := by
  obtain ⟨items, found, code, -⟩ := chunk_eq_ok lowered
  let c : Course := ⟨chunk, items ++ [.instr .finish 0], code, known, before ∪ stmtsStored body⟩
  have placed := Placed.all c.whole
  have passes : c.Passes before items (before ∪ stmtsStored body) :=
    Course.passes_stmts body found definite
  refine (Safe.unnoted _).bind fun _ => passes 0 fuel placed.left (fun less fewer => ?_) _ rfl
  cases less with
  | zero => exact fun _ _ => .throw _
  | succ less =>
    exact Course.safeFrom_succ placed.right trivial nofun (fun _ => subset_rfl) nofun nofun

end MapAlgebra
