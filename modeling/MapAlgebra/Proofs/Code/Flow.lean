import MapAlgebra.Proofs.Code.Expressions

/-! How heights of the stack flow through code. Wherever an instruction leads, the instruction that
stands there is noted with the height that the first one leaves.
-/

namespace MapAlgebra

open List

namespace Instr

/-- The instruction refers to no constant, function, variable or image. -/
def plain : Instr → Bool
  | const _ | loadVar _ | storeVar _ | readImage _ | writeImage _ | call .. => false
  | _ => true

/-- The instruction jumps backward only if it counts a round of a loop. -/
def Directed : Instr → Prop
  | jump d | jumpTrue d | jumpFalse d => 0 ≤ d
  | _ => True

theorem encodable_of_straight {i : Instr} (straight : i.distance? = none) : i.Encodable := by
  cases i with
  | jump d | jumpTrue d | jumpFalse d | loop d => exact nomatch straight
  | _ => trivial

end Instr

namespace Lower

variable {level : Prop} {ok : Instr → Prop} {whole items first second rest : List Item}
  {offset depth before between after : Nat} {i : Instr}

/-- The instruction that starts at an offset, with the height noted at it. -/
def noted? : List Item → (offset : Nat) → Option (Instr × Nat)
  | [], _ => none
  | .mark _ :: rest, offset => noted? rest offset
  | .instr i depth :: rest, offset =>
    if offset = 0 then some (i, depth)
    else if i.length ≤ offset then noted? rest (offset - i.length)
    else none

/-- What is placed at an offset is noted there, by induction on the items in front of it. -/
theorem noted?_append : noted? (first ++ .instr i depth :: rest) (size first) = some (i, depth) := by
  induction first with
  | nil => rfl
  | cons item first ih =>
    cases item with
    | mark p => simpa [noted?] using ih
    | instr j d =>
      have notEmpty : j.length ≠ 0 := Nat.ne_of_gt j.length_pos
      simpa [noted?, notEmpty] using ih

theorem Placed.noted (placed : Placed whole offset (.instr i depth :: rest))
    : noted? whole offset = some (i, depth) := by
  obtain ⟨before, after, rfl, rfl⟩ := placed
  rw [append_assoc]
  exact noted?_append

/-- What is noted at an offset is placed there, by induction on the items. -/
theorem placed_of_noted (noted : noted? whole offset = some (i, depth))
    : ∃ rest, Placed whole offset (.instr i depth :: rest) := by
  induction whole generalizing offset with
  | nil => exact nomatch noted
  | cons item whole ih =>
    cases item with
    | mark p =>
      obtain ⟨rest, before, after, rfl, start⟩ := ih noted
      exact ⟨rest, .mark p :: before, after, by simp, by simpa using start⟩
    | instr j d =>
      rw [noted?] at noted
      split at noted
      · rename_i first
        cases noted
        exact ⟨whole, [], [], by simp, by simp [first]⟩
      · split at noted
        · rename_i behind
          obtain ⟨rest, before, after, rfl, start⟩ := ih noted
          exact ⟨rest, .instr j d :: before, after, by simp, by simp; omega⟩
        · exact nomatch noted

/-- An instruction starts at an offset. If heights are level, it is noted with the one that is given. -/
def Enters (level : Prop) (whole : List Item) (offset depth : Nat) : Prop :=
  ∃ i noted, noted? whole offset = some (i, noted) ∧ (level → noted = depth)

theorem Enters.of_noted (noted : noted? whole offset = some (i, depth))
    : Enters level whole offset depth :=
  ⟨i, depth, noted, fun _ => rfl⟩

theorem Placed.enters (placed : Placed whole offset (.instr i depth :: rest))
    : Enters level whole offset depth :=
  .of_noted placed.noted

theorem Enters.cast {offset' depth'} (enters : Enters level whole offset depth)
    (same : offset = offset') (height : level → depth = depth')
    : Enters level whole offset' depth' := by
  obtain ⟨i, noted, here, level⟩ := enters
  exact ⟨i, noted, same ▸ here, fun exactly => (level exactly).trans (height exactly)⟩

theorem Enters.move {offset'} (enters : Enters level whole offset depth) (same : offset = offset')
    : Enters level whole offset' depth :=
  same ▸ enters

theorem Enters.noted (enters : Enters True whole offset depth)
    : ∃ i, noted? whole offset = some (i, depth) := by
  obtain ⟨i, noted, here, level⟩ := enters
  exact ⟨i, level trivial ▸ here⟩

/-- An instruction finds the values it takes, and wherever it leads the height it leaves is the one
that is noted. The last instruction finds nothing on the stack. What an instruction refers to is all
right.
-/
structure Steady (level : Prop) (ok : Instr → Prop) (whole : List Item) (offset depth : Nat) (i : Instr)
    : Prop where
  encodable : i.Encodable
  directed : i.Directed
  enough : i.pops ≤ depth
  next : i.goesOn = true → Enters level whole (offset + i.length) (i.heightAfter depth)
  target : ∀ d, i.distance? = some d → ∃ t : Nat, (t : Int) = (offset + i.length : Nat) + d
    ∧ Enters level whole t (i.heightAfter depth)
  last : i = .finish → depth = 0
  operand : i.plain = true ∨ ok i

theorem Steady.exists_enters (steady : Steady level ok whole offset depth i)
    : i = .finish ∨ ∃ target, Enters level whole target (i.heightAfter depth) := by
  cases i with
  | finish => exact Or.inl rfl
  | jump d | loop d =>
    obtain ⟨target, -, enters⟩ := steady.target d rfl
    exact Or.inr ⟨target, enters⟩
  | _ => exact Or.inr ⟨_, steady.next rfl⟩

/-- All instructions of a piece are steady, and a place of the script starts with nothing on the
stack.
-/
def AllSteady (level : Prop) (ok : Instr → Prop) (whole : List Item) : (offset : Nat) → List Item → Prop
  | _, [] => True
  | offset, .mark _ :: rest => Enters level whole offset 0 ∧ AllSteady level ok whole offset rest
  | offset, .instr i depth :: rest =>
    Steady level ok whole offset depth i ∧ AllSteady level ok whole (offset + i.length) rest

/-- Pieces in sequence are steady if each is, by induction on the first. -/
theorem allSteady_append
    : AllSteady level ok whole offset (first ++ second)
      ↔ AllSteady level ok whole offset first ∧ AllSteady level ok whole (offset + size first) second := by
  induction first generalizing offset with
  | nil => simp [AllSteady]
  | cons item first ih =>
    cases item with
    | mark p => simp [AllSteady, ih, and_assoc]
    | instr i d => simp [AllSteady, ih, Nat.add_assoc, and_assoc]

/-- Code at an offset that is entered with one height and left with another: if what comes behind it is
noted with the second, all of it is steady and it is noted with the first.
-/
def Flows (level : Prop) (ok : Instr → Prop) (whole : List Item) (offset before : Nat)
    (items : List Item) (after : Nat) : Prop :=
  Placed whole offset items → Enters level whole (offset + size items) after
    → AllSteady level ok whole offset items ∧ Enters level whole offset before

theorem Flows.nil : Flows level ok whole offset depth [] depth :=
  fun _ enters => ⟨trivial, enters⟩

theorem Flows.append (flows : Flows level ok whole offset before first between)
    (flows' : Flows level ok whole (offset + size first) between second after)
    : Flows level ok whole offset before (first ++ second) after := by
  intro placed enters
  rw [size_append, ← Nat.add_assoc] at enters
  obtain ⟨steady', entered'⟩ := flows' placed.right enters
  obtain ⟨steady, entered⟩ := flows placed.left entered'
  exact ⟨allSteady_append.mpr ⟨steady, steady'⟩, entered⟩

theorem Flows.mark {p} (flows : Flows level ok whole offset 0 items after)
    : Flows level ok whole offset 0 (.mark p :: items) after := by
  intro placed enters
  obtain ⟨steady, entered⟩ := flows placed.afterMark (by simpa using enters)
  exact ⟨⟨entered, steady⟩, entered⟩

theorem Flows.instr (straight : i.distance? = none) (goes : i.goesOn = true)
    (enough : i.pops ≤ before) (leaves : level → i.heightAfter before = after)
    (operand : i.plain = true ∨ ok i)
    : Flows level ok whole offset before [.instr i before] after := by
  intro placed enters
  refine ⟨⟨⟨Instr.encodable_of_straight straight, ?_, enough, fun _ => ?_, fun d jumps => ?_,
    fun last => ?_, operand⟩, trivial⟩, placed.enters⟩
  · cases i with
    | jump d | jumpTrue d | jumpFalse d => exact nomatch straight
    | _ => trivial
  · exact enters.cast (by simp) fun level => (leaves level).symm
  · rw [straight] at jumps
    exact nomatch jumps
  · rw [last] at goes
    exact nomatch goes

/-- A jump lets heights flow when the place it leads to is entered with the height it leaves, and so is
the place behind it, if it goes on there.
-/
theorem Flows.jump {t d} (jumps : i.distance? = some d) (fits : fitsDistance d)
    (directed : i.Directed) (enough : i.pops ≤ depth)
    (goes : i.goesOn = true → i.heightAfter depth = after)
    (target : Enters level whole t (i.heightAfter depth))
    (leads : (t : Int) = (offset + i.length : Nat) + d)
    : Flows level ok whole offset depth [.instr i depth] after := by
  intro placed enters
  refine ⟨⟨⟨?_, directed, enough, fun on => ?_, fun d' jumps' => ?_, fun last => ?_, Or.inl ?_⟩,
    trivial⟩, placed.enters⟩
  · cases i with
    | jump e | jumpTrue e | jumpFalse e | loop e => cases jumps; exact fits
    | _ => trivial
  · exact enters.cast (by simp) fun _ => (goes on).symm
  · rw [jumps] at jumps'
    cases jumps'
    exact ⟨t, leads, target⟩
  · rw [last] at jumps
    exact nomatch jumps
  · cases i with
    | jump e | jumpTrue e | jumpFalse e | loop e => rfl
    | _ => exact nomatch jumps

variable {pools : Pools} {references : List Reference}

theorem plain_of_not_refers (silent : i.refers = false) : i.plain = true := by
  cases i with
  | const | loadVar | storeVar | readImage | writeImage | call => cases silent
  | _ => rfl

/-- What the instruction of a reference refers to is all right. If heights are level, the number of
arguments of a call fits into its operand.
-/
structure Sends (level : Prop) (ok : Instr → Prop) (pools : Pools) (r : Reference) : Prop where
  operand : ∀ i, Emits pools r i → i.plain = true ∨ ok i
  few : level → ∀ f argc, r = .call (some f) argc → argc ≤ 255

theorem sends_constant {v} (sent : Chunk.shortConstant? v = none
      → ok (.const (Chunk.constantIndex pools.constants v).toUInt16))
    : Sends level ok pools (.constant v) := by
  refine ⟨?_, by rintro _ _ _ ⟨⟩⟩
  rintro i (⟨-, rfl⟩ | ⟨-, rfl⟩ | ⟨long, rfl⟩)
  · exact Or.inl rfl
  · exact Or.inl rfl
  · exact Or.inr (sent long)

/-- The instruction of a reference takes and leaves what the reference says, by cases on the reference. -/
theorem Sends.flows {r} (sends : Sends level ok pools r) (emits : Emits pools r i)
    : Flows level ok whole offset (depth + r.takes) [.instr i (depth + r.takes)] (depth + r.leaves) := by
  have operand := sends.operand i emits
  cases r with
  | constant v =>
    obtain ⟨-, rfl⟩ | ⟨-, rfl⟩ | ⟨-, rfl⟩ := emits
    all_goals exact .instr rfl rfl (Nat.zero_le _) (fun _ => rfl) operand
  | load symbol =>
    obtain ⟨s, -, ⟨-, n, -, rfl⟩ | ⟨-, n, -, rfl⟩⟩ := emits
    all_goals exact .instr rfl rfl (Nat.zero_le _) (fun _ => rfl) operand
  | store symbol =>
    obtain ⟨s, -, ⟨-, n, -, rfl⟩ | ⟨-, n, -, rfl⟩⟩ := emits
    all_goals exact .instr rfl rfl (Nat.le_add_left 1 depth) (fun _ => rfl) operand
  | call function argc =>
    obtain ⟨f, rfl, rfl⟩ := emits
    have count : argc.toUInt8.toNat = argc % 256 := by
      simp only [Nat.toUInt8_eq, UInt8.toNat_ofNat']
    refine .instr rfl rfl ?_ (fun level => ?_) operand
    · rw [Instr.pops_call, count, Reference.takes]
      omega
    · have few := sends.few level _ _ rfl
      rw [Instr.heightAfter_call, count, Nat.mod_eq_of_lt (Nat.lt_succ_of_le few), Reference.takes,
        Nat.add_sub_cancel]
      rfl

theorem flows_decided (truth)
    : Flows level ok whole offset depth [.instr (decided truth) depth] (depth + 1) := by
  cases truth with
  | true => exact .instr rfl rfl (Nat.zero_le _) (fun _ => rfl) (Or.inl rfl)
  | false => exact .instr rfl rfl (Nat.zero_le _) (fun _ => rfl) (Or.inl rfl)

theorem flows_decidingJump {truth} {bytes t : Nat} (fits : fitsDistance bytes)
    (target : Enters level whole t depth) (leads : t = offset + 3 + bytes)
    : Flows level ok whole offset (depth + 1) [.instr (decidingJump truth bytes) (depth + 1)] depth := by
  cases truth with
  | true =>
    exact .jump rfl fits (Int.natCast_nonneg _) (Nat.le_add_left 1 depth) (fun _ => rfl) target
      (by simp; omega)
  | false =>
    exact .jump rfl fits (Int.natCast_nonneg _) (Nat.le_add_left 1 depth) (fun _ => rfl) target
      (by simp; omega)

/-- The first operand decides with its value taken off the stack, as the second leaves it. -/
theorem flows_logical {truth}
    (flows : ∀ offset, Flows level ok whole offset depth first (depth + 1))
    (flows' : ∀ offset, Flows level ok whole offset depth second (depth + 1))
    (fits : fitsDistance (size second + 4 : Nat)) (offset : Nat)
    : Flows level ok whole offset depth
        (first ++ [.instr (decidingJump truth (size second + 4 : Nat)) (depth + 1)] ++ second
          ++ [.instr .truthy (depth + 1), .instr (.jump 1) (depth + 1),
            .instr (decided truth) depth])
        (depth + 1) := by
  intro placed enters
  have placedDecided := placed.right.afterInstr.afterInstr
  refine (((flows offset).append ?_).append (flows' _)).append ?_ placed enters
  · exact flows_decidingJump fits placedDecided.enters (by simp; omega)
  · have truthy (offset : Nat)
        : Flows level ok whole offset (depth + 1) [.instr .truthy (depth + 1)] (depth + 1) :=
      .instr rfl rfl (Nat.le_add_left 1 depth) (fun _ => rfl) (Or.inl rfl)
    refine (truthy _).append (show Flows _ _ _ _ _ ([_] ++ [_]) _ from ?_)
    refine Flows.append ?_ (flows_decided truth)
    exact .jump rfl rfl (Int.natCast_nonneg 1) (Nat.zero_le _) nofun enters (by simp; omega)

section

variable (flows : ∀ offset, Flows level ok whole offset 0 first 1)
include flows

/-- A branch is entered and left with an empty stack, as it is when it is jumped over. -/
theorem flows_ifThen {branch} (flows' : ∀ offset, Flows level ok whole offset 0 branch 0)
    (fits : fitsDistance (size branch)) (offset : Nat)
    : Flows level ok whole offset 0 (first ++ [.instr (.jumpFalse (size branch)) 1] ++ branch) 0 := by
  intro placed enters
  refine ((flows offset).append ?_).append (flows' _) placed enters
  exact .jump rfl fits (Int.natCast_nonneg _) (Nat.le_refl 1) (fun _ => rfl) enters (by simp; omega)

/-- Both branches are entered and left with an empty stack, and join behind the second. -/
theorem flows_ifElse {branch other} (flows' : ∀ offset, Flows level ok whole offset 0 branch 0)
    (flows'' : ∀ offset, Flows level ok whole offset 0 other 0)
    (fits : fitsDistance (size branch + 3 : Nat)) (fits' : fitsDistance (size other)) (offset : Nat)
    : Flows level ok whole offset 0
        (first ++ [.instr (.jumpFalse (size branch + 3 : Nat)) 1] ++ branch
          ++ [.instr (.jump (size other)) 0] ++ other)
        0 := by
  intro placed enters
  obtain ⟨-, entersOther⟩ := flows'' _ placed.right (enters.move (by simp; omega))
  refine ((((flows offset).append ?_).append (flows' _)).append ?_).append (flows'' _) placed enters
  · exact .jump rfl fits (Int.natCast_nonneg _) (Nat.le_refl 1) (fun _ => rfl) entersOther
      (by simp; omega)
  · exact .jump rfl fits' (Int.natCast_nonneg _) (Nat.zero_le _) nofun enters (by simp; omega)

/-- A loop comes back to its test with an empty stack, and leaves it so. -/
theorem flows_loop {round} (flows' : ∀ offset, Flows level ok whole offset 0 round 0)
    (fits : fitsDistance (size round + 3 : Nat))
    (fits' : fitsDistance (-(size first + size round + 6 : Nat))) (offset : Nat)
    : Flows level ok whole offset 0
        (first ++ [.instr (.jumpFalse (size round + 3 : Nat)) 1] ++ round
          ++ [.instr (.loop (-(size first + size round + 6 : Nat))) 0])
        0 := by
  intro placed enters
  obtain ⟨-, entersFirst⟩ := flows offset placed.left.left.left placed.left.left.right.enters
  refine (((flows offset).append ?_).append (flows' _)).append ?_ placed enters
  · exact .jump rfl fits (Int.natCast_nonneg _) (Nat.le_refl 1) (fun _ => rfl) enters (by simp; omega)
  · exact .jump rfl fits' trivial (Nat.zero_le _) nofun entersFirst (by simp; omega)

end

/-- Heights flow through every piece of code, by induction on how it is put together. -/
theorem Coded.flows (coded : Coded pools references before items after)
    (sends : ∀ r ∈ references, Sends level ok pools r)
    : ∀ offset, Flows level ok whole offset before items after := by
  induction coded with
  | nil => exact fun _ => .nil
  | append _ _ ih ih' =>
    obtain ⟨left, right⟩ := forall_mem_append.mp sends
    exact fun offset => (ih left offset).append (ih' right _)
  | mark _ ih => exact fun offset => (ih sends offset).mark
  | plain silent straight goes enough leaves =>
    exact fun _ => .instr straight goes enough (fun _ => leaves) (Or.inl (plain_of_not_refers silent))
  | one depth emits takes leaves =>
    subst takes leaves
    exact fun _ => (sends _ (mem_singleton.mpr rfl)).flows emits
  | logical truth _ _ fits ih ih' =>
    obtain ⟨operands, -⟩ := forall_mem_append.mp sends
    obtain ⟨left, right⟩ := forall_mem_append.mp operands
    exact flows_logical (ih left) (ih' right) fits
  | ifThen _ _ fits ih ih' =>
    obtain ⟨test, yes⟩ := forall_mem_append.mp sends
    exact flows_ifThen (ih test) (ih' yes) fits
  | ifElse _ _ _ fits fits' ih ih' ih'' =>
    obtain ⟨front, no⟩ := forall_mem_append.mp sends
    obtain ⟨test, yes⟩ := forall_mem_append.mp front
    exact flows_ifElse (ih test) (ih' yes) (ih'' no) fits fits'
  | loop _ _ fits fits' ih ih' =>
    obtain ⟨test, body⟩ := forall_mem_append.mp sends
    exact flows_loop (ih test) (ih' body) fits fits'

/-- Code with the instruction that ends a run behind it is steady from its first instruction on. -/
theorem steady_code {body} (sends : ∀ r ∈ stmtsReferences body, Sends level ok pools r)
    (lowered : stmts pools body = .ok items)
    : AllSteady level ok (items ++ [.instr .finish 0]) 0 (items ++ [.instr .finish 0])
      ∧ Enters level (items ++ [.instr .finish 0]) 0 0 := by
  have placed := Placed.all (items ++ [.instr .finish 0])
  obtain ⟨steady, enters⟩ := (coded_stmts body lowered).flows sends 0 placed.left placed.right.enters
  exact ⟨allSteady_append.mpr ⟨steady, ⟨trivial, trivial, Nat.zero_le _, nofun, nofun, fun _ => rfl,
    Or.inl rfl⟩, trivial⟩, enters⟩

theorem AllSteady.placed (all : AllSteady level ok whole 0 whole) (placed : Placed whole offset items)
    : ∃ after, AllSteady level ok whole offset (items ++ after) := by
  obtain ⟨before, after, split, rfl⟩ := placed
  have steady : AllSteady level ok whole 0 (before ++ (items ++ after)) := by
    rw [← append_assoc, ← split]
    exact all
  exact ⟨after, by simpa using (allSteady_append.mp steady).2⟩

theorem AllSteady.steady (all : AllSteady level ok whole 0 whole)
    (noted : noted? whole offset = some (i, depth))
    : Steady level ok whole offset depth i := by
  obtain ⟨rest, placed⟩ := placed_of_noted noted
  obtain ⟨after, steady⟩ := all.placed placed
  exact steady.1

end Lower

end MapAlgebra
