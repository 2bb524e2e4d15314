import MapAlgebra.Proofs.Code.Landing

/-! How generated code is laid out. Whole instructions stand one behind the other up to the end, with the
one that ends a run as the last, and every jump leads to the start of one of them. So the listing of a
chunk has one line for each of its instructions.
-/

namespace MapAlgebra

open List
open Text
open Instr

namespace Instr

/-- Instructions that stand one behind the other from an offset up to the end of code, each with the
offset where it starts.
-/
inductive Covers (code : Array UInt8) : Nat → List (Nat × Instr) → Prop
  | done : Covers code code.size []
  | next {offset i rest}
    (decoded : decodeAt code offset = some (.instr i)) (covers : Covers code (offset + i.length) rest)
    : Covers code offset ((offset, i) :: rest)

theorem Covers.le_size {code offset found} (covers : Covers code offset found)
    : offset ≤ code.size := by
  induction covers with
  | done => exact Nat.le_refl _
  | next _ _ ih => omega

end Instr

namespace Lower

variable {level : Prop} {ok : Instr → Prop} {whole items first second rest : List Item}
  {offset depth : Nat} {i : Instr} {chunk : Chunk}

/-- The instructions of items that start at an offset, each with its own. -/
def located : (offset : Nat) → List Item → List (Nat × Instr)
  | _, [] => []
  | offset, .mark _ :: rest => located offset rest
  | offset, .instr i _ :: rest => (offset, i) :: located (offset + i.length) rest

theorem located_append
    : located offset (first ++ second)
      = located offset first ++ located (offset + size first) second := by
  induction first generalizing offset with
  | nil => rfl
  | cons item first ih =>
    cases item with
    | mark p => simpa [located] using ih
    | instr i d => simp [located, ih, Nat.add_assoc]

/-- The located instructions are those that are noted, by induction on the items. -/
theorem mem_located {t}
    : (t, i) ∈ located offset items
      ↔ offset ≤ t ∧ ∃ depth, noted? items (t - offset) = some (i, depth) := by
  induction items generalizing offset with
  | nil => simp [located, noted?]
  | cons item items ih =>
    cases item with
    | mark p => exact ih
    | instr j d =>
      have positive := j.length_pos
      simp only [located, mem_cons, Prod.mk.injEq, ih, noted?, Nat.sub_eq_zero_iff_le]
      by_cases first : t ≤ offset
      · rw [if_pos first]
        constructor
        · rintro (⟨rfl, rfl⟩ | ⟨behind, -⟩)
          · exact ⟨Nat.le_refl _, d, rfl⟩
          · omega
        · rintro ⟨after, depth, here⟩
          cases here
          exact Or.inl ⟨by omega, rfl⟩
      · rw [if_neg first, Nat.sub_sub, or_iff_right fun same => first (Nat.le_of_eq same.1)]
        split
        · next behind => exact and_congr_left fun _ => by omega
        · next short => exact iff_of_false (by omega) (by simp)

/-- An instruction starts behind the end of any that starts before it, by induction on the items. -/
theorem noted?_apart {offset' depth' j} (noted : noted? items offset = some (i, depth))
    (noted' : noted? items offset' = some (j, depth')) (before : offset < offset')
    : offset + i.length ≤ offset' := by
  induction items generalizing offset offset' with
  | nil => cases noted
  | cons item items ih =>
    cases item with
    | mark p => exact ih noted noted' before
    | instr k d =>
      rw [noted?] at noted noted'
      rw [if_neg (by omega)] at noted'
      split at noted' <;> split at noted
      · cases noted; omega
      · split at noted
        · have apart := ih noted noted' (by omega)
          omega
        · cases noted
      · cases noted'
      · cases noted'

/-- The code of items is covered by their instructions, by induction on the items that are left. -/
theorem covers_items {before} (split : whole = before ++ items)
    (encodable : ∀ i depth, .instr i depth ∈ whole → i.Encodable)
    : Covers (whole.flatMap Item.encode).toArray (size before) (located (size before) items) := by
  induction items generalizing before with
  | nil =>
    have size : (whole.flatMap Item.encode).toArray.size = size before := by
      rw [size_toArray, length_flatMap_encode, split, append_nil]
    rw [← size]
    exact .done
  | cons item items ih =>
    have rest := ih (split.trans (append_cons ..))
    rw [size_append] at rest
    cases item with
    | mark p => exact rest
    | instr i depth =>
      have placed : Placed whole (size before) (.instr i depth :: items) :=
        ⟨before, [], by simpa using split, rfl⟩
      exact .next (placed.decode (encodable i depth placed.mem)) rest

theorem Laid.covers (laid : Laid level ok whole chunk) : Covers chunk.code 0 (located 0 whole) := by
  rw [laid.code]
  refine covers_items (nil_append _).symm fun i depth member => ?_
  obtain ⟨offset, steady⟩ := laid.all.exists_steady member
  exact steady.encodable

/-- The bytes of an instruction stand where it is placed. -/
theorem Placed.getElem?_encode (placed : Placed whole offset (.instr i depth :: rest)) {k}
    (inside : k < i.length)
    : (whole.flatMap Item.encode).toArray[offset + k]? = i.encode[k]? := by
  obtain ⟨before, after, rfl, start⟩ := placed
  have behind : k < i.encode.length := by rw [length_encode]; exact inside
  have length := length_flatMap_encode before
  simp only [flatMap_append, flatMap_cons, Item.encode, List.getElem?_toArray,
    append_assoc]
  rw [List.getElem?_append_right (by omega), show offset + k - (before.flatMap Item.encode).length = k by
    omega, List.getElem?_append_left behind]

end Lower

namespace Text

@[simp] theorem lineFeed_notMem_toDigits (n : Nat) : '\n' ∉ Nat.toDigits 10 n :=
  fun member => absurd (Nat.isDigit_of_mem_toDigits (by decide) (by decide) member) (by decide)

theorem lineFeed_notMem_signed (d) : '\n' ∉ (signed d).toList := by
  unfold signed
  split <;> cases d <;> simp [toString, Int.repr]

/-- Upper-case digits are no line feeds, by induction on the number. -/
@[simp] theorem lineFeed_notMem_hexUpper (width n : Nat) : '\n' ∉ (hexUpper width n).toList := by
  have digit : ∀ k < 16, (Nat.digitChar k).toUpper ≠ '\n' := by decide +kernel
  have digits : '\n' ∉ (Nat.toDigits 16 n).map Char.toUpper := by
    induction n using Nat.strongRecOn with
    | ind n ih =>
      rw [Nat.toDigits_eq_if (by decide)]
      split
      · next small => simpa [eq_comm] using digit n small
      · next large =>
        rw [map_append, mem_append, not_or]
        exact ⟨ih _ (by omega), by simpa [eq_comm] using digit _ (Nat.mod_lt n (by decide))⟩
  simp [hexUpper, padLeft, digits]

end Text

theorem Decimal.lineFeed_notMem_render (limit) (d : Decimal) : '\n' ∉ (d.render limit).toList := by
  have digits : '\n' ∉ d.digits := fun member =>
    lineFeed_notMem_toDigits d.mantissa
      (by simpa using (dropWhile_sublist _).mem (mem_reverse.mp member))
  have tail : '\n' ∉ d.digits.tail := fun member => digits (mem_of_mem_tail member)
  have front (n : Nat) : '\n' ∉ d.digits.take n := fun member => digits (mem_of_mem_take member)
  have back (n : Nat) : '\n' ∉ d.digits.drop n := fun member => digits (mem_of_mem_drop member)
  dsimp only [render]
  repeat' split
  all_goals simp [padLeft, digits, tail, front, back]

theorem Sample.lineFeed_notMem_render (s : Sample) : '\n' ∉ s.render.toList := by
  unfold render renderWith
  split
  · decide
  · split <;> decide
  · dsimp only
    split <;> split <;> simp [Decimal.lineFeed_notMem_render]

theorem Opcode.lineFeed_notMem_name (op : Opcode) : '\n' ∉ op.name.toList := by
  cases op with
  | builtin which => cases which <;> simp [name]
  | arith op => cases op <;> simp [name]
  | _ => simp [name]

namespace Chunk

variable {c : Chunk} {offset : Nat} {i : Instr}

/-- The name that the listing of an instruction cites. -/
def cited? (c : Chunk) : Instr → Option String
  | .loadVar n | .storeVar n => c.varNames[n.toNat]?
  | .readImage n | .writeImage n => c.imageNames[n.toNat]?
  | .call f _ => c.functions[f.toNat]?.map (·.name)
  | _ => none

theorem lineFeed_notMem_noteFor {note} (unbroken : ∀ text ∈ note, '\n' ∉ text.toList)
    : '\n' ∉ (noteFor note).toList := by
  cases note with
  | none => simp [noteFor]
  | some text => simpa [noteFor] using unbroken text rfl

/-- The listing of an instruction has a line feed only in the name that it cites, by cases on the
instruction.
-/
theorem lineFeed_notMem_renderInstr (unbroken : ∀ name ∈ c.cited? i, '\n' ∉ name.toList)
    : '\n' ∉ (c.renderInstr offset i).toList := by
  have name := i.opcode.lineFeed_notMem_name
  have cited := lineFeed_notMem_noteFor unbroken
  cases i with
  | const n =>
    have note : '\n' ∉ (noteFor (c.constants[n.toNat]?.map Sample.render)).toList := by
      refine lineFeed_notMem_noteFor fun text given => ?_
      obtain ⟨v, -, rfl⟩ := Option.map_eq_some_iff.mp given
      exact v.lineFeed_notMem_render
    simpa [renderInstr, toString, name] using note
  | loadVar n | storeVar n | readImage n | writeImage n | call f argc =>
    simpa [renderInstr, toString, name, cited?] using cited
  | jump d | jumpTrue d | jumpFalse d | loop d =>
    have place : '\n' ∉ (hexUpperInt 4 (offset + 3 + d)).toList := by
      unfold hexUpperInt
      split <;> simp
    simpa [renderInstr, name, lineFeed_notMem_signed] using place
  | _ => exact name

/-- The line of an instruction in the listing of a chunk. -/
def entry (c : Chunk) (found : Nat × Instr) : String :=
  c.renderLine found.1 (c.renderInstr found.1 found.2)

/-- The line of an instruction starts with its offset and ends with the only line feed, unless there is
one in the name that it cites.
-/
def HasLine (c : Chunk) (offset : Nat) (i : Instr) : Prop :=
  ∃ text, c.entry (offset, i) = hexUpper 4 offset ++ "  " ++ text ++ "\n"
    ∧ ((∀ name ∈ c.cited? i, '\n' ∉ name.toList)
      → '\n' ∉ (hexUpper 4 offset ++ "  " ++ text).toList)

theorem hasLine (c : Chunk) (offset i) : c.HasLine offset i := by
  have plain (unbroken : ∀ name ∈ c.cited? i, '\n' ∉ name.toList)
      : '\n' ∉ (hexUpper 4 offset ++ "  " ++ c.renderInstr offset i).toList := by
    simpa using lineFeed_notMem_renderInstr unbroken
  simp only [HasLine, entry, renderLine]
  split
  · next mark _ =>
    split
    · refine ⟨padRight ' ' 30 (c.renderInstr offset i) ++ " ; line " ++ toString mark.line ++ ":"
        ++ toString mark.column, ?_, fun unbroken => ?_⟩
      · simp [toString, String.append_assoc]
      · simpa [padRight] using lineFeed_notMem_renderInstr unbroken
    · exact ⟨_, rfl, plain⟩
  · exact ⟨_, rfl, plain⟩

/-- A listing has the lines of the instructions that cover the code, by induction on them. -/
theorem renderFrom_eq {found} (covers : Covers c.code offset found) {fuel}
    (enough : c.code.size ≤ offset + fuel)
    : c.renderFrom fuel offset = found.map c.entry := by
  induction covers generalizing fuel with
  | done =>
    cases fuel with
    | zero => rfl
    | succ fuel => simp [renderFrom]
  | @next offset i rest decoded covers ih =>
    have positive := i.length_pos
    have inside := covers.le_size
    obtain ⟨more, rfl⟩ : ∃ more, fuel = more + 1 := ⟨fuel - 1, by omega⟩
    simp only [renderFrom, if_pos (show offset < c.code.size by omega), renderAt, decoded]
    rw [ih (by omega)]
    rfl

/-- A jump with a distance leads to a target: its two bytes tell the distance, and are no longer the ones
that stand for a distance not known yet. The machine goes there, or behind the jump if that goes on, and
the listing says the same place.
-/
structure JumpsTo (c : Chunk) (offset : Nat) (i : Instr) (d : Int) (target : Nat) : Prop where
  sum : (target : Int) = offset + 3 + d
  bytes : ∃ high low, c.code[offset + 1]? = some high ∧ c.code[offset + 2]? = some low
    ∧ ofDistanceWord high low = d ∧ ¬ (high = 0xFF ∧ low = 0xFF)
  machine : ∀ (f f' : Machine.Frame) env env', f.ip = offset → (Machine.round c f).run env = .ok (some f') env'
    → f'.ip = target ∨ i.goesOn = true ∧ f'.ip = offset + 3
  listing : c.renderInstr offset i
    = i.opcode.name ++ " " ++ signed d ++ " ; -> " ++ hexUpper 4 target

/-- The code of a chunk is made of whole instructions, which are found at their offsets. The last of them
ends a run. Every jump leads to one of them, and the listing has one line for each.
-/
structure LaidOut (c : Chunk) (found : List (Nat × Instr)) : Prop where
  covers : Covers c.code 0 found
  ends : found.getLast? = some (c.code.size - 1, .finish)
  jumps : ∀ offset i d, (offset, i) ∈ found → i.distance? = some d
    → ∃ target j, (target, j) ∈ found ∧ c.JumpsTo offset i d target
  listing : ∃ header, c.render = header ++ "; Code:\n" ++ String.join (found.map c.entry)
  lines : ∀ offset i, (offset, i) ∈ found → c.HasLine offset i

end Chunk

theorem Instr.length_of_jumps {i : Instr} {d} (jumps : i.distance? = some d) : i.length = 3 := by
  cases i with
  | jump | jumpTrue | jumpFalse | loop => rfl
  | _ => cases jumps

theorem Instr.encode_of_jumps {i : Instr} {d} (jumps : i.distance? = some d)
    : i.encode = i.opcode.byte :: distanceWord d := by
  cases i with
  | jump | jumpTrue | jumpFalse | loop => cases jumps; rfl
  | _ => cases jumps

theorem Chunk.renderInstr_of_jumps {c : Chunk} {offset target : Nat} {i d}
    (jumps : i.distance? = some d) (sum : (target : Int) = offset + 3 + d)
    : c.renderInstr offset i
      = i.opcode.name ++ " " ++ signed d ++ " ; -> " ++ hexUpper 4 target := by
  have place : hexUpperInt 4 (offset + 3 + d) = hexUpper 4 target := by
    rw [← sum, hexUpperInt, if_neg (by omega), Int.natAbs_natCast]
  cases i with
  | jump | jumpTrue | jumpFalse | loop => cases jumps; rw [← place]; rfl
  | _ => cases jumps

namespace Lower

variable {ok : Instr → Prop} {whole : List Item} {chunk : Chunk} {offset depth : Nat} {i : Instr}

/-- Every jump of steady code leads to an instruction. -/
theorem Laid.jumpsTo {d : Int} (laid : Laid False ok whole chunk)
    (noted : noted? whole offset = some (i, depth)) (jumps : i.distance? = some d)
    : ∃ target j depth', noted? whole target = some (j, depth') ∧ chunk.JumpsTo offset i d target := by
  have steady := laid.all.steady noted
  have length := length_of_jumps jumps
  obtain ⟨rest, placed⟩ := placed_of_noted noted
  obtain ⟨target, sum, j, depth', there, -⟩ := steady.target d jumps
  rw [length] at sum
  refine ⟨target, j, depth', there, sum, ?_, fun f f' env env' here ran => ?_,
    Chunk.renderInstr_of_jumps jumps sum⟩
  · have fits : fitsDistance d := by
      have encodable := steady.encodable
      cases i with
      | jump | jumpTrue | jumpFalse | loop => cases jumps; exact encodable
      | _ => cases jumps
    obtain ⟨high, low, bytes, distance⟩ := ofDistanceWord_distanceWord fits
    have byte (k : Nat) (inside : k < 3) : chunk.code[offset + k]? = i.encode[k]? := by
      rw [laid.code]
      exact placed.getElem?_encode (length ▸ inside)
    rw [encode_of_jumps jumps, bytes] at byte
    refine ⟨high, low, byte 1 (by decide), byte 2 (by decide), distance, ?_⟩
    -- With these bytes the distance would be -1, and lead into the jump itself.
    rintro ⟨rfl, rfl⟩
    have back : ofDistanceWord 0xFF 0xFF = -1 := by decide
    have apart := noted?_apart noted there (by omega)
    omega
  · have stands : Machine.Stands False whole f i depth :=
      ⟨by omega, by rw [here, Int.toNat_natCast]; exact noted, False.elim⟩
    rw [stands.round_eq laid] at ran
    rcases (Machine.gives_step chunk _ i env _ env' ran).leads with ⟨goes, next⟩ | ⟨e, jumps', leads⟩
    · exact Or.inr ⟨goes, by rw [next, length, here]; rfl⟩
    · cases jumps.symm.trans jumps'
      exact Or.inl (by rw [leads, sum, length, here]; rfl)

theorem laidOut_chunk {name table body} (lowered : Lower.chunk name table body = .ok chunk)
    : ∃ found, chunk.LaidOut found := by
  obtain ⟨items, -, laid⟩ := laid_chunk lowered fun r _ => sends_any r
  have covers := laid.covers
  refine ⟨_, covers, ?_, fun offset i d member jumps => ?_, ?_, fun offset i _ => chunk.hasLine offset i⟩
  · have size : chunk.code.size = size items + 1 := by
      rw [laid.code, size_toArray, length_flatMap_encode, size_append]
      rfl
    rw [located_append, size]
    simp [located]
  · obtain ⟨-, depth, noted⟩ := mem_located.mp member
    obtain ⟨target, j, depth', there, leads⟩ := laid.jumpsTo noted jumps
    exact ⟨target, j, mem_located.mpr ⟨Nat.zero_le _, depth', there⟩, leads⟩
  · rw [Chunk.render, Chunk.renderFrom_eq covers (by omega)]
    exact ⟨_, rfl⟩

end Lower

/-- Every chunk that a script is lowered to is laid out: it is made of whole instructions and ends with the
one that ends a run, all its jumps lead to instructions, and its listing has one line for each of them.
-/
theorem lower_laidOut {program : Program} {table : SymbolTable} {code : ScriptCode}
    (lowered : lower program table = .ok code)
    : ∀ chunk ∈ code.chunks, ∃ found, chunk.LaidOut found := by
  obtain ⟨init, body⟩ := lower_eq_ok lowered
  intro chunk member
  rcases mem_append.mp member with first | last
  · obtain ⟨-, absent⟩ | ⟨block, chunk', -, present, initLowered⟩ := init
    · simp [absent] at first
    · cases (by simpa [present] using first : chunk = chunk')
      exact Lower.laidOut_chunk initLowered
  · cases mem_singleton.mp last
    exact Lower.laidOut_chunk body

theorem lower_laidOut_halving
    : ∃ code, lower halving.resolution.program halving.resolution.table = .ok code
      ∧ decodeAt code.body.code 38 = some (.instr (.loop (-37)))
      ∧ ∀ chunk ∈ code.chunks, ∃ found, chunk.LaidOut found :=
  ⟨_, rfl, by decide +kernel,
    @lower_laidOut halving.resolution.program halving.resolution.table _ rfl⟩

end MapAlgebra
