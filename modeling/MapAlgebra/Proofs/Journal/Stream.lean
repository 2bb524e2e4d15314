import MapAlgebra.Journal.Stream
import MapAlgebra.Proofs.Raster.Container
import MapAlgebra.Proofs.Text.Spelling

/-! What was written into a stream is read out of it, up to wherever the stream was cut off: the records
that are whole give their entries, and what is left of the next one gives none.
-/

namespace MapAlgebra

open List
open Cbor

/-- A zero that is not the negative one is the one that missing fractions are read as. -/
theorem Sample.eq_zero_of_isZero {s} (isZero : s.isZero = true) (sign : s ≠ zero.neg)
    : s = zero := by
  rw [isZero_eq, decide_eq_true_eq] at isZero
  have same := eq_withSign (Nat.zero_le _) rfl isZero
  cases negative : s.isNegative with
  | true =>
    rw [negative] at same
    exact absurd same.symm sign
  | false =>
    rw [negative] at same
    exact same.symm

namespace Notice

/-- The notice has the job, the kind, the fraction and the cause of an event that a record keeps, and
its time is a word.
-/
structure Recordable (n : Notice) (time : Int) : Prop where
  identity : n.job.bytes.length = 16
  kind : EventKind.ofNumber n.kind.number = n.kind
  kindWord : -2 ^ 63 ≤ n.kind.number ∧ n.kind.number < 2 ^ 63
  number : n.fraction.isNaN = false
  sign : n.fraction ≠ Sample.zero.neg
  short : (Text.toBytes n.cause).length < 2 ^ 64
  timeWord : -2 ^ 63 ≤ time ∧ time < 2 ^ 63

variable {n : Notice} {time : Int}

theorem readable_streamRecord (recordable : n.Recordable time)
    : Readable maxLevels (n.streamRecord time) := by
  rcases recordable with ⟨identity, -, kindWord, number, -, short, timeWord⟩
  have key {k : Nat} (small : k < 2 ^ 64) : Readable 31 (.unsigned k) := .unsigned small
  have job : Readable 31 (.octets [n.job.bytes]) := .octets (by omega)
  have kind := readable_ofInt kindWord.1 kindWord.2 31
  have fraction := (shortest_ofSample n.fraction).readable 31
  have cause : Readable 31 (.ofText n.cause) := .text short
  have told := readable_ofInt timeWord.1 timeWord.2 31
  simp only [streamRecord, number]
  cases n.fraction.isZero with
  | true =>
    cases n.cause.isEmpty with
    | true =>
      apply Readable.map (show _ = 2 * 3 from rfl) (by decide)
      simp [key, job, kind, told]
    | false =>
      apply Readable.map (show _ = 2 * 4 from rfl) (by decide)
      simp [key, job, kind, cause, told]
  | false =>
    cases n.cause.isEmpty with
    | true =>
      apply Readable.map (show _ = 2 * 4 from rfl) (by decide)
      simp [key, job, kind, fraction, told]
    | false =>
      apply Readable.map (show _ = 2 * 5 from rfl) (by decide)
      simp [key, job, kind, fraction, cause, told]

/-- The fields of a record; those that were left out are nothing. -/
theorem toRecord?_streamRecord (number : n.fraction.isNaN = false) (time : Int)
    : ∃ fields, (n.streamRecord time).toRecord? = some fields
        ∧ field fields 1 = .octets [n.job.bytes]
        ∧ field fields 2 = .ofInt n.kind.number
        ∧ field fields 3 = (if n.fraction.isZero then .null else .ofSample n.fraction)
        ∧ field fields 4 = (if n.cause.isEmpty then .null else .ofText n.cause)
        ∧ field fields 5 = .ofInt time := by
  simp only [streamRecord, number]
  cases n.fraction.isZero <;> cases n.cause.isEmpty <;>
    exact ⟨_, rfl, rfl, rfl, rfl, rfl, rfl⟩

theorem toText?_ofText (s) : (ofText s).toText? = some s := by
  simp [ofText, toText?, Text.ofBytes?_toBytes, String.join]

/-- The entry of a record is that of its notice: what was left out is read as what it was left out
for.
-/
theorem entry_streamRecord (recordable : n.Recordable time) (seq : Nat)
    : EventStream.entry seq (n.streamRecord time) = .ok (n.entry seq time) := by
  rcases recordable with ⟨identity, kind, kindWord, number, sign, -, timeWord⟩
  obtain ⟨fields, record, first, second, third, fourth, fifth⟩ :=
    toRecord?_streamRecord number time
  have job : (field fields 1).toBytes? = some n.job.bytes := by
    rw [first, toBytes?, flatten_singleton]
  have kinds : (field fields 2).toInt? = some n.kind.number := by
    rw [second, toInt?_ofInt kindWord.1 kindWord.2]
  have fraction : (field fields 3).toSample? = some n.fraction := by
    rw [third]
    split
    · next zero => rw [Sample.eq_zero_of_isZero zero sign]; rfl
    · exact (shortest_ofSample n.fraction).toSample?
  have cause : (field fields 4).toText? = some n.cause := by
    rw [fourth]
    split
    · next empty => rw [String.isEmpty_iff.mp empty]; rfl
    · exact toText?_ofText n.cause
  have told : (field fields 5).toInt? = some time := by
    rw [fifth, toInt?_ofInt timeWord.1 timeWord.2]
  have id : JobId.ofBytes n.job.bytes = .ok n.job := if_pos identity
  simp [EventStream.entry, record, job, kinds, fraction, cause, told, id, kind, entry]

end Notice

namespace EventStream

/-- The bytes of the records of notices with their times, one after another. -/
def records (told : List (Notice × Int)) : Bytes :=
  told.flatMap fun (n, time) => (n.streamRecord time).encode

/-- The entries of notices with their times, counted from a number on. -/
def entriesFrom (seq : Nat) (told : List (Notice × Int)) : List Entry :=
  (told.zipIdx seq).map fun ((n, time), seq) => n.entry seq time

theorem records_cons (n time) (told : List (Notice × Int))
    : records ((n, time) :: told) = (n.streamRecord time).encode ++ records told :=
  flatMap_cons

theorem records_prefix {told told'} (part : told <+: told') : records told <+: records told' := by
  rcases part with ⟨rest, rfl⟩
  rw [records, records, flatMap_append]
  exact prefix_append _ _

end EventStream

namespace StreamWriter

open EventStream

/-- Writes notices with their times one after another. -/
def writeAll (w : StreamWriter) (told : List (Notice × Int)) : StreamWriter :=
  told.foldl (fun w (n, time) => w.write n time) w

variable {w : StreamWriter}

theorem writeAll_of_failed (failed : w.failed = true) (told : List (Notice × Int))
    : w.writeAll told = w := by
  induction told with
  | nil => rfl
  | cons first told ih =>
    have here : w.write first.1 first.2 = w := if_pos failed
    calc
      w.writeAll (first :: told) = (w.write first.1 first.2).writeAll told := rfl
      _ = w := by rw [here, ih]

/-- One write adds the whole record, or fails and adds nothing; without a limit it does not fail. -/
theorem write_cases (live : w.failed = false) (n : Notice) (time : Int)
    : w.write n time = { w with written := w.written ++ (n.streamRecord time).encode }
      ∨ w.room ≠ none ∧ w.write n time = { w with failed := true } := by
  unfold write
  rw [live, if_neg Bool.false_ne_true]
  cases room : w.room with
  | none => exact Or.inl rfl
  | some limit =>
    dsimp only
    split
    · exact Or.inl rfl
    · exact Or.inr ⟨nofun, rfl⟩

/-- The stream has the records of the notices up to the first that failed. -/
theorem written_writeAll (live : w.failed = false) (told : List (Notice × Int))
    : ∃ done, done <+: told ∧ (w.writeAll told).written = w.written ++ records done
        ∧ ((w.writeAll told).failed = false → done = told)
        ∧ (w.room = none → (w.writeAll told).failed = false) := by
  induction told generalizing w with
  | nil => exact ⟨[], prefix_refl [], (append_nil _).symm, fun _ => rfl, fun _ => live⟩
  | cons first told ih =>
    rcases first with ⟨n, time⟩
    have next : w.writeAll ((n, time) :: told) = (w.write n time).writeAll told := rfl
    rcases write_cases live n time with added | ⟨limited, failed⟩
    · rw [next, added]
      obtain ⟨done, part, written, whole, unlimited⟩ :=
        ih (w := { w with written := w.written ++ (n.streamRecord time).encode }) live
      refine ⟨(n, time) :: done, ?_, ?_, ?_, unlimited⟩
      · exact (prefix_cons_inj _).mpr part
      · rw [written, records_cons, ← append_assoc]
      · intro alive
        rw [whole alive]
    · rw [next, failed, writeAll_of_failed rfl]
      refine ⟨[], nil_prefix, (append_nil _).symm, ?_, ?_⟩
      · exact fun alive => nomatch alive
      · exact fun unlimited => absurd unlimited limited

end StreamWriter

namespace EventStream

variable {n : Notice} {time : Int}

theorem encode_ne_nil (recordable : n.Recordable time) : (n.streamRecord time).encode ≠ [] := by
  intro nothing
  have read := rules.reads (Notice.readable_streamRecord recordable) []
  rw [nothing] at read
  exact nomatch read

theorem readFrom_nil (fuel seq) : readFrom fuel seq [] = ([], none) := by
  cases fuel <;> rfl

theorem readFrom_record (recordable : n.Recordable time) (fuel seq rest)
    : readFrom (fuel + 1) seq ((n.streamRecord time).encode ++ rest)
      = (n.entry seq time :: (readFrom fuel (seq + 1) rest).1, (readFrom fuel (seq + 1) rest).2) := by
  have read := rules.reads (Notice.readable_streamRecord recordable) rest
  have some : ((n.streamRecord time).encode ++ rest).isEmpty = false := by
    rw [isEmpty_eq_false_iff]
    exact append_ne_nil_of_left_ne_nil (encode_ne_nil recordable) rest
  rw [readFrom, some, read]
  simp [Notice.entry_streamRecord recordable]

/-- What is left of a record that was cut off gives nothing but an error. -/
theorem readFrom_cut (recordable : n.Recordable time) {front missing}
    (parts : (n.streamRecord time).encode = front ++ missing) (cut : missing ≠ [])
    (started : front ≠ []) (fuel seq : Nat)
    : readFrom fuel seq front = ([], some .malformed) := by
  have unread := rules.cut (Notice.readable_streamRecord recordable) parts cut
  have some : front.isEmpty = false := isEmpty_eq_false_iff.mpr started
  cases fuel with
  | zero => rw [readFrom, some]; rfl
  | succ fuel => rw [readFrom, some, unread]; rfl

/-- The records that are whole in the front of a stream are read, and there is an error unless that is
all of it.
-/
theorem readFrom_prefix {told : List (Notice × Int)} (recordable : ∀ e ∈ told, e.1.Recordable e.2)
    {front : Bytes} (part : front <+: records told) (seq fuel : Nat) (enough : front.length ≤ fuel)
    : ∃ k ≤ told.length, (∀ m ≤ told.length, records (told.take m) <+: front ↔ m ≤ k)
        ∧ (readFrom fuel seq front).1 = entriesFrom seq (told.take k)
        ∧ ((readFrom fuel seq front).2 = none ↔ front = records (told.take k)) := by
  induction told generalizing front seq fuel with
  | nil =>
    obtain rfl := prefix_nil.mp part
    refine ⟨0, Nat.le_refl 0, ?_, ?_, ?_⟩
    · intro m small
      exact iff_of_true (by simp [records]) small
    · rw [readFrom_nil]
      rfl
    · rw [readFrom_nil]
      exact iff_of_true rfl rfl
  | cons first told ih =>
    rcases first with ⟨n, time⟩
    have others := (forall_mem_cons.mp recordable).2
    have here : n.Recordable time := (forall_mem_cons.mp recordable).1
    rw [records_cons] at part
    by_cases whole : (n.streamRecord time).encode <+: front
    · rcases whole with ⟨rest, rfl⟩
      have behind : rest <+: records told := (prefix_append_right_inj _).mp part
      cases fuel with
      | zero =>
        have nothing := length_eq_zero_iff.mp (Nat.le_zero.mp enough)
        exact absurd (append_eq_nil_iff.mp nothing).1 (encode_ne_nil here)
      | succ fuel =>
        have shorter : rest.length ≤ fuel := by
          have some := length_pos_iff.mpr (encode_ne_nil here)
          rw [length_append] at enough
          omega
        obtain ⟨k, within, count, entries, error⟩ := ih others behind (seq + 1) fuel shorter
        rw [readFrom_record here]
        refine ⟨k + 1, Nat.succ_le_succ within, ?_, ?_, ?_⟩
        · intro m small
          cases m with
          | zero => exact iff_of_true nil_prefix (Nat.zero_le _)
          | succ m =>
            rw [take_succ_cons, records_cons, prefix_append_right_inj,
              count m (Nat.le_of_succ_le_succ small), Nat.succ_le_succ_iff]
        · exact congrArg (n.entry seq time :: ·) entries
        · rw [take_succ_cons, records_cons, append_cancel_left_eq]
          exact error
    · -- Only what is left of the first record stands here.
      have front_encode : front <+: (n.streamRecord time).encode :=
        (List.prefix_or_prefix_of_prefix part (prefix_append _ _)).resolve_right whole
      refine ⟨0, Nat.zero_le _, ?_, ?_⟩
      · intro m small
        cases m with
        | zero => exact iff_of_true nil_prefix (Nat.le_refl 0)
        | succ m =>
          refine iff_of_false ?_ (Nat.not_succ_le_zero m)
          intro longer
          rw [take_succ_cons, records_cons] at longer
          exact whole ((prefix_append _ _).trans longer)
      · rcases front_encode with ⟨missing, parts⟩
        have cut : missing ≠ [] := by
          rintro rfl
          rw [append_nil] at parts
          exact whole (parts ▸ prefix_refl front)
        by_cases started : front = []
        · subst started
          rw [readFrom_nil]
          exact ⟨rfl, iff_of_true rfl rfl⟩
        · rw [readFrom_cut here parts.symm cut started]
          exact ⟨rfl, iff_of_false nofun started⟩

/-- What is read out of any front part of a written stream. The stream holds the records of the notices
that were written, all of them unless a write failed, which none does without a limit. Of any front part
of it the records that are whole in it are read, in order and numbered from one, with the job, kind,
fraction, cause and time that were written. There is no error if and only if the part ends where a record
does.
-/
theorem read_writeAll {told : List (Notice × Int)} (recordable : ∀ e ∈ told, e.1.Recordable e.2)
    (room : Option Nat)
    : let writer := (StreamWriter.create room).writeAll told
      ∃ done, done <+: told ∧ writer.written = records done
        ∧ (writer.failed = false → done = told) ∧ (room = none → writer.failed = false)
        ∧ ∀ front, front <+: writer.written →
          ∃ k ≤ done.length, (∀ m ≤ done.length, records (done.take m) <+: front ↔ m ≤ k)
            ∧ (read front).1 = entriesFrom 1 (done.take k)
            ∧ ((read front).2 = none ↔ ∃ m, front = records (done.take m)) := by
  obtain ⟨done, part, written, whole, unlimited⟩ :=
    StreamWriter.written_writeAll (w := .create room) rfl told
  refine ⟨done, part, written, whole, unlimited, ?_⟩
  intro front cut
  have recorded : ∀ e ∈ done, e.1.Recordable e.2 := fun e member =>
    recordable e (part.subset member)
  rw [written] at cut
  obtain ⟨k, within, count, entries, error⟩ :=
    readFrom_prefix recorded cut 1 front.length (Nat.le_refl _)
  refine ⟨k, within, count, entries, error.trans ⟨fun ends => ⟨k, ends⟩, ?_⟩⟩
  -- A part that ends where a record does has no more whole records than it is made of.
  rintro ⟨m, rfl⟩
  have clipped : done.take m = done.take (min m done.length) := by
    rw [← take_take, take_length]
  rw [clipped] at count ⊢
  have fewer : min m done.length ≤ k :=
    (count _ (Nat.min_le_right _ _)).mp (prefix_refl _)
  have longer : records (done.take (min m done.length)) <+: records (done.take k) :=
    records_prefix ((take_prefix_take_left fewer))
  exact longer.eq_of_length_le ((count k within).mpr (Nat.le_refl k)).length_le

/-- Half of a job done and its failure a second before the epoch, with a cause of two bytes. -/
def ended : List (Notice × Int) :=
  let job : JobId := ⟨List.replicate 16 0xAB⟩
  [({ job, kind := .progress, fraction := ⟨0x3FE0000000000000⟩, cause := "" }, 5),
    ({ job, kind := .failure, fraction := .zero, cause := "é" }, -1000000000)]

/-- Without its last byte, the stream gives the first event and an error. -/
theorem read_writeAll_ended
    : let cut := ((StreamWriter.create none).writeAll ended).written.dropLast
      (∀ e ∈ ended, e.1.Recordable e.2) ∧ (read cut).1 = entriesFrom 1 (ended.take 1)
        ∧ (read cut).2 ≠ none := by
  intro cut
  have recordable : ∀ e ∈ ended, e.1.Recordable e.2 := by
    simp only [ended, forall_mem_cons, not_mem_nil, false_implies, implies_true, and_true]
    constructor
    · exact ⟨rfl, rfl, by decide, by decide, by decide, by decide +kernel, by decide⟩
    · exact ⟨rfl, rfl, by decide, by decide, by decide, by decide +kernel, by decide⟩
  have first : records (ended.take 1) <+: cut := by decide +kernel
  have second : ¬ records (ended.take 2) <+: cut := by decide +kernel
  obtain ⟨done, -, -, whole, unlimited, parts⟩ := read_writeAll recordable none
  obtain rfl := whole (unlimited rfl)
  obtain ⟨k, -, count, entries, error⟩ := parts cut (List.dropLast_prefix _)
  have one : k = 1 := by
    have atLeast := (count 1 (by decide)).mp first
    have below := mt (count 2 (by decide)).mpr second
    omega
  refine ⟨recordable, by rw [entries, one], ?_⟩
  intro ends
  rcases error.mp ends with ⟨m, same⟩
  rcases m with _ | _ | m
  · exact absurd same (by decide +kernel)
  · exact absurd same (by decide +kernel)
  · apply second
    rw [same]
    exact records_prefix (take_prefix_take_left (by omega))

end EventStream

end MapAlgebra
