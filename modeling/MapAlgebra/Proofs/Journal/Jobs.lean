import Mathlib.Algebra.BigOperators.Group.List.Lemmas
import MapAlgebra.Proofs.Journal.Agreement

/-! All jobs of a journal at once and each by itself: both ways tell the same, however the events of the
jobs were recorded among each other.
-/

namespace MapAlgebra.Journal

open List

/-- An event that is recorded, and when. -/
structure Recording where
  notice : Notice
  time : Int

/-- A recording is of a job, and its event is of one of the three kinds. -/
structure Recording.Valid (r : Recording) : Prop where
  identity : r.notice.job.bytes.length = 16
  kind : r.notice.kind ∈ [EventKind.progress, .completion, .failure]

/-- The journal once some events were recorded in order. What it refuses changes nothing. -/
def recordAll (j : Journal) (log : List Recording) : Journal :=
  log.foldl (fun j r => (j.record r.notice r.time).toOption.getD j) j

/-- The recordings that a journal takes, numbered from one: those whose fraction is a number. -/
def taken (log : List Recording) : List (Recording × Nat) :=
  (log.filter (!·.notice.fraction.isNaN)).zipIdx 1

/-- The entry for a recording with its number. -/
def entryOf (r : Recording × Nat) : Entry :=
  r.1.notice.kept.entry r.2 r.1.time

def rowOf (r : Recording × Nat) : JournalRow :=
  row r.1.notice.kept r.2 r.1.time

theorem recordAll_eq (log)
    : empty.recordAll log = { rows := (taken log).map rowOf, isOpen := true } := by
  induction log using List.reverseRecOn with
  | nil => rfl
  | append_singleton log r ih =>
    have last : empty.recordAll (log ++ [r])
        = ((empty.recordAll log).record r.notice r.time).toOption.getD (empty.recordAll log) :=
      foldl_concat ..
    rw [last, ih]
    cases number : r.notice.fraction.isNaN with
    | true =>
      have refused : taken (log ++ [r]) = taken log := by simp [taken, number]
      rw [refused, record, insert]
      simp [number, Except.toOption]
    | false =>
      have more : taken (log ++ [r]) = taken log ++ [(r, (taken log).length + 1)] := by
        simp [taken, number, zipIdx_append, Nat.add_comm]
      rw [more, record_of_number rfl number, map_append, length_map]
      rfl

variable {log : List Recording}

theorem valid_of_taken (valid : ∀ r ∈ log, r.Valid) {r} (member : r ∈ taken log) : r.1.Valid :=
  valid _ (mem_of_mem_filter (fst_mem_of_mem_zipIdx member))

/-- Rows are read back as the entries that were put in. -/
theorem mapM_rowOf {rows : List (Recording × Nat)} (valid : ∀ r ∈ rows, r.1.Valid)
    : (rows.map rowOf).mapM JournalRow.entry = .ok (rows.map entryOf) := by
  induction rows with
  | nil => rfl
  | cons r rest ih =>
    obtain ⟨first, others⟩ := forall_mem_cons.mp valid
    have named : EventKind.ofName? r.1.notice.kind.name = some r.1.notice.kind := by
      have kind := first.kind
      simp only [mem_cons, not_mem_nil, or_false] at kind
      rcases kind with kind | kind | kind <;> rw [kind] <;> rfl
    have entry : (rowOf r).entry = .ok (entryOf r) := entry_row (n := r.1.notice.kept) first.identity named _ _
    rw [map_cons, mapM_cons, entry, ih others]
    rfl

theorem events_recordAll (valid : ∀ r ∈ log, r.Valid) {id : JobId} (identity : id.bytes.length = 16)
    : (empty.recordAll log).events id = .ok (((taken log).map entryOf).filter (·.job == id)) := by
  have own : ∀ r ∈ taken log, ((rowOf r).job == id.render) = ((entryOf r).job == id) := by
    intro r member
    rw [Bool.eq_iff_iff, beq_iff_eq, beq_iff_eq]
    exact JobId.render_inj (valid_of_taken valid member).identity identity
  rw [recordAll_eq, events, filter_map, filter_map]
  refine (mapM_rowOf fun r member => ?_).trans ?_
  · exact valid_of_taken valid (mem_of_mem_filter member)
  · exact congrArg (fun rows => Except.ok (rows.map entryOf)) (filter_congr own)

theorem jobIds_concat (entries e)
    : jobIds (entries ++ [e])
      = if (jobIds entries).contains e.job then jobIds entries else jobIds entries ++ [e.job] :=
  foldl_concat ..

theorem mem_jobIds {entries id} : id ∈ jobIds entries ↔ id ∈ entries.map (·.job) := by
  induction entries using List.reverseRecOn with
  | nil => rfl
  | append_singleton entries e ih =>
    rw [jobIds_concat, map_append, mem_append, ← ih, map_singleton, mem_singleton]
    split
    · next old =>
      refine ⟨Or.inl, ?_⟩
      rintro (known | rfl)
      · exact known
      · exact contains_iff_mem.mp old
    · rw [mem_append, mem_singleton]

/-- The jobs are listed once each, in the order in which they first appear. -/
theorem pairwise_jobIds (entries : List Entry)
    : (jobIds entries).Pairwise fun id id' =>
        (entries.map (·.job)).idxOf id < (entries.map (·.job)).idxOf id' := by
  induction entries using List.reverseRecOn with
  | nil => exact .nil
  | append_singleton entries e ih =>
    have known {id : JobId} (here : id ∈ jobIds entries)
        : ((entries ++ [e]).map (·.job)).idxOf id = (entries.map (·.job)).idxOf id := by
      rw [map_append, idxOf_append_of_mem (mem_jobIds.mp here)]
    have old : (jobIds entries).Pairwise fun id id' =>
        ((entries ++ [e]).map (·.job)).idxOf id < ((entries ++ [e]).map (·.job)).idxOf id' :=
      ih.imp_of_mem fun here here' before => by rwa [known here, known here']
    rw [jobIds_concat]
    split
    · exact old
    · next new =>
      refine pairwise_append.mpr ⟨old, pairwise_singleton _ _, fun id here id' last => ?_⟩
      have absent : e.job ∉ entries.map (·.job) := fun there =>
        new (contains_iff_mem.mpr (mem_jobIds.mpr there))
      rw [mem_singleton.mp last, known here, map_append, idxOf_append_of_notMem absent]
      exact Nat.lt_add_right _ (idxOf_lt_length_of_mem (mem_jobIds.mp here))

theorem sum_jobIds (entries)
    : ((jobIds entries).map fun id => (entries.filter (·.job == id)).length).sum = entries.length := by
  have counted (id : JobId)
      : (entries.filter (·.job == id)).length = (entries.map (·.job)).count id := by
    rw [← countP_eq_length_filter, List.count, countP_map]
    rfl
  have nodup : (jobIds entries).Nodup := (pairwise_jobIds entries).imp fun before => by
    rintro rfl
    exact Nat.lt_irrefl _ before
  have same : (jobIds entries).Perm (entries.map (·.job)).dedup :=
    (perm_ext_iff_of_nodup nodup (nodup_dedup _)).mpr fun id =>
      mem_jobIds.trans mem_dedup.symm
  simp only [counted]
  rw [(same.map _).sum_eq, sum_map_count_dedup_eq_length, length_map]

/-- The summaries of all jobs are those of the jobs that had an event, one for each, in the order of their
first events. Each is what the journal tells of its job alone, and together they count all events. Of each
job the journal has exactly the events that were recorded for it, as they came.
-/
theorem jobs_agree (valid : ∀ r ∈ log, r.Valid)
    : ∃ summaries, (empty.recordAll log).jobs = .ok summaries
      ∧ (∀ id, id ∈ summaries.map (·.job) ↔ id ∈ (taken log).map (·.1.notice.job))
      ∧ (summaries.map (·.job)).Pairwise (fun id id' =>
        ((taken log).map (·.1.notice.job)).idxOf id < ((taken log).map (·.1.notice.job)).idxOf id')
      ∧ (∀ summary ∈ summaries, (empty.recordAll log).job summary.job = .ok summary)
      ∧ (summaries.map (·.events)).sum = (taken log).length
      ∧ ∀ id, id.bytes.length = 16
        → (empty.recordAll log).events id
          = .ok (((taken log).filter (·.1.notice.job == id)).map entryOf) := by
  have jobs : ((taken log).map entryOf).map (·.job) = (taken log).map (·.1.notice.job) := map_map
  have entries : (empty.recordAll log).rows.mapM JournalRow.entry = .ok ((taken log).map entryOf) := by
    rw [recordAll_eq]
    exact mapM_rowOf fun r => valid_of_taken valid
  refine ⟨(jobIds ((taken log).map entryOf)).map fun id =>
    .ofEntries id (((taken log).map entryOf).filter (·.job == id)), ?_, ?_⟩
  · rw [Journal.jobs, entries, recordAll_eq]
    rfl
  have ids : ((jobIds ((taken log).map entryOf)).map fun id =>
      Summary.ofEntries id (((taken log).map entryOf).filter (·.job == id))).map (·.job)
      = jobIds ((taken log).map entryOf) := by
    rw [map_map]
    exact (map_congr_left fun id _ => (Summary.foldl_add_counts _ _).1).trans (map_id _)
  rw [ids, ← jobs]
  refine ⟨fun _ => mem_jobIds, pairwise_jobIds _, fun summary member => ?_, ?_, fun id identity => ?_⟩
  · obtain ⟨id, here, rfl⟩ := mem_map.mp member
    obtain ⟨e, told, rfl⟩ := mem_map.mp (mem_jobIds.mp here)
    obtain ⟨r, recorded, rfl⟩ := mem_map.mp told
    rw [Summary.ofEntries, (Summary.foldl_add_counts _ _).1]
    refine job_of_events (events_recordAll valid (valid_of_taken valid recorded).identity) ?_
    exact ne_nil_of_mem (mem_filter.mpr ⟨told, beq_self_eq_true _⟩)
  · rw [map_map, ← length_map entryOf, ← sum_jobIds]
    refine congrArg List.sum (map_congr_left fun id _ => ?_)
    exact (Summary.foldl_add_counts _ _).2.trans (Nat.zero_add _)
  · rw [events_recordAll valid identity, filter_map]
    rfl

/-- Two jobs tell in turns, and a progress that is no number is refused in between. -/
def turns : List Recording :=
  [⟨(Event.progress .zero).notice (repeating 8), 1⟩, ⟨(Event.progress .zero).notice (repeating 7), 2⟩,
    ⟨(Event.progress .nan).notice (repeating 7), 3⟩, ⟨Event.completion.notice (repeating 8), 4⟩,
    ⟨(Event.failure (.cancelled .requested)).notice (repeating 7), 5⟩]

theorem jobs_agree_turns
    : ∃ summaries, (empty.recordAll turns).jobs = .ok summaries
      ∧ summaries.map (·.job) = [repeating 8, repeating 7]
      ∧ (∀ summary ∈ summaries, (empty.recordAll turns).job summary.job = .ok summary)
      ∧ (summaries.map (·.events)).sum = 4 := by
  have valid : ∀ r ∈ turns, r.Valid := by
    intro r member
    have all : turns.all (fun r => r.notice.job.bytes.length = 16
        ∧ r.notice.kind ∈ [EventKind.progress, .completion, .failure]) = true := by decide +kernel
    obtain ⟨identity, kind⟩ := of_decide_eq_true (all_eq_true.mp all r member)
    exact ⟨identity, kind⟩
  obtain ⟨summaries, listed, -, -, each, sum, -⟩ := jobs_agree valid
  refine ⟨summaries, listed, ?_, each, sum⟩
  have ids : ((empty.recordAll turns).jobs.map fun summaries => summaries.map (·.job))
      = .ok [repeating 8, repeating 7] := by decide +kernel
  rw [listed] at ids
  exact Except.ok.inj ids

end MapAlgebra.Journal
