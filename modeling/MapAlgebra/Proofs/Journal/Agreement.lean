import MapAlgebra.Journal
import MapAlgebra.Proofs.Desk.Protocol
import MapAlgebra.Proofs.Job.Standing
import MapAlgebra.Proofs.Journal.Identity

/-! A journal that hears the events of many jobs tells of each job what the job says itself. What the
others tell in between makes no difference.
-/

namespace MapAlgebra

open List

/-- An entry has what an event tells. -/
structure Entry.Tells (entry : Entry) (event : Event) : Prop where
  kind : entry.kind = event.kind
  fraction : ∀ fraction, event = .progress fraction → entry.fraction = fraction
  cause : ∀ cause, event = .failure cause → entry.cause = cause.message

namespace Event

theorem job_notice (event : Event) (id) : (event.notice id).job = id := by
  cases event <;> rfl

/-- What is told of an event is about its job and of its kind, and its fraction can be kept. -/
theorem told?_notice {event : Event} (proper : event.Proper) (id : JobId)
    : ∃ n, (event.notice id).told? .one = some n ∧ n.job = id ∧ n.fraction.Proper
      ∧ ∀ seq time, (n.entry seq time).Tells event := by
  cases event with
  | progress fraction =>
    refine ⟨(Event.progress fraction).notice id, rfl, rfl, proper fraction rfl, fun _ _ => ?_⟩
    exact ⟨rfl, fun _ same => Event.progress.inj same, fun _ => Event.noConfusion⟩
  | completion =>
    exact ⟨{ job := id, kind := .completion, fraction := .one, cause := "" }, rfl, rfl,
      Sample.proper_one, fun _ _ => ⟨rfl, fun _ => Event.noConfusion, fun _ => Event.noConfusion⟩⟩
  | failure cause =>
    refine ⟨(Event.failure cause).notice id, rfl, rfl, Sample.proper_zero, fun _ _ => ?_⟩
    exact ⟨rfl, fun _ => Event.noConfusion, fun _ same => congrArg Failure.message (Event.failure.inj same)⟩

end Event

theorem Notice.told?_job {n n' : Notice} {atCompletion} (told : n.told? atCompletion = some n')
    : n'.job = n.job := by
  unfold told? at told
  split at told <;> cases told <;> rfl

/-- A notice as a journal keeps it: a zero has no sign there. -/
def Notice.kept (n : Notice) : Notice :=
  { n with fraction := if n.fraction.isZero then .zero else n.fraction }

theorem Notice.kept_of_proper {n : Notice} (proper : n.fraction.Proper) : n.kept = n := by
  unfold kept
  split
  · next zero => rw [← proper.zero zero]
  · rfl

namespace Journal

/-- The row for a notice that is put in as it is. -/
def row (n : Notice) (seq : Nat) (time : Int) : JournalRow :=
  { seq, job := n.job.render, kind := n.kind.name, fraction := n.fraction, cause := n.cause, time }

theorem entry_row {n} (identity : n.job.bytes.length = 16)
    (named : EventKind.ofName? n.kind.name = some n.kind) (seq time)
    : (row n seq time).entry = .ok (n.entry seq time) := by
  simp only [JournalRow.entry, row, JobId.ofText_render identity, named]
  rfl

variable {j : Journal} {id : JobId} {old : List Entry}

theorem record_of_number {n} (isOpen : j.isOpen = true) (number : n.fraction.isNaN = false) (time)
    : j.record n time = .ok { j with rows := j.rows ++ [row n.kept (j.rows.length + 1) time] } := by
  simp only [record, insert, isOpen, number]
  rfl

/-- A journal that hears something puts at most one row in, under the name of the job. -/
theorem hear_cases (j : Journal) (n : Notice) (time : Int)
    : j.hear n time = j
      ∨ ∃ row : JournalRow, j.hear n time = { j with rows := j.rows ++ [row] }
        ∧ row.job = n.job.render := by
  unfold hear
  split
  · next n' told =>
    rw [← Notice.told?_job told]
    unfold record insert
    split
    · exact Or.inl rfl
    · split
      · exact Or.inl rfl
      · exact Or.inr ⟨_, rfl, rfl⟩
  · exact Or.inl rfl

theorem events_eq_ok (answered : j.events id = .ok old)
    : j.isOpen = true ∧ (j.rows.filter (·.job == id.render)).mapM JournalRow.entry = .ok old := by
  unfold events at answered
  cases isOpen : j.isOpen with
  | false =>
    rw [isOpen] at answered
    exact nomatch answered
  | true =>
    rw [isOpen] at answered
    exact ⟨rfl, answered⟩

/-- What one job tells changes nothing about another. -/
theorem events_hear_of_ne {n} (identity : id.bytes.length = 16)
    (identity' : n.job.bytes.length = 16) (other : n.job ≠ id) (time : Int)
    : (j.hear n time).events id = j.events id := by
  rcases j.hear_cases n time with same | ⟨row, heard, named⟩
  · rw [same]
  · have apart : (row.job == id.render) = false := by
      rw [named, beq_eq_false_iff_ne, ne_eq, JobId.render_inj identity' identity]
      exact other
    simp [heard, events, filter_append, apart]

/-- What a job tells becomes its last entry. -/
theorem events_hear (answered : j.events id = .ok old) (identity : id.bytes.length = 16)
    {event : Event} (proper : event.Proper) (time : Int)
    : ∃ entry : Entry, entry.Tells event
      ∧ (j.hear (event.notice id) time).events id = .ok (old ++ [entry]) := by
  obtain ⟨isOpen, rows⟩ := events_eq_ok answered
  obtain ⟨n, told, rfl, kept, tells⟩ := Event.told?_notice proper id
  refine ⟨n.entry (j.rows.length + 1) time, tells _ _, ?_⟩
  have heard : j.hear (event.notice n.job) time
      = { j with rows := j.rows ++ [row n (j.rows.length + 1) time] } := by
    rw [hear, told]
    dsimp only
    rw [record_of_number isOpen kept.number, Notice.kept_of_proper kept]
    rfl
  have own : ((row n (j.rows.length + 1) time).job == n.job.render) = true := beq_self_eq_true _
  have named : EventKind.ofName? n.kind.name = some n.kind := by
    rw [show n.kind = event.kind from (tells 0 0).kind]
    cases event <;> rfl
  have entry := entry_row identity named (j.rows.length + 1) time
  have filtered : [row n (j.rows.length + 1) time].filter (·.job == n.job.render)
      = [row n (j.rows.length + 1) time] := filter_cons_of_pos own
  rw [heard, events, isOpen, filter_append, mapM_append, rows, filtered, mapM_cons, entry]
  rfl

/-- An event of a job, and when it was heard. -/
structure Hearing where
  job : JobId
  event : Event
  time : Int

/-- The journal once it has heard some events in order. -/
def hearAll (j : Journal) (heard : List Hearing) : Journal :=
  heard.foldl (fun j h => j.hear (h.event.notice h.job) h.time) j

/-- What one job told among the events that were heard. -/
def toldBy (id : JobId) (heard : List Hearing) : List Event :=
  (heard.filter (·.job == id)).map (·.event)

/-- The entries of a job are what it told, by induction on what was heard. -/
theorem events_hearAll {heard} (answered : j.events id = .ok old) (identity : id.bytes.length = 16)
    (identities : ∀ h ∈ heard, h.job.bytes.length = 16)
    (proper : ∀ event ∈ toldBy id heard, event.Proper)
    : ∃ entries, List.Forall₂ Entry.Tells entries (toldBy id heard)
      ∧ (j.hearAll heard).events id = .ok (old ++ entries) := by
  induction heard generalizing j old with
  | nil => exact ⟨[], .nil, (append_nil old).symm ▸ answered⟩
  | cons h rest ih =>
    obtain ⟨identity', identities⟩ := forall_mem_cons.mp identities
    rcases eq_or_ne h.job id with rfl | other
    · have first : toldBy h.job (h :: rest) = h.event :: toldBy h.job rest := by simp [toldBy]
      rw [first] at proper ⊢
      obtain ⟨proper', proper⟩ := forall_mem_cons.mp proper
      obtain ⟨entry, tells, heard⟩ := events_hear answered identity proper' h.time
      obtain ⟨entries, tells', all⟩ := ih heard identities proper
      refine ⟨entry :: entries, .cons tells tells', ?_⟩
      rw [append_cons]
      exact all
    · have skipped : toldBy id (h :: rest) = toldBy id rest := by simp [toldBy, other]
      rw [skipped] at proper ⊢
      rw [← h.event.job_notice h.job] at identity' other
      exact ih ((events_hear_of_ne identity identity' other h.time).trans answered) identities proper

end Journal

/-- A summary tells where a job stands. -/
structure Summary.Shows (summary : Summary) (s : Standing) : Prop where
  state : summary.state = s.state
  progress : summary.progress = s.progress
  cause : summary.cause = (s.failure.map Failure.message).getD ""

namespace Summary

variable {summary : Summary} {s : Standing}

theorem Shows.add {entry event} (shows : summary.Shows s) (tells : entry.Tells event)
    : (summary.add entry).Shows (s.after event) := by
  obtain ⟨state, progress, cause⟩ := shows
  obtain ⟨kind, fraction, text⟩ := tells
  unfold Summary.add
  rw [kind]
  cases event with
  | progress f => exact ⟨state, fraction f rfl, cause⟩
  | completion => exact ⟨rfl, rfl, cause⟩
  | failure c => exact ⟨rfl, progress, text c rfl⟩

/-- A summary follows the events of the job, by induction on its entries. -/
theorem Shows.foldl_add {entries events} (shows : summary.Shows s)
    (tells : List.Forall₂ Entry.Tells entries events)
    : (entries.foldl Summary.add summary).Shows (events.foldl Standing.after s) := by
  induction tells generalizing summary s with
  | nil => exact shows
  | cons first _ ih => exact ih (shows.add first)

theorem foldl_add_counts (summary) (entries : List Entry)
    : (entries.foldl Summary.add summary).job = summary.job
      ∧ (entries.foldl Summary.add summary).events = summary.events + entries.length := by
  induction entries generalizing summary with
  | nil => exact ⟨rfl, rfl⟩
  | cons entry rest ih =>
    have one : (summary.add entry).job = summary.job
        ∧ (summary.add entry).events = summary.events + 1 := by
      unfold Summary.add
      split <;> exact ⟨rfl, rfl⟩
    obtain ⟨job, count⟩ := ih (summary.add entry)
    refine ⟨job.trans one.1, count.trans ?_⟩
    rw [one.2, length_cons]
    omega

end Summary

theorem Journal.job_of_events {j : Journal} {id entries} (answered : j.events id = .ok entries)
    (some : entries ≠ [])
    : j.job id = .ok (.ofEntries id entries) := by
  rw [job, answered]
  cases entries with
  | nil => exact absurd rfl some
  | cons entry rest => rfl

namespace Journal

/-- A journal that hears what jobs tell, in any order that keeps the order of each, tells of a job that
has ended what the job says itself: its state, its progress, why it failed if it did, and how many events
it told.
-/
theorem job_agrees {job : Job} {tile : TileSize} {signal : Job.StopSignal} {fuel : Nat}
    {e : Job.Execution} (identity : job.id.bytes.length = 16) (unstarted : job.progress = .zero)
    (ran : job.run tile signal fuel = .ok e) (ended : e.job.state.isTerminal = true)
    {j : Journal} (blank : j.events job.id = .ok []) {heard : List Hearing}
    (identities : ∀ h ∈ heard, h.job.bytes.length = 16) (told : toldBy job.id heard = e.events)
    : ∃ summary, (j.hearAll heard).job job.id = .ok summary
      ∧ summary.state = e.job.state
      ∧ summary.progress = e.job.progress
      ∧ summary.events = e.events.length
      ∧ match e.job.failure with
        | some cause => e.job.state = .failed ∧ summary.cause = cause.message
        | none => e.job.state = .completed ∧ summary.cause = "" := by
  obtain ⟨-, rfl⟩ := Job.run_eq_ok ran
  obtain ⟨fractions, reports, events, left⟩ := Job.execute_reports job tile signal fuel
  have ends := left.events_ne_nil ended
  have proper : ∀ event ∈ toldBy job.id heard, event.Proper := by
    rw [told, events]
    exact reports.proper
  obtain ⟨entries, tells, answered⟩ := events_hearAll blank identity identities proper
  rw [told] at tells
  have some : entries ≠ [] := by
    rintro rfl
    rw [events] at tells
    exact ends (append_eq_nil_iff.mp (forall₂_nil_left_iff.mp tells)).2
  have start : (Summary.start job.id).Shows .start := ⟨rfl, rfl, rfl⟩
  have shows := start.foldl_add tells
  rw [← Job.execute_standing unstarted ends] at shows
  refine ⟨_, job_of_events answered some, shows.state, shows.progress, ?_, ?_⟩
  · exact (Summary.foldl_add_counts _ entries).2.trans ((Nat.zero_add _).trans tells.length_eq)
  · have cause := shows.cause
    have state := left.state
    cases ending : (job.execute tile signal fuel).ending with
    | completed =>
      rw [ending] at state
      rw [Job.standing, Job.execute_failure unstarted ending] at cause
      rw [Job.execute_failure unstarted ending]
      exact ⟨state, cause⟩
    | failed reason =>
      rw [ending] at state
      rw [Job.standing, left.failure reason ending] at cause
      rw [left.failure reason ending]
      exact ⟨state, cause⟩
    | crashed | unfinished =>
      rw [ending] at ends
      exact absurd rfl ends

/-- An identity that repeats one byte. -/
def repeating (byte : UInt8) : JobId := { bytes := List.replicate 16 byte }

/-- The events of one job between those of another. -/
def between (events : List Event) : List Hearing :=
  ⟨repeating 8, .progress .one, 1⟩ :: events.map (⟨repeating 7, ·, 2⟩)
    ++ [⟨repeating 8, .completion, 3⟩]

/-- The painting is stopped after its first tile, and another job tells something before and after. -/
theorem job_agrees_painting
    : ∃ left right scene e, painting.Staged left right scene
      ∧ (Job.ofScene (repeating 7) (some scene)).run ⟨2, 2⟩
          (fun asked => if asked = 1 then some .requested else none) 9 = .ok e
      ∧ e.job.state = .failed
      ∧ ∃ summary, (empty.hearAll (between e.events)).job (repeating 7) = .ok summary
        ∧ summary.state = .failed
        ∧ summary.progress = e.job.progress
        ∧ summary.events = e.events.length
        ∧ summary.cause = "job cancelled: context canceled" := by
  obtain ⟨left, right, scene, e, here, ran, state, message⟩ :
      ∃ left right scene e, painting.Staged left right scene
      ∧ (Job.ofScene (repeating 7) (some scene)).run ⟨2, 2⟩
          (fun asked => if asked = 1 then some .requested else none) 9 = .ok e
      ∧ e.job.state = .failed
      ∧ e.job.failure.map Failure.message = some "job cancelled: context canceled" :=
    ⟨_, _, _, _, ⟨_, _, rfl, rfl, rfl, rfl, rfl⟩, rfl, by decide +kernel, by decide +kernel⟩
  have identities : ∀ h ∈ between e.events, h.job.bytes.length = 16 := by
    intro h member
    rcases mem_append.mp member with own | last
    · rcases mem_cons.mp own with rfl | own
      · rfl
      · obtain ⟨event, -, rfl⟩ := mem_map.mp own
        rfl
    · rw [mem_singleton.mp last]
      rfl
  have told : toldBy (repeating 7) (between e.events) = e.events := by
    have apart : (repeating 8 == repeating 7) = false := by decide
    simp [toldBy, between, apart, filter_map, Function.comp_def]
  obtain ⟨summary, answered, state', progress, count, cause⟩ :=
    job_agrees rfl rfl ran (by rw [state]; rfl) (j := empty) rfl identities told
  refine ⟨left, right, scene, e, here, ran, state, summary, answered, state'.trans state, progress, count, ?_⟩
  cases failure : e.job.failure with
  | none =>
    rw [failure] at message
    exact nomatch message
  | some reason =>
    rw [failure] at message cause
    exact cause.2.trans (Option.some.inj message)

end Journal

end MapAlgebra
