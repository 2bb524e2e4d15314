import MapAlgebra.Job
import MapAlgebra.Journal.Entry

/-! Journals: events in the order in which they were recorded, and what they tell about jobs. -/

namespace MapAlgebra

structure JournalRow where
  seq : Nat
  job : String
  kind : String
  fraction : Sample
  cause : String
  time : Int
deriving DecidableEq

structure Journal where
  rows : List JournalRow
  isOpen : Bool
deriving DecidableEq

inductive JournalError where
  | closedToRecords
  | closedToQueries
  | noFraction
  | badJob (seq : Nat) (error : JobIdError)
  | badKind (seq : Nat) (kind : String)
  | jobNotFound
deriving DecidableEq

def JournalError.message : JournalError → String
  | closedToRecords => "recording event: sql: database is closed"
  | closedToQueries => "querying events: sql: database is closed"
  | noFraction =>
    "recording event: constraint failed: NOT NULL constraint failed: job_events.fraction (1299)"
  | badJob seq error => s!"event {seq}: {error.message}"
  | badKind seq kind => s!"event {seq}: unknown event kind {Text.quote kind}"
  | jobNotFound => "job not found"

structure Summary where
  job : JobId
  state : JobState
  progress : Sample
  cause : String
  events : Nat
  updated : Int
deriving DecidableEq

namespace Summary

def start (job : JobId) : Summary :=
  { job, state := .running, progress := .zero, cause := "", events := 0, updated := 0 }

def add (s : Summary) (e : Entry) : Summary :=
  let s := { s with events := s.events + 1, updated := e.time }
  match e.kind with
  | .progress => { s with progress := e.fraction }
  | .completion => { s with state := .completed, progress := .one }
  | .failure => { s with state := .failed, cause := e.cause }
  | .other _ => s

def ofEntries (job : JobId) (entries : List Entry) : Summary :=
  entries.foldl add (start job)

end Summary

def JournalRow.entry (row : JournalRow) : Except JournalError Entry :=
  match JobId.ofText row.job with
  | .error error => .error (.badJob row.seq error)
  | .ok job =>
    match EventKind.ofName? row.kind with
    | none => .error (.badKind row.seq row.kind)
    | some kind =>
      .ok { seq := row.seq, job, kind, fraction := row.fraction, cause := row.cause
            time := row.time }

namespace Journal

def empty : Journal := { rows := [], isOpen := true }

def close (j : Journal) : Journal := { j with isOpen := false }

/-- Puts a row in, unless its fraction is no number. A zero has no sign there. -/
def insert (j : Journal) (job kind : String) (fraction : Sample) (cause : String) (time : Int)
    : Except JournalError Journal :=
  if !j.isOpen then .error .closedToRecords
  else if fraction.isNaN then .error .noFraction
  else
    let fraction := if fraction.isZero then .zero else fraction
    .ok { j with
      rows := j.rows ++ [{ seq := j.rows.length + 1, job, kind, fraction, cause, time }] }

def record (j : Journal) (n : Notice) (time : Int) : Except JournalError Journal :=
  j.insert n.job.render n.kind.name n.fraction n.cause time

def hear (j : Journal) (n : Notice) (time : Int) : Journal :=
  match n.told? .one with
  | some n => (j.record n time).toOption.getD j
  | none => j

def events (j : Journal) (id : JobId) : Except JournalError (List Entry) :=
  if !j.isOpen then .error .closedToQueries
  else (j.rows.filter (·.job == id.render)).mapM JournalRow.entry

def job (j : Journal) (id : JobId) : Except JournalError Summary := do
  match ← j.events id with
  | [] => .error .jobNotFound
  | entries => .ok (.ofEntries id entries)

def jobIds (entries : List Entry) : List JobId :=
  entries.foldl (fun ids e => if ids.contains e.job then ids else ids ++ [e.job]) []

def jobs (j : Journal) : Except JournalError (List Summary) :=
  if !j.isOpen then .error .closedToQueries
  else do
    let entries ← j.rows.mapM JournalRow.entry
    return (jobIds entries).map fun id => .ofEntries id (entries.filter (·.job == id))

end Journal

end MapAlgebra
