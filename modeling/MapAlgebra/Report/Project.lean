import MapAlgebra.Project
import MapAlgebra.Report.Journal
import MapAlgebra.Report.Manifest

/-! Descriptions of projects that were run, and complaints about them. -/

namespace MapAlgebra

open Report (Fields SampleStyle)

def ProjectError.complaint : ProjectError → Complaint
  | unknownStrategy path word => .plain s!"{path}: {Strategy.unknownName word}"
  | script error => error.complaintAfter "cannot read script: "
  | bindings error => .plain error.message
  | resolve error => error.complaint
  | source name error => error.complaintAfter s!"source image {Text.quote name}: "
  | shapeless name =>
    .plain (s!"destination image {Text.quote name}: "
      ++ "no width and height and no source to copy them from")
  | folder error => error.complaint
  | journal error => .plain error.message
  | stream error => error.complaintAfter "cannot create event stream: "
  | job ending => ending.complaint?.getD .crash
  | output error => error.complaint
  | crashed => .crash

def ProjectRun.fields (style : SampleStyle) (run : ProjectRun) : Fields :=
  [("job", .record (run.job.fields style)), ("events", .each run.events (·.report style)),
    ("outputs", .record (run.outputs.map fun (name, path) => (name, .text path)))]

def Journal.outline (style : SampleStyle) (j : Journal) : Report :=
  .each (j.jobs.toOption.getD []) fun s =>
    .list [.text s.state.name, style s.progress, .text s.cause, .int s.events]

def EventStream.outline (style : SampleStyle) (bytes : Bytes) : Report :=
  .each (read bytes).1 fun e =>
    .list [.int e.seq, .text e.kind.name, style e.fraction, .text e.cause]

def Manifest.traceFields {m : Type → Type} [Monad m] [FileSystem m] (manifest : Manifest)
    (style : SampleStyle) : m Fields := do
  let contents (path : String) : m (Option Bytes) := do
    if path = "" then return none else return (← readFile path).toOption
  let journal := (← contents manifest.journalPath).bind Journal.ofBytes?
  let stream ← contents manifest.eventsPath
  return (journal.map fun j => ("journal", j.outline style)).toList
    ++ (stream.map fun bytes => ("stream", EventStream.outline style bytes)).toList

end MapAlgebra
