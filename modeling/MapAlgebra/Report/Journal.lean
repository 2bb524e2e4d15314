import MapAlgebra.Journal
import MapAlgebra.Journal.Stream
import MapAlgebra.Report

/-! Descriptions of journals and event streams, and complaints about them. -/

namespace MapAlgebra

open Report (Fields SampleStyle)

def Entry.report (style : SampleStyle) (e : Entry) : Report :=
  .record [("seq", e.seq), ("job", e.job.render), ("kind", e.kind.name),
    ("terminal", e.kind.isTerminal), ("fraction", style e.fraction), ("cause", e.cause),
    ("at", toString e.time)]

def Summary.report (style : SampleStyle) (s : Summary) : Report :=
  .record [("job", s.job.render), ("state", s.state.name), ("progress", style s.progress),
    ("cause", s.cause), ("events", s.events), ("updated", toString s.updated)]

def JournalError.complaint (e : JournalError) : Complaint :=
  match e with
  | .jobNotFound => .ofText "JobNotFound" e.message
  | _ => .plain e.message

def StreamError.complaint (e : StreamError) : Complaint :=
  match e.message with
  | some message => .plain message
  | none => .codec

def EventStream.fields (style : SampleStyle) (bytes : Bytes) : Fields :=
  let (entries, error) := read bytes
  ("entries", .each entries (·.report style)) :: (error.map (·.complaint.fields)).getD []

end MapAlgebra
