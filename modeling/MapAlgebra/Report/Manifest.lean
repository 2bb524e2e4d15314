import MapAlgebra.Manifest.Resolve
import MapAlgebra.Report.Files

/-! Descriptions of manifests, and complaints about them. -/

namespace MapAlgebra

open Report (Fields)

def ManifestError.complaint (e : ManifestError) : Complaint :=
  match e.message with
  | some message => .ofText (if e.isNotFound then "NotExist" else "Error") message
  | none => { kind := "ParseError", message := none, place := none }

def ResolveError.complaint (e : ResolveError) : Complaint :=
  let missing : Bool :=
    match e with
    | .source _ error => error.fault = .notFound
    | _ => false
  .ofText (if missing then "NotExist" else "Error") e.message

def ImageEntry.report (e : ImageEntry) : Report :=
  .record [("name", e.name), ("role", e.role), ("path", e.path), ("output", e.output),
    ("width", e.width), ("height", e.height), ("bands", e.bands)]

def ResolvedImage.report (r : ResolvedImage) : Report :=
  .record [("name", r.name), ("role", r.role.name), ("input", r.input), ("output", r.output)]

namespace Manifest

def report (m : Manifest) : Report :=
  .record [
    ("dir", m.folder), ("path", m.path), ("script_path", m.scriptPath),
    ("journal_path", m.journalPath), ("events_path", m.eventsPath),
    ("project", .record [("name", m.project.name), ("version", m.project.version)]),
    ("script", .record [("path", m.script.path), ("strategy", m.script.strategy)]),
    ("run", .record [
      ("tile-width", m.run.tileWidth), ("tile-height", m.run.tileHeight),
      ("outside", .optional (m.run.outside.map fun s => .text s.render)),
      ("max-loop-iterations", m.run.loopLimit),
      ("journal", m.run.journal), ("events", m.run.events)]),
    ("images", .each m.images (·.report))]

def bindingFields (m : Manifest) : Fields :=
  let wrong (message : String) : String × Report :=
    ("bindings_error", (Complaint.plain message).report)
  match m.bindings with
  | .error fault => [("bindings", .list []), wrong fault.message]
  | .ok bindings =>
    ("bindings", .each bindings fun b => .list [b.name, b.role.name])
      :: (bindings.error?.map fun e => wrong e.message).toList

def resolverFields {n : Type → Type} [Monad n] [FileSystem n] (m : Manifest) : n Fields := do
  let placed : Fields :=
    match ← m.resolve with
    | .ok placed => [("resolved", .each placed (·.report))]
    | .error e => [("resolved", .list []), ("resolve_error", e.complaint.report)]
  return m.bindingFields ++ placed

def validation (m : Manifest) : Report :=
  match m.fault? with
  | none => .record [("ok", true)]
  | some fault => (Complaint.plain fault.message).report

end Manifest

end MapAlgebra
