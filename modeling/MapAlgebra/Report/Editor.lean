import MapAlgebra.Editor
import MapAlgebra.Report

/-! What editors are told about documents. -/

namespace MapAlgebra

def Editor.serviceName : String := "rastal-lsp"

def Editor.greeting : Report :=
  .record [
    ("capabilities", .record [
      ("completionProvider", .record []), ("definitionProvider", true), ("hoverProvider", true),
      ("textDocumentSync", .record [("change", 1), ("openClose", true)])]),
    ("serverInfo", .record [("name", serviceName), ("version", "0.1.0")])]

def EditorPlace.report (p : EditorPlace) : Report :=
  .record [("line", p.line), ("character", p.character)]

def EditorRange.report (r : EditorRange) : Report :=
  .record [("start", r.start.report), ("end", r.stop.report)]

def Problem.diagnostic (p : Problem) : Report :=
  .record [("code", p.code.name), ("message", p.message), ("range", p.span.range.report),
    ("severity", if p.isError then 1 else 2), ("source", Editor.serviceName)]

def Problems.publication (uri : String) (ps : Problems) : Report :=
  .record [("method", "textDocument/publishDiagnostics"),
    ("params", .record [("uri", uri), ("diagnostics", .each ps Problem.diagnostic)])]

def CompletionKind.number : CompletionKind → Nat
  | function => 3
  | value => 6
  | keyword => 14
  | constant => 21

def Completion.report (c : Completion) : Report :=
  .record [("label", c.label), ("kind", c.kind.number), ("detail", c.detail),
    ("insertText", c.label)]

def Report.nonempty {α : Type} (items : List α) (describe : α → Report) : Report :=
  if items.isEmpty then .null else .each items describe

namespace Editor

def completionReport (e : Editor) (uri : String) (place : EditorPlace) : Report :=
  .nonempty (e.completions uri place) Completion.report

def explanationReport (e : Editor) (uri : String) (place : EditorPlace) : Report :=
  .optional ((e.explanation? uri place).map fun text =>
    .record [("contents", .record [("kind", "markdown"), ("value", text)])])

def declarationReport (e : Editor) (uri : String) (place : EditorPlace) : Report :=
  .nonempty (e.declarations uri place) fun range =>
    .record [("uri", uri), ("range", range.report)]

end Editor

end MapAlgebra
