import MapAlgebra.Editor.Document
import MapAlgebra.Editor.Uri
import MapAlgebra.Manifest.File

/-! Editors: the documents that are open, by their addresses. -/

namespace MapAlgebra

structure Editor where
  registry : Registry
  documents : List (String × Document)

namespace Editor

def create (registry : Registry) : Editor := { registry, documents := [] }

def document? (e : Editor) (uri : String) : Option Document :=
  e.documents.lookup uri

def keep (e : Editor) (uri : String) (d : Document) : Editor :=
  { e with documents := (uri, d) :: e.documents.filter (·.1 != uri) }

def close (e : Editor) (uri : String) : Editor :=
  { e with documents := e.documents.filter (·.1 != uri) }

section

variable {m : Type → Type} [Monad m] [FileSystem m]

def bindingsFor (uri : String) : m (Option Bindings) := do
  match Uri.filePath? uri with
  | none => return none
  | some path =>
    match ← Manifest.find (Path.folder path) with
    | .ok (some manifest) => return manifest.bindings.toOption
    | _ => return none

def openDocument (e : Editor) (uri : String) (text : Bytes) : m (Document × Editor) := do
  let d := Document.analyze e.registry (← bindingsFor uri) text
  return (d, e.keep uri d)

end

inductive Change where
  | whole (text : Bytes)
  | piece (text : Bytes)
deriving DecidableEq

/-- The text after changes. Only the last one counts, and only if it is the whole text. -/
def Change.text? (changes : List Change) : Option Bytes :=
  match changes.getLast? with
  | some (.whole text) => some text
  | _ => none

def completions (e : Editor) (uri : String) (place : EditorPlace) : List Completion :=
  match e.document? uri with
  | none => []
  | some d =>
    match wordBefore d.text place.line place.character with
    | [] => []
    | start => d.completions e.registry start

def explanation? (e : Editor) (uri : String) (place : EditorPlace) : Option String :=
  match e.document? uri with
  | none => none
  | some d =>
    match wordAt d.text place.line place.character with
    | [] => none
    | word => d.explanation? e.registry word

def declarations (e : Editor) (uri : String) (place : EditorPlace) : List EditorRange :=
  match e.document? uri with
  | none => []
  | some d =>
    match wordAt d.text place.line place.character with
    | [] => []
    | word => d.declarations word

end Editor

end MapAlgebra
