import MapAlgebra.Compile
import MapAlgebra.Editor.Place
import MapAlgebra.Editor.Word
import MapAlgebra.Text.Lower

/-! Documents: scripts that are being edited, with what is known about them at the moment. -/

namespace MapAlgebra

structure Document where
  text : Bytes
  /-- The images of the project that the script belongs to, if it belongs to one. -/
  bindings : Option Bindings
  problems : Problems
  /-- The variables of the script; none are known unless its names could be resolved. -/
  locals : List Symbol

namespace Document

/-- Finds out about a text. Without a project only its grammar is checked, because every image would
look undeclared.
-/
def analyze (registry : Registry) (bindings : Option Bindings) (text : Bytes) : Document :=
  match parse text with
  | .error problems => { text, bindings, problems, locals := [] }
  | .ok script =>
    let table := bindings.getD []
    match if bindings.isSome then table.problems else [] with
    | problem :: more => { text, bindings, problems := problem :: more, locals := [] }
    | [] =>
      let resolution := resolve table registry script.program
      { text, bindings, locals := resolution.table.locals.toList
        problems := if bindings.isSome then resolution.problems else [] }

def images (d : Document) : Bindings := d.bindings.getD []

def localsNamed (d : Document) (word : Bytes) : List Symbol :=
  d.locals.filter (Text.toBytes ·.name == word)

end Document

def ImageRole.detail (r : ImageRole) : String :=
  if r.isSource && r.isDestination then "source and destination image"
  else if r.isDestination then "destination image"
  else "source image"

def Symbol.detail (s : Symbol) : String :=
  if s.persistent then "persistent variable (init)" else "per-pixel variable"

def Function.signature (f : Function) : String :=
  let arguments := (List.range f.arity).map fun i => s!"a{i + 1}"
  f.name ++ "(" ++ ", ".intercalate arguments ++ ")"

def Builtin.detail : Builtin → String
  | column => "column of the pixel being evaluated"
  | row => "row of the pixel being evaluated"
  | width => "width of the evaluation region"
  | height => "height of the evaluation region"

inductive CompletionKind where
  | function
  | value
  | keyword
  | constant
deriving DecidableEq

structure Completion where
  label : String
  kind : CompletionKind
  detail : String
deriving DecidableEq

namespace Document

/-- All words that can be proposed: images, variables, built-in functions, functions, constants and
reserved words.
-/
def candidates (d : Document) (registry : Registry) : List Completion :=
  d.images.map (fun b => { label := b.name, kind := .value, detail := b.role.detail })
    ++ d.locals.map (fun s => { label := s.name, kind := .value, detail := s.detail })
    ++ builtins.map (fun (name, _) => { label := name, kind := .function, detail := "built-in" })
    ++ (registry.names.filterMap registry.lookup).map
      (fun f => { label := f.name, kind := .function, detail := f.signature })
    ++ constants.map (fun (name, _) => { label := name, kind := .constant, detail := "constant" })
    ++ keywords.map (fun (name, _) => { label := name, kind := .keyword, detail := "keyword" })

def completionLimit : Nat := 100

/-- The words that go on from the beginning of one, in capitals or not. A label is proposed once. -/
def completions (d : Document) (registry : Registry) (start : Bytes) : List Completion :=
  let start := Text.lower (Text.ofBytes start)
  let fitting := (d.candidates registry).filter fun c => start.isPrefixOf (Text.lower c.label)
  (fitting.foldl (fun (found : Array Completion) c =>
    if found.any (·.label == c.label) then found else found.push c) #[]).toList.take completionLimit

def explanation? (d : Document) (registry : Registry) (word : Bytes) : Option String :=
  let names (name : String) : Bool := Text.toBytes name == word
  let shown := Text.ofBytes word
  if let some b := d.images.find? (names ·.name) then some s!"**{shown}**: {b.role.detail}"
  else if let some (_, b) := builtins.find? (names ·.1) then
    some s!"**{shown}()**: built-in\n\n{b.detail}"
  else if let some (_, v) := constants.find? (names ·.1) then some s!"**{shown}** = {v.render}"
  else if let some f := registry.functions.find? (names ·.name) then
    some s!"**{f.signature}**: function"
  else
    (d.localsNamed word).head?.map fun s =>
      let place :=
        if s.span.start.line = 0 then "" else s!"\n\nfirst assigned on line {s.span.start.line}"
      s!"**{shown}**: {s.detail}{place}"

def declarations (d : Document) (word : Bytes) : List EditorRange :=
  (d.localsNamed word).map (·.span.range)

end Document

end MapAlgebra
