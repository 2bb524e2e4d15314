import MapAlgebra.Command.Excerpt
import MapAlgebra.Command.Spec
import MapAlgebra.Report.Project
import MapAlgebra.Text.Moment

/-! What the program does with a command line: what it prints, and how it exits. -/

namespace MapAlgebra

structure Outcome where
  stdout : String := ""
  stderr : String := ""
  exit : Nat := 0
deriving DecidableEq

namespace Outcome

def printed (text : String) : Outcome := { stdout := text }

def noted (text : String) : Outcome := { stderr := text }

def failed (message : String) : Outcome := { stderr := s!"Error: {message}\n", exit := 1 }

def andThen (first second : Outcome) : Outcome :=
  { stdout := first.stdout ++ second.stdout, stderr := first.stderr ++ second.stderr
    exit := second.exit }

end Outcome

def Complaint.words (c : Complaint) : String := c.message.getD "malformed contents"

def ManifestError.words : ManifestError → String
  | .malformed path => s!"parse error in {path}"
  | e => e.message.getD ""

namespace Command

def scriptErrors : Outcome := .failed "script has errors"

/-- A script with the images that it is compiled against, and where they are from. -/
structure LoadedScript where
  path : String
  source : Bytes
  bindings : Option Bindings
  origin : String

namespace LoadedScript

/-- The problems of a script. Without bindings only its grammar is checked, because every image
would look undeclared.
-/
def problems (s : LoadedScript) : Problems :=
  match s.bindings with
  | some bindings => MapAlgebra.check s.source bindings .standard
  | none =>
    match parse s.source with
    | .ok _ => []
    | .error problems => problems

end LoadedScript

/-- The images that flags bind: sources, images that are both, and destinations. -/
def flagBindings (a : Arguments) : Bindings :=
  (a.all "source").map (fun name => { name, role := .source })
    ++ (a.all "both").map (fun name => { name, role := .both })
    ++ (a.all "dest").map (fun name => { name, role := .destination })

section

variable {m : Type → Type} [Monad m] [FileSystem m]

/-- Loads a script. Its images are those of the flags if there are any, else those of the
manifest that it belongs to.
-/
def loadScript (a : Arguments) (path : String) : m (Except String LoadedScript) := do
  match ← readFile path with
  | .error e => return .error e.message
  | .ok source =>
    let given := flagBindings a
    if !given.isEmpty then
      match given.error? with
      | some error => return .error error.message
      | none => return .ok { path, source, bindings := some given, origin := "command line" }
    else
      match ← Manifest.find (Path.folder path) with
      | .error e => return .error e.words
      | .ok none => return .ok { path, source, bindings := none, origin := "no bindings" }
      | .ok (some manifest) =>
        match manifest.bindings with
        | .error fault => return .error s!"{manifest.path}: {fault.message}"
        | .ok bindings =>
          match bindings.error? with
          | some error => return .error s!"{manifest.path}: {error.message}"
          | none => return .ok { path, source, bindings := some bindings, origin := manifest.path }

def check (a : Arguments) : (failed : Bool) → (paths : List String) → m Outcome
  | failed, [] => return if failed then scriptErrors else {}
  | failed, path :: rest => do
    match ← loadScript a path with
    | .error message => return .failed message
    | .ok s =>
      let problems := s.problems
      let shown :=
        excerpts s.path s.source problems ++ s!"{s.path}: {tally problems} ({s.origin})\n"
      return (Outcome.printed shown).andThen (← check a (failed || problems.hasErrors) rest)

def disasm (a : Arguments) (path : String) : m Outcome := do
  match ← loadScript a path with
  | .error message => return .failed message
  | .ok s =>
    match compile s.source (s.bindings.getD []) .standard .bytecode with
    | .ok compiled =>
      return { stderr := excerpts s.path s.source compiled.problems.warnings
               stdout := compiled.program.listing }
    | .error (.unparsed problems) | .error (.unresolved problems) =>
      return (Outcome.noted (excerpts s.path s.source problems)).andThen scriptErrors
    | .error e => return .failed e.message

def folderOf (a : Arguments) : String := a.words.headD "."

def percent (fraction : Sample) : String :=
  Text.padLeft ' ' 3 (fraction.mul (.ofInt 100)).renderWhole ++ "%"

/-- What is shown of an event while a job runs. One line is written again and again. -/
def progressText : Event → String
  | .progress fraction => "\rrunning " ++ percent fraction
  | .completion | .failure _ => "\n"

def runChoices (a : Arguments) : Except String RunChoices := do
  let word := (a.last? "strategy").getD ""
  let strategy ←
    if word = "" then pure none
    else
      match Strategy.ofName? word with
      | some s => pure (some s)
      | none => throw (Strategy.unknownName word)
  let width := a.whole "tile-width"
  let height := a.whole "tile-height"
  return { strategy, tile := if 0 < width ∨ 0 < height then some { width, height } else none }

/-- What is said of a project that does not run to its end. Problems of its script are shown in
place.
-/
def runFailure (manifest : Manifest) (source : Bytes) : ProjectError → Outcome
  | .job (.failed (.compile (.unparsed problems)))
  | .job (.failed (.compile (.unresolved problems))) =>
    (Outcome.noted (excerpts manifest.script.path source problems)).andThen scriptErrors
  | .job (.failed (.cancelled .requested)) =>
    .failed s!"interrupted: {(Failure.cancelled .requested).message}"
  | e => .failed e.complaint.words

def run (a : Arguments) (occasion : Occasion) : m Outcome := do
  match ← Manifest.find (folderOf a) with
  | .error e => return .failed e.words
  | .ok none =>
    return .failed s!"no rastal.toml or rastal.yaml found in {folderOf a} or its parents"
  | .ok (some manifest) =>
    match runChoices a with
    | .error message => return .failed message
    | .ok choices =>
      match ← (Project.run manifest choices occasion).run with
      | .error e => return runFailure manifest [] e
      | .ok run =>
        let progress := if a.isOn "quiet" then "" else String.join (run.events.map progressText)
        let source := (run.job.request.map (·.source)).getD []
        let rest :=
          match run.error with
          | some e => runFailure manifest source e
          | none =>
            let outputs := run.outputs.mergeSort fun a b => a.1 ≤ b.1
            .printed (String.join (outputs.map fun (name, path) => s!"{name}: {path}\n")
              ++ s!"completed job {run.job.id.render}\n")
        return (Outcome.noted progress).andThen rest

def jobLine (s : Summary) : String :=
  let cause := if s.cause = "" then "" else "  " ++ s.cause
  s.job.render ++ "  " ++ Text.padRight ' ' 9 s.state.name ++ " " ++ percent s.progress ++ "  "
    ++ Text.moment s.updated ++ cause ++ "\n"

def jobs (a : Arguments) : m Outcome := do
  match ← Manifest.find (folderOf a) with
  | .error e => return .failed e.words
  | .ok found =>
    match (found.map (·.journalPath)).getD "" with
    | "" => return .failed s!"no journal configured for {folderOf a}"
    | path =>
      match ← Journal.openFile path with
      | .error e => return .failed e.message
      | .ok journal =>
        match journal.jobs with
        | .error e => return .failed e.message
        | .ok [] => return .printed "no jobs recorded\n"
        | .ok summaries => return .printed (String.join (summaries.map jobLine))

/-- Does what a command is there for. The editor service has nothing to say before it is asked. -/
def perform (occasion : Occasion) (v : Verb) (a : Arguments) : m Outcome :=
  match v with
  | .check => check a false a.words
  | .disasm => disasm a (a.words.headD "")
  | .run => run a occasion
  | .jobs => jobs a
  | .lsp => return {}
  | .help =>
    return .printed (((a.words.head?.bind Verb.ofName?).map (·.spec.help)).getD rootHelp)

def execute (occasion : Occasion) (line : List String) : m Outcome :=
  match Request.ofLine line with
  | .error e => return .failed e.message
  | .ok (.helpText text) => return .printed text
  | .ok (.perform verb arguments) => perform occasion verb arguments

end

end Command

end MapAlgebra
