import MapAlgebra.Command.Flag
import MapAlgebra.Text.Lower

/-! The commands that there are: their flags, how many words they take and their help texts. -/

namespace MapAlgebra.Command

def programName : String := "rastal"

/-- How many words a command takes besides its flags. -/
inductive Arity where
  | any
  | none
  | exactly (n : Nat)
  | atLeast (n : Nat)
  | atMost (n : Nat)
deriving DecidableEq

structure Spec where
  name : String
  /-- What stands behind the name of the program in a usage line. -/
  line : String
  summary : String
  about : String
  flags : List Flag
  arity : Arity
deriving DecidableEq

inductive UsageError where
  | unknownCommand (word path : String) (similar : List String)
  | flag (error : FlagError)
  | arity (wanted : Arity) (received : Nat)
deriving DecidableEq

def UsageError.message : UsageError → String
  | unknownCommand word path similar =>
    let hint :=
      if similar.isEmpty then ""
      else "\n\nDid you mean this?\n" ++ String.join (similar.map fun name => s!"\t{name}\n")
    s!"unknown command {Text.quote word} for {Text.quote path}{hint}"
  | flag error => error.message
  | arity (.exactly n) received => s!"accepts {n} arg(s), received {received}"
  | arity (.atLeast n) received => s!"requires at least {n} arg(s), only received {received}"
  | arity (.atMost n) received => s!"accepts at most {n} arg(s), received {received}"
  | arity _ received => s!"accepts 0 arg(s), received {received}"

def Spec.checkWords (s : Spec) (words : List String) : Except UsageError Unit :=
  let fits : Bool :=
    match s.arity with
    | .any => true
    | .none => words.isEmpty
    | .exactly n => words.length = n
    | .atLeast n => n ≤ words.length
    | .atMost n => words.length ≤ n
  match fits, s.arity, words with
  | true, _, _ => .ok ()
  | false, .none, word :: _ => .error (.unknownCommand word s!"{programName} {s.name}" [])
  | false, wanted, words => .error (.arity wanted words.length)

def helpFlag (name : String) : Flag :=
  { name := "help", letter := some 'h', kind := .switch, usage := s!"help for {name}" }

def verboseFlag : Flag :=
  { name := "verbose", letter := some 'v', kind := .count
    usage := "increase log verbosity (repeatable)" }

def bindingFlags : List Flag :=
  [{ name := "both", letter := some 'b', kind := .texts
     usage := "bind an image name as source and destination (repeatable)" },
   { name := "dest", letter := some 'd', kind := .texts
     usage := "bind a destination image name (repeatable)" },
   { name := "source", letter := some 's', kind := .texts
     usage := "bind a source image name (repeatable)" }]

def runFlags : List Flag :=
  [{ name := "quiet", letter := some 'q', kind := .switch, usage := "do not print progress" },
   { name := "strategy", letter := none, kind := .text
     usage := "override the manifest's strategy (bytecode or tree)" },
   { name := "tile-height", letter := none, kind := .whole, usage := "override the tile height" },
   { name := "tile-width", letter := none, kind := .whole, usage := "override the tile width" }]

inductive Verb where
  | check
  | disasm
  | run
  | jobs
  | lsp
  | help
deriving DecidableEq

namespace Verb

def all : List Verb := [check, disasm, run, jobs, lsp, help]

def spec : Verb → Spec
  | check =>
    { name := "check", line := "check <script>...", summary := "Report diagnostics for scripts"
      about :=
        "Parse and resolve each script. Image names come from -s/-d/-b flags, or from the\n"
          ++ "nearest project manifest when no flag is given. Exits non-zero on any error."
      flags := bindingFlags, arity := .atLeast 1 }
  | disasm =>
    { name := "disasm", line := "disasm <script>", summary := "Print the bytecode of a script"
      about := "Print the bytecode of a script"
      flags := bindingFlags, arity := .exactly 1 }
  | run =>
    { name := "run", line := "run [dir]", summary := "Run a project's script over its images"
      about :=
        "Load the project manifest found in dir (default: the current directory) or above it,\n"
          ++ "read the source images, evaluate the script and write the destination images."
      flags := runFlags, arity := .atMost 1 }
  | jobs =>
    { name := "jobs", line := "jobs [dir]"
      summary := "List the jobs recorded in a project's journal"
      about := "List the jobs recorded in a project's journal"
      flags := [], arity := .atMost 1 }
  | lsp =>
    { name := "lsp", line := "lsp"
      summary := "Serve editor diagnostics, completion and hover over stdio"
      about := "Serve editor diagnostics, completion and hover over stdio"
      flags := [], arity := .none }
  | help =>
    { name := "help", line := "help [command]", summary := "Help about any command"
      about :=
        "Help provides help for any command in the application.\n"
          ++ s!"Simply type {programName} help [path to command] for full details."
      flags := [], arity := .any }

def ofName? (name : String) : Option Verb := all.find? (·.spec.name == name)

def flags (v : Verb) : List Flag := helpFlag v.spec.name :: verboseFlag :: v.spec.flags

end Verb

def rootFlags : List Flag := [helpFlag programName, verboseFlag]

/-- One more row of a table of distances: those between a longer first text and all beginnings
of the second one.
-/
def nextDistances (c : Char) : (corner : Nat) → (left : Nat) → List Char → List Nat → List Nat
  | corner, left, d :: ds, above :: more =>
    let here := min (min (above + 1) (left + 1)) (corner + if c = d then 0 else 1)
    here :: nextDistances c above here ds more
  | _, _, _, _ => []

/-- How many characters must be put in, left out or changed to make one text of another. -/
def editDistance (a b : List Char) : Nat :=
  let start := List.range (b.length + 1)
  let last := a.foldl (fun row c =>
    match row with
    | corner :: above => (corner + 1) :: nextDistances c corner (corner + 1) b above
    | [] => []) start
  last.getLast?.getD 0

def similarNames (word : String) : List String :=
  let word := (Text.lower word).toList
  (Verb.all.map (·.spec.name)).filter fun name =>
    editDistance word name.toList ≤ 2 || word.isPrefixOf name.toList

def flagLines (flags : List Flag) : String :=
  let left (f : Flag) : String :=
    let letter := (f.letter.map fun c => s!"  -{c}, ").getD "      "
    let value := if f.kind.placeholder = "" then "" else " " ++ f.kind.placeholder
    letter ++ "--" ++ f.name ++ value
  let width := (flags.map fun f => (left f).length).foldl max 0
  String.join (flags.map fun f => Text.padRight ' ' (width + 3) (left f) ++ f.usage ++ "\n")

def sortedFlags (flags : List Flag) : List Flag :=
  flags.mergeSort fun a b => a.name ≤ b.name

def Spec.help (s : Spec) : String :=
  s.about ++ "\n\nUsage:\n  " ++ programName ++ " " ++ s.line ++ " [flags]\n\nFlags:\n"
    ++ flagLines (sortedFlags (helpFlag s.name :: s.flags))
    ++ "\nGlobal Flags:\n" ++ flagLines [verboseFlag]

def rootHelp : String :=
  let commands := (Verb.all.map Verb.spec).mergeSort fun a b => a.name ≤ b.name
  let line (c : Spec) : String := "  " ++ Text.padRight ' ' 11 c.name ++ " " ++ c.summary ++ "\n"
  programName ++ " compiles per-pixel raster-algebra scripts and evaluates them over images.\n\n"
    ++ "A project is a directory holding rastal.toml (or rastal.yaml) that names the script\n"
    ++ "and binds its image names to files.\n\nUsage:\n  " ++ programName ++ " [command]\n\n"
    ++ "Available Commands:\n"
    ++ String.join (commands.map line)
    ++ "\nFlags:\n" ++ flagLines rootFlags
    ++ s!"\nUse \"{programName} [command] --help\" for more information about a command.\n"

inductive Request where
  | helpText (text : String)
  | perform (verb : Verb) (arguments : Arguments)
deriving DecidableEq

/-- What a command line asks for. Flags may stand in front of the command. -/
def Request.ofLine (line : List String) : Except UsageError Request := do
  match firstWord? rootFlags line with
  | none =>
    discard ((Arguments.read rootFlags line).mapError .flag)
    return .helpText rootHelp
  | some word =>
    match Verb.ofName? word with
    | none => throw (.unknownCommand word programName (similarNames word))
    | some verb =>
      let arguments ← (Arguments.read verb.flags (dropWord rootFlags word line)).mapError .flag
      if arguments.isOn "help" then return .helpText verb.spec.help
      verb.spec.checkWords arguments.words
      return .perform verb arguments

end MapAlgebra.Command
