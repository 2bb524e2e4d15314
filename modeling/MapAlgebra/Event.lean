import MapAlgebra.Compile
import MapAlgebra.Eval.Fault
import MapAlgebra.JobId

/-! What happens to jobs: how they fail and what they tell on the way. -/

namespace MapAlgebra

inductive Cancellation where
  | requested
  | deadline
deriving DecidableEq

def Cancellation.message : Cancellation → String
  | requested => "context canceled"
  | deadline => "context deadline exceeded"

inductive Failure where
  | compile (error : CompileError)
  | images (faults : List ImageFault)
  | evaluation (error : EvalError)
  | cancelled (reason : Cancellation)

def Failure.message : Failure → String
  | compile error => error.message
  | images faults => "\n".intercalate (faults.map ImageFault.message)
  | evaluation error => error.message
  | cancelled reason => "job cancelled: " ++ reason.message

inductive EventKind where
  | progress
  | completion
  | failure
  | other (number : Int)
deriving DecidableEq

namespace EventKind

def ofNumber : Int → EventKind
  | 0 => progress
  | 1 => completion
  | 2 => failure
  | n => other n

def number : EventKind → Int
  | progress => 0
  | completion => 1
  | failure => 2
  | other n => n

def name : EventKind → String
  | progress => "progress"
  | completion => "completion"
  | failure => "failure"
  | other n => s!"EventKind({n})"

def ofName? (name : String) : Option EventKind :=
  [progress, completion, failure].find? (·.name == name)

def isTerminal : EventKind → Bool
  | completion | failure => true
  | _ => false

end EventKind

inductive Event where
  | progress (fraction : Sample)
  | completion
  | failure (cause : Failure)

def Event.kind : Event → EventKind
  | progress _ => .progress
  | completion => .completion
  | failure _ => .failure

/-- An event as it is written down: every field is there, whatever the kind. -/
structure Notice where
  job : JobId
  kind : EventKind
  fraction : Sample
  cause : String
deriving DecidableEq

def Event.notice (job : JobId) : Event → Notice
  | progress fraction => { job, kind := .progress, fraction, cause := "" }
  | completion => { job, kind := .completion, fraction := .zero, cause := "" }
  | failure cause => { job, kind := .failure, fraction := .zero, cause := cause.message }

namespace Notice

/-- What is written down of a notice when only the fields of its kind are told. Completion has the
given fraction. Other kinds are not told.
-/
def told? (atCompletion : Sample) (n : Notice) : Option Notice :=
  match n.kind with
  | .progress => some { n with cause := "" }
  | .completion => some { n with fraction := atCompletion, cause := "" }
  | .failure => some { n with fraction := .zero }
  | .other _ => none

end Notice

end MapAlgebra
