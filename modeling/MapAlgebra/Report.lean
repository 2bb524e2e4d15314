import MapAlgebra.Eval.Fault
import MapAlgebra.Sample.Decimal

/-! Machine-readable descriptions: plain data that tools can take apart. -/

namespace MapAlgebra

inductive Report where
  | null
  | bool (b : Bool)
  | int (n : Int)
  | text (s : String)
  | list (items : List Report)
  | record (fields : List (String × Report))

namespace Report

abbrev Fields := List (String × Report)

instance : Coe Bool Report := ⟨bool⟩
instance : Coe Int Report := ⟨int⟩
instance : Coe Nat Report := ⟨fun n => int n⟩
instance (n : Nat) : OfNat Report n := ⟨int n⟩
instance : Coe String Report := ⟨text⟩
instance : Coe (List Report) Report := ⟨list⟩

def optional : Option Report → Report
  | some r => r
  | none => null

def each {α : Type} (items : List α) (describe : α → Report) : Report :=
  list (items.map describe)

def texts (items : List String) : Report :=
  each items text

def ints (items : List Int) : Report :=
  each items int

abbrev SampleStyle := Sample → Report

def shortest : SampleStyle := fun s => s.render

def significant (digits : Nat) : SampleStyle := fun s => s.renderDigits digits

end Report

/-- Something went wrong: what kind of thing, in what words, and at which pixel if it concerns
one.
-/
structure Complaint where
  kind : String
  message : Option String
  place : Option EvalError

namespace Complaint

def ofText (kind message : String) : Complaint :=
  { kind, message := some message, place := none }

def plain (message : String) : Complaint := ofText "Error" message

def broken (message : String) : Complaint := ofText "panic" message

def crash : Complaint := broken "runtime error"

def codec : Complaint := { kind := "CodecError", message := none, place := none }

def fields (c : Complaint) : Report.Fields :=
  let place (e : EvalError) : Report :=
    .record [("image", e.image), ("x", e.x), ("y", e.y), ("band", e.band)]
  [("error", .text c.kind)]
    ++ (c.message.map fun m => ("message", .text m)).toList
    ++ (c.place.map fun e => ("at", place e)).toList

def report (c : Complaint) : Report := .record c.fields

end Complaint

def EvalError.complaint (e : EvalError) : Complaint :=
  { kind :=
      match e.fault with
      | .image _ => "ImageBindingError"
      | _ => "RuntimeEvaluationError"
    message := some e.message
    place := some e }

def Stop.complaint : Stop → Complaint
  | .error e => e.complaint
  | .crash => .crash
  | .unfinished => .broken "evaluation did not finish"

end MapAlgebra
