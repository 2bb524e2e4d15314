import MapAlgebra.Codec.Cbor
import MapAlgebra.Journal.Entry

/-! Event streams: one record for each event, one after another. A stream that was cut off still
gives the events that are wholly in it.
-/

namespace MapAlgebra

/-- The record of a notice. A zero fraction and an empty cause are left out. -/
def Notice.streamRecord (n : Notice) (time : Int) : Cbor :=
  let field (number : Nat) (value : Cbor) : List Cbor := [.unsigned number, value]
  let fraction : Cbor := if n.fraction.isNaN then .half 0x7E00 else .ofSample n.fraction
  .map (field 1 (.octets [n.job.bytes])
    ++ field 2 (.ofInt n.kind.number)
    ++ (if n.fraction.isZero then [] else field 3 fraction)
    ++ (if n.cause.isEmpty then [] else field 4 (.ofText n.cause))
    ++ field 5 (.ofInt time))

structure StreamWriter where
  written : Bytes
  /-- How many bytes there is room for, if there is a limit. -/
  room : Option Nat
  /-- A write failed; nothing is written any more. -/
  failed : Bool
deriving DecidableEq

namespace StreamWriter

def create (room : Option Nat) : StreamWriter := { written := [], room, failed := false }

def failure : String := "journal: write event: disk full"

/-- Writes a notice, whole or not at all. -/
def write (w : StreamWriter) (n : Notice) (time : Int) : StreamWriter :=
  if w.failed then w
  else
    let written := w.written ++ (n.streamRecord time).encode
    match w.room with
    | none => { w with written }
    | some room => if written.length ≤ room then { w with written } else { w with failed := true }

def hear (w : StreamWriter) (n : Notice) (time : Int) : StreamWriter :=
  match n.told? .zero with
  | some n => w.write n time
  | none => w

end StreamWriter

inductive StreamError where
  /-- The bytes are no record with the right fields, or end too early. -/
  | malformed
  | badJob (seq : Nat) (error : JobIdError)
deriving DecidableEq

/-- The wording of an error; malformed bytes have none of their own. -/
def StreamError.message : StreamError → Option String
  | malformed => none
  | badJob seq error => some s!"journal: read event {seq}: {error.message}"

namespace EventStream

def entry (seq : Nat) (item : Cbor) : Except StreamError Entry := do
  let some fields := item.toRecord? | .error .malformed
  let some job := (Cbor.field fields 1).toBytes? | .error .malformed
  let some kind := (Cbor.field fields 2).toInt? | .error .malformed
  let some fraction := (Cbor.field fields 3).toSample? | .error .malformed
  let some cause := (Cbor.field fields 4).toText? | .error .malformed
  let some time := (Cbor.field fields 5).toInt? | .error .malformed
  match JobId.ofBytes job with
  | .error error => .error (.badJob seq error)
  | .ok job => .ok { seq, job, kind := .ofNumber kind, fraction, cause, time }

/-- Reads the records from a place in the order of writing on; every record takes at least a
byte.
-/
def readFrom : (fuel : Nat) → (seq : Nat) → Bytes → List Entry × Option StreamError
  | 0, _, bytes => ([], if bytes.isEmpty then none else some .malformed)
  | fuel + 1, seq, bytes =>
    if bytes.isEmpty then ([], none)
    else
      match Cbor.read bytes with
      | none => ([], some .malformed)
      | some (item, rest) =>
        match entry seq item with
        | .error error => ([], some error)
        | .ok e =>
          let (entries, error) := readFrom fuel (seq + 1) rest
          (e :: entries, error)

def read (bytes : Bytes) : List Entry × Option StreamError :=
  readFrom bytes.length 1 bytes

end EventStream

end MapAlgebra
