import MapAlgebra.Codec.Cbor
import MapAlgebra.Files
import MapAlgebra.Journal

/-! Journals in files: a heading, then one array for each row. -/

namespace MapAlgebra

inductive JournalFileError where
  | unopened
  /-- The file holds something else. -/
  | foreign
deriving DecidableEq

def JournalFileError.message : JournalFileError → String
  | unopened => "setting busy timeout: unable to open database file: out of memory (14)"
  | foreign => "creating table: file is not a database (26)"

def JournalRow.cbor (row : JournalRow) : Cbor :=
  .array [.ofText row.job, .ofText row.kind, .double row.fraction.bits.toNat, .ofText row.cause,
    .ofInt row.time]

def JournalRow.ofCbor? (seq : Nat) : Cbor → Option JournalRow
  | .array [job, kind, fraction, cause, time] => do
    return { seq, job := ← job.toText?, kind := ← kind.toText?, fraction := ← fraction.toSample?
             cause := ← cause.toText?, time := ← time.toInt? }
  | _ => none

namespace Journal

def heading : Bytes := Text.toBytes "map algebra journal 1\n"

def toBytes (j : Journal) : Bytes :=
  heading ++ j.rows.flatMap fun row => row.cbor.encode

/-- Reads the rows from a number on; every row takes at least a byte. -/
def rowsFrom? : (fuel : Nat) → (seq : Nat) → Bytes → Option (List JournalRow)
  | 0, _, bytes => if bytes.isEmpty then some [] else none
  | fuel + 1, seq, bytes =>
    if bytes.isEmpty then some []
    else do
      let (item, rest) ← Cbor.read bytes
      return (← JournalRow.ofCbor? seq item) :: (← rowsFrom? fuel (seq + 1) rest)

def ofBytes? (bytes : Bytes) : Option Journal :=
  if bytes.isEmpty then some .empty
  else if bytes.take heading.length = heading then
    let rest := bytes.drop heading.length
    (rowsFrom? rest.length 1 rest).map fun rows => { rows, isOpen := true }
  else none

section

variable {m : Type → Type} [Monad m] [FileSystem m]

def save (path : String) (j : Journal) : m (Except JournalFileError Unit) := do
  return (← writeFile path j.toBytes).mapError fun _ => .unopened

def openFile (path : String) : m (Except JournalFileError Journal) := do
  match ← readFile path with
  | .error e =>
    if e.fault = .notFound then return (← save path .empty).map fun _ => .empty
    else return .error .unopened
  | .ok bytes =>
    match ofBytes? bytes with
    | some j => return .ok j
    | none => return .error .foreign

end

end Journal

end MapAlgebra
