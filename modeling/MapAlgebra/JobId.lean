import MapAlgebra.Text.Quoted
import MapAlgebra.Text.Scalar

/-! The identities of jobs, and the texts that spell them. -/

namespace MapAlgebra

structure JobId where
  bytes : Bytes
deriving DecidableEq

inductive JobIdError where
  | textLength (bytes : Nat)
  /-- A long spelling starts with something else than the name of its scheme. -/
  | scheme (found : String)
  /-- Something else than a digit or a dash stands in its place. -/
  | format
  | byteCount (bytes : Nat)
deriving DecidableEq

def JobIdError.message : JobIdError → String
  | textLength n => s!"invalid UUID length: {n}"
  | scheme found => "invalid urn prefix: " ++ Text.quote found
  | format => "invalid UUID format"
  | byteCount n => s!"invalid UUID (got {n} bytes)"

namespace JobId

/-- The groups of digits in the text of an identity: where each starts and how many it has. -/
def groups : List (Nat × Nat) :=
  [(0, 8), (8, 4), (12, 4), (16, 4), (20, 12)]

def render (id : JobId) : String :=
  let hex := id.bytes.flatMap fun b => (Text.hexByte b).toList
  "-".intercalate (groups.map fun (start, length) => String.ofList ((hex.drop start).take length))

def ofBytes (bytes : Bytes) : Except JobIdError JobId :=
  if bytes.length = 16 then .ok { bytes } else .error (.byteCount bytes.length)

/-- The characters of a text that is known to be plain, one for each byte. -/
def plainChars (bytes : Bytes) : List Char :=
  bytes.map fun b => Char.ofNat b.toNat

def ofDigits (digits : Bytes) : Except JobIdError JobId :=
  match Text.bytesOfHex? (plainChars digits) with
  | some bytes => .ok { bytes }
  | none => .error .format

/-- The identity that digits spell with dashes between their groups; what follows is not looked
at.
-/
def ofDashed (text : Bytes) : Except JobIdError JobId :=
  if [8, 13, 18, 23].all fun place => text[place]? == some 0x2D then
    ofDigits (groups.zipIdx.flatMap fun ((start, length), group) =>
      (text.drop (start + group)).take length)
  else .error .format

def scheme : String := "urn:uuid:"

/-- The identity that a text spells: bare digits, digits with dashes, and the latter between
brackets or behind the name of the scheme.
-/
def ofText (s : String) : Except JobIdError JobId :=
  let text := Text.toBytes s
  match text.length with
  | 32 => ofDigits text
  | 36 => ofDashed text
  | 38 => ofDashed (text.drop 1)
  | 45 =>
    let front := text.take 9
    if String.ofList ((plainChars front).map Char.toLower) == scheme then ofDashed (text.drop 9)
    else .error (.scheme (Text.ofBytes front))
  | n => .error (.textLength n)

end JobId

end MapAlgebra
