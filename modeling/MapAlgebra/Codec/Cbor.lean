import MapAlgebra.Sample.Narrow
import MapAlgebra.Text.Scalar

/-! Concise binary objects: items with a head that tells their kind and length. Items are
written with the shortest heads and definite lengths. Every well-formed item is read, within
limits on nesting and on the number of elements.
-/

namespace MapAlgebra

/-- An item. Strings are kept in the pieces they were written in. The pairs of a map are kept
flat, each key in front of its value.
-/
inductive Cbor where
  | unsigned (n : Nat)
  /-- The number -1 - n. -/
  | negative (n : Nat)
  | octets (pieces : List Bytes)
  | text (pieces : List Bytes)
  | array (items : List Cbor)
  | map (items : List Cbor)
  | tag (number : Nat) (content : Cbor)
  | simple (n : Nat)
  | half (pattern : Nat)
  | single (pattern : Nat)
  | double (pattern : Nat)

namespace Cbor

def null : Cbor := simple 22

/-- Arrays, maps and tags behind tags nest this deep at most. -/
def maxLevels : Nat := 32

/-- Arrays have this many items at most, and maps this many pairs. -/
def maxElements : Nat := 131072

def bigEndian : (count : Nat) → Nat → Bytes
  | 0, _ => []
  | count + 1, n => (n / 256 ^ count % 256).toUInt8 :: bigEndian count n

def ofBigEndian (bytes : Bytes) : Nat :=
  bytes.foldl (fun n b => n * 256 + b.toNat) 0

def head (major n : Nat) : Bytes :=
  let first (info : Nat) : UInt8 := (major * 32 + info).toUInt8
  if n < 24 then [first n]
  else if n < 2 ^ 8 then first 24 :: bigEndian 1 n
  else if n < 2 ^ 16 then first 25 :: bigEndian 2 n
  else if n < 2 ^ 32 then first 26 :: bigEndian 4 n
  else first 27 :: bigEndian 8 n

mutual

def encode : Cbor → Bytes
  | unsigned n => head 0 n
  | negative n => head 1 n
  | octets pieces => head 2 pieces.flatten.length ++ pieces.flatten
  | text pieces => head 3 pieces.flatten.length ++ pieces.flatten
  | array items => head 4 items.length ++ encodeAll items
  | map items => head 5 (items.length / 2) ++ encodeAll items
  | tag number content => head 6 number ++ encode content
  | simple n => head 7 n
  | half pattern => 0xF9 :: bigEndian 2 pattern
  | single pattern => 0xFA :: bigEndian 4 pattern
  | double pattern => 0xFB :: bigEndian 8 pattern

def encodeAll : List Cbor → Bytes
  | [] => []
  | item :: rest => encode item ++ encodeAll rest

end

def ofInt (n : Int) : Cbor :=
  if n < 0 then negative (-1 - n).toNat else unsigned n.toNat

def ofText (s : String) : Cbor := text [Text.toBytes s]

def ofSample (s : Sample) : Cbor :=
  match FloatFormat.half.narrow? s with
  | some pattern => half pattern
  | none =>
    match FloatFormat.single.narrow? s with
    | some pattern => single pattern
    | none => double s.bits.toNat

abbrev Step (α : Type) := Bytes → Option (α × Bytes)

/-- The start of an item. Information 31 marks an indefinite length or the end of one. -/
structure Head where
  major : Nat
  info : Nat
  value : Nat
deriving DecidableEq

def take (count : Nat) : Step Bytes := fun bytes =>
  let taken := bytes.take count
  if taken.length = count then some (taken, bytes.drop count) else none

/-- Reads a head. Small values are part of the first byte, others follow it. -/
def readHead : Step Head
  | [] => none
  | first :: rest =>
    let major := first.toNat / 32
    let info := first.toNat % 32
    let wide (count : Nat) : Option (Head × Bytes) := do
      let (value, rest) ← take count rest
      return ({ major, info, value := ofBigEndian value }, rest)
    if info < 24 then some ({ major, info, value := info }, rest)
    else if info = 24 then wide 1
    else if info = 25 then wide 2
    else if info = 26 then wide 4
    else if info = 27 then wide 8
    else if info = 31 then some ({ major, info, value := 0 }, rest)
    else none

def repeated {α : Type} (step : Step α) : (count : Nat) → (read : List α) → Step (List α)
  | 0, read, bytes => some (read.reverse, bytes)
  | count + 1, read, bytes => do
    let (a, bytes) ← step bytes
    repeated step count (a :: read) bytes

/-- Reads things up to the byte that ends an indefinite length, but not more than a count. -/
def untilBreak {α : Type} (step : Step α) : (count : Nat) → (read : List α) → Step (List α)
  | _, read, 0xFF :: bytes => some (read.reverse, bytes)
  | 0, _, _ => none
  | count + 1, read, bytes => do
    let (a, bytes) ← step bytes
    untilBreak step count (a :: read) bytes

def piece (major : Nat) : Step Bytes := fun bytes => do
  let (head, bytes) ← readHead bytes
  if head.major = major ∧ head.info ≠ 31 then take head.value bytes else none

def pieces (head : Head) : Step (List Bytes) := fun bytes =>
  if head.info = 31 then untilBreak (piece head.major) bytes.length [] bytes
  else do
    let (only, bytes) ← take head.value bytes
    return ([only], bytes)

/-- Reads the elements of an array or map whose head was read; each has so many items. -/
def elements (child : Step Cbor) (itemsEach : Nat) (head : Head) : Step (List Cbor) := fun bytes =>
  if head.info = 31 then do
    let (items, bytes) ← untilBreak child (itemsEach * maxElements) [] bytes
    if items.length % itemsEach = 0 then some (items, bytes) else none
  else if head.value > maxElements then none
  else repeated child (itemsEach * head.value) [] bytes

def primitive? (head : Head) : Option Cbor :=
  if head.info < 24 then some (simple head.value)
  else if head.info = 24 then if head.value < 32 then none else some (simple head.value)
  else if head.info = 25 then some (half head.value)
  else if head.info = 26 then some (single head.value)
  else if head.info = 27 then some (double head.value)
  else none

/-- Reads an item that is no tag; there may be no level left for items inside. -/
def untagged (child : Option (Step Cbor)) : Step Cbor := fun bytes => do
  let (head, bytes) ← readHead bytes
  match head.major with
  | 0 => if head.info = 31 then none else some (unsigned head.value, bytes)
  | 1 => if head.info = 31 then none else some (negative head.value, bytes)
  | 2 =>
    let (pieces, bytes) ← pieces head bytes
    return (octets pieces, bytes)
  | 3 =>
    let (pieces, bytes) ← pieces head bytes
    return (text pieces, bytes)
  | 4 =>
    let (items, bytes) ← elements (← child) 1 head bytes
    return (array items, bytes)
  | 5 =>
    let (items, bytes) ← elements (← child) 2 head bytes
    return (map items, bytes)
  | 7 => return (← primitive? head, bytes)
  | _ => none

def startsWithTag : Bytes → Bool
  | first :: _ => first.toNat / 32 = 6
  | [] => false

def tagged (content : Step Cbor) : Step Cbor := fun bytes => do
  let (head, bytes) ← readHead bytes
  if head.info = 31 then none
  else
    let (item, bytes) ← content bytes
    return (tag head.value item, bytes)

def maybeTagged (content : Step Cbor) : Step Cbor := fun bytes =>
  if startsWithTag bytes then tagged content bytes else content bytes

def content : (levels : Nat) → Step Cbor
  | 0, bytes => if startsWithTag bytes then none else untagged none bytes
  | levels + 1, bytes =>
    if startsWithTag bytes then tagged (content levels) bytes
    else untagged (some (maybeTagged (content levels))) bytes

def read : Step Cbor :=
  maybeTagged (content maxLevels)

def decode (bytes : Bytes) : Option Cbor := do
  let (item, rest) ← read bytes
  if rest.isEmpty then some item else none

/-- What a tag says about its content, for the tags that say something. -/
def untag? (number : Nat) (content : Cbor) : Option Cbor :=
  match number, content with
  | 0, text pieces => some (text pieces)
  | 0, _ => none
  | 1, unsigned n => some (unsigned n)
  | 1, negative n => some (negative n)
  | 1, half p => some (half p)
  | 1, single p => some (single p)
  | 1, double p => some (double p)
  | 1, _ => none
  | 2, octets pieces => some (unsigned (ofBigEndian pieces.flatten))
  | 2, _ => none
  | 3, octets pieces => some (negative (ofBigEndian pieces.flatten))
  | 3, _ => none
  | _, content => some content

/-- The whole number of an item that fits into a word; nothing counts as zero. -/
def toInt? : Cbor → Option Int
  | unsigned n => if n < 2 ^ 63 then some n else none
  | negative n => if n < 2 ^ 63 then some (-1 - n) else none
  | simple n => if n = 22 || n = 23 then some 0 else if n = 20 || n = 21 then none else some n
  | tag number content =>
    match number with
    | 0 => none
    | 1 | 2 | 3 =>
      match untag? number content with
      | some (unsigned n) => if n < 2 ^ 63 then some n else none
      | some (negative n) => if n < 2 ^ 63 then some (-1 - n) else none
      | _ => none
    | _ => toInt? content
  | _ => none

/-- The sample of an item without tags; nothing counts as zero. -/
def untaggedSample? : Cbor → Option Sample
  | unsigned n => if n < 2 ^ 64 then some (.ofInt n) else none
  | negative n => if n < 2 ^ 63 then some (.ofInt (-1 - n)) else none
  | half pattern => some (FloatFormat.half.widen pattern)
  | single pattern => some (FloatFormat.single.widen pattern)
  | double pattern => some { bits := pattern.toUInt64 }
  | simple n =>
    if n = 22 || n = 23 then some .zero
    else if n = 20 || n = 21 then none
    else some (.ofInt n)
  | _ => none

/-- The sample of an item; whole numbers are converted. -/
def toSample? : Cbor → Option Sample
  | tag number content =>
    match number with
    | 0 | 1 | 2 | 3 => (untag? number content).bind untaggedSample?
    | _ => toSample? content
  | item => untaggedSample? item

/-- The samples of an array; nothing counts as an empty one. -/
def toSamples? : Cbor → Option (List Sample)
  | array items => items.mapM toSample?
  | simple n => if n = 22 || n = 23 then some [] else none
  | tag number content => if number < 4 then none else toSamples? content
  | _ => none

def toByte? (item : Cbor) : Option UInt8 := do
  let n ← item.toInt?
  if 0 ≤ n ∧ n < 256 then some n.toNat.toUInt8 else none

/-- The bytes of a byte string, or of an array of numbers below 256; nothing counts as none. -/
def toBytes? : Cbor → Option Bytes
  | octets pieces => some pieces.flatten
  | array items => items.mapM toByte?
  | simple n => if n = 22 || n = 23 then some [] else none
  | tag number content =>
    match number, content with
    | 2, octets pieces | 3, octets pieces => some pieces.flatten
    | number, content => if number < 4 then none else toBytes? content
  | _ => none

/-- The text of an item, each piece of which must be well-formed; nothing counts as an empty one. -/
def toText? : Cbor → Option String
  | text pieces => (pieces.mapM Text.ofBytes?).map String.join
  | simple n => if n = 22 || n = 23 then some "" else none
  | tag number content =>
    match number, content with
    | 0, text pieces => (pieces.mapM Text.ofBytes?).map String.join
    | number, content => if number < 4 then none else toText? content
  | _ => none

def pairs : List Cbor → List (Cbor × Cbor)
  | key :: value :: rest => (key, value) :: pairs rest
  | _ => []

/-- A field of a record is named by a text or a number. -/
def isKey : Cbor → Bool
  | text pieces => pieces.all fun piece => (Text.ofBytes? piece).isSome
  | unsigned _ => true
  | negative n => n < 2 ^ 63
  | _ => false

/-- The fields of a record; nothing counts as a record without fields. -/
def toRecord? : Cbor → Option (List (Cbor × Cbor))
  | map items => if (pairs items).all (isKey ·.1) then some (pairs items) else none
  | simple n => if n = 22 || n = 23 then some [] else none
  | tag number content => if number < 4 then none else toRecord? content
  | _ => none

def fieldNumber? : Cbor → Option Int
  | unsigned n => some n
  | negative n => some (-1 - n)
  | _ => none

def field (fields : List (Cbor × Cbor)) (number : Int) : Cbor :=
  match fields.find? fun (key, _) => fieldNumber? key == some number with
  | some (_, value) => value
  | none => null

end Cbor

end MapAlgebra
