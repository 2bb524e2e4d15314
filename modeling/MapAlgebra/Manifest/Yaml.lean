import MapAlgebra.Manifest.Yaml.Token
import MapAlgebra.Sample.Decimal
import MapAlgebra.Text.Scalar
import MapAlgebra.Text.Whole

/-! Settings that are laid out by indentation: texts, lists and mappings. What a text without quotes
stands for is up to whoever asks for it.
-/

namespace MapAlgebra

inductive Yaml where
  /-- A text, and whether it was written without any quotes. -/
  | scalar (text : String) (plain : Bool)
  | sequence (items : List Yaml)
  | mapping (fields : List (Yaml × Yaml))

namespace Yaml

def nothing : Yaml := scalar "" true

abbrev Reader (α : Type) := List Token → Option (α × List Token)

def expect (t : Token) : Reader Unit
  | u :: rest => if t = u then some ((), rest) else none
  | [] => none

def endsAt (stops : List Token) : List Token → Bool
  | [] => true
  | t :: _ => stops.contains t

mutual

/-- Reads a part. A list may stand at the indentation of the mapping around it. -/
def node : (fuel : Nat) → (block unindented : Bool) → Reader Yaml
  | 0, _, _, _ => none
  | fuel + 1, block, unindented, ts =>
    match ts with
    | .scalar text plain :: rest => some (scalar text plain, rest)
    | .flowSequenceStart :: rest => (flowItems fuel true rest).map fun (l, ts) => (sequence l, ts)
    | .flowMappingStart :: rest => (flowFields fuel true rest).map fun (l, ts) => (mapping l, ts)
    | .sequenceStart :: rest =>
      if block then (blockItems fuel rest).map fun (l, ts) => (sequence l, ts) else none
    | .mappingStart :: rest =>
      if block then (blockFields fuel rest).map fun (l, ts) => (mapping l, ts) else none
    | .entry :: _ =>
      if unindented then (bareItems fuel ts).map fun (l, ts) => (sequence l, ts) else none
    | _ => none

def nodeUnless : (fuel : Nat) → (stops : List Token) → (unindented : Bool) → Reader Yaml
  | 0, _, _, _ => none
  | fuel + 1, stops, unindented, ts =>
    if endsAt stops ts then some (nothing, ts) else node fuel true unindented ts

def blockItems : (fuel : Nat) → Reader (List Yaml)
  | 0, _ => none
  | fuel + 1, ts =>
    match ts with
    | .entry :: rest => do
      let (item, ts) ← nodeUnless fuel [.entry, .blockEnd] false rest
      (blockItems fuel ts).map fun (more, ts) => (item :: more, ts)
    | .blockEnd :: rest => some ([], rest)
    | _ => none

def bareItems : (fuel : Nat) → Reader (List Yaml)
  | 0, _ => none
  | fuel + 1, ts =>
    match ts with
    | .entry :: rest => do
      let (item, ts) ← nodeUnless fuel [.entry, .key, .value, .blockEnd] false rest
      (bareItems fuel ts).map fun (more, ts) => (item :: more, ts)
    | ts => some ([], ts)

def blockFields : (fuel : Nat) → Reader (List (Yaml × Yaml))
  | 0, _ => none
  | fuel + 1, ts =>
    match ts with
    | .blockEnd :: rest => some ([], rest)
    | .key :: rest => do
      let (k, ts) ← nodeUnless fuel [.key, .value, .blockEnd] true rest
      let (v, ts) ← blockValue fuel ts
      (blockFields fuel ts).map fun (more, ts) => ((k, v) :: more, ts)
    | .value :: _ => do
      let (v, ts) ← blockValue fuel ts
      (blockFields fuel ts).map fun (more, ts) => ((nothing, v) :: more, ts)
    | _ => none

def blockValue : (fuel : Nat) → Reader Yaml
  | 0, _ => none
  | fuel + 1, ts =>
    match ts with
    | .value :: rest => nodeUnless fuel [.key, .value, .blockEnd] true rest
    | ts => some (nothing, ts)

def flowItems : (fuel : Nat) → (first : Bool) → Reader (List Yaml)
  | 0, _, _ => none
  | fuel + 1, first, ts => do
    if let .flowSequenceEnd :: rest := ts then return ([], rest)
    let (_, ts) ← if first then some ((), ts) else expect .flowEntry ts
    match ts with
    | .flowSequenceEnd :: rest => return ([], rest)
    | .key :: _ => do
      let (field, ts) ← flowField fuel .flowSequenceEnd ts
      (flowItems fuel false ts).map fun (more, ts) => (mapping [field] :: more, ts)
    | ts => do
      let (item, ts) ← node fuel false false ts
      (flowItems fuel false ts).map fun (more, ts) => (item :: more, ts)

def flowFields : (fuel : Nat) → (first : Bool) → Reader (List (Yaml × Yaml))
  | 0, _, _ => none
  | fuel + 1, first, ts => do
    if let .flowMappingEnd :: rest := ts then return ([], rest)
    let (_, ts) ← if first then some ((), ts) else expect .flowEntry ts
    match ts with
    | .flowMappingEnd :: rest => return ([], rest)
    | ts => do
      let (field, ts) ← flowField fuel .flowMappingEnd ts
      (flowFields fuel false ts).map fun (more, ts) => (field :: more, ts)

def flowField : (fuel : Nat) → (stop : Token) → Reader (Yaml × Yaml)
  | 0, _, _ => none
  | fuel + 1, stop, ts => do
    match ts with
    | .key :: ts => do
      let (k, ts) ←
        if endsAt [.value, .flowEntry, stop] ts then some (nothing, ts)
        else node fuel false false ts
      match ts with
      | .value :: ts => do
        let (v, ts) ←
          if endsAt [.flowEntry, stop] ts then some (nothing, ts) else node fuel false false ts
        return ((k, v), ts)
      | ts => return ((k, nothing), ts)
    | ts => do
      let (k, ts) ← node fuel false false ts
      return ((k, nothing), ts)

end

def document (ts : List Token) : Option Yaml :=
  let ends : List Token := [.directive, .documentStart, .documentEnd]
  let content (ts : List Token) : Option Yaml :=
    if endsAt ends ts then some nothing else (node (4 * ts.length + 4) true false ts).map (·.1)
  match ts with
  | .directive :: _ =>
    match ts.dropWhile (· == .directive) with
    | .documentStart :: rest => content rest
    | _ => none
  | .documentStart :: rest => content rest
  | [] => some nothing
  | ts => (node (4 * ts.length + 4) true false ts).map (·.1)

def isAllowed (c : Char) : Bool :=
  let n := c.toNat
  c = '\t' || c = '\n' || c = '\r' || (0x20 ≤ n && n ≤ 0x7E) || n = 0x85
    || (0xA0 ≤ n && n ≠ 0xFFFE && n ≠ 0xFFFF)

def plainLines : List Char → List Char
  | '\r' :: '\n' :: rest => '\n' :: plainLines rest
  | '\r' :: rest => '\n' :: plainLines rest
  | c :: rest => (if c.toNat = 0x85 then '\n' else c) :: plainLines rest
  | [] => []

def parse? (bytes : Bytes) : Option Yaml := do
  let bytes := if bytes.take 3 = [0xEF, 0xBB, 0xBF] then bytes.drop 3 else bytes
  let chars := (← Text.ofBytes? bytes).toList
  if chars.all isAllowed then document (tokens (plainLines chars)) else none

inductive Meaning where
  | nothing
  | whole (n : Int)
  | number (s : Sample)
  | other
deriving DecidableEq

/-- The whole number that a numeral spells. One without a sign may take all 64 bits. -/
def whole? (text : List Char) : Option Int :=
  match Whole.parse text, Whole.magnitude text with
  | .ok n, _ => some n
  | .error _, .ok n => some n
  | .error _, .error _ => none

def number? (text : List Char) : Option Sample := do
  let (negative, rest) :=
    match text with
    | '-' :: rest => (true, rest)
    | '+' :: rest => (false, rest)
    | rest => (false, rest)
  let s ← Sample.parse? (String.ofList rest)
  return if negative then s.neg else s

def meaning (text : String) : Meaning :=
  if ["", "~", "null", "Null", "NULL"].contains text then .nothing
  else if [".nan", ".NaN", ".NAN"].contains text then .number .nan
  else if [".inf", ".Inf", ".INF", "+.inf", "+.Inf", "+.INF"].contains text then .number .infinity
  else if ["-.inf", "-.Inf", "-.INF"].contains text then .number Sample.infinity.neg
  else
    match text.toList with
    | '.' :: rest => ((number? ('.' :: rest)).map Meaning.number).getD .other
    | c :: rest =>
      if c.isDigit || c = '-' || c = '+' then
        let digits := (c :: rest).filter (· ≠ '_')
        match whole? digits with
        | some n => .whole n
        | none => ((number? digits).map Meaning.number).getD .other
      else .other
    | [] => .nothing

/-- The number without its fraction, as a word. What is below all words becomes the least. -/
def truncated? (s : Sample) : Option Int :=
  match s.shape with
  | .nan => none
  | .infinite negative => if negative then some (-2 ^ 63) else none
  | .finite negative mantissa exponent =>
    let n := mantissa * 2 ^ exponent.toNat / 2 ^ (-exponent).toNat
    if negative then some (if n ≤ 2 ^ 63 then -n else -2 ^ 63)
    else if n < 2 ^ 63 then some n
    else if n = 2 ^ 63 then some (-2 ^ 63)
    else none

end Yaml

end MapAlgebra
