import MapAlgebra.Sample.Decimal
import MapAlgebra.Text.Scalar

/-! Settings in the notation of keys, tables and arrays of tables. A document is read line by
line; a table that was only implied by the name of another one may still be opened, once.
-/

namespace MapAlgebra

/-- A value. Times are kept as they are spelled. -/
inductive Toml where
  | text (s : String)
  | int (n : Int)
  | float (s : Sample)
  | bool (b : Bool)
  | time (s : String)
  | array (items : List Toml)
  | table (fields : List (String × Toml))
  /-- Tables that were opened one after another under one name. -/
  | tables (rows : List (List (String × Toml)))

namespace Toml

abbrev Fields := List (String × Toml)

abbrev Reader (α : Type) := List Char → Option (α × List Char)

def isBlank (c : Char) : Bool := c = ' ' || c = '\t'

def isKeyChar (c : Char) : Bool := c.isAlphanum || c = '_' || c = '-'

def isHexDigit (c : Char) : Bool := (Text.hexDigit? c).isSome

/-- No control characters but tabs and line ends stand in a document, and a carriage return only in
front of a line feed.
-/
def isClean : List Char → Bool
  | [] => true
  | c :: rest =>
    (if c = '\r' then rest.head? == some '\n'
      else c = '\t' || c = '\n' || (0x20 ≤ c.toNat && c.toNat ≠ 0x7F)) && isClean rest

def skipBlanks (s : List Char) : List Char := s.dropWhile isBlank

def skipToLineEnd (s : List Char) : List Char := s.dropWhile fun c => c ≠ '\n' && c ≠ '\r'

def lineEnd : Reader Unit := fun s =>
  let s := skipBlanks s
  let s := if s.head? == some '#' then skipToLineEnd s else s
  match s with
  | [] => some ((), [])
  | '\n' :: rest => some ((), rest)
  | '\r' :: '\n' :: rest => some ((), rest)
  | _ => none

def skipGaps : (inComment : Bool) → List Char → List Char
  | _, [] => []
  | true, c :: rest => skipGaps (c ≠ '\n') rest
  | false, c :: rest =>
    if isBlank c || c = '\n' || c = '\r' then skipGaps false rest
    else if c = '#' then skipGaps true rest
    else c :: rest

/-- Reads up to a closing quote in the same line. A backslash may hide a quote. -/
def quotedLine (quote : Char) (hides : Bool) : (hidden : Bool) → Reader (List Char)
  | _, [] => none
  | hidden, c :: rest =>
    if c = '\n' then none
    else if c = quote && !hidden then some ([], rest)
    else
      (quotedLine quote hides (hides && !hidden && c = '\\') rest).map fun (t, s) => (c :: t, s)

/-- Reads up to three closing quotes. Up to two more of them belong to the string. -/
def quotedLines (quote : Char) (hides : Bool) : (hidden : Bool) → Reader (List Char)
  | _, [] => none
  | hidden, c :: rest =>
    if c = quote && !hidden && rest.take 2 = [quote, quote] then
      let extra := min 2 ((rest.drop 2).takeWhile (· = quote)).length
      some (List.replicate extra quote, rest.drop (2 + extra))
    else
      (quotedLines quote hides (hides && !hidden && c = '\\') rest).map fun (t, s) => (c :: t, s)

def scalar? (digits : List Char) : Option Char := do
  let n ← Text.hexNat? digits
  if n < 0xD800 || (0xDFFF < n && n < 0x110000) then some (Char.ofNat n) else none

def escaped? : Char → Option Char
  | 'b' => some '\x08'
  | 't' => some '\t'
  | 'n' => some '\n'
  | 'f' => some '\x0c'
  | 'r' => some '\r'
  | 'e' => some '\x1b'
  | '\x22' => some '\x22'
  | '\\' => some '\\'
  | _ => none

def codeLength? : Char → Option Nat
  | 'x' => some 2
  | 'u' => some 4
  | 'U' => some 8
  | _ => none

def unescape : (skip : Nat) → List Char → Option (List Char)
  | _, [] => some []
  | skip + 1, _ :: rest => unescape skip rest
  | 0, c :: rest =>
    if c ≠ '\\' then (unescape 0 rest).map (c :: ·)
    else
      match rest with
      | [] => none
      | d :: more =>
        match codeLength? d with
        | some n => do
          let digits := more.take n
          if digits.length = n then
            let c ← scalar? digits
            (unescape (n + 1) rest).map (c :: ·)
          else none
        | none => do
          let c ← escaped? d
          (unescape 1 rest).map (c :: ·)

/-- A line end right behind the opening quotes does not count. -/
def dropFirstLineEnd : List Char → List Char
  | '\n' :: rest => rest
  | '\r' :: '\n' :: rest => rest
  | s => s

def gap (s : List Char) : List Char :=
  s.takeWhile fun c => isBlank c || c = '\n' || c = '\r'

/-- Joins lines: a backslash at the end of a line takes the gap up to the next character away. -/
def joinLines : (skip : Nat) → List Char → List Char
  | _, [] => []
  | skip + 1, _ :: rest => joinLines skip rest
  | 0, c :: rest =>
    if c ≠ '\\' then c :: joinLines 0 rest
    else if rest.head? == some '\\' then c :: c :: joinLines 1 rest
    else if (gap rest).contains '\n' then joinLines (gap rest).length rest
    else c :: joinLines 0 rest

def string (multiline : Bool) : Reader String := fun s =>
  match s with
  | '\x22' :: '\x22' :: '\x22' :: rest => do
    if !multiline then none
    let (raw, rest) ← quotedLines '\x22' true false rest
    let chars ← unescape 0 (joinLines 0 (dropFirstLineEnd raw))
    return (String.ofList chars, rest)
  | '\x27' :: '\x27' :: '\x27' :: rest => do
    if !multiline then none
    let (raw, rest) ← quotedLines '\x27' false false rest
    return (String.ofList (dropFirstLineEnd raw), rest)
  | '\x22' :: rest => do
    let (raw, rest) ← quotedLine '\x22' true false rest
    return (String.ofList (← unescape 0 raw), rest)
  | '\x27' :: rest => do
    let (raw, rest) ← quotedLine '\x27' false false rest
    return (String.ofList raw, rest)
  | _ => none

/-- Every underscore stands between digits, and a digit is last. -/
def underscoresFit : (digitBefore : Bool) → List Char → Bool
  | digitBefore, [] => digitBefore
  | digitBefore, c :: rest => (c ≠ '_' || digitBefore) && underscoresFit (isHexDigit c) rest

def unsigned : List Char → Bool × List Char
  | '-' :: rest => (true, rest)
  | '+' :: rest => (false, rest)
  | rest => (false, rest)

def hasLeadingZero (digits : List Char) : Bool :=
  digits.head? == some '0' && digits.length > 1

def word? (negative : Bool) (n : Nat) : Option Int :=
  if negative then if n ≤ 2 ^ 63 then some (-n) else none
  else if n < 2 ^ 63 then some n else none

def digits? (base : Nat) (digits : List Char) : Option Nat :=
  if digits.isEmpty then none
  else digits.foldlM (fun n c => do
    let d ← Text.hexDigit? c
    if d < base then some (n * base + d) else none) 0

def decimalInt? (text : List Char) : Option Toml := do
  let (negative, digits) := unsigned text
  if !underscoresFit false text || hasLeadingZero digits then none
  return int (← word? negative (← digits? 10 (digits.filter (· ≠ '_'))))

def basedInt? (base : Nat) (digits : List Char) : Option Toml := do
  if !underscoresFit false digits then none
  return int (← word? false (← digits? base (digits.filter (· ≠ '_'))))

def float? (text : List Char) : Option Toml := do
  let (negative, magnitude) := unsigned text
  let isMark (c : Char) : Bool := c = '.' || c = 'e' || c = 'E'
  let parts := (text.splitOnP isMark).filter (!·.isEmpty)
  let points := text.splitOn '.'
  if !parts.all (underscoresFit false) then none
  if hasLeadingZero (unsigned (parts.headD [])).2 then none
  if !(points.drop 1).all fun part => (part.head?.map Char.isDigit).getD false then none
  let s ← Sample.parse? (String.ofList (magnitude.filter (· ≠ '_')))
  return float (if negative then s.neg else s)

def twoDigits? (low high : Nat) : Reader Nat
  | a :: b :: rest =>
    let n := (a.toNat - '0'.toNat) * 10 + (b.toNat - '0'.toNat)
    if a.isDigit && b.isDigit && low ≤ n && n ≤ high then some (n, rest) else none
  | _ => none

def mark (c : Char) : Reader Unit
  | d :: rest => if c = d then some ((), rest) else none
  | [] => none

def monthDays (year month : Nat) : Nat :=
  if month = 2 then
    if year % 4 = 0 && (year % 100 ≠ 0 || year % 400 = 0) then 29 else 28
  else if [4, 6, 9, 11].contains month then 30
  else 31

def date : Reader Unit := fun s => do
  let (century, s) ← twoDigits? 0 99 s
  let (rest, s) ← twoDigits? 0 99 s
  let (_, s) ← mark '-' s
  let (month, s) ← twoDigits? 1 12 s
  let (_, s) ← mark '-' s
  let (_, s) ← twoDigits? 1 (monthDays (century * 100 + rest) month) s
  return ((), s)

/-- Reads a time of day; seconds may be left out, and may have a fraction. -/
def clock : Reader Unit := fun s => do
  let (_, s) ← twoDigits? 0 23 s
  let (_, s) ← mark ':' s
  let (_, s) ← twoDigits? 0 59 s
  match s with
  | ':' :: s => do
    let (_, s) ← twoDigits? 0 59 s
    match s with
    | '.' :: s =>
      if (s.head?.map Char.isDigit).getD false then some ((), s.dropWhile Char.isDigit) else none
    | s => some ((), s)
  | s => some ((), s)

def zone : Reader Unit := fun s =>
  match s with
  | 'Z' :: rest => some ((), rest)
  | c :: rest =>
    if c = '+' || c = '-' then do
      let (_, s) ← twoDigits? 0 24 rest
      let (_, s) ← mark ':' s
      let (_, s) ← twoDigits? 0 60 s
      return ((), s)
    else some ((), s)
  | [] => some ((), [])

def isTime (text : List Char) : Bool :=
  let text := text.map fun c => if c = 't' || c = ' ' then 'T' else if c = 'z' then 'Z' else c
  match date text with
  | some (_, []) => true
  | some (_, 'T' :: rest) => ((clock rest).bind fun (_, s) => zone s).any (·.2.isEmpty)
  | some _ => false
  | none => (clock text).any (·.2.isEmpty)

def number : Reader Toml := fun s =>
  let spanned (p : Char → Bool) (s : List Char) : List Char × List Char := s.span p
  let decimal (c : Char) : Bool := c.isDigit || c = '_'
  let based (base : Nat) (p : Char → Bool) (s : List Char) : Option (Toml × List Char) := do
    let (digits, rest) := spanned (fun c => p c || c = '_') s
    return (← basedInt? base digits, rest)
  let plain (s : List Char) : Option (Toml × List Char) :=
    let front := (unsigned s).2
    let sign := s.take (s.length - front.length)
    let (whole, rest) := spanned decimal front
    if whole.isEmpty then none
    else if ['.', 'e', 'E'].any fun c => rest.head? == some c then do
      let (more, rest) := spanned (fun c => decimal c || ".-+eE".toList.contains c) rest
      return (← float? (sign ++ whole ++ more), rest)
    else do return (← decimalInt? (sign ++ whole), rest)
  match s with
  | '0' :: 'x' :: rest => based 16 isHexDigit rest
  | '0' :: 'o' :: rest => based 8 (fun c => '0' ≤ c && c ≤ '7') rest
  | '0' :: 'b' :: rest => based 2 (fun c => c = '0' || c = '1') rest
  | s =>
    let behind := s.dropWhile Char.isDigit
    if (s.head?.map Char.isDigit).getD false
        && (behind.head? == some '-' || behind.head? == some ':') then
      let (spelled, rest) := spanned (fun c => c.isDigit || "-:Tt .Zz+".toList.contains c) s
      let spelled := (spelled.reverse.dropWhile isBlank).reverse
      if isTime spelled then some (time (String.ofList spelled), rest) else none
    else plain s

def wordValue : Reader Toml := fun s =>
  let (sign, rest) := unsigned s
  let (name, rest) := rest.span Char.isAlpha
  let signed := rest.length + name.length < s.length
  match String.ofList name with
  | "inf" => some (float (if sign then Sample.infinity.neg else Sample.infinity), rest)
  | "nan" => some (float (if sign then Sample.nan.neg else Sample.nan), rest)
  | "true" => if signed then none else some (bool true, rest)
  | "false" => if signed then none else some (bool false, rest)
  | _ => none

def keyPart : Reader String := fun s =>
  let s := skipBlanks s
  if s.head? == some '\x22' || s.head? == some '\x27' then string false s
  else
    let (name, rest) := s.span isKeyChar
    if name.isEmpty then none else some (String.ofList name, rest)

def key : (fuel : Nat) → Reader (List String)
  | 0, _ => none
  | fuel + 1, s => do
    let (part, s) ← keyPart s
    match skipBlanks s with
    | '.' :: s => (key fuel s).map fun (parts, s) => (part :: parts, s)
    | s => some ([part], s)

def set (name : String) (value : Toml) (fields : Fields) : Fields :=
  if fields.any (·.1 == name) then
    fields.map fun (k, v) => if k == name then (k, value) else (k, v)
  else fields ++ [(name, value)]

/-- Changes the table at a path. Of tables under one name it is the last. -/
def change (f : Fields → Option Fields) : (path : List String) → Fields → Option Fields
  | [], fields => f fields
  | name :: rest, fields => do
    match fields.lookup name with
    | some (.table inner) => return set name (.table (← change f rest inner)) fields
    | some (.tables rows) =>
      match rows.reverse with
      | last :: before =>
        return set name (.tables (before.reverse ++ [← change f rest last])) fields
      | [] => none
    | _ => none

structure Document where
  fields : Fields
  /-- The tables that were never opened themselves. -/
  implied : List (List String)
  /-- The table that the next lines belong to. -/
  here : List String

namespace Document

def empty : Document := { fields := [], implied := [], here := [] }

def has (d : Document) (path : List String) (name : String) : Bool :=
  let check (fields : Fields) : Option Fields :=
    if fields.any (·.1 == name) then some fields else none
  (change check path d.fields).isSome

def imply (d : Document) : (above path : List String) → Option Document
  | _, [] => some d
  | above, name :: rest => do
    let path := above ++ [name]
    if d.has above name then imply d path rest
    else
      let fields ← change (fun fields => some (set name (.table []) fields)) above d.fields
      imply { d with fields, implied := path :: d.implied } path rest
termination_by _ path => path.length

/-- Sets a value below the current table. What stands on the way to it counts as opened from
then on, unless it comes about only now.
-/
def assign (d : Document) (path : List String) (value : Toml) : Option Document := do
  let name ← path.getLast?
  let parents := path.dropLast
  let along := (List.range parents.length).map fun n => d.here ++ parents.take (n + 1)
  let opened := along.filter fun p => d.has p.dropLast (p.getLastD "")
  let d ← imply { d with implied := d.implied.filter (!opened.contains ·) } d.here parents
  let put (fields : Fields) : Option Fields :=
    if fields.any (·.1 == name) then none else some (set name value fields)
  return { d with fields := ← change put (d.here ++ parents) d.fields }

def openTable (d : Document) (path : List String) : Option Document := do
  let name ← path.getLast?
  let d ← d.imply [] path.dropLast
  let put (fields : Fields) : Option Fields :=
    match fields.lookup name with
    | none => some (set name (.table []) fields)
    | some (.table _) => if d.implied.contains path then some fields else none
    | some _ => none
  return { d with
    fields := ← change put path.dropLast d.fields
    implied := d.implied.filter (· != path)
    here := path }

def openRow (d : Document) (path : List String) : Option Document := do
  let name ← path.getLast?
  let d ← d.imply [] path.dropLast
  let put (fields : Fields) : Option Fields :=
    match fields.lookup name with
    | none => some (set name (.tables [[]]) fields)
    | some (.tables rows) => some (set name (.tables (rows ++ [[]])) fields)
    | some _ => none
  return { d with fields := ← change put path.dropLast d.fields, here := path }

end Document

mutual

def value : (fuel : Nat) → Reader Toml
  | 0, _ => none
  | fuel + 1, s =>
    match s with
    | '[' :: rest => (items fuel (skipGaps false rest)).map fun (items, s) => (array items, s)
    | '\x7b' :: rest =>
      (inline fuel .empty (skipGaps false rest)).map fun (fields, s) => (table fields, s)
    | c :: rest =>
      if c = '\x22' || c = '\x27' then (string true s).map fun (t, s) => (text t, s)
      else if c.isDigit then number s
      else if (c = '-' || c = '+') && (rest.head?.map Char.isDigit).getD false then number s
      else wordValue s
    | [] => none

def items : (fuel : Nat) → Reader (List Toml)
  | 0, _ => none
  | fuel + 1, s =>
    match s with
    | ']' :: rest => some ([], rest)
    | s => do
      let (item, s) ← value fuel s
      match skipGaps false s with
      | ',' :: s => (items fuel (skipGaps false s)).map fun (more, s) => (item :: more, s)
      | ']' :: s => some ([item], s)
      | _ => none

def inline : (fuel : Nat) → Document → Reader Fields
  | 0, _, _ => none
  | fuel + 1, d, s =>
    match s with
    | '\x7d' :: rest => some (d.fields, rest)
    | s => do
      let (path, s) ← key s.length s
      let (_, s) ← mark '=' s
      let (v, s) ← value fuel (skipBlanks s)
      let d ← d.assign path v
      match skipGaps false s with
      | ',' :: s => inline fuel d (skipGaps false s)
      | '\x7d' :: s => some (d.fields, s)
      | _ => none

end

def header (closing : List Char) : Reader (List String) := fun s => do
  let (path, s) ← key s.length s
  if s.take closing.length = closing then some (path, s.drop closing.length) else none

def line (d : Document) : Reader Document := fun s => do
  match s with
  | '[' :: '[' :: rest => do
    let (path, s) ← header [']', ']'] rest
    return (← d.openRow path, s)
  | '[' :: rest => do
    let (path, s) ← header [']'] rest
    return (← d.openTable path, s)
  | s => do
    let (path, s) ← key s.length s
    let (_, s) ← mark '=' s
    let (v, s) ← value (2 * s.length + 2) (skipBlanks s)
    return (← d.assign path v, s)

def lines : (fuel : Nat) → Document → List Char → Option Fields
  | 0, _, _ => none
  | fuel + 1, d, s =>
    match skipGaps false s with
    | [] => some d.fields
    | s => do
      let (d, s) ← line d s
      let (_, s) ← lineEnd s
      lines fuel d s

def parse? (bytes : Bytes) : Option Fields := do
  let front := bytes.take 2
  let bytes :=
    if front = [0xFF, 0xFE] || front = [0xFE, 0xFF] then bytes.drop 2
    else if bytes.take 3 = [0xEF, 0xBB, 0xBF] then bytes.drop 3
    else bytes
  let s := (← Text.ofBytes? bytes).toList
  if isClean s then lines (s.length + 1) .empty s else none

end Toml

end MapAlgebra
