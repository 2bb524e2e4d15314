import MapAlgebra.Text.Layout

/-! The tokens of settings that are laid out by indentation. Where a block starts and ends is a
token of its own, so that indentation is of no concern afterwards.
-/

namespace MapAlgebra.Yaml

inductive Token where
  | directive
  | documentStart
  | documentEnd
  | sequenceStart
  | mappingStart
  | blockEnd
  | flowSequenceStart
  | flowSequenceEnd
  | flowMappingStart
  | flowMappingEnd
  | entry
  | flowEntry
  | key
  | value
  /-- A text, and whether it was written without any quotes. -/
  | scalar (text : String) (plain : Bool)
  | broken
deriving DecidableEq

/-- The rest of a document and where it starts. -/
structure Place where
  rest : List Char
  line : Nat
  column : Nat
  index : Nat

def isBlank (c : Char) : Bool := c = ' ' || c = '\t'

def atGap : List Char → Bool
  | [] => true
  | c :: _ => isBlank c || c = '\n'

namespace Place

def step (p : Place) : Place :=
  { rest := p.rest.drop 1, line := p.line, column := p.column + 1, index := p.index + 1 }

def nextLine (p : Place) : Place :=
  { rest := p.rest.drop 1, line := p.line + 1, column := 0, index := p.index + 1 }

def after (p : Place) : Place :=
  if p.rest.head? == some '\n' then p.nextLine else p.step

def skip (p : Place) : Nat → Place
  | 0 => p
  | n + 1 => p.after.skip n

/-- The line starts with three of a character and nothing else. -/
def marksDocument (p : Place) (c : Char) : Bool :=
  p.column = 0 && p.rest.take 3 = [c, c, c] && atGap (p.rest.drop 3)

def atDocumentMark (p : Place) : Bool :=
  p.marksDocument '-' || p.marksDocument '.'

end Place

/-- What a gap inside a text stands for: a blank for one line end, one line end less for
several, and the blanks themselves if it is in one line. Behind a hidden line end none is left
out.
-/
def fold (blanks : List Char) (lineEnds : Nat) (hidden : Bool) : List Char :=
  if hidden then List.replicate lineEnds '\n'
  else if lineEnds = 0 then blanks
  else if lineEnds = 1 then [' ']
  else List.replicate (lineEnds - 1) '\n'

/-- A text that is being read. The gap at its end is not part of it yet. -/
structure Draft where
  /-- The characters from the last. -/
  chars : List Char
  /-- The blanks of the gap, from the last. -/
  blanks : List Char
  lineEnds : Nat
  /-- The gap starts with a line end that does not count. -/
  hidden : Bool

namespace Draft

def empty : Draft := { chars := [], blanks := [], lineEnds := 0, hidden := false }

def hasNewLine (d : Draft) : Bool := d.hidden || 0 < d.lineEnds

def join (d : Draft) : Draft :=
  { empty with chars := (fold d.blanks.reverse d.lineEnds d.hidden).reverse ++ d.chars }

def add (d : Draft) (c : Char) : Draft :=
  let d := d.join
  { d with chars := c :: d.chars }

/-- Adds a blank to the gap; those in front of a line do not count. -/
def addBlank (d : Draft) (c : Char) : Draft :=
  if d.hasNewLine then d else { d with blanks := c :: d.blanks }

def addLineEnd (d : Draft) : Draft := { d with blanks := [], lineEnds := d.lineEnds + 1 }

def text (d : Draft) : String := String.ofList d.chars.reverse

end Draft

def isFlowMark (c : Char) : Bool := ",[]\x7b\x7d".toList.contains c

/-- Reads a text without quotes. It goes on in lines that are indented far enough. -/
def plain (inFlow : Bool) (indent : Int) : (fuel : Nat) → Draft → Place → Option (Draft × Place)
  | 0, _, _ => none
  | fuel + 1, d, p =>
    match p.rest with
    | [] => some (d, p)
    | c :: next =>
      let inGap := d.hasNewLine || !d.blanks.isEmpty
      if c = '\n' then plain inFlow indent fuel d.addLineEnd p.after
      else if isBlank c then
        if d.hasNewLine && (p.column : Int) < indent && c = '\t' then none
        else plain inFlow indent fuel (d.addBlank c) p.after
      else if !inFlow && d.hasNewLine && (p.column : Int) < indent then some (d, p)
      else if p.atDocumentMark || (inGap && c = '#') then some (d, p)
      else if (c = ':' && atGap next) || (inFlow && isFlowMark c) then some (d, p)
      else plain inFlow indent fuel (d.add c) p.after

/-- Reads a text in single quotes; two of them stand for one. -/
def single : (fuel : Nat) → Draft → Place → Option (Draft × Place)
  | 0, _, _ => none
  | fuel + 1, d, p =>
    if p.atDocumentMark then none
    else
      match p.rest with
      | [] => none
      | '\x27' :: '\x27' :: _ => single fuel (d.add '\x27') (p.skip 2)
      | '\x27' :: _ => some (d.join, p.after)
      | c :: _ =>
        if c = '\n' then single fuel d.addLineEnd p.after
        else if isBlank c then single fuel (d.addBlank c) p.after
        else single fuel (d.add c) p.after

def escaped? : Char → Option Char
  | '0' => some '\x00'
  | 'a' => some '\x07'
  | 'b' => some '\x08'
  | 't' => some '\t'
  | '\t' => some '\t'
  | 'n' => some '\n'
  | 'v' => some '\x0b'
  | 'f' => some '\x0c'
  | 'r' => some '\r'
  | 'e' => some '\x1b'
  | ' ' => some ' '
  | '\x22' => some '\x22'
  | '\x27' => some '\x27'
  | '/' => some '/'
  | '\\' => some '\\'
  | 'N' => some (Char.ofNat 0x85)
  | '_' => some (Char.ofNat 0xA0)
  | 'L' => some (Char.ofNat 0x2028)
  | 'P' => some (Char.ofNat 0x2029)
  | _ => none

def codeLength : Char → Nat
  | 'x' => 2
  | 'u' => 4
  | 'U' => 8
  | _ => 0

def escape? (rest : List Char) : Option (Char × Nat) := do
  let letter ← rest.head?
  let length := codeLength letter
  if length = 0 then return (← escaped? letter, 1)
  else
    let digits := (rest.drop 1).take length
    let n ← Text.hexNat? digits
    if digits.length = length && (n < 0xD800 || (0xDFFF < n && n < 0x110000)) then
      return (Char.ofNat n, length + 1)
    else none

/-- Reads a text in double quotes. A backslash at the end of a line hides the line end. -/
def double : (fuel : Nat) → Draft → Place → Option (Draft × Place)
  | 0, _, _ => none
  | fuel + 1, d, p =>
    if p.atDocumentMark then none
    else
      match p.rest with
      | [] => none
      | '\x22' :: _ => some (d.join, p.after)
      | '\\' :: '\n' :: _ => double fuel { d.join with hidden := true } (p.skip 2)
      | '\\' :: rest => do
        let (c, length) ← escape? rest
        double fuel (d.add c) (p.skip (1 + length))
      | c :: _ =>
        if c = '\n' then double fuel d.addLineEnd p.after
        else if isBlank c then double fuel (d.addBlank c) p.after
        else double fuel (d.add c) p.after

inductive Chomping where
  | strip
  | clip
  | keep
deriving DecidableEq

def blockHeader (rest : List Char) : Option (Chomping × Nat × Nat) :=
  let chomping? (c : Char) : Option Chomping :=
    if c = '+' then some .keep else if c = '-' then some .strip else none
  let indent? (c : Char) : Option Nat := if c.isDigit then some (c.toNat - '0'.toNat) else none
  match rest with
  | a :: b :: _ =>
    match chomping? a, indent? a with
    | some chomping, _ =>
      match indent? b with
      | some 0 => none
      | some n => some (chomping, n, 2)
      | none => some (chomping, 0, 1)
    | none, some 0 => none
    | none, some n =>
      match chomping? b with
      | some chomping => some (chomping, n, 2)
      | none => some (.clip, n, 1)
    | none, none => some (.clip, 0, 0)
  | [a] =>
    match chomping? a, indent? a with
    | some chomping, _ => some (chomping, 0, 1)
    | none, some 0 => none
    | none, some n => some (.clip, n, 1)
    | none, none => some (.clip, 0, 0)
  | [] => some (.clip, 0, 0)

/-- Skips indentation and empty lines; counts those, and finds out how far the widest is
indented. No limit on the indentation is written as zero.
-/
def emptyLines (indent : Nat)
    : (fuel : Nat) → (count widest : Nat) → Place → Option ((Nat × Nat) × Place)
  | 0, _, _, _ => none
  | fuel + 1, count, widest, p =>
    let inside := indent = 0 || p.column < indent
    match p.rest with
    | ' ' :: _ =>
      if inside then emptyLines indent fuel count widest p.after
      else some ((count, max widest p.column), p)
    | '\t' :: _ => if inside then none else some ((count, max widest p.column), p)
    | '\n' :: _ => emptyLines indent fuel (count + 1) (max widest p.column) p.after
    | _ => some ((count, max widest p.column), p)

/-- The lines of a block text that are indented far enough. The characters are listed from the
last; the line ends behind them are counted apart.
-/
def blockLines (literal : Bool) (indent : Nat)
    : (fuel : Nat) → (chars : List Char) → (hasEnd : Bool) → (blankBefore : Bool) → (empty : Nat)
      → Place → Option ((List Char × Bool × Nat) × Place)
  | 0, _, _, _, _, _ => none
  | fuel + 1, chars, hasEnd, blankBefore, empty, p =>
    if p.column ≠ indent || p.rest.isEmpty then some ((chars, hasEnd, empty), p)
    else do
      let blankNow := (p.rest.head?.map isBlank).getD false
      let joint : List Char :=
        if !hasEnd then []
        else if !literal && !blankBefore && !blankNow then if empty = 0 then [' '] else []
        else ['\n']
      let content := p.rest.takeWhile (· ≠ '\n')
      let p := p.skip content.length
      let chars := content.reverse ++ List.replicate empty '\n' ++ joint ++ chars
      let hasEnd := !p.rest.isEmpty
      let next := if hasEnd then p.after else p
      let ((empty, _), p) ← emptyLines indent (p.rest.length + 1) 0 0 next
      blockLines literal indent fuel chars hasEnd blankNow empty p

def blockText (literal : Bool) (parent : Int) (p : Place) : Option (String × Place) := do
  let (chomping, given, length) ← blockHeader p.rest
  let p := p.skip length
  let blanks := (p.rest.takeWhile isBlank).length
  let p := p.skip blanks
  let comment := if p.rest.head? == some '#' then (p.rest.takeWhile (· ≠ '\n')).length else 0
  let p := p.skip comment
  if !(p.rest.isEmpty || p.rest.head? == some '\n') then none
  let p := if p.rest.isEmpty then p else p.after
  let limit := if given = 0 then 0 else if 0 ≤ parent then parent.toNat + given else given
  let ((empty, widest), p) ← emptyLines limit (p.rest.length + 1) 0 0 p
  let indent := if limit = 0 then max widest (max (parent + 1).toNat 1) else limit
  let ((chars, hasEnd, empty), p) ←
    blockLines literal indent (p.rest.length + 1) [] false false empty p
  let lastEnd := if chomping ≠ .strip && hasEnd then ['\n'] else []
  let moreEnds := if chomping = .keep then List.replicate empty '\n' else []
  return (String.ofList (chars.reverse ++ lastEnd ++ moreEnds), p)

/-- A token that may turn out to be a key. -/
structure KeyMark where
  /-- How many tokens are in front of it. -/
  token : Nat
  place : Place
  /-- Nothing else can stand in its place. -/
  required : Bool

structure Scan where
  place : Place
  tokens : Array Token
  flow : Nat
  /-- The indentation of the current block, -1 outside of all. -/
  indent : Int
  /-- The indentations of the blocks around it, from the innermost. -/
  outer : List Int
  keyAllowed : Bool
  /-- What may be a key, for the current brackets and those around them. -/
  keys : List (Option KeyMark)

namespace Scan

def start (text : List Char) : Scan :=
  { place := { rest := text, line := 0, column := 0, index := 0 }, tokens := #[], flow := 0
    indent := -1, outer := [], keyAllowed := true, keys := [none] }

def emit (s : Scan) (t : Token) : Scan := { s with tokens := s.tokens.push t }

def emitAt (s : Scan) (t : Token) (length : Nat) : Scan :=
  { s.emit t with place := s.place.skip length }

def count (s : Scan) : Nat := s.tokens.size

def unroll (column : Int) (s : Scan) : Scan :=
  if 0 < s.flow then s
  else
    let ended := (s.indent :: s.outer).takeWhile (column < ·)
    match (s.indent :: s.outer).drop ended.length with
    | indent :: outer =>
      { s with indent, outer, tokens := s.tokens ++ (ended.map fun _ => Token.blockEnd).toArray }
    | [] => { s with indent := -1, outer := [] }

/-- Starts a block at a column, in front of the token with the given number, unless it already
goes on.
-/
def roll (column : Int) (before : Nat) (t : Token) (s : Scan) : Scan :=
  if 0 < s.flow || column ≤ s.indent then s
  else
    { s with
      indent := column, outer := s.indent :: s.outer
      tokens := s.tokens.insertIdxIfInBounds before t }

/-- What may be a key is none; nothing if it has to be one. -/
def dropKey (s : Scan) : Option Scan :=
  match s.keys with
  | some mark :: rest => if mark.required then none else some { s with keys := none :: rest }
  | _ => some s

def markKey (s : Scan) : Option Scan := do
  if !s.keyAllowed then return s
  let s ← s.dropKey
  let required := s.flow = 0 && s.indent = s.place.column
  return { s with keys := some { token := s.count, place := s.place, required } :: s.keys.drop 1 }

def keyFits (s : Scan) (mark : KeyMark) : Bool :=
  mark.place.line = s.place.line && s.place.index ≤ mark.place.index + 1024

/-- Skips blanks, comments and line ends. Behind a line end a key may start. Tabs indent nothing. -/
def skipGap : (fuel : Nat) → Scan → Scan
  | 0, s => s
  | fuel + 1, s =>
    match s.place.rest with
    | ' ' :: _ => skipGap fuel { s with place := s.place.after }
    | '\t' :: _ =>
      if 0 < s.flow || !s.keyAllowed then skipGap fuel { s with place := s.place.after } else s
    | '#' :: _ =>
      skipGap fuel { s with place := s.place.skip (s.place.rest.takeWhile (· ≠ '\n')).length }
    | '\n' :: _ =>
      skipGap fuel { s with place := s.place.after, keyAllowed := s.keyAllowed || s.flow = 0 }
    | _ => s

def entry (s : Scan) : Option Scan := do
  if s.flow = 0 && !s.keyAllowed then none
  let s ← (s.roll s.place.column s.count .sequenceStart).dropKey
  return { s.emitAt .entry 1 with keyAllowed := true }

def explicitKey (s : Scan) : Option Scan := do
  if s.flow = 0 && !s.keyAllowed then none
  let s ← (s.roll s.place.column s.count .mappingStart).dropKey
  return { s.emitAt .key 1 with keyAllowed := s.flow = 0 }

/-- Reads the mark between a key and its value. What may be a key becomes one. -/
def value (s : Scan) : Option Scan := do
  match s.keys with
  | some mark :: rest =>
    if s.keyFits mark then
      let tokens := s.tokens.insertIdxIfInBounds mark.token .key
      let s := { s with keys := none :: rest, tokens }
      let s := s.roll mark.place.column mark.token .mappingStart
      return { s.emitAt .value 1 with keyAllowed := false }
    else if mark.required then none
    else unmarked { s with keys := none :: rest }
  | _ => unmarked s
where
  /-- A value without a key in front of it. -/
  unmarked (s : Scan) : Option Scan :=
    if s.flow = 0 && !s.keyAllowed then none
    else
      let s := s.roll s.place.column s.count .mappingStart
      some { s.emitAt .value 1 with keyAllowed := s.flow = 0 }

def openFlow (t : Token) (s : Scan) : Option Scan := do
  let s ← s.markKey
  return { s.emitAt t 1 with flow := s.flow + 1, keys := none :: s.keys, keyAllowed := true }

def closeFlow (t : Token) (s : Scan) : Option Scan := do
  let s ← s.dropKey
  let s := if 0 < s.flow then { s with flow := s.flow - 1, keys := s.keys.drop 1 } else s
  return { s.emitAt t 1 with keyAllowed := false }

def flowEntry (s : Scan) : Option Scan := do
  let s ← s.dropKey
  return { s.emitAt .flowEntry 1 with keyAllowed := true }

def documentMark (t : Token) (s : Scan) : Option Scan := do
  let s ← (s.unroll (-1)).dropKey
  return { s.emitAt t 3 with keyAllowed := false }

def quoted (read : Nat → Draft → Place → Option (Draft × Place)) (s : Scan) : Option Scan := do
  let s ← s.markKey
  let (d, p) ← read (s.place.rest.length + 1) .empty s.place.after
  return { s.emit (.scalar d.text false) with place := p, keyAllowed := false }

def bare (s : Scan) : Option Scan := do
  let s ← s.markKey
  let (d, p) ← plain (0 < s.flow) (s.indent + 1) (s.place.rest.length + 1) .empty s.place
  return { s.emit (.scalar d.text true) with place := p, keyAllowed := d.hasNewLine }

def block (literal : Bool) (s : Scan) : Option Scan := do
  let s ← s.dropKey
  let (text, p) ← blockText literal s.indent s.place.after
  return { s.emit (.scalar text false) with place := p, keyAllowed := true }

def startsBare (inFlow : Bool) (c : Char) (next : List Char) : Bool :=
  !(isBlank c || "-?:,[]\x7b\x7d#&*!|>'\"%@\x60".toList.contains c)
    || (c = '-' && !((next.head?.map isBlank).getD false))
    || (!inFlow && (c = '?' || c = ':') && !atGap next)

def token (c : Char) (next : List Char) (s : Scan) : Option Scan :=
  let p := s.place
  if p.column = 0 && c = '%' then do
    let s ← (s.unroll (-1)).dropKey
    return { s.emitAt .directive (p.rest.takeWhile (· ≠ '\n')).length with keyAllowed := false }
  else if p.marksDocument '-' then s.documentMark .documentStart
  else if p.marksDocument '.' then s.documentMark .documentEnd
  else if c = '[' then s.openFlow .flowSequenceStart
  else if c = '\x7b' then s.openFlow .flowMappingStart
  else if c = ']' then s.closeFlow .flowSequenceEnd
  else if c = '\x7d' then s.closeFlow .flowMappingEnd
  else if c = ',' then s.flowEntry
  else if c = '-' && atGap next then s.entry
  else if c = '?' && (0 < s.flow || atGap next) then s.explicitKey
  else if c = ':' && (0 < s.flow || atGap next) then s.value
  else if c = '|' && s.flow = 0 then s.block true
  else if c = '>' && s.flow = 0 then s.block false
  else if c = '\x27' then s.quoted single
  else if c = '\x22' then s.quoted double
  else if startsBare (0 < s.flow) c next then s.bare
  else none

def run : (fuel : Nat) → Scan → Array Token
  | 0, s => (s.emit .broken).tokens
  | fuel + 1, s =>
    let s := s.skipGap s.place.rest.length
    let s := s.unroll s.place.column
    match s.place.rest with
    | [] =>
      match (s.unroll (-1)).dropKey with
      | some s => s.tokens
      | none => (s.emit .broken).tokens
    | c :: next =>
      match s.token c next with
      | some s => run fuel s
      | none => (s.emit .broken).tokens

end Scan

def tokens (text : List Char) : List Token :=
  (Scan.run (text.length + 1) (.start text)).toList

end MapAlgebra.Yaml
