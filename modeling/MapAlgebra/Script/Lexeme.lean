import MapAlgebra.Script.Token

/-! Splitting a script into tokens. Blanks and comments are skipped, then the characters ahead
decide the kind of the next token and how many of them it takes.
-/

namespace MapAlgebra.Lexeme

/-- What is left after the blanks and comments, or a comment that never ends. -/
inductive Gap where
  | clear (rest : List Scalar) (pos : Position)
  | unterminated (start stop : Position)

/-- Space, tab, newline and carriage return separate tokens. -/
def isBlank (c : Char) : Bool :=
  c = ' ' || c = '\t' || c = '\n' || c = '\r'

mutual

def skip : List Scalar → Position → Gap
  | [], p => .clear [] p
  | s :: rest, p =>
    if isBlank s.char then skip rest (p.advance s)
    else if s.char = '/' then
      match rest with
      | [] => .clear [s] p
      | t :: more =>
        if t.char = '/' then skipLine more ((p.advance s).advance t)
        else if t.char = '*' then skipBlock p more ((p.advance s).advance t)
        else .clear (s :: t :: more) p
    else .clear (s :: rest) p

def skipLine : List Scalar → Position → Gap
  | [], p => .clear [] p
  | s :: rest, p => if s.char = '\n' then skip rest (p.advance s) else skipLine rest (p.advance s)

def skipBlock (start : Position) : List Scalar → Position → Gap
  | [], p => .unterminated start p
  | s :: rest, p =>
    if s.char = '*' then
      match rest with
      | [] => .unterminated start (p.advance s)
      | t :: more =>
        if t.char = '/' then skip more ((p.advance s).advance t)
        else skipBlock start (t :: more) (p.advance s)
    else skipBlock start rest (p.advance s)

end

/-- The kind of the token ahead and how many characters it takes; an error says what is wrong with
them.
-/
inductive Ahead where
  | token (kind : TokenKind) (length : Nat)
  | error (message : String) (length : Nat)

def Ahead.length : Ahead → Nat
  | .token _ n => n
  | .error _ n => n

/-- Letters of the basic Latin alphabet and the underscore start an identifier. -/
def isWordStart (c : Char) : Bool :=
  c.isAlpha || c = '_'

def isWordPart (c : Char) : Bool :=
  c.isAlphanum || c = '_'

def run (p : Char → Bool) (text : List Scalar) : Nat :=
  (text.takeWhile (p ·.char)).length

/-- A fraction starts with a point, which need not be followed by digits. -/
def fractionLength : List Scalar → Nat
  | [] => 0
  | s :: rest => if s.char = '.' then 1 + run Char.isDigit rest else 0

/-- What follows the letter of an exponent: digits, or a sign and digits. A sign without digits is
malformed, and without either the letter is not part of the number.
-/
def powerLength : List Scalar → Except Nat Nat
  | [] => .ok 0
  | s :: rest =>
    if s.char = '+' || s.char = '-' then
      let n := run Char.isDigit rest
      if n = 0 then .error 2 else .ok (2 + n)
    else if s.char.isDigit then .ok (1 + run Char.isDigit (s :: rest))
    else .ok 0

def exponentLength : List Scalar → Except Nat Nat
  | [] => .ok 0
  | s :: rest => if s.char = 'e' || s.char = 'E' then powerLength rest else .ok 0

def number (text : List Scalar) : Ahead :=
  let whole := run Char.isDigit text
  let size := whole + fractionLength (text.drop whole)
  match exponentLength (text.drop size) with
  | .ok n => .token .number (size + n)
  | .error n => .error "malformed exponent" (size + n)

def spelling (text : List Scalar) : String :=
  String.ofList (text.map (·.char))

def word (text : List Scalar) : Ahead :=
  let part := text.takeWhile (isWordPart ·.char)
  .token ((keywords.lookup (spelling part)).getD .identifier) part.length

/-- The operators and delimiters. A character and the one behind it decide; the longer operator
wins.
-/
def mark? (c : Char) (next : Option Char) : Option (TokenKind × Nat) :=
  match c, next with
  | '(', _ => some (.leftParen, 1)
  | ')', _ => some (.rightParen, 1)
  | '\x7b', _ => some (.leftBrace, 1)
  | '\x7d', _ => some (.rightBrace, 1)
  | ',', _ => some (.comma, 1)
  | ';', _ => some (.semicolon, 1)
  | '%', _ => some (.percent, 1)
  | '^', _ => some (.caret, 1)
  | '+', some '+' => some (.increment, 2)
  | '+', some '=' => some (.plusAssign, 2)
  | '+', _ => some (.plus, 1)
  | '-', some '-' => some (.decrement, 2)
  | '-', some '=' => some (.minusAssign, 2)
  | '-', _ => some (.minus, 1)
  | '*', some '=' => some (.starAssign, 2)
  | '*', _ => some (.star, 1)
  | '/', some '=' => some (.slashAssign, 2)
  | '/', _ => some (.slash, 1)
  | '=', some '=' => some (.equal, 2)
  | '=', _ => some (.assign, 1)
  | '!', some '=' => some (.notEqual, 2)
  | '!', _ => some (.not, 1)
  | '<', some '=' => some (.lessEqual, 2)
  | '<', _ => some (.less, 1)
  | '>', some '=' => some (.greaterEqual, 2)
  | '>', _ => some (.greater, 1)
  | '&', some '&' => some (.and, 2)
  | '|', some '|' => some (.or, 2)
  | _, _ => none

/-- A digit starts a number, and so does a point before a digit. -/
def startsNumber (c : Char) (next : Option Char) : Bool :=
  c.isDigit || (c = '.' && next.any Char.isDigit)

def ahead (s : Scalar) (rest : List Scalar) : Ahead :=
  let next := rest.head?.map (·.char)
  match mark? s.char next with
  | some (kind, n) => .token kind n
  | none =>
    if startsNumber s.char next then number (s :: rest)
    else if isWordStart s.char then word (s :: rest)
    else .error ("unexpected character: " ++ Text.quoteChar s.char) 1

/-- Tokens up to the end of a text, and where that end is. Every token takes a character at least,
so the length of the text bounds their number.
-/
def scanFrom : (fuel : Nat) → List Scalar → Position → List Token × Position
  | 0, _, p => ([], p)
  | fuel + 1, text, p =>
    match skip text p with
    | .unterminated start stop =>
      ([{ kind := .error, literal := "unterminated comment", pos := start }], stop)
    | .clear [] p => ([], p)
    | .clear (s :: rest) p =>
      let next := ahead s rest
      let taken := (s :: rest).take next.length
      let token : Token :=
        match next with
        | .token kind _ => { kind, literal := spelling taken, pos := p }
        | .error message _ => { kind := .error, literal := message, pos := p }
      let (tokens, stop) := scanFrom fuel ((s :: rest).drop next.length) (p.advanceAll taken)
      (token :: tokens, stop)

end Lexeme

/-- The characters that a script is made of. A zero byte ends the script, whatever follows it. -/
def scriptText (source : Bytes) : List Scalar :=
  Scalar.decode (source.takeWhile (· != 0))

/-- The tokens of a script without the final one, and where the script ends. -/
def scan (source : Bytes) : List Token × Position :=
  let text := scriptText source
  Lexeme.scanFrom (text.length + 1) text .start

/-- The tokens of a script up to its end or its first error, whichever comes first. -/
def tokenize (source : Bytes) : List Token :=
  let (tokens, stop) := scan source
  let sound := tokens.takeWhile (·.kind != .error)
  sound ++ ((tokens.drop sound.length).head?.getD (.eof stop) :: [])

end MapAlgebra
