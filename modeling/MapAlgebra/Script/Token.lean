import MapAlgebra.Script.Position
import MapAlgebra.Text.Quoted

/-! The tokens of a script. -/

namespace MapAlgebra

inductive TokenKind where
  | eof | error | number | identifier
  | initWord | ifWord | elseWord | whileWord
  | plus | minus | star | slash | percent | caret
  | assign | plusAssign | minusAssign | starAssign | slashAssign | increment | decrement
  | equal | notEqual | less | lessEqual | greater | greaterEqual | and | or | not
  | leftParen | rightParen | leftBrace | rightBrace | comma | semicolon
deriving DecidableEq

namespace TokenKind

def all : List TokenKind :=
  [.eof, .error, .number, .identifier, .initWord, .ifWord, .elseWord, .whileWord, .plus, .minus,
   .star, .slash, .percent, .caret, .assign, .plusAssign, .minusAssign, .starAssign, .slashAssign,
   .increment, .decrement, .equal, .notEqual, .less, .lessEqual, .greater, .greaterEqual, .and,
   .or, .not, .leftParen, .rightParen, .leftBrace, .rightBrace, .comma, .semicolon]

def name : TokenKind → String
  | eof => "EOF"
  | error => "ERROR"
  | number => "NUMBER"
  | identifier => "IDENTIFIER"
  | initWord => "init"
  | ifWord => "if"
  | elseWord => "else"
  | whileWord => "while"
  | plus => "+"
  | minus => "-"
  | star => "*"
  | slash => "/"
  | percent => "%"
  | caret => "^"
  | assign => "="
  | plusAssign => "+="
  | minusAssign => "-="
  | starAssign => "*="
  | slashAssign => "/="
  | increment => "++"
  | decrement => "--"
  | equal => "=="
  | notEqual => "!="
  | less => "<"
  | lessEqual => "<="
  | greater => ">"
  | greaterEqual => ">="
  | and => "&&"
  | or => "||"
  | not => "!"
  | leftParen => "("
  | rightParen => ")"
  | leftBrace => "\x7b"
  | rightBrace => "\x7d"
  | comma => ","
  | semicolon => ";"

/-- The operators that assign, plainly or after an arithmetic step. -/
def isAssignment : TokenKind → Bool
  | assign | plusAssign | minusAssign | starAssign | slashAssign => true
  | _ => false

def ofNumber? (n : Int) : Option TokenKind :=
  if n < 0 then none else all[n.toNat]?

def nameOfNumber (n : Int) : String :=
  match ofNumber? n with
  | some kind => kind.name
  | none => s!"Token({n})"

end TokenKind

def keywords : List (String × TokenKind) :=
  [("else", .elseWord), ("if", .ifWord), ("init", .initWord), ("while", .whileWord)]

/-- A token: its kind, its spelling and where it starts. The spelling of an error token is the
message that says what is wrong.
-/
structure Token where
  kind : TokenKind
  literal : String
  pos : Position
deriving DecidableEq

namespace Token

/-- The token behind the last one. -/
def eof (p : Position) : Token := { kind := .eof, literal := "", pos := p }

/-- The place behind a token. No token spans two lines. -/
def stop (t : Token) : Position :=
  { offset := t.pos.offset + t.literal.utf8ByteSize
    line := t.pos.line
    column := t.pos.column + t.literal.length }

/-- A token in one line, a long spelling cut off after twenty bytes. -/
def render (t : Token) : String :=
  match t.kind with
  | .eof => "EOF"
  | .error => s!"ERROR({t.literal})"
  | kind =>
    if t.literal.utf8ByteSize > 20 then
      -- Only numbers and identifiers are this long, and their characters are one byte each.
      s!"{kind.name}({Text.quote (String.ofList (t.literal.toList.take 20))}...)"
    else s!"{kind.name}({Text.quote t.literal})"

def describe (t : Token) : String :=
  match t.kind with
  | .eof => "end of input"
  | .error => t.literal
  | _ => Text.quote t.literal

end Token

end MapAlgebra
