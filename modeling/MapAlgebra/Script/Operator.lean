import MapAlgebra.Script.Token

/-! The operators of expressions. -/

namespace MapAlgebra

/-- Operators that compute from the values of both operands. -/
inductive Arith where
  | add | sub | mul | div | mod | pow
  | eq | ne | lt | le | gt | ge
deriving DecidableEq

namespace Arith

def all : List Arith :=
  [add, sub, mul, div, mod, pow, eq, ne, lt, le, gt, ge]

def name : Arith → String
  | add => "+"
  | sub => "-"
  | mul => "*"
  | div => "/"
  | mod => "%"
  | pow => "^"
  | eq => "=="
  | ne => "!="
  | lt => "<"
  | le => "<="
  | gt => ">"
  | ge => ">="

end Arith

/-- Operators between two operands. Conjunction and disjunction leave out their second operand
when the first one decides.
-/
inductive BinaryOp where
  | arith (op : Arith)
  | and
  | or
deriving DecidableEq

namespace BinaryOp

def name : BinaryOp → String
  | arith op => op.name
  | and => "&&"
  | or => "||"

def all : List BinaryOp :=
  Arith.all.map arith ++ [and, or]

/-- The spelling for a number that is not negative; a question mark if no operator has it. -/
def nameOfNumber (n : Nat) : String :=
  (all[n]?.map name).getD "?"

end BinaryOp

inductive UnaryOp where
  | neg | plus | not
deriving DecidableEq

namespace UnaryOp

def name : UnaryOp → String
  | neg => "-"
  | plus => "+"
  | not => "!"

def nameOfNumber (n : Int) : String :=
  if n = 0 then neg.name else if n = 1 then plus.name else if n = 2 then not.name else "?"

end UnaryOp

namespace TokenKind

def compound? : TokenKind → Option Arith
  | plusAssign => some .add
  | minusAssign => some .sub
  | starAssign => some .mul
  | slashAssign => some .div
  | _ => none

def unary? : TokenKind → Option UnaryOp
  | minus => some .neg
  | plus => some .plus
  | not => some .not
  | _ => none

def multiplicative? : TokenKind → Option BinaryOp
  | star => some (.arith .mul)
  | slash => some (.arith .div)
  | percent => some (.arith .mod)
  | _ => none

def additive? : TokenKind → Option BinaryOp
  | plus => some (.arith .add)
  | minus => some (.arith .sub)
  | _ => none

def relational? : TokenKind → Option BinaryOp
  | less => some (.arith .lt)
  | lessEqual => some (.arith .le)
  | greater => some (.arith .gt)
  | greaterEqual => some (.arith .ge)
  | _ => none

def equality? : TokenKind → Option BinaryOp
  | equal => some (.arith .eq)
  | notEqual => some (.arith .ne)
  | _ => none

def conjunction? : TokenKind → Option BinaryOp
  | and => some .and
  | _ => none

/-- Disjunction, which binds loosest in a chain. -/
def disjunction? : TokenKind → Option BinaryOp
  | or => some .or
  | _ => none

end TokenKind

end MapAlgebra
