import MapAlgebra.Text.Scalar

/-! Places in a script: byte offset, line and column. -/

namespace MapAlgebra

/-- A place in a text. Lines and columns count from one, columns in characters; the offset counts
bytes.
-/
structure Position where
  offset : Nat
  line : Nat
  column : Nat
deriving DecidableEq

namespace Position

def start : Position := { offset := 0, line := 1, column := 1 }

def none : Position := { offset := 0, line := 0, column := 0 }

def advance (p : Position) (s : Scalar) : Position :=
  if s.char = '\n' then
    { offset := p.offset + s.bytes.length, line := p.line + 1, column := 1 }
  else
    { offset := p.offset + s.bytes.length, line := p.line, column := p.column + 1 }

def advanceAll (p : Position) (scalars : List Scalar) : Position :=
  scalars.foldl advance p

end Position

/-- The stretch of a text from one place up to another. -/
structure Span where
  start : Position
  stop : Position
deriving DecidableEq

namespace Span

def point (p : Position) : Span := { start := p, stop := p }

/-- The stretch of something that the text does not declare. -/
def none : Span := .point .none

end Span

end MapAlgebra
