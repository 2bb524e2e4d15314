import MapAlgebra.Number
import MapAlgebra.Script.Position

/-! Places as editors count them: lines and characters from zero, in words of 32 bits. -/

namespace MapAlgebra

structure EditorPlace where
  line : Nat
  character : Nat
deriving DecidableEq

structure EditorRange where
  start : EditorPlace
  stop : EditorPlace
deriving DecidableEq

/-- The place of a position. What has no line or no column starts the document or the line. -/
def Position.place (p : Position) : EditorPlace :=
  { line := (p.line - 1) % 2 ^ 32, character := (p.column - 1) % 2 ^ 32 }

def Span.range (s : Span) : EditorRange :=
  { start := s.start.place, stop := if s.stop.line = 0 then s.start.place else s.stop.place }

end MapAlgebra
