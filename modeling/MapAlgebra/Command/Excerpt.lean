import MapAlgebra.Problem

/-! Problems as they are shown to someone who sees no editor: each with its line and a mark
below.
-/

namespace MapAlgebra.Command

def scriptLines (source : Bytes) : List Bytes := source.splitOn 0x0A

def withoutReturns (line : Bytes) : Bytes :=
  (line.reverse.dropWhile (· == 0x0D)).reverse

/-- The blanks that put a mark below a column. Tabs stay tabs, so that the mark lines up. -/
def markIndent (line : Bytes) (column : Nat) : String :=
  String.ofList ((line.take (column - 1)).map fun b => if b = 0x09 then '\t' else ' ')

/-- The mark below a span: as wide as the span if that ends in the same line. -/
def mark (s : Span) : String :=
  let width :=
    if s.stop.line = s.start.line then max 1 (s.stop.column - s.start.column) else 1
  String.ofList (List.replicate width '^')

def excerpt (path : String) (lines : List Bytes) (p : Problem) : String :=
  let start := p.span.start
  let heading :=
    s!"{path}:{start.line}:{start.column}: {p.severity.name}: {p.message} [{p.code.name}]\n"
  let shown :=
    match if start.line = 0 then none else lines[start.line - 1]? with
    | none => ""
    | some line =>
      let line := withoutReturns line
      Text.padLeft ' ' 4 (toString start.line) ++ " | " ++ Text.ofBytes line ++ "\n"
        ++ "     | " ++ markIndent line start.column ++ mark p.span ++ "\n"
  heading ++ shown

def excerpts (path : String) (source : Bytes) (ps : Problems) : String :=
  String.join (ps.map (excerpt path (scriptLines source)))

def counted (n : Nat) (noun : String) : String :=
  s!"{n} {noun}" ++ if n = 1 then "" else "s"

def tally (ps : Problems) : String :=
  if ps.isEmpty then "ok"
  else counted ps.errors.length "error" ++ ", " ++ counted ps.warnings.length "warning"

end MapAlgebra.Command
