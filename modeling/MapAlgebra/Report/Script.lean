import MapAlgebra.Report
import MapAlgebra.Scope.Resolve
import MapAlgebra.Script.Parse

/-! Descriptions of scripts: tokens, trees, symbols and problems. -/

namespace MapAlgebra

open Report (Fields SampleStyle)

def Position.numbers (p : Position) : List Int := [p.offset, p.line, p.column]

def Span.report (s : Span) : Report := .ints (s.start.numbers ++ s.stop.numbers)

def Token.report (t : Token) : Report :=
  .list (([t.kind.name, t.literal] : List Report) ++ t.pos.numbers.map .int ++ [.text t.render])

def Problem.report (p : Problem) : Report :=
  .record [("code", p.code.name), ("kind", p.code.kind.name), ("name", p.cause.name),
    ("severity", p.severity.name), ("message", p.message), ("span", p.span.report)]

def Problems.report (ps : Problems) : Report := .each ps Problem.report

def Problems.summary (ps : Problems) : Report :=
  let codes := ProblemCode.all.filter fun code => ps.any (·.code == code)
  let kinds := ProblemKind.all.filter fun kind => ps.any (·.code.kind == kind)
  .record [("problems", ps.report), ("kinds", .texts (kinds.map (·.name))),
    ("codes", .texts (codes.map (·.name))), ("has_errors", ps.hasErrors),
    ("errors", ps.errors.length), ("warnings", ps.warnings.length), ("text", ps.render)]

def Symbol.reference (s : Option Symbol) : Report :=
  .optional (s.map fun s => s!"{s.role.name}#{s.slot}")

def Function.reference (f : Function) : Report := s!"{f.name}/{f.arity}"

def Symbol.report (s : Symbol) : Report :=
  .record [("name", s.name), ("role", s.role.name), ("slot", s.slot), ("scope", s.scope),
    ("persistent", s.persistent), ("span", s.span.report)]

namespace Report

def node (kind : String) (span : Span) (fields : Fields) : Report :=
  .record (("k", .text kind) :: ("span", span.report) :: fields)

mutual

def expr (style : SampleStyle) : Expr → Report
  | .literal span v => node "Literal" span [("value", style v)]
  | .read span name s => node "VariableRef" span [("name", name), ("sym", Symbol.reference s)]
  | .binary span op left right =>
    node "BinaryOp" span
      [("op", op.name), ("left", expr style left), ("right", expr style right)]
  | .unary span op operand =>
    node "UnaryOp" span [("op", op.name), ("operand", expr style operand)]
  | .assign span target step value s =>
    node "Assignment" span
      [("target", target), ("op", (step.map (·.name)).getD "" ++ "="),
        ("value", expr style value), ("sym", Symbol.reference s)]
  | .update span target decrement before s =>
    node "IncDec" span
      [("target", target), ("dec", decrement), ("prefix", before), ("sym", Symbol.reference s)]
  | .builtin span name which args =>
    node "FunctionCall" span
      [("name", name), ("builtin", if which.isPositional then (1 : Nat) else (2 : Nat)),
        ("args", list (exprs style args)), ("func", null)]
  | .call span name args function =>
    node "FunctionCall" span
      [("name", name), ("builtin", (0 : Nat)), ("args", list (exprs style args)),
        ("func", optional (function.map Function.reference))]

def exprs (style : SampleStyle) : List Expr → List Report
  | [] => []
  | e :: rest => expr style e :: exprs style rest

end

mutual

def stmt (style : SampleStyle) : Stmt → Report
  | .expr e => expr style e
  | .block span body => node "Block" span [("body", list (stmts style body))]
  | .ifThen span test yes =>
    node "If" span [("cond", expr style test), ("then", stmt style yes), ("else", null)]
  | .ifElse span test yes no =>
    node "If" span
      [("cond", expr style test), ("then", stmt style yes), ("else", stmt style no)]
  | .loop span test body =>
    node "While" span [("cond", expr style test), ("body", stmt style body)]

def stmts (style : SampleStyle) : List Stmt → List Report
  | [] => []
  | s :: rest => stmt style s :: stmts style rest

end

end Report

def Program.report (style : SampleStyle) (p : Program) : Report :=
  let init := p.init.map fun block =>
    Report.node "InitBlock" block.span [("body", .list (Report.stmts style block.body))]
  Report.node "Program" p.span
    [("init", .optional init), ("body", .list (Report.stmts style p.body))]

def SymbolTable.report (table : SymbolTable) : Report :=
  .record [("images", .each table.images Symbol.report),
    ("locals", .each table.locals.toList Symbol.report),
    ("root", .texts (table.root.symbols.reverse.map (·.name))),
    ("local_names", .texts table.localNames),
    ("persistent", .each table.persistentSlots fun slot => slot),
    ("image_out", Symbol.reference (table.image? "out"))]

def Resolution.report (style : SampleStyle) (r : Resolution) : Report :=
  .record [("ast", r.program.report style), ("problems", r.problems.report),
    ("symbols", r.table.report)]

end MapAlgebra
