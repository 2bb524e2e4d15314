import MapAlgebra.Problem
import MapAlgebra.Sample.Decimal
import MapAlgebra.Script.Lexeme
import MapAlgebra.Script.Tree

/-! Parsing scripts. Expressions are parsed by functions that either take a whole expression or
fail at a token; statements recover from such a failure at the next statement boundary and go
on, so that one run reports every malformed statement.
-/

namespace MapAlgebra.Parse

/-- A place between tokens: where the token before it ends, the tokens ahead and where the script
ends.
-/
structure Cursor where
  last : Position
  rest : List Token
  stop : Position

namespace Cursor

def current (c : Cursor) : Token :=
  c.rest.head?.getD (.eof c.stop)

def kind (c : Cursor) : TokenKind := c.current.kind

def nextKind (c : Cursor) : TokenKind :=
  ((c.rest.drop 1).head?.getD (.eof c.stop)).kind

def advance (c : Cursor) : Cursor :=
  { c with last := c.current.stop, rest := c.rest.drop 1 }

end Cursor

/-- What an expression parser gives: a value and the cursor behind it, or the first fault and the
cursor in front of the token that is at fault.
-/
inductive Parsed (α : Type) where
  | ok (value : α) (cursor : Cursor)
  | fail (fault : SyntaxFault) (cursor : Cursor)

def Parsed.andThen {α β : Type} (parsed : Parsed α) (next : α → Cursor → Parsed β) : Parsed β :=
  match parsed with
  | .ok value c => next value c
  | .fail fault c => .fail fault c

abbrev ExprParser := Cursor → Parsed Expr

def closed {α : Type} (kind : TokenKind) (value : α) (c : Cursor) : Parsed α :=
  if c.kind = kind then .ok value c.advance else .fail (.expected kind c.current) c

def arguments (expression : ExprParser) : (fuel : Nat) → Cursor → Parsed (List Expr)
  | 0, c => .fail (.unexpected c.current) c
  | fuel + 1, c =>
    (expression c).andThen fun arg c =>
      if c.kind = .comma then
        (arguments expression fuel c.advance).andThen fun more c => .ok (arg :: more) c
      else .ok [arg] c

def callNode (span : Span) (name : String) (args : List Expr) : Expr :=
  match builtin? name with
  | some which => .builtin span name which args
  | none => .call span name args none

def call (expression : ExprParser) (fuel : Nat) (c : Cursor) : Parsed Expr :=
  let name := c.current
  let inner := c.advance.advance
  let args :=
    if inner.kind = .rightParen then .ok [] inner
    else arguments expression fuel inner
  (args.andThen (closed .rightParen)).andThen fun args c =>
    .ok (callNode { start := name.pos, stop := c.last } name.literal args) c

/-- A number, a constant, a variable, a call or an expression in parentheses. -/
def primary (expression : ExprParser) (fuel : Nat) (c : Cursor) : Parsed Expr :=
  let token := c.current
  let span : Span := { start := token.pos, stop := c.advance.last }
  match token.kind with
  | .number =>
    match Sample.parse? token.literal with
    | some v => .ok (.literal span v) c.advance
    | none => .fail (.invalidNumber token.literal) c
  | .identifier =>
    match constant? token.literal with
    | some v => .ok (.literal span v) c.advance
    | none =>
      if c.nextKind = .leftParen then call expression fuel c
      else .ok (.read span token.literal none) c.advance
  | .leftParen => (expression c.advance).andThen (closed .rightParen)
  | _ => .fail (.unexpected token) c

/-- A primary expression, or a variable with an increment or decrement behind it. -/
def updated (expression : ExprParser) (fuel : Nat) (c : Cursor) : Parsed Expr :=
  (primary expression fuel c).andThen fun e c =>
    if c.kind = .increment || c.kind = .decrement then
      match e with
      | .read span name _ =>
        let whole : Span := { start := span.start, stop := c.advance.last }
        .ok (.update whole name (c.kind = .decrement) false none) c.advance
      | _ => .fail (.notVariable c.current.literal) c
    else .ok e c

/-- A base with an optional exponent, which may have operators of its own in front. -/
def power (expression unary : ExprParser) (fuel : Nat) (c : Cursor) : Parsed Expr :=
  (updated expression fuel c).andThen fun base c =>
    if c.kind = .caret then
      (unary c.advance).andThen fun exponent c =>
        .ok (.binary { start := base.span.start, stop := exponent.span.stop } (.arith .pow) base
          exponent) c
    else .ok base c

/-- Operators in front of a power. An increment or decrement takes the name behind it, whatever it
stands for.
-/
def unary (expression : ExprParser) : (fuel : Nat) → ExprParser
  | 0, c => .fail (.unexpected c.current) c
  | fuel + 1, c =>
    let start := c.current.pos
    match c.kind.unary? with
    | some op =>
      (unary expression fuel c.advance).andThen fun operand c =>
        .ok (.unary { start, stop := operand.span.stop } op operand) c
    | none =>
      if c.kind = .increment || c.kind = .decrement then
        let name := c.advance
        if name.kind = .identifier then
          .ok (.update { start, stop := name.advance.last } name.current.literal
            (c.kind = .decrement) true none) name.advance
        else .fail (.missingVariable c.current.literal name.current) name
      else power expression (unary expression fuel) fuel c

/-- The operators of one precedence that follow an operand, grouped to the left. -/
def chainFrom (operand : ExprParser) (op? : TokenKind → Option BinaryOp)
    : (fuel : Nat) → (left : Expr) → ExprParser
  | 0, left, c => .ok left c
  | fuel + 1, left, c =>
    match op? c.kind with
    | none => .ok left c
    | some op =>
      (operand c.advance).andThen fun right c =>
        chainFrom operand op? fuel
          (.binary { start := left.span.start, stop := right.span.stop } op left right) c

def chain (fuel : Nat) (op? : TokenKind → Option BinaryOp) (operand : ExprParser) : ExprParser :=
  fun c => (operand c).andThen (chainFrom operand op? fuel)

/-- An expression without an assignment of its own. -/
def disjunction (expression : ExprParser) (fuel : Nat) : ExprParser :=
  chain fuel TokenKind.disjunction?
    (chain fuel TokenKind.conjunction?
      (chain fuel TokenKind.equality?
        (chain fuel TokenKind.relational?
          (chain fuel TokenKind.additive?
            (chain fuel TokenKind.multiplicative?
              (unary expression fuel))))))

/-- An expression: an assignment to a name, which groups to the right, or a chain of operators.
Every nested expression starts behind a token of the outer one, and every round of a chain or an
argument list takes a token, so fuel above the number of tokens ahead is never used up.
-/
def expression : (fuel : Nat) → ExprParser
  | 0, c => .fail (.unexpected c.current) c
  | fuel + 1, c =>
    let target := c.current
    if c.kind = .identifier && c.nextKind.isAssignment then
      if (constant? target.literal).isSome then .fail (.assignToConstant target.literal) c
      else
        (expression fuel c.advance.advance).andThen fun value next =>
          .ok (.assign { start := target.pos, stop := value.span.stop } target.literal
            c.nextKind.compound? value none) next
    else
      (disjunction (expression fuel) (fuel + 1) c).andThen fun e c =>
        if c.kind.isAssignment then .fail .invalidTarget c else .ok e c

/-- What a statement parser gives: a value, the problems found and the cursor behind it. -/
structure Outcome (α : Type) where
  value : α
  problems : Problems
  cursor : Cursor

/-- A statement parser. It gives nothing for an empty or a malformed statement. -/
abbrev StmtParser := Cursor → Outcome (Option Stmt)

def problem (fault : SyntaxFault) (c : Cursor) : Problem :=
  { cause := .syntactic fault, span := .point c.current.pos }

/-- Skips to the next statement boundary: behind a semicolon outside of braces, in front of a brace
that closes the enclosing block, or behind the brace that closes a block opened on the way.
-/
def synchronize : (depth : Nat) → (last : Position) → List Token → Position × List Token
  | _, last, [] => (last, [])
  | depth, last, t :: rest =>
    match t.kind with
    | .semicolon => if depth = 0 then (t.stop, rest) else synchronize depth t.stop rest
    | .leftBrace => synchronize (depth + 1) t.stop rest
    | .rightBrace =>
      match depth with
      | 0 => (last, t :: rest)
      | 1 => (t.stop, rest)
      | depth + 2 => synchronize (depth + 1) t.stop rest
    | _ => synchronize depth t.stop rest

def Cursor.synchronized (c : Cursor) : Cursor :=
  let (last, rest) := synchronize 0 c.last c.rest
  { c with last, rest }

def recover {α : Type} (value : α) (fault : SyntaxFault) (c : Cursor) : Outcome α :=
  { value, problems := [problem fault c], cursor := c.synchronized }

def exprStatement (fuel : Nat) (c : Cursor) : Outcome (Option Stmt) :=
  match expression fuel c with
  | .fail fault c => recover none fault c
  | .ok e c =>
    if c.kind = .semicolon then { value := some (.expr e), problems := [], cursor := c.advance }
    else recover none (.missingSemicolon c.current) c

/-- Statements up to the closing brace or the end of the script. -/
def statements (statement : StmtParser) : (fuel : Nat) → Cursor → Outcome (List Stmt)
  | 0, c => { value := [], problems := [], cursor := c }
  | fuel + 1, c =>
    if c.kind = .rightBrace || c.kind = .eof then { value := [], problems := [], cursor := c }
    else
      let first := statement c
      let more := statements statement fuel first.cursor
      { value := first.value.toList ++ more.value
        problems := first.problems ++ more.problems
        cursor := more.cursor }

/-- Statements in braces, for a cursor at the opening one. A block that is never closed ends
with the script.
-/
def block (statement : StmtParser) (fuel : Nat) (c : Cursor) : Outcome (Span × List Stmt) :=
  let start := c.current.pos
  let body := statements statement fuel c.advance
  if body.cursor.kind = .rightBrace then
    let next := body.cursor.advance
    { value := ({ start, stop := next.last }, body.value), problems := body.problems
      cursor := next }
  else
    { value := ({ start, stop := body.cursor.current.pos }, body.value)
      problems := body.problems ++ [problem (.unclosedBlock start) body.cursor]
      cursor := body.cursor }

def condition (keyword : String) (fuel : Nat) (c : Cursor) : Parsed Expr :=
  if c.kind = .leftParen then (expression fuel c.advance).andThen (closed .rightParen)
  else .fail (.missingCondition keyword c.current) c

/-- The statement that a condition controls; an empty one counts as an empty block. -/
def branch (statement : StmtParser) (c : Cursor) : Outcome (Option Stmt) :=
  if c.kind = .semicolon then
    let next := c.advance
    { value := some (.block { start := c.current.pos, stop := next.last } [])
      problems := [], cursor := next }
  else statement c

def conditional (statement : StmtParser) (fuel : Nat) (c : Cursor) : Outcome (Option Stmt) :=
  let start := c.current.pos
  match condition "if" fuel c.advance with
  | .fail fault c => recover none fault c
  | .ok test c =>
    let yes := branch statement c
    match yes.value with
    | none => { value := none, problems := yes.problems, cursor := yes.cursor }
    | some yesStmt =>
      if yes.cursor.kind = .elseWord then
        let no := branch statement yes.cursor.advance
        { value := no.value.map (.ifElse { start, stop := no.cursor.last } test yesStmt)
          problems := yes.problems ++ no.problems
          cursor := no.cursor }
      else
        { value := some (.ifThen { start, stop := yes.cursor.last } test yesStmt)
          problems := yes.problems
          cursor := yes.cursor }

def loop (statement : StmtParser) (fuel : Nat) (c : Cursor) : Outcome (Option Stmt) :=
  let start := c.current.pos
  match condition "while" fuel c.advance with
  | .fail fault c => recover none fault c
  | .ok test c =>
    let body := branch statement c
    { value := body.value.map (.loop { start, stop := body.cursor.last } test)
      problems := body.problems
      cursor := body.cursor }

/-- One statement. Nested statements start behind a token of the outer one, so fuel above the number
of tokens ahead is never used up.
-/
def statement : (fuel : Nat) → StmtParser
  | 0, c => { value := none, problems := [], cursor := c }
  | fuel + 1, c =>
    match c.kind with
    | .leftBrace =>
      let body := block (statement fuel) fuel c
      { value := some (.block body.value.1 body.value.2)
        problems := body.problems, cursor := body.cursor }
    | .ifWord => conditional (statement fuel) fuel c
    | .whileWord => loop (statement fuel) fuel c
    | .semicolon => { value := none, problems := [], cursor := c.advance }
    | .initWord => recover none .lateInit c
    | _ => exprStatement (fuel + 1) c

/-- Statements up to the end of the script; a brace that closes nothing is reported and skipped. -/
def toplevel (statement : StmtParser) : (fuel : Nat) → Cursor → Outcome (List Stmt)
  | 0, c => { value := [], problems := [], cursor := c }
  | fuel + 1, c =>
    if c.kind = .eof then { value := [], problems := [], cursor := c }
    else
      let first : Outcome (Option Stmt) :=
        if c.kind = .rightBrace then
          { value := none, problems := [problem .strayBrace c], cursor := c.advance }
        else statement c
      let more := toplevel statement fuel first.cursor
      { value := first.value.toList ++ more.value
        problems := first.problems ++ more.problems
        cursor := more.cursor }

def initBlock (fuel : Nat) (c : Cursor) : Outcome (Option InitBlock) :=
  let start := c.current.pos
  let next := c.advance
  if next.kind = .leftBrace then
    let body := block (statement fuel) fuel next
    { value := some { span := { start, stop := body.cursor.last }, body := body.value.2 }
      problems := body.problems, cursor := body.cursor }
  else recover none (.initWithoutBlock next.current) next

def program (c : Cursor) : Outcome Program :=
  let fuel := c.rest.length + 1
  let start := c.current.pos
  let init : Outcome (Option InitBlock) :=
    if c.kind = .initWord then initBlock fuel c else { value := none, problems := [], cursor := c }
  let body := toplevel (statement fuel) fuel init.cursor
  { value :=
      { span := { start, stop := body.cursor.current.pos }, init := init.value, body := body.value }
    problems := init.problems ++ body.problems
    cursor := body.cursor }

end Parse

def parseTokens (tokens : List Token) (stop : Position) : Parse.Outcome Program :=
  Parse.program { last := .none, rest := tokens, stop }

structure Script where
  source : Bytes
  program : Program

/-- Parses a script; a malformed one gives its syntax problems instead. -/
def parse (source : Bytes) : Except Problems Script :=
  let (tokens, stop) := scan source
  let outcome := parseTokens tokens stop
  if outcome.problems.isEmpty then .ok { source, program := outcome.value }
  else .error outcome.problems

end MapAlgebra
