import MapAlgebra.Script.Vocabulary

/-! The problems that compiling a script can report. A problem is a cause at a place; its code, its
severity and its wording follow from the cause.
-/

namespace MapAlgebra

/-- Problems are errors, which keep a script from running, or warnings. -/
inductive Severity where
  | error
  | warning
deriving DecidableEq

def Severity.name : Severity → String
  | error => "error"
  | warning => "warning"

/-- The name of the severity with a number; all but one are errors. -/
def Severity.nameOfNumber (n : Int) : String :=
  if n = 1 then warning.name else error.name

inductive ProblemKind where
  | syntactic | scope | arity | unassignedDestination | warning
deriving DecidableEq

namespace ProblemKind

def all : List ProblemKind :=
  [syntactic, scope, arity, unassignedDestination, warning]

def name : ProblemKind → String
  | syntactic => "SyntaxError"
  | scope => "ScopeError"
  | arity => "ArityError"
  | unassignedDestination => "UnassignedDestinationError"
  | warning => "Warning"

def nameOfNumber (n : Int) : String :=
  match if n < 0 then none else all[n.toNat]? with
  | some kind => kind.name
  | none => s!"Kind({n})"

end ProblemKind

inductive ProblemCode where
  | syntaxError | undeclaredIdentifier | useBeforeAssignment | assignToSource
  | unassignedDestination | readBeforeWrite | wrongArity | ambiguousUse | reservedName
  | unknownFunction | imageInInit | positionalInInit | shadowsFunction | unusedSource
deriving DecidableEq

namespace ProblemCode

def all : List ProblemCode :=
  [syntaxError, undeclaredIdentifier, useBeforeAssignment, assignToSource, unassignedDestination,
   readBeforeWrite, wrongArity, ambiguousUse, reservedName, unknownFunction, imageInInit,
   positionalInInit, shadowsFunction, unusedSource]

def name : ProblemCode → String
  | syntaxError => "SyntaxError"
  | undeclaredIdentifier => "UndeclaredIdentifier"
  | useBeforeAssignment => "UseBeforeAssignment"
  | assignToSource => "AssignToSource"
  | unassignedDestination => "UnassignedDestination"
  | readBeforeWrite => "ReadBeforeWrite"
  | wrongArity => "WrongArity"
  | ambiguousUse => "AmbiguousUse"
  | reservedName => "ReservedName"
  | unknownFunction => "UnknownFunction"
  | imageInInit => "ImageInInit"
  | positionalInInit => "PositionalInInit"
  | shadowsFunction => "ShadowsFunction"
  | unusedSource => "UnusedSource"

def kind : ProblemCode → ProblemKind
  | syntaxError => .syntactic
  | wrongArity => .arity
  | unassignedDestination => .unassignedDestination
  | shadowsFunction | unusedSource => .warning
  | _ => .scope

def severity : ProblemCode → Severity
  | shadowsFunction | unusedSource => .warning
  | _ => .error

def ofNumber? (n : Int) : Option ProblemCode :=
  if n < 0 then none else all[n.toNat]?

def nameOfNumber (n : Int) : String :=
  match ofNumber? n with
  | some code => code.name
  | none => s!"ErrorCode({n})"

end ProblemCode

inductive SyntaxFault where
  | strayBrace
  | initWithoutBlock (found : Token)
  | lateInit
  | missingSemicolon (found : Token)
  | unclosedBlock (opened : Position)
  | missingCondition (keyword : String) (found : Token)
  | expected (kind : TokenKind) (found : Token)
  | assignToConstant (name : String)
  | invalidTarget
  | missingVariable (operator : String) (found : Token)
  | notVariable (operator : String)
  | invalidNumber (literal : String)
  | unexpected (found : Token)
deriving DecidableEq

def SyntaxFault.message : SyntaxFault → String
  | strayBrace => "unexpected '\x7d' with no open block"
  | initWithoutBlock found => "expected '\x7b' after init, got " ++ found.describe
  | lateInit => "init block must be the first statement of a script"
  | missingSemicolon found => "expected ';' after expression, got " ++ found.describe
  | unclosedBlock opened =>
    "expected '\x7d' to close block opened at line " ++ toString opened.line ++ ", column "
      ++ toString opened.column
  | missingCondition keyword found => "expected '(' after " ++ keyword ++ ", got " ++ found.describe
  | expected kind found => "expected " ++ kind.name ++ ", got " ++ found.describe
  | assignToConstant name => "cannot assign to constant " ++ name
  | invalidTarget => "invalid assignment target"
  | missingVariable operator found =>
    "expected variable after " ++ operator ++ ", got " ++ found.describe
  | notVariable operator => operator ++ " requires a variable operand"
  | invalidNumber literal => "invalid number " ++ Text.quote literal
  | unexpected found => "unexpected " ++ found.describe

inductive BindingError where
  | emptyName
  | duplicate (name : String)
  | noRole (name : String)
  | keyword (name : String)
  | constant (name : String)
  | builtin (name : String)
deriving DecidableEq

def BindingError.message : BindingError → String
  | emptyName => "binding with empty name"
  | duplicate name => "image " ++ Text.quote name ++ " bound twice"
  | noRole name => "image " ++ Text.quote name ++ " has no role"
  | keyword name => "image name " ++ Text.quote name ++ " is a keyword"
  | constant name => "image name " ++ Text.quote name ++ " is a reserved constant"
  | builtin name => "image name " ++ Text.quote name ++ " is a built-in"

inductive Cause where
  | syntactic (fault : SyntaxFault)
  | undeclared (name : String)
  | usedBeforeAssigned (name : String)
  | sourceAssigned (name : String)
  | destinationUnassigned (name : String)
  | readBeforeWritten (name : String)
  | builtinArguments (name : String) (got : Nat)
  | argumentCount (name : String) (arity got : Nat)
  | builtinRead (name : String)
  | builtinAssigned (name : String)
  | imageAssignedInInit (name : String)
  | invalidBindings (error : BindingError)
  | unknownFunction (name : String)
  | imageReadInInit (name : String)
  | positionInInit (name : String)
  | functionShadowed (name : String)
  | sourceUnread (name : String)
deriving DecidableEq

namespace Cause

def code : Cause → ProblemCode
  | syntactic _ => .syntaxError
  | undeclared _ => .undeclaredIdentifier
  | usedBeforeAssigned _ => .useBeforeAssignment
  | sourceAssigned _ => .assignToSource
  | destinationUnassigned _ => .unassignedDestination
  | readBeforeWritten _ => .readBeforeWrite
  | builtinArguments .. | argumentCount .. => .wrongArity
  | builtinRead _ | builtinAssigned _ => .ambiguousUse
  | imageAssignedInInit _ | invalidBindings _ => .reservedName
  | unknownFunction _ => .unknownFunction
  | imageReadInInit _ => .imageInInit
  | positionInInit _ => .positionalInInit
  | functionShadowed _ => .shadowsFunction
  | sourceUnread _ => .unusedSource

/-- The name that a cause is about, empty if there is none. -/
def name : Cause → String
  | syntactic _ | invalidBindings _ => ""
  | undeclared n | usedBeforeAssigned n | sourceAssigned n | destinationUnassigned n
  | readBeforeWritten n | builtinArguments n _ | argumentCount n _ _ | builtinRead n
  | builtinAssigned n | imageAssignedInInit n | unknownFunction n | imageReadInInit n
  | positionInInit n | functionShadowed n | sourceUnread n => n

def message : Cause → String
  | syntactic fault => fault.message
  | undeclared n => s!"undeclared identifier {n}"
  | usedBeforeAssigned n => s!"{n} is used before it is assigned"
  | sourceAssigned n => s!"cannot assign to source image {n}"
  | destinationUnassigned n => s!"destination image {n} is never assigned"
  | readBeforeWritten n => s!"destination image {n} is read before it is assigned"
  | builtinArguments n got => s!"{n}() takes no arguments, got {got}"
  | argumentCount n arity got =>
    let plural := if arity = 1 then "" else "s"
    s!"{n}() takes {arity} argument{plural}, got {got}"
  | builtinRead n => s!"{n} is a built-in function; call it as {n}()"
  | builtinAssigned n => s!"cannot assign to built-in function {n}"
  | imageAssignedInInit n => s!"image name {n} cannot be assigned in the init block"
  | invalidBindings error => "invalid bindings: " ++ error.message
  | unknownFunction n => s!"unknown function {n}"
  | imageReadInInit n => s!"image {n} cannot be read in the init block"
  | positionInInit n => s!"{n}() has no meaning in the init block"
  | functionShadowed n => s!"variable {n} has the same name as a function"
  | sourceUnread n => s!"source image {n} is never read"

end Cause

structure Problem where
  cause : Cause
  span : Span
deriving DecidableEq

namespace Problem

def code (p : Problem) : ProblemCode := p.cause.code

def severity (p : Problem) : Severity := p.code.severity

def isError (p : Problem) : Bool := p.severity = .error

def message (p : Problem) : String := p.cause.message

def render (p : Problem) : String :=
  p.severity.name ++ ": line " ++ toString p.span.start.line ++ ", column "
    ++ toString p.span.start.column ++ ": " ++ p.message ++ " [" ++ p.code.name ++ "]"

end Problem

abbrev Problems := List Problem

namespace Problems

def hasErrors (ps : Problems) : Bool := ps.any Problem.isError

def errors (ps : Problems) : Problems := ps.filter Problem.isError

def warnings (ps : Problems) : Problems := ps.filter (!Problem.isError ·)

def render (ps : Problems) : String := "\n".intercalate (ps.map Problem.render)

def failureMessage (ps : Problems) : String :=
  match ps.errors with
  | [p] => "compile failed: " ++ p.render
  | errors => s!"compile failed with {errors.length} errors:\n" ++ render errors

end Problems

end MapAlgebra
