import MapAlgebra.Sample

/-! Functions that scripts call, and the registries that scripts are compiled against. -/

namespace MapAlgebra

inductive CallFault where
  /-- The function refused its arguments; the text is its own. -/
  | refused (reason : String)
  /-- The function raised an evaluation error, whose text is complete. -/
  | evaluation (text : String)
  /-- The function read an argument that was not passed. -/
  | crashed
deriving DecidableEq

abbrev CallResult := Except CallFault Sample

/-- A call of a function whose calls matter to later ones. -/
structure Call where
  /-- Tells the functions of a program apart. -/
  serial : Nat
  args : List Sample

/-- How a function finds its result. -/
inductive Body where
  /-- The result depends on the arguments only. -/
  | fixed (apply : List Sample → CallResult)
  /-- The result also depends on the calls before, the last one first. -/
  | recalling (serial : Nat) (apply : List Call → List Sample → CallResult)

/-- A body that asks only how many calls with its serial number came before. -/
def Body.counting (serial : Nat) (apply : Nat → List Sample → CallResult) : Body :=
  .recalling serial fun calls => apply (calls.countP (·.serial == serial))

structure Function where
  name : String
  arity : Nat
  body : Body

/-- The calls so far that count for later ones, the last one first. -/
abbrev CallCounts := List Call

def CallCounts.empty : CallCounts := []

/-- Applies a function to arguments, whose number is not checked. -/
def Function.call (f : Function) (calls : CallCounts) (args : List Sample)
    : CallResult × CallCounts :=
  match f.body with
  | .fixed apply => (apply args, calls)
  | .recalling serial apply => (apply calls args, { serial, args } :: calls)

/-- The functions a script may call, in the order they were registered. No two share a name. -/
structure Registry where
  functions : List Function

inductive RegistryError where
  | emptyName
  | negativeArity (name : String) (arity : Int)
  | noImplementation (name : String)
  | duplicate (name : String)
deriving DecidableEq

def RegistryError.message : RegistryError → String
  | .emptyName => "function with empty name"
  | .negativeArity name arity => s!"function {name}: negative arity {arity}"
  | .noImplementation name => s!"function {name}: nil implementation"
  | .duplicate name => s!"function {name} already registered"

namespace Registry

def empty : Registry := { functions := [] }

def lookup (registry : Registry) (name : String) : Option Function :=
  registry.functions.find? (·.name == name)

def register (registry : Registry) (name : String) (arity : Int) (body : Option Body)
    : Except RegistryError Registry :=
  if name = "" then .error .emptyName
  else if arity < 0 then .error (.negativeArity name arity)
  else
    match body with
    | none => .error (.noImplementation name)
    | some body =>
      if (registry.lookup name).isSome then .error (.duplicate name)
      else .ok { functions := registry.functions ++ [{ name, arity := arity.toNat, body }] }

def names (registry : Registry) : List String :=
  (registry.functions.map (·.name)).mergeSort (fun a b => a ≤ b)

end Registry

end MapAlgebra
