import MapAlgebra.Problem
import MapAlgebra.Script.Symbol

/-! Tables of image names that a script is compiled against. -/

namespace MapAlgebra

/-- An image name and how the script may use it. -/
structure Binding where
  name : String
  role : ImageRole
deriving DecidableEq

/-- The images of a script. Their order gives them their slots. -/
abbrev Bindings := List Binding

namespace Binding

def error? (seen : List String) (b : Binding) : Option BindingError :=
  if b.name = "" then some .emptyName
  else if seen.contains b.name then some (.duplicate b.name)
  else if !b.role.isSource && !b.role.isDestination then some (.noRole b.name)
  else if isKeyword b.name then some (.keyword b.name)
  else if (constant? b.name).isSome then some (.constant b.name)
  else if (builtin? b.name).isSome then some (.builtin b.name)
  else none

end Binding

namespace Bindings

def errorAfter? : (seen : List String) → Bindings → Option BindingError
  | _, [] => none
  | seen, b :: rest =>
    match b.error? seen with
    | some error => some error
    | none => errorAfter? (b.name :: seen) rest

/-- The first thing wrong with a table: an empty or repeated name, no role, or a name that already
means something else.
-/
def error? (bindings : Bindings) : Option BindingError :=
  errorAfter? [] bindings

def problems (bindings : Bindings) : Problems :=
  bindings.error?.toList.map fun error =>
    { cause := .invalidBindings error, span := .point .start }

end Bindings

end MapAlgebra
