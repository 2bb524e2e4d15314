import MapAlgebra.Function
import MapAlgebra.Sample.Power

/-! The functions every script may call unless it is compiled against another registry. -/

namespace MapAlgebra.Function

def unary (name : String) (f : Sample → Sample) : Function :=
  { name, arity := 1
    body := .fixed fun
      | a :: _ => .ok (f a)
      | [] => .error .crashed }

def transcendental (name : String) (f : Float → Float) : Function :=
  unary name fun a => .ofFloat (f a.toFloat)

def binary (name : String) (f : Sample → Sample → Sample) : Function :=
  { name, arity := 2
    body := .fixed fun
      | a :: b :: _ => .ok (f a b)
      | _ => .error .crashed }

/-- Chooses its second argument when the first one is truthy, else the third. It reads only the one
it chooses.
-/
def choose : Function :=
  { name := "con", arity := 3
    body := .fixed fun
      | a :: rest =>
        match (if a.truthy then rest[0]? else rest[1]?) with
        | some v => .ok v
        | none => .error .crashed
      | [] => .error .crashed }

def clamp : Function :=
  { name := "clamp", arity := 3
    body := .fixed fun
      | v :: low :: high :: _ => .ok (low.max (high.min v))
      | _ => .error .crashed }

def standard : List Function :=
  [unary "abs" .abs,
   transcendental "sqrt" .sqrt,
   unary "exp" .exp,
   unary "log" .log,
   transcendental "log10" .log10,
   transcendental "floor" .floor,
   transcendental "ceil" .ceil,
   transcendental "round" .round,
   transcendental "sin" .sin,
   transcendental "cos" .cos,
   transcendental "tan" .tan,
   transcendental "asin" .asin,
   transcendental "acos" .acos,
   transcendental "atan" .atan,
   unary "sign" .sign,
   unary "isnan" fun a => .ofBool a.isNaN,
   unary "isinf" fun a => .ofBool a.isInfinite,
   binary "atan2" fun a b => .ofFloat (a.toFloat.atan2 b.toFloat),
   binary "min" .min,
   binary "max" .max,
   binary "pow" .pow,
   binary "hypot" .hypot,
   choose,
   clamp]

end MapAlgebra.Function

namespace MapAlgebra.Registry

def standard : Registry := { functions := Function.standard }

end MapAlgebra.Registry
