import MapAlgebra.Sample.Power
import MapAlgebra.Script.Operator

/-! What the operators compute. Comparisons give one or zero. -/

namespace MapAlgebra

def Arith.apply : Arith → Sample → Sample → Sample
  | add, a, b => a.add b
  | sub, a, b => a.sub b
  | mul, a, b => a.mul b
  | div, a, b => a.div b
  | mod, a, b => a.mod b
  | pow, a, b => a.pow b
  | eq, a, b => .ofBool (a.eq b)
  | ne, a, b => .ofBool (a.ne b)
  | lt, a, b => .ofBool (a.lt b)
  | le, a, b => .ofBool (a.le b)
  | gt, a, b => .ofBool (b.lt a)
  | ge, a, b => .ofBool (b.le a)

def UnaryOp.apply : UnaryOp → Sample → Sample
  | neg, v => v.neg
  | plus, v => v
  | not, v => .ofBool (!v.truthy)

end MapAlgebra
