import MapAlgebra.Number

/-! Sizes and coordinates are 64-bit words: sums and products wrap around. -/

namespace MapAlgebra

def wrap (n : Int) : Int :=
  n.bmod (2 ^ 64)

end MapAlgebra
