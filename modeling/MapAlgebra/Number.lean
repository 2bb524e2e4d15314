/-! Naturals and integers. Their powers and their zero are the ones of the core library, also in a module
that sees a library of algebra, which has its own.
-/

namespace MapAlgebra

@[default_instance 20000]
instance (priority := 20000) powNat : Pow Nat Nat := instPowNat

@[default_instance 15000]
instance (priority := 20000) powInt : Pow Int Nat := instPowNat

instance (priority := 20000) zeroNat : Zero Nat := Zero.ofOfNat0

instance (priority := 20000) zeroInt : Zero Int := Zero.ofOfNat0

end MapAlgebra
