import MapAlgebra.Script.Position

/-! Symbols: what the names of a script stand for. -/

namespace MapAlgebra

/-- The ways a script may use an image name, as bits: one for reading, two for writing. -/
structure ImageRole where
  bits : UInt8
deriving DecidableEq

namespace ImageRole

def source : ImageRole := { bits := 1 }

def destination : ImageRole := { bits := 2 }

def both : ImageRole := { bits := 3 }

def isSource (r : ImageRole) : Bool := r.bits &&& 1 != 0

def isDestination (r : ImageRole) : Bool := r.bits &&& 2 != 0

/-- The name of a role; bits without a meaning make it none. -/
def name (r : ImageRole) : String :=
  if r = source then "source"
  else if r = destination then "destination"
  else if r = both then "source+destination"
  else "none"

end ImageRole

/-- What a symbol stands for, as bits: an image that is read, an image that is written, a
variable, a positional built-in or an informational one.
-/
structure SymbolRole where
  bits : UInt8
deriving DecidableEq

namespace SymbolRole

def ofVariable : SymbolRole := { bits := 4 }

def ofImage (r : ImageRole) : SymbolRole := { bits := r.bits &&& 3 }

def isSource (r : SymbolRole) : Bool := r.bits &&& 1 != 0

def isDestination (r : SymbolRole) : Bool := r.bits &&& 2 != 0

def isImage (r : SymbolRole) : Bool := r.bits &&& 3 != 0

/-- The name of a role, the first that applies. -/
def name (r : SymbolRole) : String :=
  if r.isSource && r.isDestination then "source/destination image"
  else if r.isSource then "source image"
  else if r.isDestination then "destination image"
  else if r.bits &&& 4 != 0 then "local"
  else if r.bits &&& 8 != 0 then "positional built-in"
  else if r.bits &&& 16 != 0 then "info built-in"
  else "unknown"

end SymbolRole

/-- A name with its meaning. Images have the place of their binding as slot, variables the place
in the variable vector. Variables that the init block declares persist from pixel to pixel.
-/
structure Symbol where
  name : String
  role : SymbolRole
  /-- The name of the scope that declares the symbol. -/
  scope : String
  slot : Nat
  persistent : Bool
  /-- The assignment that declares a variable. -/
  span : Span
deriving DecidableEq

end MapAlgebra
