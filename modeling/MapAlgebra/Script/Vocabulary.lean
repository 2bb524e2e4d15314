import MapAlgebra.Sample
import MapAlgebra.Script.Token

/-! Names with a fixed meaning: the constants and the built-in functions of scripts. -/

namespace MapAlgebra

def constants : List (String × Sample) :=
  [("M_E", { bits := 0x4005BF0A8B145769 }),
   ("M_PI", { bits := 0x400921FB54442D18 }),
   ("NaN", .nan),
   ("false", .zero),
   ("true", .one)]

def constant? (name : String) : Option Sample :=
  constants.lookup name

/-- What a built-in function tells: the place of the current pixel or the size of the raster. -/
inductive Builtin where
  | column
  | row
  | width
  | height
deriving DecidableEq

/-- Built-ins about the current pixel have no meaning before the sweep; those about the raster
do.
-/
def Builtin.isPositional : Builtin → Bool
  | column | row => true
  | width | height => false

def builtins : List (String × Builtin) :=
  [("col", .column), ("height", .height), ("row", .row), ("width", .width), ("x", .column),
   ("y", .row)]

def builtin? (name : String) : Option Builtin :=
  builtins.lookup name

/-- The reserved words do not name anything. -/
def isKeyword (name : String) : Bool :=
  (keywords.lookup name).isSome

end MapAlgebra
