import MapAlgebra.Raster.Rect
import MapAlgebra.Text.Layout

/-! Why an evaluation stops before its end. -/

namespace MapAlgebra

inductive ImageFault where
  | unknown (image : String)
  | notSource (image : String)
  | notDestination (image : String)
  | noSourceRaster (image : String)
  | noDestinationRaster (image : String)
  | sourceUnbound (image : String)
  | destinationUnbound (image : String)
  | unbound (image : String)
  | outside (image : String) (bounds : Rect) (bands : Nat)
deriving DecidableEq

def ImageFault.message (fault : ImageFault) : String :=
  "image binding error: " ++
    match fault with
    | unknown image => s!"unknown image {image}"
    | notSource image => s!"image {image} is not a source"
    | notDestination image => s!"image {image} is not a destination"
    | noSourceRaster image => s!"nil raster for source image {image}"
    | noDestinationRaster image => s!"nil raster for destination image {image}"
    | sourceUnbound image => s!"source image {image} is not bound"
    | destinationUnbound image => s!"destination image {image} is not bound"
    | unbound image => s!"image {image} is not bound"
    | outside image bounds bands =>
      s!"sample outside image {image} ({bounds.render}, {bands} bands)"

inductive EvalFault where
  | loopLimit (limit : Nat)
  | unknownOpcode (byte : UInt8) (offset : Nat) (chunk : String)
  | callRefused (function reason : String)
  | raised (text : String)
  | image (fault : ImageFault)
deriving DecidableEq

def EvalFault.message : EvalFault → String
  | loopLimit limit => s!"runtime evaluation error: loop exceeded {limit} iterations"
  | unknownOpcode byte offset chunk =>
    "runtime evaluation error: unknown opcode 0x" ++ Text.hexUpper 2 byte.toNat ++ " at "
      ++ Text.hexUpper 4 offset ++ " in " ++ chunk
  | callRefused function reason => s!"runtime evaluation error: {function}: {reason}"
  | raised text => text
  | image fault => fault.message

/-- A fault at a pixel and band. The image is empty if the fault does not concern one. -/
structure EvalError where
  image : String
  x : Int
  y : Int
  band : Int
  fault : EvalFault
deriving DecidableEq

def EvalError.message (e : EvalError) : String :=
  let place := s!"({e.x}, {e.y}) band {e.band}: "
  if e.image = "" then "evaluating " ++ place ++ e.fault.message
  else s!"evaluating {e.image} at " ++ place ++ e.fault.message

inductive Stop where
  | error (e : EvalError)
  /-- The code is broken: it reaches outside of the operand stack, its own bytes, a table, the
  variables or a store.
  -/
  | crash
  /-- The fuel did not suffice. -/
  | unfinished
deriving DecidableEq

end MapAlgebra
