import MapAlgebra.Eval.Fault
import MapAlgebra.Function
import MapAlgebra.Raster
import MapAlgebra.Script.Symbol
import MapAlgebra.Script.Vocabulary

/-! The state that an evaluation reads and changes, and the operations that both ways of running a
script share. A slot holds its rasters by value, so images never share a store: a caller that binds one
raster under two names is outside of this model.
-/

namespace MapAlgebra

structure ImageSlot where
  name : String
  role : ImageRole
  source : Option Raster
  destination : Option Raster

structure Env where
  x : Int
  y : Int
  band : Int
  width : Int
  height : Int
  vars : Array Sample
  images : Array ImageSlot
  /-- What a read outside of a raster gives; without it such a read is an error. -/
  outside : Option Sample
  /-- How many rounds all loops of one evaluation may take together; zero for any number. -/
  loopLimit : Nat
  /-- The rounds that loops have taken so far, as a word. -/
  iterations : Int
  /-- The operand stack as the last run left it. -/
  stack : Array Sample
  calls : CallCounts

def Env.counted (env : Env) : Env :=
  { env with iterations := wrap (env.iterations + 1) }

/-- An evaluation: it changes the state, and keeps the changes when it stops. -/
abbrev EvalM := EStateM Stop Env

namespace EvalM

def fault {α : Type} (image : String) (f : EvalFault) : EvalM α := do
  let env ← get
  throw (.error { image, x := env.x, y := env.y, band := env.band, fault := f })

def orCrash {α : Type} : Option α → EvalM α
  | some a => pure a
  | none => throw .crash

def readVar (slot : Nat) : EvalM Sample := do
  orCrash (← get).vars[slot]?

def writeVar (slot : Nat) (v : Sample) : EvalM Unit := do
  if slot < (← get).vars.size then
    modify fun env => { env with vars := env.vars.setIfInBounds slot v }
  else throw .crash

/-- The raster that an image is read from: its source if it may be one, else its destination. -/
def readable (slot : ImageSlot) : Option Raster :=
  if slot.role.isSource then slot.source else slot.destination

def readAt (i : Nat) (x y band : Int) : EvalM Sample := do
  let env ← get
  let slot ← orCrash env.images[i]?
  let stop {α : Type} (fault : ImageFault) : EvalM α :=
    throw (.error { image := slot.name, x, y, band, fault := .image fault })
  match readable slot with
  | none => stop (.unbound slot.name)
  | some raster =>
    if raster.contains x y band then orCrash (raster.get? x y band)
    else
      match env.outside with
      | some v => pure v
      | none => stop (.outside slot.name raster.bounds raster.bands)

def readImage (i : Nat) : EvalM Sample := do
  let env ← get
  readAt i env.x env.y env.band

def setDestination (env : Env) (i : Nat) (change : Raster → Raster) : Env :=
  { env with
    images := env.images.modify i fun slot =>
      { slot with destination := slot.destination.map change } }

/-- Writes an image at a pixel and band. A place outside of the raster is left alone. -/
def writeAt (i : Nat) (x y band : Int) (v : Sample) : EvalM Unit := do
  let env ← get
  let slot ← orCrash env.images[i]?
  let stop (fault : ImageFault) : EvalM Unit :=
    throw (.error { image := slot.name, x, y, band, fault := .image fault })
  if !slot.role.isDestination then stop (.notDestination slot.name)
  else
    match slot.destination with
    | none => stop (.unbound slot.name)
    | some raster =>
      if raster.contains x y band then
        let place := raster.offset x y band
        if 0 ≤ place ∧ place.toNat < raster.samples.size then
          modify fun env => setDestination env i fun raster =>
            { raster with samples := raster.samples.setIfInBounds place.toNat v }
        else throw .crash

def writeImage (i : Nat) (v : Sample) : EvalM Unit := do
  let env ← get
  writeAt i env.x env.y env.band v

def builtin (which : Builtin) : EvalM Sample := do
  let env ← get
  match which with
  | .column => pure (.ofInt env.x)
  | .row => pure (.ofInt env.y)
  | .width => pure (.ofInt env.width)
  | .height => pure (.ofInt env.height)

def tick : EvalM Unit := do
  modify Env.counted
  let env ← get
  if env.loopLimit > 0 && env.iterations > env.loopLimit then fault "" (.loopLimit env.loopLimit)

def call (f : Function) (args : List Sample) : EvalM Sample := do
  let result ← modifyGet fun env =>
    let (result, calls) := f.call env.calls args
    (result, { env with calls })
  match result with
  | .ok v => pure v
  | .error (.refused reason) => fault "" (.callRefused f.name reason)
  | .error (.evaluation text) => fault "" (.raised text)
  | .error .crashed => throw .crash

end EvalM

end MapAlgebra
