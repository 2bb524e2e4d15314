import MapAlgebra.Code.Machine
import MapAlgebra.Compile
import MapAlgebra.Eval.Tree

/-! Scenes: a program with rasters bound to its images. -/

namespace MapAlgebra

def Code.run (fuel : Nat) : Code → EvalM Unit
  | .chunk c => Machine.run c fuel
  | .tree body => Eval.stmts fuel body

namespace Executable

/-- Moves to a pixel and band, where no loop has run yet. -/
def moveTo (x y band : Int) : EvalM Unit :=
  modify fun env => { env with x, y, band, iterations := 0 }

/-- Sets every variable to zero and runs the init block once. -/
def start (program : Executable) (fuel : Nat) : EvalM Unit := do
  modify fun env => { env with vars := Array.replicate env.vars.size .zero }
  moveTo 0 0 0
  match program.init with
  | none => pure ()
  | some code => code.run fuel

/-- The variables with those that do not last set to zero. -/
def freshVars (persistent : List Bool) (vars : Array Sample) : Array Sample :=
  persistent.zipIdx.foldl (fun vars (keeps, slot) =>
    if keeps then vars else vars.setIfInBounds slot .zero) vars

/-- Runs the body for one pixel and band. Variables that do not last start from zero. -/
def evaluate (program : Executable) (fuel : Nat) (x y band : Int) : EvalM Unit := do
  modify fun env => { env with vars := freshVars program.persistent env.vars }
  moveTo x y band
  program.body.run fuel

end Executable

/-- A program with rasters bound to its images, and the values of its variables. -/
structure Scene where
  program : Executable
  env : Env
  firstSource : Option Nat
  firstDestination : Option Nat

namespace Scene

def create (program : Executable) (calls : CallCounts) : Scene where
  program
  env := {
    x := 0, y := 0, band := 0, width := 0, height := 0
    vars := Array.replicate program.varNames.length .zero
    images := (program.images.map fun b =>
      { name := b.name, role := b.role, source := none, destination := none }).toArray
    outside := none, loopLimit := 0, iterations := 0, stack := #[], calls }
  firstSource := none
  firstDestination := none

def slot? (scene : Scene) (name : String) : Option (Nat × ImageSlot) := do
  let i ← scene.program.imageIndex? name
  let slot ← scene.env.images[i]?
  return (i, slot)

/-- The raster that gives the scene its size: that of the first destination, else of the first
source.
-/
def leading? (scene : Scene) : Option Raster := do
  match scene.firstDestination, scene.firstSource with
  | some i, _ => (← scene.env.images[i]?).destination
  | none, some i => (← scene.env.images[i]?).source
  | none, none => none

def measured (scene : Scene) : Scene :=
  match scene.leading? with
  | some raster =>
    { scene with
      env := { scene.env with width := raster.bounds.width, height := raster.bounds.height } }
  | none => scene

def withSlot (scene : Scene) (i : Nat) (slot : ImageSlot) : Scene :=
  { scene with env := { scene.env with images := scene.env.images.setIfInBounds i slot } }

def bindSource (scene : Scene) (name : String) (raster : Option Raster)
    : Except ImageFault Scene :=
  match scene.slot? name with
  | none => .error (.unknown name)
  | some (i, slot) =>
    if !slot.role.isSource then .error (.notSource name)
    else
      match raster with
      | none => .error (.noSourceRaster name)
      | some raster =>
        let scene := scene.withSlot i { slot with source := some raster }
        .ok { scene with firstSource := scene.firstSource <|> some i }.measured

def bindDestination (scene : Scene) (name : String) (raster : Option Raster)
    : Except ImageFault Scene :=
  match scene.slot? name with
  | none => .error (.unknown name)
  | some (i, slot) =>
    if !slot.role.isDestination then .error (.notDestination name)
    else
      match raster with
      | none => .error (.noDestinationRaster name)
      | some raster =>
        let scene := scene.withSlot i { slot with destination := some raster }
        .ok { scene with firstDestination := scene.firstDestination <|> some i }.measured

def sources (scene : Scene) : List String :=
  (scene.program.images.filter (·.role.isSource)).map (·.name)

def destinations (scene : Scene) : List String :=
  (scene.program.images.filter (·.role.isDestination)).map (·.name)

def source? (scene : Scene) (name : String) : Option Raster := do
  (← scene.slot? name).2.source

def destination? (scene : Scene) (name : String) : Option Raster := do
  (← scene.slot? name).2.destination

def missing (slot : ImageSlot) : List ImageFault :=
  (if slot.role.isSource && slot.source.isNone then [.sourceUnbound slot.name] else [])
    ++ if slot.role.isDestination && slot.destination.isNone then [.destinationUnbound slot.name]
      else []

def unbound (scene : Scene) : List ImageFault :=
  scene.env.images.toList.flatMap missing

def withOutside (scene : Scene) (v : Sample) : Scene :=
  { scene with env := { scene.env with outside := some v } }

/-- Limits the rounds of loops; no number above zero means no limit. -/
def withLoopLimit (scene : Scene) (limit : Int) : Scene :=
  { scene with env := { scene.env with loopLimit := limit.toNat } }

/-- Carries out an evaluation. Its changes stay when it stops. -/
def run {α : Type} (scene : Scene) (action : EvalM α) : Except Stop α × Scene :=
  match action.run scene.env with
  | .ok a env => (.ok a, { scene with env })
  | .error stop env => (.error stop, { scene with env })

def start (scene : Scene) (fuel : Nat) : Except Stop Unit × Scene :=
  scene.run (scene.program.start fuel)

def evaluate (scene : Scene) (fuel : Nat) (x y band : Int) : Except Stop Unit × Scene :=
  scene.run (scene.program.evaluate fuel x y band)

def unknownImage (name : String) (x y band : Int) : Stop :=
  .error { image := name, x, y, band, fault := .image (.unknown name) }

def read (scene : Scene) (name : String) (x y band : Int) : Except Stop Sample × Scene :=
  match scene.program.imageIndex? name with
  | none => (.error (unknownImage name x y band), scene)
  | some i => scene.run (EvalM.readAt i x y band)

def write (scene : Scene) (name : String) (x y band : Int) (v : Sample)
    : Except Stop Unit × Scene :=
  match scene.program.imageIndex? name with
  | none => (.error (unknownImage name x y band), scene)
  | some i => scene.run (EvalM.writeAt i x y band v)

def render (scene : Scene) : String :=
  s!"Runtime({scene.program.images.length} images, {scene.env.width}x{scene.env.height})"

end Scene

end MapAlgebra
