import MapAlgebra.Code.Instr
import MapAlgebra.Function
import MapAlgebra.Word

/-! Chunks: the code of one entry point with its tables, and the operations that assemble one by
hand.
-/

namespace MapAlgebra

/-- The place in the script that the code from an offset on comes from. -/
structure SourceMark where
  offset : Nat
  line : Nat
  column : Nat
deriving DecidableEq

/-- The mark of a place; lines are kept in 32 bits and columns in 16. -/
def SourceMark.ofPosition (offset : Nat) (p : Position) : SourceMark :=
  { offset := offset % 2 ^ 32, line := p.line % 2 ^ 32, column := p.column % 2 ^ 16 }

/-- Code with the constants, functions and names it refers to. -/
structure Chunk where
  name : String
  code : Array UInt8
  constants : Array Sample
  functions : Array Function
  /-- The deepest operand stack the code can reach. -/
  maxStack : Int
  varNames : List String
  imageNames : List String
  marks : Array SourceMark

inductive JumpError where
  | jumpTooFar (distance : Int)
  | loopTooLong (length : Int)
deriving DecidableEq

def JumpError.message : JumpError → String
  | jumpTooFar distance => s!"jump of {distance} bytes does not fit in 16 bits"
  | loopTooLong length => s!"loop body of {length} bytes does not fit in 16 bits"

def fitsDistance (distance : Int) : Bool :=
  -32768 ≤ distance && distance ≤ 32767

namespace Chunk

def empty (name : String) : Chunk :=
  { name, code := #[], constants := #[], functions := #[], maxStack := 0, varNames := []
    imageNames := [], marks := #[] }

/-- The place of a constant in a pool: of the first with the same bits, else behind the last. -/
def constantIndex (constants : Array Sample) (v : Sample) : Nat :=
  constants.idxOf v

/-- The place of a function in a table: of the first with the same name, else behind the last. -/
def functionIndex (functions : Array Function) (f : Function) : Nat :=
  (functions.findIdx? (·.name == f.name)).getD functions.size

def withConstant (constants : Array Sample) (v : Sample) : Array Sample :=
  if constantIndex constants v < constants.size then constants else constants.push v

def withFunction (functions : Array Function) (f : Function) : Array Function :=
  if functionIndex functions f < functions.size then functions else functions.push f

def shortConstant? (v : Sample) : Option Instr :=
  if v = .zero then some .constZero else if v = .one then some .constOne else none

/-- Puts a constant into the pool and gives its index, of which only sixteen bits are kept. -/
def addConstant (c : Chunk) (v : Sample) : UInt16 × Chunk :=
  ((constantIndex c.constants v).toUInt16, { c with constants := withConstant c.constants v })

/-- Puts a function into the table and gives its index, of which only sixteen bits are kept. -/
def addFunction (c : Chunk) (f : Function) : UInt16 × Chunk :=
  ((functionIndex c.functions f).toUInt16, { c with functions := withFunction c.functions f })

def append (c : Chunk) (bytes : List UInt8) : Chunk :=
  { c with code := c.code ++ bytes.toArray }

def emitConstant (c : Chunk) (v : Sample) : Chunk :=
  match shortConstant? v with
  | some i => c.append i.encode
  | none =>
    let (index, c) := c.addConstant v
    c.append (Instr.const index).encode

def emitJump (c : Chunk) (op : UInt8) : Chunk :=
  c.append [op, 0xFF, 0xFF]

def emitLoop (c : Chunk) (start : Int) : Except JumpError Chunk :=
  let distance := wrap (start - (c.code.size + 3))
  if distance < -32768 then .error (.loopTooLong (wrap (-distance)))
  else .ok (c.append (Instr.loop distance).encode)

inductive Patch where
  | done (chunk : Chunk)
  | refused (error : JumpError)
  /-- A byte of the operand lies outside of the code; the chunk has those that do not. -/
  | crashed (chunk : Chunk)

def patchTo (c : Chunk) (operand target : Int) : Patch :=
  let distance := wrap (target - wrap (operand + 2))
  if !fitsDistance distance then .refused (.jumpTooFar distance)
  else
    match Instr.distanceWord distance with
    | [high, low] =>
      if operand < 0 ∨ operand.toNat ≥ c.code.size then .crashed c
      else
        let c := { c with code := c.code.setIfInBounds operand.toNat high }
        if operand.toNat + 1 ≥ c.code.size then .crashed c
        else .done { c with code := c.code.setIfInBounds (operand.toNat + 1) low }
    | _ => .crashed c

/-- Fills in the distance from the jump whose operand stands at an offset to the end of the code. -/
def patch (c : Chunk) (operand : Int) : Patch :=
  c.patchTo operand c.code.size

/-- Appends a mark unless it repeats the line and column of the last one. -/
def withMark (marks : Array SourceMark) (mark : SourceMark) : Array SourceMark :=
  match marks.back? with
  | some last =>
    if last.line = mark.line ∧ last.column = mark.column then marks else marks.push mark
  | none => marks.push mark

def addMark (c : Chunk) (mark : SourceMark) : Chunk :=
  { c with marks := withMark c.marks mark }

/-- The mark of the code at an offset: the last at or before it. -/
def markAt? (c : Chunk) (offset : Nat) : Option SourceMark :=
  c.marks.findRev? (·.offset ≤ offset)

end Chunk

end MapAlgebra
