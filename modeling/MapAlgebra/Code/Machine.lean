import MapAlgebra.Code.Chunk
import MapAlgebra.Eval.Env
import MapAlgebra.Eval.Operator

/-! The stack machine. It keeps its operand stack from run to run and makes a new one only when
a chunk needs a deeper one. Reaching outside of the stack, the code or a table is a crash.
-/

namespace MapAlgebra

namespace Machine

/-- Where the machine stands: the next instruction and the height of the stack. -/
structure Frame where
  ip : Int
  sp : Int
deriving DecidableEq

def peek (i : Int) : EvalM Sample := do
  if 0 ≤ i then EvalM.orCrash (← get).stack[i.toNat]? else throw .crash

def poke (i : Int) (v : Sample) : EvalM Unit := do
  if 0 ≤ i ∧ i.toNat < (← get).stack.size then
    modify fun env => { env with stack := env.stack.setIfInBounds i.toNat v }
  else throw .crash

def push (f : Frame) (v : Sample) : EvalM Frame := do
  poke f.sp v
  return { f with sp := f.sp + 1 }

def replaceTop (f : Frame) (change : Sample → Sample) : EvalM Frame := do
  let v ← peek (f.sp - 1)
  poke (f.sp - 1) (change v)
  return f

def window (low high : Int) : EvalM (List Sample) := do
  let env ← get
  if 0 ≤ low ∧ low ≤ high ∧ high ≤ env.stack.size then
    return (env.stack.extract low.toNat high.toNat).toList
  else throw .crash

/-- Jumps when the value on top, which is taken off, has the given truth. -/
def jumpIf (truth : Bool) (distance : Int) (f : Frame) : EvalM Frame := do
  let v ← peek (f.sp - 1)
  let f := { f with sp := f.sp - 1 }
  return if v.truthy = truth then { f with ip := f.ip + distance } else f

/-- Carries out one instruction, for a frame that already stands behind it. Nothing is left to do
after the last one.
-/
def step (chunk : Chunk) (f : Frame) : Instr → EvalM (Option Frame)
  | .nop => return f
  | .pop => return some { f with sp := f.sp - 1 }
  | .dup => do
    let v ← peek (f.sp - 1)
    push f v
  | .const n => do
    let v ← EvalM.orCrash chunk.constants[n.toNat]?
    push f v
  | .constZero => push f .zero
  | .constOne => push f .one
  | .loadVar slot => do
    let v ← EvalM.readVar slot.toNat
    push f v
  | .storeVar slot => do
    let v ← peek (f.sp - 1)
    EvalM.writeVar slot.toNat v
    return some { f with sp := f.sp - 1 }
  | .readImage i => do
    let v ← EvalM.readImage i.toNat
    push f v
  | .writeImage i => do
    let v ← peek (f.sp - 1)
    EvalM.writeImage i.toNat v
    return some { f with sp := f.sp - 1 }
  | .builtin which => do
    let v ← EvalM.builtin which
    push f v
  | .arith op => do
    let b ← peek (f.sp - 1)
    replaceTop { f with sp := f.sp - 1 } fun a => op.apply a b
  | .neg => replaceTop f Sample.neg
  | .not => replaceTop f fun v => .ofBool (!v.truthy)
  | .truthy => replaceTop f fun v => .ofBool v.truthy
  | .jump d => return some { f with ip := f.ip + d }
  | .jumpTrue d => jumpIf true d f
  | .jumpFalse d => jumpIf false d f
  | .loop d => do
    EvalM.tick
    return some { f with ip := f.ip + d }
  | .call n argc => do
    let function ← EvalM.orCrash chunk.functions[n.toNat]?
    let base := f.sp - argc.toNat
    let args ← window base f.sp
    let v ← EvalM.call function args
    push { f with sp := base } v
  | .finish => return none

def runFrom (chunk : Chunk) : (fuel : Nat) → Frame → EvalM Unit
  | 0, _ => throw .unfinished
  | fuel + 1, f => do
    if f.ip < 0 then throw .crash
    match Instr.decodeAt chunk.code f.ip.toNat with
    | none => pure ()
    | some (.instr i) =>
      match ← step chunk { f with ip := f.ip + i.length } i with
      | some f => runFrom chunk fuel f
      | none => pure ()
    | some (.truncated _) => throw .crash
    | some (.unknown byte) => EvalM.fault "" (.unknownOpcode byte f.ip.toNat chunk.name)

def reserve (depth : Int) : EvalM Unit :=
  modify fun env =>
    if env.stack.size < depth then { env with stack := Array.replicate depth.toNat .zero } else env

def run (chunk : Chunk) (fuel : Nat) : EvalM Unit := do
  reserve chunk.maxStack
  runFrom chunk fuel { ip := 0, sp := 0 }

end Machine

end MapAlgebra
