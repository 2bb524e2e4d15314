import MapAlgebra.Code.Chunk
import MapAlgebra.Sample.Decimal

/-! Listings of chunks: the tables, then one line for each instruction. -/

namespace MapAlgebra.Chunk

def noteFor (note : Option String) : String :=
  match note with
  | some text => " ; " ++ text
  | none => ""

def renderInstr (c : Chunk) (offset : Nat) (i : Instr) : String :=
  let name := i.opcode.name
  let jumpTo (distance : Int) : String :=
    name ++ " " ++ Text.signed distance ++ " ; -> " ++ Text.hexUpperInt 4 (offset + 3 + distance)
  match i with
  | .const n => s!"{name} {n}" ++ noteFor (c.constants[n.toNat]?.map Sample.render)
  | .loadVar n | .storeVar n => s!"{name} {n}" ++ noteFor c.varNames[n.toNat]?
  | .readImage n | .writeImage n => s!"{name} {n}" ++ noteFor c.imageNames[n.toNat]?
  | .jump d | .jumpTrue d | .jumpFalse d | .loop d => jumpTo d
  | .call f argc => s!"{name} {f} {argc}" ++ noteFor (c.functions[f.toNat]?.map (·.name))
  | _ => name

/-- What stands at an offset and how many bytes it takes; bytes that no instruction covers take the
rest.
-/
def renderAt (c : Chunk) (offset : Nat) : String × Nat :=
  match Instr.decodeAt c.code offset with
  | some (.instr i) => (c.renderInstr offset i, i.length)
  | some (.truncated op) => (op.name ++ " <truncated>", c.code.size - offset)
  | some (.unknown byte) => (Opcode.nameOfByte byte, 1)
  | none => ("", 1)

def renderLine (c : Chunk) (offset : Nat) (text : String) : String :=
  let place := Text.hexUpper 4 offset ++ "  "
  match c.markAt? (offset % 2 ^ 32) with
  | some mark =>
    if mark.line > 0 then
      place ++ Text.padRight ' ' 30 text ++ s!" ; line {mark.line}:{mark.column}\n"
    else place ++ text ++ "\n"
  | none => place ++ text ++ "\n"

/-- The lines from an offset on. Every line takes a byte at least, so the size of the code bounds
their number.
-/
def renderFrom (c : Chunk) : (fuel offset : Nat) → List String
  | 0, _ => []
  | fuel + 1, offset =>
    if offset < c.code.size then
      let (text, length) := c.renderAt offset
      c.renderLine offset text :: c.renderFrom fuel (offset + length)
    else []

def renderTable (title : String) (rows : List String) : String :=
  if rows.isEmpty then ""
  else
    let lines := rows.mapIdx fun i row =>
      ";   [" ++ Text.padLeft ' ' 3 (toString i) ++ "] " ++ row ++ "\n"
    s!"; {title}:\n" ++ String.join lines ++ "\n"

def renderNames (title : String) (names : List String) : String :=
  if names.isEmpty then ""
  else s!"; {title} ({names.length}): " ++ ", ".intercalate names ++ "\n"

def render (c : Chunk) : String :=
  (if c.name = "" then "" else s!"; === {c.name} ===\n")
    ++ s!"; {c.code.size} bytes, max stack {c.maxStack}\n"
    ++ renderNames "Variables" c.varNames
    ++ renderNames "Images" c.imageNames
    ++ "\n"
    ++ renderTable "Constants" (c.constants.toList.map Sample.render)
    ++ renderTable "Functions" (c.functions.toList.map fun f => s!"{f.name}/{f.arity}")
    ++ "; Code:\n"
    ++ String.join (c.renderFrom c.code.size 0)

end MapAlgebra.Chunk
