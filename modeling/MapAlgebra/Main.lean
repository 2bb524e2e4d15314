import MapAlgebra.Command
import Std.Time.DateTime.Timestamp

/-! The program: command lines with the files, the clock and the dice of the machine. -/

namespace MapAlgebra.Main

def faultOf : IO.Error → FileFault
  | .noFileOrDirectory .. => .notFound
  | .inappropriateType _ code _ => if code = 21 then .isFolder else .notFolder
  | .permissionDenied .. => .other "permission denied"
  | e => .other (toString e)

def attempted {α : Type} (action : FileAction) (path : String) (step : IO α)
    : IO (Except FileError α) := do
  try return .ok (← step)
  catch e => return .error { action, path, fault := faultOf e }

def contents (path : String) : IO (Except FileError Bytes) := do
  match ← attempted .opening path (IO.FS.Handle.mk path .read) with
  | .error e => return .error e
  | .ok handle =>
    attempted .reading path (do return (← handle.readBinToEnd).toList)

instance : FileSystem IO where
  readFile := contents
  writeFile path bytes :=
    attempted .opening path (IO.FS.writeBinFile path (ByteArray.mk bytes.toArray))
  inspect path := attempted .inspecting path (discard (IO.FS.Handle.mk path .read))
  makeFolders path := attempted .makingFolder path (IO.FS.createDirAll path)
  workingFolder := do return (← IO.currentDir).toString

/-- A job identity at random. Six of its bits say that it is one. -/
def randomId : IO JobId := do
  let bytes := (← IO.getRandomBytes 16).toList
  let marked := bytes.mapIdx fun i b =>
    if i = 6 then (b &&& 0x0F) ||| 0x40 else if i = 8 then (b &&& 0x3F) ||| 0x80 else b
  return { bytes := marked }

end MapAlgebra.Main

open MapAlgebra in
def main (line : List String) : IO UInt32 := do
  let now ← Std.Time.Timestamp.now
  let occasion : Occasion := {
    id := ← Main.randomId
    time := now.toNanosecondsSinceUnixEpoch.val
    signal := fun _ => none
    fuel := 2 ^ 62 }
  let outcome ← Command.execute occasion line
  IO.print outcome.stdout
  IO.eprint outcome.stderr
  return outcome.exit.toUInt32
