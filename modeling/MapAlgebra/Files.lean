import MapAlgebra.Text.Scalar

/-! What programs do with files. -/

namespace MapAlgebra

inductive FileFault where
  | notFound
  | notFolder
  | isFolder
  | other (words : String)
deriving DecidableEq

def FileFault.message : FileFault → String
  | notFound => "no such file or directory"
  | notFolder => "not a directory"
  | isFolder => "is a directory"
  | other words => words

inductive FileAction where
  | opening
  | reading
  | inspecting
  | makingFolder
deriving DecidableEq

def FileAction.word : FileAction → String
  | opening => "open"
  | reading => "read"
  | inspecting => "stat"
  | makingFolder => "mkdir"

structure FileError where
  action : FileAction
  path : String
  fault : FileFault
deriving DecidableEq

def FileError.message (e : FileError) : String :=
  s!"{e.action.word} {e.path}: {e.fault.message}"

class FileSystem (m : Type → Type) where
  readFile : String → m (Except FileError Bytes)
  writeFile : String → Bytes → m (Except FileError Unit)
  /-- Tells whether there is something at a path. -/
  inspect : String → m (Except FileError Unit)
  /-- Makes a folder, with those above it. -/
  makeFolders : String → m (Except FileError Unit)
  workingFolder : m String

export FileSystem (readFile writeFile inspect makeFolders workingFolder)

end MapAlgebra
