import MapAlgebra.Files
import MapAlgebra.Files.Path

/-! Files as a value: a table of what is at which place, and a folder to work in. -/

namespace MapAlgebra

inductive FileNode where
  | file (contents : Bytes)
  | folder
deriving DecidableEq

/-- A place: the names of the folders from the root on, and the last name. -/
abbrev FilePlace := List String

/-- Files and folders by place. The root is always a folder. -/
structure FileTree where
  nodes : List (FilePlace × FileNode)
  working : FilePlace
deriving DecidableEq

namespace FileTree

def empty : FileTree := { nodes := [], working := [] }

def node? (tree : FileTree) (place : FilePlace) : Option FileNode :=
  if place.isEmpty then some .folder else tree.nodes.lookup place

def put (tree : FileTree) (place : FilePlace) (node : FileNode) : FileTree :=
  { tree with nodes := (place, node) :: tree.nodes.filter (·.1 != place) }

def follow (tree : FileTree)
    : (here : FilePlace) → (parts : List String) → Except FileFault FilePlace
  | here, [] => .ok here
  | here, part :: rest =>
    match tree.node? here with
    | none => .error .notFound
    | some (.file _) => .error .notFolder
    | some .folder =>
      if part = "" || part = "." then follow tree here rest
      else if part = ".." then follow tree here.dropLast rest
      else follow tree (here ++ [part]) rest

def place (tree : FileTree) (path : String) : Except FileFault FilePlace :=
  if path = "" then .error .notFound
  else tree.follow (if Path.isAbsolute path then [] else tree.working) (Path.parts path)

def find (tree : FileTree) (path : String) : Except FileFault FileNode := do
  match tree.node? (← tree.place path) with
  | some node => .ok node
  | none => .error .notFound

def read (tree : FileTree) (path : String) : Except FileError Bytes :=
  match tree.find path with
  | .ok (.file contents) => .ok contents
  | .ok .folder => .error { action := .reading, path, fault := .isFolder }
  | .error fault => .error { action := .opening, path, fault }

def write (tree : FileTree) (path : String) (contents : Bytes) : Except FileError FileTree :=
  match tree.place path with
  | .error fault => .error { action := .opening, path, fault }
  | .ok place =>
    if tree.node? place = some .folder then .error { action := .opening, path, fault := .isFolder }
    else .ok (tree.put place (.file contents))

/-- Makes a folder with those above it, following the parts of its path. A file on the way is
named in the error by the path that leads to it.
-/
def makePath (path : String) : (here : FilePlace) → (parts walked : List String) → FileTree
    → Except FileError FileTree
  | _, [], _, tree => .ok tree
  | here, part :: rest, walked, tree =>
    let walked := walked ++ [part]
    if part = "" || part = "." then makePath path here rest walked tree
    else if part = ".." then makePath path here.dropLast rest walked tree
    else
      let here := here ++ [part]
      match tree.node? here with
      | some .folder => makePath path here rest walked tree
      | some (.file _) =>
        .error { action := .makingFolder, path := "/".intercalate walked, fault := .notFolder }
      | none => makePath path here rest walked (tree.put here .folder)

def make (tree : FileTree) (path : String) : Except FileError FileTree :=
  makePath path (if Path.isAbsolute path then [] else tree.working) (Path.parts path) [] tree

def workingPath (tree : FileTree) : String :=
  "/" ++ "/".intercalate tree.working

end FileTree

def FileTree.settle (change : FileTree → Except FileError FileTree)
    : StateM FileTree (Except FileError Unit) := fun tree =>
  match change tree with
  | .ok tree => (.ok (), tree)
  | .error e => (.error e, tree)

instance : FileSystem (StateM FileTree) where
  readFile path := fun tree => (tree.read path, tree)
  writeFile path contents := FileTree.settle (·.write path contents)
  inspect path := fun tree =>
    ((tree.find path).map (fun _ => ()) |>.mapError fun fault =>
      { action := .inspecting, path, fault }, tree)
  makeFolders path := FileTree.settle (·.make path)
  workingFolder := fun tree => (tree.workingPath, tree)

end MapAlgebra
