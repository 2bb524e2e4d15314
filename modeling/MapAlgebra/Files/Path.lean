/-! Paths: parts between slashes. Cleaning a path drops what does not change where it leads. -/

namespace MapAlgebra.Path

def parts (path : String) : List String :=
  (path.toList.splitOn '/').map String.ofList

def isAbsolute (path : String) : Bool :=
  path.toList.head? == some '/'

/-- Adds a part to a clean path, whose parts are listed from the last. A step up takes a part
back.
-/
def step (rooted : Bool) (above : List String) (part : String) : List String :=
  if part = "" || part = "." then above
  else if part = ".." then
    match above with
    | [] => if rooted then [] else [part]
    | last :: more => if last = ".." then part :: above else more
  else part :: above

/-- The shortest path that leads to the same place, whatever the folders on the way are. -/
def clean (path : String) : String :=
  let rooted := isAbsolute path
  let joined := "/".intercalate ((parts path).foldl (step rooted) []).reverse
  if rooted then "/" ++ joined else if joined = "" then "." else joined

def join (folder path : String) : String :=
  if folder = "" then (if path = "" then "" else clean path)
  else if path = "" then clean folder
  else clean (folder ++ "/" ++ path)

def base (path : String) : List Char :=
  (path.toList.reverse.takeWhile (· != '/')).reverse

def folder (path : String) : String :=
  clean (String.ofList (path.toList.take (path.length - (base path).length)))

def extension (path : String) : String :=
  let reversed := (base path).reverse
  let behind := reversed.takeWhile (· != '.')
  if behind.length < reversed.length then String.ofList ('.' :: behind.reverse) else ""

def absolute (workingFolder path : String) : String :=
  if isAbsolute path then clean path else join workingFolder path

end MapAlgebra.Path
