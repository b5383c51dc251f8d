/-!
# Files

How the command line sees files: `FileAccess` is what it does with them, and a `FileTree` is a tree of files and
directories in memory that offers it.  Paths are followed as the system does: empty components and `.` stay, `..` goes
up, and every other component but the last has to be a directory.
-/

namespace PL0

/-- Why a file cannot be opened. -/
inductive FileFault where
  | notFound
  | notADirectory
  | isADirectory
  | nameTooLong
  | other (text : String)
deriving DecidableEq

def FileFault.message : FileFault → String
  | .notFound => "No such file or directory (os error 2)"
  | .notADirectory => "Not a directory (os error 20)"
  | .isADirectory => "Is a directory (os error 21)"
  | .nameTooLong => "File name too long (os error 36)"
  | .other text => text

/-- What a command does with files. -/
class FileAccess (m : Type → Type) where
  /-- The content of the file at a path. -/
  read : String → m (Except FileFault ByteArray)
  /-- Gives the file at a path a content, whether there was one or not. -/
  write : String → ByteArray → m (Except FileFault Unit)

/-- The names from the root to a file or directory. -/
abbrev Location := List String

/-- Files and directories.  The root is a directory whether it is listed or not. -/
structure FileTree where
  files : List (Location × ByteArray)
  directories : List Location
  workingDirectory : Location

namespace FileTree

/-- The largest number of bytes of a name. -/
def nameLimit : Nat := 255

/-- The largest number of bytes of a path. -/
def pathLimit : Nat := 4095

def isDirectory (tree : FileTree) (location : Location) : Bool :=
  location.isEmpty || tree.directories.contains location

def content? (tree : FileTree) (location : Location) : Option ByteArray :=
  tree.files.lookup location

/-- Goes from a directory to a component of a path, which has to be a directory. -/
def step (tree : FileTree) (location : Location) (name : String) : Except FileFault Location :=
  let next := location ++ [name]
  if name = "" || name = "." then .ok location
  else if name = ".." then .ok location.dropLast
  else if nameLimit < name.utf8ByteSize then .error .nameTooLong
  else if tree.isDirectory next then .ok next
  else if (tree.content? next).isSome then .error .notADirectory
  else .error .notFound

/-- The directory at the end of the components of a path. -/
def descend (tree : FileTree) (location : Location) (names : List String) : Except FileFault Location :=
  names.foldlM tree.step location

/-- The components of a path. -/
def components (path : String) : List String :=
  (path.toList.splitOnP (· = '/')).map String.ofList

/-- The directory where a path starts. -/
def base (tree : FileTree) (path : String) : Location :=
  if path.toList.head? = some '/' then [] else tree.workingDirectory

/-- Reads a file. -/
def read (tree : FileTree) (path : String) : Except FileFault ByteArray := do
  if pathLimit < path.utf8ByteSize then throw .nameTooLong
  let names := components path
  let directory ← tree.descend (tree.base path) names.dropLast
  let name := names.getLastD ""
  match tree.content? (directory ++ [name]) with
  | some content => return content
  | none =>
    let _ ← tree.step directory name
    throw .isADirectory

/-- Where a file is to be written.  A path that ends in a slash is one of a directory, whatever there is. -/
def target (tree : FileTree) (path : String) : Except FileFault Location := do
  if pathLimit < path.utf8ByteSize then throw .nameTooLong
  let names := ((components path).reverse.dropWhile (· = "")).reverse
  let directory ← tree.descend (tree.base path) names.dropLast
  if path.toList.getLast? = some '/' then throw .isADirectory
  let name := names.getLastD ""
  if (tree.content? (directory ++ [name])).isSome then return directory ++ [name]
  match tree.step directory name with
  | .ok _ => throw .isADirectory
  | .error .notFound => return directory ++ [name]
  | .error fault => throw fault

/-- The tree with a file replaced or added. -/
def insert (tree : FileTree) (location : Location) (content : ByteArray) : FileTree :=
  { tree with files := (location, content) :: tree.files.filter (·.1 ≠ location) }

end FileTree

instance : FileAccess (StateM FileTree) where
  read path := return (← get).read path
  write path content := do
    match (← get).target path with
    | .error fault => return .error fault
    | .ok location =>
      modify (·.insert location content)
      return .ok ()

end PL0
