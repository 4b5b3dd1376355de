import Lustre.Path

/-!
# Files

The program reads files through `Files`, which a monad provides.  A `FileTree`
is a set of files and directories in memory with a current directory; reading
from it follows a path name by name, as a file system does: `..` goes up from a
directory that must exist, and only directories have anything inside.
-/

namespace Lustre

/-- Why a file cannot be read as text. -/
inductive ReadError where
  | notFound | isDirectory | notDirectory | nameTooLong | nulInName | notText
  | other (message : String)
deriving DecidableEq

namespace ReadError

/-- How messages name a failure to read. -/
def message : ReadError → String
  | notFound => "No such file or directory (os error 2)"
  | isDirectory => "Is a directory (os error 21)"
  | notDirectory => "Not a directory (os error 20)"
  | nameTooLong => "File name too long (os error 36)"
  | nulInName => "file name contained an unexpected NUL byte"
  | notText => "stream did not contain valid UTF-8"
  | other text => text

end ReadError

/-- Access to files. -/
class Files (m : Type → Type) where
  /-- The contents of the file that a path names. -/
  readBytes : String → m (Except ReadError ByteArray)
  /-- Whether a path names a file, and not a directory. -/
  isFile : String → m Bool
  /-- The path of the current directory. -/
  currentDir : m String

namespace Files

variable {m : Type → Type} [Monad m] [Files m]

/-- The text of the file that a path names. -/
def readText (path : String) : m (Except ReadError String) := do
  match ← readBytes path with
  | .error e => return .error e
  | .ok bytes =>
      match String.fromUTF8? bytes with
      | some text => return .ok text
      | none => return .error .notText

/-- The first of some paths that names a file. -/
def firstFile? : List String → m (Option String)
  | [] => return none
  | path :: paths => do
      if ← isFile path then return some path else firstFile? paths

end Files

/-! ## Files in memory -/

/-- The names on the way from the root to a file or a directory. -/
abbrev Route := List (List Char)

/-- Files and directories in memory. -/
structure FileTree where
  files : List (Route × ByteArray)
  directories : List Route
  /-- The current directory. -/
  current : Route

namespace FileTree

/-- The names of a path that mean something. -/
def names (path : String) : Route :=
  (Path.split path.toList).filter fun name => !Path.isTrivial name

/-- The path of a route from the root. -/
def pathOf (route : Route) : String := String.ofList ('/' :: Path.unsplit route)

/-- An empty tree. -/
def empty : FileTree := ⟨[], [], []⟩

/-- Adds a file; the directories on its way exist then. -/
def addFile (tree : FileTree) (route : Route) (contents : ByteArray) : FileTree :=
  { tree with files := (route, contents) :: tree.files }

/-- Adds an empty directory. -/
def addDirectory (tree : FileTree) (route : Route) : FileTree :=
  { tree with directories := route :: tree.directories }

/-- The contents of the file at a route. -/
def file? (tree : FileTree) (route : Route) : Option ByteArray :=
  (tree.files.find? fun file => file.1 == route).map Prod.snd

/-- Whether there is a directory at a route: it was added, or something lies inside. -/
def isDirectory (tree : FileTree) (route : Route) : Bool :=
  route == [] || tree.directories.any route.isPrefixOf ||
    tree.files.any fun file => route.isPrefixOf file.1 && route != file.1

/-- Where `names` lead from a directory.  Each name but the last must be that of a directory. -/
def walk (tree : FileTree) (here : Route) : Route → Except ReadError Route
  | [] => .ok here
  | name :: names =>
      if tree.isDirectory here then
        if name = ['.', '.'] then tree.walk here.dropLast names
        else if (String.ofList name).utf8ByteSize > 255 then .error .nameTooLong
        else
          let next := here ++ [name]
          if tree.isDirectory next || (tree.file? next).isSome then tree.walk next names
          else .error .notFound
      else .error .notDirectory

/-- Whether a path can only name a directory, because of how it ends. -/
def wantsDirectory (path : String) : Bool :=
  ((Path.split path.toList).getLast?.getD []) |> Path.isTrivial

/-- The contents of the file that a path names. -/
def read (tree : FileTree) (path : String) : Except ReadError ByteArray :=
  if path.toList.contains '\x00' then .error .nulInName
  else if path = "" then .error .notFound
  else if path.utf8ByteSize ≥ 4096 then .error .nameTooLong
  else
    match tree.walk (if Path.isAbsolute path then [] else tree.current) (names path) with
    | .error e => .error e
    | .ok route =>
        match tree.file? route with
        | some contents => if wantsDirectory path then .error .notDirectory else .ok contents
        | none => .error .isDirectory

end FileTree

/-- Programs that read files from memory. -/
abbrev InMemory := ReaderM FileTree

instance : Files InMemory where
  readBytes path := return (← read).read path
  isFile path := return ((← read).read path).isOk
  currentDir := return FileTree.pathOf (← read).current

end Lustre
