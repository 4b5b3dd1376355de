/-!
# Paths

A path is text: names separated by slashes, absolute if it begins with one.
Paths are never normalised, so joining and taking the parent keep what was
written.  Empty names and dots mean nothing, except for a dot at the very
beginning.
-/

namespace Lustre

namespace Path

/-- Whether a path does not depend on the current directory. -/
def isAbsolute (path : String) : Bool := path.toList.head? == some '/'

/-- The path `path` as seen from the directory `dir`. -/
def join (dir path : String) : String :=
  if isAbsolute path ∨ dir = "" then path
  else if dir.toList.getLast? = some '/' then dir ++ path
  else dir ++ "/" ++ path

/-- Cuts a text at every slash. -/
def split (text : List Char) : List (List Char) :=
  text.foldr (fun c names =>
    match c, names with
    | '/', names => [] :: names
    | c, name :: names => (c :: name) :: names
    | c, [] => [[c]]) [[]]

/-- Whether a name in the middle of a path means nothing. -/
def isTrivial (name : List Char) : Bool := name == [] || name == ['.']

/-- Names without those at the end that mean nothing. -/
def trimEnd (names : List (List Char)) : List (List Char) :=
  (names.reverse.dropWhile isTrivial).reverse

/-- Names with slashes between. -/
def unsplit (names : List (List Char)) : List Char := ['/'].intercalate names

/-- What a path begins with, and the rest: a slash, or a dot alone before the first slash. -/
def splitRoot (path : List Char) : List Char × List Char :=
  match path with
  | '/' :: rest => (['/'], rest)
  | ['.'] => (['.'], [])
  | '.' :: '/' :: rest => (['.'], '/' :: rest)
  | path => ([], path)

/-- The path without its last name; none for an empty path and for a root. -/
def parent? (path : String) : Option String :=
  let (root, rest) := splitRoot path.toList
  match (trimEnd (split rest)).reverse with
  | _ :: names => some (String.ofList (root ++ unsplit (trimEnd names.reverse)))
  | [] => if root = ['.'] then some "" else none

/-- The parent of a path, or the current directory if there is none. -/
def parentOrHere (path : String) : String := (parent? path).getD "."

/-- A path, its parent, the parent of that, and so on, at most `count` of them. -/
def ancestors (path : String) : Nat → List String
  | 0 => []
  | count + 1 =>
      path ::
        match parent? path with
        | some parent => ancestors parent count
        | none => []

/-- A path and all its ancestors: each is shorter than the one before. -/
def selfAndAncestors (path : String) : List String := ancestors path (path.length + 1)

end Path

end Lustre
