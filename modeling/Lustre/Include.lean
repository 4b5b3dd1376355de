import Lustre.Source

/-!
# Included files

A program names the files that it includes.  Such a file is looked up next to
the file that names it, then in the directories of a search path; the first file
found is the one meant.  Reading a program does not read the files it includes.
-/

namespace Lustre

/-- An included file that was not found. -/
structure IncludeNotFound where
  /-- The path as the program names it. -/
  requested : String
  /-- The file of the program. -/
  origin : String
  /-- The directories it was looked up in. -/
  searched : List String
deriving DecidableEq

namespace IncludeNotFound

/-- What a message says of the file. -/
def message (error : IncludeNotFound) : String :=
  s!"include \"{error.requested}\" from {error.origin} not found " ++
    s!"(searched {error.searched.length} directories)"

end IncludeNotFound

namespace Include

variable {m : Type → Type} [Monad m] [Files m]

/-- The directories that the files included by `origin` are looked up in. -/
def directories (searchPath : List String) (origin : String) : List String :=
  Path.parentOrHere origin :: searchPath

/-- The file that `origin` means by `requested`.  An absolute path means itself. -/
def resolve (searchPath : List String) (origin requested : String) :
    m (Except IncludeNotFound String) := do
  let searched :=
    if Path.isAbsolute requested then [] else directories searchPath origin
  let places :=
    if Path.isAbsolute requested then [requested] else searched.map (Path.join · requested)
  match ← Files.firstFile? places with
  | some path => return .ok path
  | none => return .error ⟨requested, origin, searched⟩

end Include

namespace Source

variable {m : Type → Type} [Monad m] [Files m]

/-- The paths that a program includes, as it names them. -/
def includes (source : Source) : List String :=
  source.parsed.program.includes.map fun directive => directive.value

/-- The files that a program includes. -/
def resolveIncludes (searchPath : List String) (source : Source) :
    m (List (String × Except IncludeNotFound String)) :=
  source.includes.mapM fun requested => do
    return (requested, ← Include.resolve searchPath source.path requested)

end Source

end Lustre
