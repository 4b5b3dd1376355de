import Lustre.FileTree
import Lustre.Parse
import Lustre.Pool

/-!
# Programs in files

A file is read and parsed on its own.  Several files are shared among workers;
the answers come in the order of the paths.
-/

namespace Lustre

/-- A file that could not be read. -/
structure Unreadable where
  path : String
  error : ReadError
deriving DecidableEq

namespace Unreadable

/-- What a message says of the file. -/
def message (file : Unreadable) : String := s!"cannot read {file.path}: {file.error.message}"

end Unreadable

/-- A file that was read. -/
structure Source where
  path : String
  text : String
  parsed : Parsed

namespace Source

variable {m : Type → Type} [Monad m] [Files m]

/-- What a file holds, given what reading it gave. -/
def ofText (options : ParseOptions) (path : String) :
    Except ReadError String → Except Unreadable Source
  | .ok text => .ok ⟨path, text, Lustre.parse text options⟩
  | .error error => .error ⟨path, error⟩

/-- Reads and parses a file. -/
def load (options : ParseOptions) (path : String) : m (Except Unreadable Source) := do
  return ofText options path (← Files.readText path)

/-- Reads and parses files, at most `jobs` at a time. -/
def loadAll (options : ParseOptions) (jobs : Nat) (paths : List String) :
    m (List (Except Unreadable Source)) :=
  Pool.share jobs (load options) paths

end Source

end Lustre
