import Lustre.FileTree
import Lustre.Parse
import Lustre.Toml.Document

/-!
# Configuration

Settings come from a TOML file with a section for the reader and one for
included files.  Only known keys with values of the right type are accepted.  A
section may also be given as an array of its values in the order of their keys.
-/

namespace Lustre

/-- The settings of a run. -/
structure Config where
  parse : ParseOptions := {}
  /-- The number of files read at a time; `none` leaves it to the machine. -/
  jobs : Option Nat := none
  /-- The directories that included files are looked up in. -/
  includeDirs : List String := []
deriving DecidableEq

/-- Why settings cannot be had from a file. -/
inductive ConfigError where
  | unreadable (path : String) (error : ReadError)
  | malformed (path : String)
  | zeroMaxErrors (path : String)
deriving DecidableEq

namespace ConfigError

/-- What a message says of an error. -/
def message : ConfigError → String
  | unreadable path error => s!"cannot read {path}: {error.message}"
  | malformed path => s!"invalid {path}: TOML parse error"
  | zeroMaxErrors path => s!"invalid {path}: `max_errors` must be at least 1"

end ConfigError

namespace Config

open Toml (Value Table Entry)

/-! ## Values of the right type -/

/-- A count. -/
def count? : Value → Option Nat
  | .integer (.ofNat n) => some n
  | _ => none

/-- A truth value. -/
def flag? : Value → Option Bool
  | .boolean value => some value
  | _ => none

/-- A text. -/
def text? : Value → Option String
  | .string text => some text
  | _ => none

/-- A list of texts. -/
def texts? : Value → Option (List String)
  | .array items => items.mapM text?
  | _ => none

/-! ## Sections -/

/-- What a file says about the reader. -/
structure ReaderSection where
  maxErrors : Option Nat := none
  keepTrivia : Option Bool := none
  jobs : Option Nat := none
deriving DecidableEq

/-- Adds one setting of the reader. -/
def readerEntry (done : ReaderSection) (entry : Entry) : Option ReaderSection :=
  match entry.key with
  | "max_errors" => (count? entry.value).map fun n => { done with maxErrors := some n }
  | "keep_trivia" => (flag? entry.value).map fun b => { done with keepTrivia := some b }
  | "jobs" => (count? entry.value).map fun n => { done with jobs := some n }
  | _ => none

/-- The section of the reader; as an array it must be complete. -/
def readerSection : Value → Option ReaderSection
  | .table table => table.entries.foldlM readerEntry {}
  | .array (maxErrors :: keepTrivia :: jobs :: _) => do
      return ⟨some (← count? maxErrors), some (← flag? keepTrivia), some (← count? jobs)⟩
  | _ => none

/-- The directories that the section of included files lists. -/
def includeSection : Value → Option (List String)
  | .table table =>
      table.entries.foldlM (fun _ entry =>
        if entry.key = "search_path" then texts? entry.value else none) []
  | .array (dirs :: _) => texts? dirs
  | .array [] => some []
  | _ => none

/-- What a file says. -/
structure Sections where
  reader : ReaderSection := {}
  includeDirs : List String := []
deriving DecidableEq

/-- Adds one section. -/
def sectionEntry (done : Sections) (entry : Entry) : Option Sections :=
  match entry.key with
  | "parser" => (readerSection entry.value).map fun reader => { done with reader := reader }
  | "include" => (includeSection entry.value).map fun dirs => { done with includeDirs := dirs }
  | _ => none

/-- What the text of a file says. -/
def sections (text : String) : Option Sections := do
  (← Toml.document text).entries.foldlM sectionEntry {}

/-! ## Settings -/

/-- The settings in the text of the file `path`.  Directories are seen from that of the file, and
zero jobs leave their number to the machine. -/
def ofText (path text : String) : Except ConfigError Config :=
  match sections text with
  | none => .error (.malformed path)
  | some found =>
      let defaults : ParseOptions := {}
      let maxErrors := found.reader.maxErrors.getD defaults.maxErrors
      if maxErrors = 0 then .error (.zeroMaxErrors path)
      else
        .ok {
          parse := ⟨maxErrors, found.reader.keepTrivia.getD defaults.keepTrivia⟩
          jobs := found.reader.jobs.filter (· > 0)
          includeDirs := found.includeDirs.map (Path.join (Path.parentOrHere path)) }

/-- The name of files with settings. -/
def fileName : String := "lv6.toml"

variable {m : Type → Type} [Monad m] [Files m]

/-- The settings in a file. -/
def load (path : String) : m (Except ConfigError Config) := do
  match ← Files.readText path with
  | .ok text => return ofText path text
  | .error e => return .error (.unreadable path e)

/-- The settings in the nearest file at or above a directory, or the defaults if there is none. -/
def discover (dir : String) : m (Except ConfigError Config) := do
  match ← Files.firstFile? ((Path.selfAndAncestors dir).map (Path.join · fileName)) with
  | some path => load path
  | none => return .ok {}

end Config

end Lustre
