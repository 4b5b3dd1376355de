/-!
# Commands

What the program can be asked for: to parse files and print their trees, to
check files, to list the tokens of a file, or to find the files that a file
includes.
-/

namespace Lustre

/-- How trees are printed. -/
inductive Format where
  /-- As the text of a program. -/
  | pretty
  /-- As JSON, with the diagnostics. -/
  | json
  /-- As a dump that shows every name. -/
  | debug
deriving DecidableEq

namespace Format

/-- The format that a word names. -/
def ofWord? : String → Option Format
  | "pretty" => some pretty
  | "json" => some json
  | "debug" => some debug
  | _ => none

end Format

/-- What to do. -/
inductive Command where
  | parse (files : List String) (format : Format) (jobs : Option Nat)
  | check (files : List String) (jobs : Option Nat)
  | tokens (file : String) (trivia : Bool)
  | includes (file : String) (directories : List String)
deriving DecidableEq

/-- What to do, and with what settings. -/
structure Invocation where
  /-- The file with the settings; the nearest one by default. -/
  config : Option String := none
  /-- The number of diagnostics per file at which reading stops. -/
  maxErrors : Option Nat := none
  command : Command
deriving DecidableEq

/-- What some arguments ask for. -/
inductive Request where
  | run (invocation : Invocation)
  | version
  /-- The arguments make no sense. -/
  | misused
deriving DecidableEq

end Lustre
