import Lustre.Command.Arguments
import Lustre.Config
import Lustre.Dump
import Lustre.Include
import Lustre.Json
import Lustre.Printer.Program
import Lustre.Tree.Datum

/-!
# Outcomes

What running a command prints, and its exit code: 0 if all is well, 1 if
something is wrong with a program, 2 if a file could not be read or the settings
or arguments make no sense.
-/

namespace Lustre

/-- Something to tell the user apart from the output. -/
inductive Report where
  /-- A line of text. -/
  | line (text : String)
  /-- What is wrong with the text of a file. -/
  | diagnostics (path text : String) (found : List Diagnostic)

namespace Report

/-- A line about a failure. -/
def error (message : String) : Report := line s!"error: {message}"

end Report

/-- What running a command gives. -/
structure Outcome where
  code : Nat
  output : String := ""
  reports : List Report := []

/-! ## Several files -/

/-- The result of reading a file. -/
abbrev Loaded := Except Unreadable Source

namespace Loaded

/-- What there is to tell about a file. -/
def reports : Loaded → List Report
  | .ok source =>
      if source.parsed.hasErrors then
        [.diagnostics source.path source.text source.parsed.diagnostics]
      else []
  | .error file => [.error file.message]

/-- The file, if it was read. -/
def source? : Loaded → Option Source
  | .ok source => some source
  | .error _ => none

/-- The exit code after one more file: a file with diagnostics never lowers it, and a file that
was not read sets it. -/
def codeAfter (code : Nat) : Loaded → Nat
  | .ok source => if source.parsed.hasErrors then max code 1 else code
  | .error _ => 2

/-- The exit code for several files. -/
def worstCode (files : List Loaded) : Nat := files.foldl codeAfter 0

end Loaded

namespace Source

/-- A file with its tree and diagnostics as JSON. -/
def json (source : Source) : Json :=
  .object [⟨"path", .string source.path⟩, ⟨"ast", source.parsed.program.datum.json⟩,
    ⟨"diagnostics", .array (source.parsed.diagnostics.map Diagnostic.json)⟩]

end Source

namespace Format

/-- The trees of some files in a format. -/
def print (sources : List Source) : Format → String
  | pretty => String.join (sources.map fun source => source.parsed.program.print)
  | debug => String.join (sources.map fun source => source.parsed.program.datum.dump ++ "\n")
  | json => (Json.array (sources.map Source.json)).text ++ "\n"

end Format

namespace Outcome

/-- A command that fails with a message. -/
def failure (message : String) : Outcome := ⟨2, "", [.error message]⟩

/-- The outcome of parsing files. -/
def ofParse (format : Format) (files : List Loaded) : Outcome :=
  ⟨Loaded.worstCode files, format.print (files.filterMap Loaded.source?),
    files.flatMap Loaded.reports⟩

/-- The outcome of checking files. -/
def ofCheck (files : List Loaded) : Outcome :=
  let sources := files.filterMap Loaded.source?
  let faulty := sources.filter fun source => source.parsed.hasErrors
  let summary := s!"checked {sources.length} file(s), {faulty.length} with errors"
  ⟨Loaded.worstCode files, "", files.flatMap Loaded.reports ++ [.line summary]⟩

/-! ## Tokens -/

/-- A line on a word of a text: its position, its kind and the word itself. -/
def wordLine (index : LineIndex) (text label : String) (span : Span) : String :=
  let position := index.position span.start
  s!"{position.line.toNat}:{position.column.toNat}\t{label}\t{Text.quote (span.slice text)}\n"

/-- Lines on what stands between tokens. -/
def fillerLines (index : LineIndex) (text : String) (fillers : List Filler) : String :=
  String.join (fillers.map fun filler => wordLine index text filler.trivia.label filler.span)

/-- The list of the tokens of a text, with what stands between them if `trivia` is set. -/
def tokenList (trivia : Bool) (text : String) (lexed : Lexed) : String :=
  let index := LineIndex.ofText text
  let fillers (found : List Filler) : String :=
    if trivia then fillerLines index text found else ""
  let lines := (lexed.tokens.zip lexed.leading).map fun (token, leading) =>
    fillers leading ++ wordLine index text token.kind.label token.span
  String.join lines ++ fillers lexed.trailing

/-- The outcome of listing the tokens of a file. -/
def ofTokens (path text : String) (trivia : Bool) : Outcome :=
  let lexed := Lexed.ofText text
  let output := tokenList trivia text lexed
  match lexed.diagnostics with
  | [] => ⟨0, output, []⟩
  | found => ⟨1, output, [.diagnostics path text found]⟩

/-! ## Includes -/

/-- A line on an included file that was found. -/
def includeLine? (requested : String) : Except IncludeNotFound String → Option String
  | .ok path => some s!"{requested}\t{path}\n"
  | .error _ => none

/-- What there is to tell about an included file that was not found. -/
def includeReport? : Except IncludeNotFound String → Option Report
  | .ok _ => none
  | .error error => some (.error error.message)

/-- The outcome of looking up included files. -/
def ofIncludes (found : List (String × Except IncludeNotFound String)) : Outcome :=
  let lines := found.filterMap fun (requested, result) => includeLine? requested result
  let reports := found.filterMap fun (_, result) => includeReport? result
  ⟨if reports.isEmpty then 0 else 1, String.join lines, reports⟩

end Outcome

/-! ## Running commands -/

variable {m : Type → Type} [Monad m] [Files m]

namespace Command

/-- The number of files to read at a time, if there is no other limit: all of them. -/
def jobsFor (files : List String) (jobs : Option Nat) : Nat := jobs.getD files.length

/-- Runs a command with some settings. -/
def run (config : Config) : Command → m Outcome
  | parse files format jobs => do
      let limit := jobsFor files (jobs <|> config.jobs)
      return Outcome.ofParse format (← Source.loadAll config.parse limit files)
  | check files jobs => do
      let limit := jobsFor files (jobs <|> config.jobs)
      return Outcome.ofCheck (← Source.loadAll config.parse limit files)
  | tokens file trivia => do
      match ← Files.readText file with
      | .ok text => return Outcome.ofTokens file text trivia
      | .error error => return Outcome.failure (Unreadable.message ⟨file, error⟩)
  | includes file directories => do
      match ← Source.load config.parse file with
      | .ok source =>
          return Outcome.ofIncludes
            (← source.resolveIncludes (directories ++ config.includeDirs))
      | .error file => return Outcome.failure file.message

end Command

namespace Invocation

/-- The settings from a file: the one named, or else the nearest one. -/
def loadConfig (invocation : Invocation) : m (Except ConfigError Config) := do
  match invocation.config with
  | some path => Config.load path
  | none => Config.discover (← Files.currentDir)

/-- The settings of a run.  The number of diagnostics may be given with the command, and zero
counts as one there. -/
def settings (invocation : Invocation) (config : Config) : Config :=
  match invocation.maxErrors with
  | some count => { config with parse := { config.parse with maxErrors := max count 1 } }
  | none => config

/-- Runs an invocation.  Without settings there is no run. -/
def run (invocation : Invocation) : m Outcome := do
  match ← invocation.loadConfig with
  | .ok config => invocation.command.run (invocation.settings config)
  | .error error => return Outcome.failure error.message

end Invocation

namespace Request

/-- The name of the program and its version. -/
def versionLine : String := "lv6 0.1.0\n"

/-- The forms of a command line. -/
def usage : String :=
  "usage: lv6 [--config PATH] [--max-errors N] parse|check|tokens|includes FILE..."

/-- Answers a request. -/
def answer : Request → m Outcome
  | run invocation => invocation.run
  | version => return ⟨0, versionLine, []⟩
  | misused => return ⟨2, "", [.line usage]⟩

end Request

end Lustre
