import Lustre.Reader.Program

/-!
# From text to trees

`parse` reads a program from any text, with diagnostics for what could not be
read; `parseExpr` reads one expression and answers a tree only if nothing is
wrong with the text.  A `Run` can also be driven step by step: its cursor and
its log carry over from one reading to the next.
-/

namespace Lustre

/-- How a program is read. -/
structure ParseOptions where
  /-- The number of diagnostics at which reading stops.  Zero counts as one. -/
  maxErrors : Nat := 200
  /-- Whether the answer keeps what stands between the tokens. -/
  keepTrivia : Bool := true
deriving DecidableEq

namespace Run

/-- The start of the tokens of a text of `size` bytes, with nothing reported. -/
def start (tokens : List Token) (size : Nat) : Run :=
  ⟨.start tokens size, ⟨[], ({} : ParseOptions).maxErrors, false, false⟩⟩

/-- The start of a text, with the diagnostics on its words reported. -/
def ofText (text : String) (lexed : Lexed) : Run :=
  let run := start lexed.tokens text.utf8ByteSize
  { run with log := { run.log with entries := lexed.diagnostics, truncated := lexed.truncated } }

/-- Sets the number of diagnostics at which the run halts; zero counts as one. -/
def withCap (run : Run) (cap : Nat) : Run :=
  { run with log := { run.log with cap := max cap 1 } }

/-- Says whether the tokens end early, inside an unterminated word. -/
def withTruncated (run : Run) (truncated : Bool) : Run :=
  { run with log := { run.log with truncated := truncated } }

/-- Replaces the diagnostics. -/
def withEntries (run : Run) (entries : List Diagnostic) : Run :=
  { run with log := { run.log with entries := entries } }

/-- Goes on reading a program, with `levels` levels of nesting. -/
def program (levels : Nat) (run : Run) : Program × Run :=
  match Recover.program (.upTo levels) run with
  | .ok program run => (program, run)
  | .error _ run => (.empty, run)

/-- Goes on reading an expression that ends the text, with `levels` levels of nesting. -/
def expr (levels : Nat) (run : Run) : Option Expr × Run :=
  match Recover.standaloneExpr (.upTo levels) run with
  | .ok expr run => (expr, run)
  | .error _ run => (none, run)

end Run

/-- What was read from a text. -/
structure Parsed where
  program : Program
  diagnostics : List Diagnostic
  lexed : Lexed

namespace Parsed

/-- Whether anything is wrong with the text. -/
def hasErrors (parsed : Parsed) : Bool := !parsed.diagnostics.isEmpty

end Parsed

/-- Reads a program. -/
def parse (text : String) (options : ParseOptions := {}) : Parsed :=
  let lexed := Lexed.ofText text
  let (program, run) := ((Run.ofText text lexed).withCap options.maxErrors).program maxNesting
  ⟨program, run.log.entries, if options.keepTrivia then lexed else lexed.withoutFillers⟩

/-- Reads an expression that makes up the whole text.  There is no tree unless there are no
diagnostics. -/
def parseExpr (text : String) : Option Expr × List Diagnostic :=
  let (expr, run) := (Run.ofText text (Lexed.ofText text)).expr maxNesting
  (if run.log.entries.isEmpty then expr else none, run.log.entries)

end Lustre
