import Lustre.Reader.Signature

/-!
# Recovering from failures

Readers of declarations do not stop at the first failure.  They report it to a
`Log` and skip to a token where reading can go on.  The log keeps the limits: at
most `cap` diagnostics and a last one that says so, and at most one at the end of
a text that was cut short.  Either limit halts the run, and a halted log takes
nothing more.

Inside a package or a model skipping stops before an `end`, which closes the body
that a broken declaration stands in.  Only the token that the recovery of a statement
or an entry is forced to pass can be an `end`.
-/

namespace Lustre

/-! ## The log of a run -/

/-- The diagnostics of a run so far. -/
structure Log where
  entries : List Diagnostic
  /-- The number of diagnostics at which the run halts. -/
  cap : Nat
  /-- Whether the tokens end early, inside an unterminated word. -/
  truncated : Bool
  /-- Whether a limit was met. -/
  halted : Bool
deriving DecidableEq

namespace Log

/-- Adds `diagnostic`, which arose at the cursor `c`, and checks the limits. -/
def record (log : Log) (c : Cursor) (diagnostic : Diagnostic) : Log :=
  if log.halted then log
  else if log.truncated && c.atEnd then
    let last : Diagnostic := { diagnostic with cause := .cutShort diagnostic.cause }
    { log with entries := log.entries ++ [last], halted := true }
  else
    let entries := log.entries ++ [diagnostic]
    if entries.length ≥ log.cap then
      { log with entries := entries ++ [⟨.tooManyErrors, c.span⟩], halted := true }
    else { log with entries := entries }

end Log

/-- A place in the tokens of a text, and the diagnostics on the way there. -/
structure Run where
  cursor : Cursor
  log : Log
deriving DecidableEq

/-- A reader of `α` that may report diagnostics and go on. -/
abbrev Recover (α : Type) := EStateM Diagnostic Run α

/-- A reader that reports nothing moves the cursor and leaves the log alone. -/
instance : MonadLift Read Recover where
  monadLift read run :=
    match read run.cursor with
    | .ok a c => .ok a { run with cursor := c }
    | .error e c => .error e { run with cursor := c }

/-- What a reader made of a text before it failed, and the failure. -/
abbrev Partial (α : Type) := α × Option Diagnostic

/-- Where recovery must take care: only in the body of a package or a model does `end` close
something. -/
inductive Scope where
  | file | body
deriving DecidableEq

namespace Recover

/-- Repeats `step` while it asks for more. -/
def iterate {α : Type} (a : α) (step : α → Recover (ForInStep α)) : Recover α := do
  let run ← get
  iterateUpTo step (run.cursor.rest.length + 1) a

/-- Runs a reader and answers its failure, if it fails, as a value. -/
def attempt {α : Type} (read : Recover α) : Recover (Except Diagnostic α) := fun run =>
  match read run with
  | .ok a run => .ok (.ok a) run
  | .error e run => .ok (.error e) run

/-- Reads a value together with the span from the next token to the last one passed. -/
def located {α : Type} (read : Recover α) : Recover (Located α) := do
  let start ← Read.here
  let value ← read
  return ⟨value, ← Read.spanFrom start⟩

/-- The number of tokens to come. -/
def remaining : Recover Nat := return (← get).cursor.rest.length

/-- Whether a limit of the log was met. -/
def halted : Recover Bool := return (← get).log.halted

/-- Records a diagnostic at the cursor. -/
def report (diagnostic : Diagnostic) : Recover Unit :=
  modify fun run => { run with log := run.log.record run.cursor diagnostic }

/-- Records the failure of a reader that it did not survive. -/
def reportAny : Option Diagnostic → Recover Unit
  | some diagnostic => report diagnostic
  | none => pure ()

/-! ## Where reading goes on -/

/-- The tokens that begin an item of a file. -/
def itemStarts : List Kind :=
  [.kwNode, .kwFunction, .kwUnsafe, .kwExtern, .kwType, .kwConst, .kwPackage, .kwModel, .kwInclude]

/-- The tokens that cannot occur between the head of a node and its `tel`. -/
def nodeStops : List Kind :=
  [.kwNode, .kwFunction, .kwUnsafe, .kwExtern, .kwType, .kwPackage, .kwModel, .kwInclude]

/-- The tokens that begin a declaration. -/
def declarationStarts : List Kind :=
  [.kwNode, .kwFunction, .kwUnsafe, .kwExtern, .kwType, .kwConst]

/-- Skips to one of `stops`, to the `end` of the body if there is one, or to the end. -/
def synchronize (scope : Scope) (stops : List Kind) : Recover Unit :=
  modify fun run =>
    { run with cursor := run.cursor.skipUntil fun kind =>
        stops.contains kind || (scope == .body && kind == .kwEnd) }

/-- Passes a token if the cursor still has `start` tokens to come. -/
def leave (start : Nat) : Recover Unit := do
  if (← remaining) = start then Read.advance else pure ()

/-- Skips a broken declaration that began with `start` tokens to come. -/
def skipDeclaration (scope : Scope) (start : Nat) : Recover Unit := do
  leave start
  synchronize scope itemStarts

/-- Passes the mark that may stand after `tel`. -/
def endMark : Recover Unit := do
  if ← Read.eat .semi then pure ()
  else
    let _ ← Read.eat .dot

/-- Passes a `tel` and the mark after it, if it comes next. -/
def endNode : Recover Unit := do
  if ← Read.eat .kwTel then endMark else pure ()

/-- Skips the rest of a node, its `tel` included. -/
def skipNode (scope : Scope) : Recover Unit := do
  synchronize scope (.kwTel :: nodeStops)
  endNode

/-- Skips the rest of the head of a node.  A body that follows is skipped too; a `const` is taken
for the next declaration. -/
def skipHeader (scope : Scope) : Recover Unit := do
  synchronize scope (.kwLet :: .kwTel :: itemStarts)
  if ← Read.isAt .kwLet then skipNode scope else endNode

/-- Skips a broken statement that began with `start` tokens to come, with its semicolon, but
never a `tel`. -/
def skipStatement (scope : Scope) (start : Nat) : Recover Unit := do
  if ← Read.isAt .kwTel then pure () else leave start
  synchronize scope (.kwTel :: .semi :: nodeStops)
  let _ ← Read.eat .semi

/-- Skips a broken entry of a block that began with `start` tokens to come, with its
semicolon. -/
def skipEntry (scope : Scope) (start : Nat) : Recover Unit := do
  leave start
  synchronize scope (.semi :: .kwVar :: .kwLet :: .kwTel :: itemStarts)
  let _ ← Read.eat .semi

end Recover

end Lustre
