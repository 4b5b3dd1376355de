import Mathlib.Data.PFun
import Lustre.Proofs.Reader.State

/-!
# A parser with one mutable state

A reader of the library is told how deep it may still nest and which scope it stands in, and
only the cursor and the log go through it.  A parser that is written with assignments keeps all of
this in fields.  A `Machine` has these fields, and a `Parser` is a procedure that changes them:

* `Parser.nested` compares the depth with the limit, counts it up before what is nested and
  down behind it, whether that succeeds or fails;
* `Parser.within` replaces the scope around a body and puts it back;
* `Parser.checkpoint` and `Parser.restore` go back for a second look;
* `Parser.loop` repeats a step for as long as the step asks for more, and has no bound.

Nothing makes such a loop end, so a parser is a partial function: `Part.none` stands for a parser
that goes on for ever.
-/

namespace Lustre

/-- A parser in the middle of its work. -/
structure Machine extends State where
  /-- The greatest depth so far.  No parser looks at it. -/
  deepest : Nat
deriving DecidableEq

namespace Machine

variable (s : Machine)

/-- Behind the next token, if there is one. -/
def pass : Machine := if s.pos < s.tokens.length then { s with pos := s.pos + 1 } else s

/-- At the first token from the position on that satisfies `stop`, or at the end. -/
def skipUntil (stop : Kind → Bool) : Machine :=
  { s with pos := s.pos + (s.tokens.drop s.pos).findIdx fun token => stop token.kind }

/-- With one more diagnostic, as far as the limits allow it. -/
def record (diagnostic : Diagnostic) : Machine :=
  { s with log := s.log.record s.cursor diagnostic }

/-- One level deeper. -/
def descend : Machine :=
  { s with depth := s.depth + 1, deepest := max s.deepest (s.depth + 1) }

/-- One level up. -/
def ascend : Machine := { s with depth := s.depth - 1 }

/-- In another scope. -/
def enter (scope : Scope) : Machine := { s with scope := scope }

/-- At position `pos`, with only the first `diagnostics` diagnostics. -/
def rewind (pos diagnostics : Nat) : Machine :=
  { s with pos := pos, log := { s.log with entries := s.log.entries.take diagnostics } }

end Machine

/-- A procedure that changes the state of a parser, and may go on for ever. -/
def Parser (α : Type) : Type := Machine → Part (EStateM.Result Diagnostic Machine α)

namespace Parser

variable {α β : Type}

/-- What follows the result of a procedure: a failure is passed on. -/
def andThen (next : α → Parser β) :
    EStateM.Result Diagnostic Machine α → Part (EStateM.Result Diagnostic Machine β)
  | .ok a s => next a s
  | .error e s => .some (.error e s)

instance : Monad Parser where
  pure a s := .some (.ok a s)
  bind m next s := (m s).bind (andThen next)

def get : Parser Machine := fun s => .some (.ok s s)

def modify (change : Machine → Machine) : Parser Unit := fun s => .some (.ok () (change s))

def throw (diagnostic : Diagnostic) : Parser α := fun s => .some (.error diagnostic s)

/-- A result as a value. -/
def caught : EStateM.Result Diagnostic Machine α →
    EStateM.Result Diagnostic Machine (Except Diagnostic α)
  | .ok a s => .ok (.ok a) s
  | .error e s => .ok (.error e) s

/-- Runs a procedure and answers its failure, if it fails, as a value. -/
def attempt (m : Parser α) : Parser (Except Diagnostic α) := fun s => (m s).map caught

/-- Succeeds or fails as a procedure did that was run before. -/
def settle : Except Diagnostic α → Parser α
  | .ok a => pure a
  | .error e => throw e

/-! ## Loops -/

/-- Whether a loop goes on after a round of it, and from where. -/
def round : EStateM.Result Diagnostic Machine (ForInStep α) →
    EStateM.Result Diagnostic Machine α ⊕ α × Machine
  | .ok (.done a) s => .inl (.ok a s)
  | .ok (.yield a) s => .inr (a, s)
  | .error e s => .inl (.error e s)

/-- Repeats `step` for as long as it asks for more. -/
def loop (a : α) (step : α → Parser (ForInStep α)) : Parser α := fun s =>
  PFun.fix (fun place => (step place.1 place.2).map round) (a, s)

/-! ## Depth, scope and position -/

/-- Runs `m` one level deeper, if there is a level left. -/
def nested (m : Parser α) : Parser α := do
  let s ← get
  if s.depth ≥ maxNesting then throw ⟨.nestedTooDeeply, s.cursor.span⟩
  else
    modify Machine.descend
    let result ← attempt m
    modify Machine.ascend
    settle result

/-- Runs `m` in another scope. -/
def within (scope : Scope) (m : Parser α) : Parser α := do
  let outer := (← get).scope
  modify fun s => s.enter scope
  let result ← attempt m
  modify fun s => s.enter outer
  settle result

/-- A place to go back to. -/
structure Checkpoint where
  pos : Nat
  diagnostics : Nat

def checkpoint : Parser Checkpoint := do
  let s ← get
  return ⟨s.pos, s.log.entries.length⟩

def restore (saved : Checkpoint) : Parser Unit :=
  modify fun s => s.rewind saved.pos saved.diagnostics

/-! ## The next token -/

/-- What lies ahead. -/
def cursor : Parser Cursor := return (← get).cursor

/-- The number of tokens to come. -/
def remaining : Parser Nat := do
  let s ← get
  return s.tokens.length - s.pos

def peek : Parser (Option Kind) := return (← cursor).peek

def isAt (kind : Kind) : Parser Bool := return (← cursor).isAt kind

/-- Where the next token begins. -/
def here : Parser Nat := return (← cursor).span.start

def advance : Parser Unit := modify Machine.pass

/-- Passes the next token if it is of one kind, and says whether it was. -/
def eat (kind : Kind) : Parser Bool := do
  if ← isAt kind then
    advance
    return true
  else return false

/-- Passes the next token if it is of the first kind that fits, and says whether it was of
any. -/
def eatAny : List Kind → Parser Bool
  | [] => return false
  | kind :: kinds => do
      if ← eat kind then return true else eatAny kinds

/-- From byte `start` to the end of the last token passed. -/
def spanFrom (start : Nat) : Parser Span := return (← cursor).spanFrom start

/-- Reads a value together with the span from the next token to the last one passed. -/
def located (m : Parser α) : Parser (Located α) := do
  let start ← here
  let value ← m
  return ⟨value, ← spanFrom start⟩

/-- Fails at the next token. -/
def fail (cause : Cause) : Parser α := do
  throw ⟨cause, (← cursor).span⟩

/-- Fails because the next token is none of `options`. -/
def unexpected (options : List Kind) : Parser α := do
  throw ((← cursor).unexpected options)

/-- Fails because the next token does not begin what is wanted. -/
def missing (wanted : Wanted) : Parser α := do
  throw ((← cursor).missing wanted)

/-- Passes the next token, which must be of one kind, and answers where it stands. -/
def expect (kind : Kind) : Parser Span := do
  if ← isAt kind then
    let span := (← cursor).span
    advance
    return span
  else unexpected [kind]

/-- Passes the next token if it is of one kind, and answers it. -/
def take? (kind : Kind) : Parser (Option Token) := do
  match (← cursor).rest with
  | token :: _ =>
      if token.kind = kind then
        advance
        return some token
      else return none
  | [] => return none

/-- Passes the next token, whatever it is, and answers its text. -/
def takeText : Parser String := do
  let text := ((← cursor).rest.head?.map Token.text).getD ""
  advance
  return text

/-! ## Lists -/

/-- One or more items with commas between. -/
def commaList (item : Parser α) : Parser (List α) := do
  let first ← item
  loop [first] fun items => do
    if ← eat .comma then return .yield (items ++ [← item]) else return .done items

/-- Any number of items before `close`, each followed by one of `separators` except perhaps the
last. -/
def separated (close : Kind) (separators : List Kind) (item : Parser α) : Parser (List α) :=
  loop [] fun items => do
    if ← isAt close then return .done items
    else
      let items := items ++ [← item]
      if ← eatAny separators then return .yield items else return .done items

/-- One or more items, each followed by a semicolon, as long as a token of `starts` comes
next. -/
def terminated (starts : List Kind) (item : Parser α) : Parser (List α) :=
  loop [] fun items => do
    let items := items ++ [← item]
    let _ ← expect .semi
    let next ← peek
    if next.any starts.contains then return .yield items else return .done items

/-- What `m` reads if the next token is of one kind. -/
def optionalAt (kind : Kind) (m : Parser α) : Parser (Option α) := do
  if ← isAt kind then return some (← m) else return none

/-- What `m` reads after a token of one kind, if that token comes next. -/
def optionalAfter (kind : Kind) (m : Parser α) : Parser (Option α) := do
  if ← eat kind then return some (← m) else return none

/-! ## Diagnostics -/

/-- Whether a limit was met. -/
def halted : Parser Bool := return (← get).log.halted

/-- Records a diagnostic at the next token. -/
def report (diagnostic : Diagnostic) : Parser Unit := modify fun s => s.record diagnostic

/-- Records the failure of a procedure that it did not survive. -/
def reportAny : Option Diagnostic → Parser Unit
  | some diagnostic => report diagnostic
  | none => pure ()

/-- Skips to one of `stops`, to the `end` of the body if there is one, or to the end. -/
def synchronize (stops : List Kind) : Parser Unit :=
  modify fun s => s.skipUntil fun kind =>
    stops.contains kind || (s.scope == .body && kind == .kwEnd)

end Parser

end Lustre
