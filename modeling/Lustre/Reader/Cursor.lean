import Lustre.Token.Lexer
import Lustre.Tree.Program

/-!
# Reading a list of tokens

A reader is a function on a `Cursor`, a place in a list of tokens.  It answers
with a value or with a diagnostic, and in both cases with the cursor it reached:
a failure leaves the cursor where the failure was noticed, since that is where
recovery starts.  A cursor holds only the tokens that are still to come, so no
reader can go back except by keeping an earlier cursor.

Loops are given by `iterate`, which runs a step at most once more than there are
tokens left.  Every step that asks for another has passed a token, so the bound
is never met.
-/

namespace Lustre

/-- A place in the tokens of a text. -/
structure Cursor where
  /-- The tokens to come. -/
  rest : List Token
  /-- Where the last token before the cursor ends; zero if there is none. -/
  last : Nat
  /-- The length of the text. -/
  size : Nat
deriving DecidableEq

namespace Cursor

/-- The place before all tokens of a text of `size` bytes. -/
def start (tokens : List Token) (size : Nat) : Cursor := ⟨tokens, 0, size⟩

/-- Whether no token is left. -/
def atEnd (c : Cursor) : Bool := c.rest.isEmpty

/-- The kind of the next token. -/
def peek (c : Cursor) : Option Kind := c.rest.head?.map Token.kind

/-- The kind of the token after the next `ahead`. -/
def peekAt (c : Cursor) (ahead : Nat) : Option Kind := c.rest[ahead]?.map Token.kind

/-- Whether the next token is of one kind. -/
def isAt (c : Cursor) (kind : Kind) : Bool := c.peek == some kind

/-- Where the next token stands; the end of the text if there is none. -/
def span (c : Cursor) : Span :=
  match c.rest with
  | token :: _ => token.span
  | [] => Span.point c.size

/-- How messages quote the next token. -/
def found (c : Cursor) : Option String := c.rest.head?.map Token.describe

/-- What is wrong when the next token is none of `options`. -/
def unexpected (c : Cursor) (options : List Kind) : Diagnostic :=
  ⟨.unexpected options c.found, c.span⟩

/-- What is wrong when the next token does not begin what is wanted. -/
def missing (c : Cursor) (wanted : Wanted) : Diagnostic := ⟨.missing wanted c.found, c.span⟩

/-- The cursor behind the next token. -/
def pass (c : Cursor) : Cursor :=
  match c.rest with
  | token :: rest => { c with rest := rest, last := token.span.stop }
  | [] => c

/-- From byte `start` to the end of the last token passed, and never backwards. -/
def spanFrom (c : Cursor) (start : Nat) : Span := ⟨start, max c.last start, 0⟩

/-- The cursor at the first token that satisfies `stop`, or at the end. -/
def skipUntil (c : Cursor) (stop : Kind → Bool) : Cursor :=
  go c.last c.rest
where
  /-- The cursor at the first stop of `rest`, the tokens after byte `last`. -/
  go (last : Nat) : List Token → Cursor
    | [] => ⟨[], last, c.size⟩
    | token :: rest =>
        if stop token.kind then ⟨token :: rest, last, c.size⟩ else go token.span.stop rest

end Cursor

/-- A reader of `α`. -/
abbrev Read (α : Type) := EStateM Diagnostic Cursor α

/-- Repeats `step` while it asks for more, at most `bound` times. -/
def iterateUpTo {σ α : Type} (step : α → EStateM Diagnostic σ (ForInStep α)) :
    Nat → α → EStateM Diagnostic σ α
  | 0, a => pure a
  | bound + 1, a => do
      match ← step a with
      | .done a => pure a
      | .yield a => iterateUpTo step bound a

namespace Read

/-- Repeats `step` while it asks for more. -/
def iterate {α : Type} (a : α) (step : α → Read (ForInStep α)) : Read α := do
  let c ← get
  iterateUpTo step (c.rest.length + 1) a

/-! ## The next token -/

/-- The kind of the next token. -/
def peek : Read (Option Kind) := return (← get).peek

/-- Whether the next token is of one kind. -/
def isAt (kind : Kind) : Read Bool := return (← get).isAt kind

/-- Where the next token begins. -/
def here : Read Nat := return (← get).span.start

/-- Passes one token, if there is one. -/
def advance : Read Unit := modify Cursor.pass

/-- Passes the next token if it is of one kind, and says whether it was. -/
def eat (kind : Kind) : Read Bool := do
  if ← isAt kind then
    advance
    return true
  else return false

/-- Passes the next token if it is of the first kind that fits, and says whether it was of
any. -/
def eatAny : List Kind → Read Bool
  | [] => return false
  | kind :: kinds => do
      if ← eat kind then return true else eatAny kinds

/-- From byte `start` to the end of the last token passed. -/
def spanFrom (start : Nat) : Read Span := return (← get).spanFrom start

/-- Reads a value together with the span from the next token to the last one passed. -/
def located {α : Type} (read : Read α) : Read (Located α) := do
  let start ← here
  let value ← read
  return ⟨value, ← spanFrom start⟩

/-! ## Failures -/

/-- Fails at the next token. -/
def fail {α : Type} (cause : Cause) : Read α := do
  throw ⟨cause, (← get).span⟩

/-- Fails because the next token is none of `options`. -/
def unexpected {α : Type} (options : List Kind) : Read α := do
  throw ((← get).unexpected options)

/-- Fails because the next token does not begin what is wanted. -/
def missing {α : Type} (wanted : Wanted) : Read α := do
  throw ((← get).missing wanted)

/-- Passes the next token, which must be of one kind, and answers where it stands. -/
def expect (kind : Kind) : Read Span := do
  if ← isAt kind then
    let span := (← get).span
    advance
    return span
  else unexpected [kind]

/-- Passes the next token if it is of one kind, and answers it. -/
def take? (kind : Kind) : Read (Option Token) := do
  match (← get).rest with
  | token :: _ =>
      if token.kind = kind then
        advance
        return some token
      else return none
  | [] => return none

/-- Passes the next token, whatever it is, and answers its text. -/
def takeText : Read String := do
  let text := ((← get).rest.head?.map Token.text).getD ""
  advance
  return text

/-! ## Lists -/

/-- One or more items with commas between. -/
def commaList {α : Type} (item : Read α) : Read (List α) := do
  let first ← item
  iterate [first] fun items => do
    if ← eat .comma then return .yield (items ++ [← item]) else return .done items

/-- Any number of items before `close`, each followed by one of `separators` except perhaps the
last. -/
def separated {α : Type} (close : Kind) (separators : List Kind) (item : Read α) :
    Read (List α) :=
  iterate [] fun items => do
    if ← isAt close then return .done items
    else
      let items := items ++ [← item]
      if ← eatAny separators then return .yield items else return .done items

/-- One or more items, each followed by a semicolon, as long as a token of `starts` comes
next. -/
def terminated {α : Type} (starts : List Kind) (item : Read α) : Read (List α) :=
  iterate [] fun items => do
    let items := items ++ [← item]
    let _ ← expect .semi
    let next ← peek
    if next.any starts.contains then return .yield items else return .done items

/-- What `read` reads if the next token is of one kind. -/
def optionalAt {α : Type} (kind : Kind) (read : Read α) : Read (Option α) := do
  if ← isAt kind then return some (← read) else return none

/-- What `read` reads after a token of one kind, if that token comes next. -/
def optionalAfter {α : Type} (kind : Kind) (read : Read α) : Read (Option α) := do
  if ← eat kind then return some (← read) else return none

end Read

end Lustre
