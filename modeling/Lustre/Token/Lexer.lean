import Lustre.Diagnostic

/-!
# From text to tokens

`Lexed.ofText` cuts a text into pieces.  At each place `munch` takes the longest
word or filler that stands there; a keyword beats an identifier of the same
length.  A character that nothing begins with becomes a filler of its own, with
a diagnostic.  An unterminated string or comment ends the pieces: what follows
its opener belongs to none.

Everything else about a text's words is a view of its pieces: the tokens, the
fillers before each token (`Lexed.leading`) and after the last, and the text
that the pieces cover.
-/

namespace Lustre

/-! ## Characters -/

/-- White space.  Form feeds and spaces beyond ASCII do not count. -/
def isWhite (c : Char) : Bool :=
  c == ' ' || c == '\t' || c == '\n' || c == '\r' || c == '\x0B'

/-- The white space allowed inside a pragma. -/
def isBlank (c : Char) : Bool := c == ' ' || c == '\t'

/-- What an identifier begins with. -/
def isIdentStart (c : Char) : Bool := c.isAlpha || c == '_'

/-- What an identifier goes on with. -/
def isIdentRest (c : Char) : Bool := c.isAlphanum || c == '_' || c == '\''

/-- The number of characters before the first that fails `p`. -/
def spanLength (p : Char → Bool) (text : List Char) : Nat := (text.takeWhile p).length

/-! ## Numbers -/

/-- Whether a text begins with the letter of an exponent. -/
def opensExponent : List Char → Bool
  | c :: _ => c == 'e' || c == 'E'
  | [] => false

/-- The length of the exponent that a text begins with, or zero: a letter, perhaps a sign, and
at least one digit. -/
def exponentLength (text : List Char) : Nat :=
  if opensExponent text then
    let sign :=
      match text.drop 1 with
      | c :: _ => if c == '+' || c == '-' then 1 else 0
      | [] => 0
    let digits := spanLength Char.isDigit (text.drop (1 + sign))
    if digits = 0 then 0 else 1 + sign + digits
  else 0

/-- The kind of the number that begins with a digit before `rest`, and how much of `rest`
belongs to it.  Two dots end a number before them, since they make a range.  A single dot that is
followed by an exponent's letter but by no exponent is taken into an integer. -/
def munchNumber (rest : List Char) : Kind × Nat :=
  let whole := spanLength Char.isDigit rest
  match rest.drop whole with
  | '.' :: '.' :: _ => (.intLit, whole)
  | '.' :: after =>
      let fraction := spanLength Char.isDigit after
      let exponent := exponentLength (after.drop fraction)
      if fraction = 0 && exponent = 0 && opensExponent after then (.intLit, whole + 1)
      else (.realLit, whole + 1 + fraction + exponent)
  | after =>
      let exponent := exponentLength after
      if exponent = 0 then (.intLit, whole) else (.realLit, whole + exponent)

/-! ## Pragmas and comments -/

/-- What follows the identifier that a text begins with. -/
def afterIdent : List Char → Option (List Char)
  | c :: rest => if isIdentStart c then some (rest.dropWhile isIdentRest) else none
  | [] => none

/-- What follows `key : value %` at the beginning of a text, blanks allowed around each part. -/
def afterPragma (text : List Char) : Option (List Char) := do
  let afterKey ← afterIdent (text.dropWhile isBlank)
  match afterKey.dropWhile isBlank with
  | ':' :: rest =>
      let afterValue ← afterIdent (rest.dropWhile isBlank)
      match afterValue.dropWhile isBlank with
      | '%' :: rest => some rest
      | _ => none
  | _ => none

/-- The length of a text up to and including the first `first` followed at once by `second`. -/
def lengthThrough (first second : Char) : List Char → Option Nat
  | [] => none
  | c :: rest =>
      if c == first && rest.head? == some second then some 2
      else (lengthThrough first second rest).map (· + 1)

/-! ## Symbols -/

/-- The symbol made of two characters. -/
def symbolOfPair? : Char → Char → Option Kind
  | '<', '<' => some .ltLt
  | '>', '>' => some .gtGt
  | '<', '=' => some .ltEq
  | '>', '=' => some .gtEq
  | '<', '>' => some .neq
  | '-', '>' => some .arrow
  | '=', '>' => some .fatArrow
  | '*', '*' => some .starStar
  | ':', ':' => some .colonColon
  | '.', '.' => some .dotDot
  | _, _ => none

/-- The symbol made of one character. -/
def symbolOfChar? : Char → Option Kind
  | '<' => some .lt
  | '=' => some .eq
  | '>' => some .gt
  | '+' => some .plus
  | '-' => some .minus
  | '*' => some .star
  | '/' => some .slash
  | '%' => some .percent
  | '^' => some .caret
  | '|' => some .pipe
  | '#' => some .hash
  | '(' => some .lParen
  | ')' => some .rParen
  | '[' => some .lBracket
  | ']' => some .rBracket
  | '\x7b' => some .lBrace
  | '\x7d' => some .rBrace
  | ',' => some .comma
  | ';' => some .semi
  | ':' => some .colon
  | '.' => some .dot
  | _ => none

/-! ## The longest piece at one place -/

/-- What stands at one place of a text: a piece with `more` characters after its first, or the
opener, `width` bytes wide, of something that is never closed. -/
inductive Munch where
  | token (kind : Kind) (more : Nat)
  | filler (trivia : Trivia) (more : Nat)
  | unterminated (cause : Cause) (width : Nat)
deriving DecidableEq

/-- A comment whose opener's first character has been read; `text` begins with the second. -/
def munchComment (first second : Char) (text : List Char) : Munch :=
  match lengthThrough first second (text.drop 1) with
  | some length => .filler .blockComment (1 + length)
  | none => .unterminated .unterminatedComment 2

/-- A string whose opening quote has been read. -/
def munchString (text : List Char) : Munch :=
  let inside := spanLength (· != '"') text
  if inside < text.length then .token .stringLit (inside + 1)
  else .unterminated .unterminatedString 1

/-- The symbol that begins with `c`, or a filler for a character that nothing begins with. -/
def munchSymbol (c : Char) (rest : List Char) : Munch :=
  match rest.head?.bind (symbolOfPair? c) with
  | some kind => .token kind 1
  | none =>
      match symbolOfChar? c with
      | some kind => .token kind 0
      | none => .filler .unknown 0

/-- The longest piece at the beginning of `c :: rest`. -/
def munch (c : Char) (rest : List Char) : Munch :=
  if isWhite c then .filler .whitespace (spanLength isWhite rest)
  else if isIdentStart c then
    let more := spanLength isIdentRest rest
    .token (Kind.ofWord (String.ofList (c :: rest.take more))) more
  else if c.isDigit then
    let (kind, more) := munchNumber rest
    .token kind more
  else
    match c, rest with
    | '"', _ => munchString rest
    | '-', '-' :: _ => .filler .lineComment (spanLength (· != '\n') rest)
    | '(', '*' :: _ => munchComment '*' ')' rest
    | '/', '*' :: _ => munchComment '*' '/' rest
    | '%', _ =>
        match afterPragma rest with
        | some after => .token .pragma (rest.length - after.length)
        | none => munchSymbol c rest
    | '.', d :: _ =>
        if d.isDigit then
          let fraction := spanLength Char.isDigit rest
          .token .realLit (fraction + exponentLength (rest.drop fraction))
        else munchSymbol c rest
    | _, _ => munchSymbol c rest

/-! ## Pieces of a text -/

/-- A text cut into pieces, and what is wrong with the rest of it if the pieces end early. -/
structure Lexed where
  pieces : List Piece
  fault : Option Diagnostic
deriving DecidableEq

namespace Lexed

/-- The pieces of a text that begins at byte `start` of the whole and whose first `skip`
characters belong to the piece before it. -/
def scan (skip start : Nat) : List Char → Lexed
  | [] => ⟨[], none⟩
  | c :: rest =>
      match skip with
      | skip + 1 => scan skip start rest
      | 0 =>
          match munch c rest with
          | .token kind more =>
              let text := c :: rest.take more
              let stop := start + byteLength text
              let later := scan more stop rest
              ⟨.token ⟨kind, String.ofList text, ⟨start, stop, 0⟩⟩ :: later.pieces, later.fault⟩
          | .filler trivia more =>
              let text := c :: rest.take more
              let stop := start + byteLength text
              let later := scan more stop rest
              ⟨.filler ⟨trivia, String.ofList text, ⟨start, stop, 0⟩⟩ :: later.pieces, later.fault⟩
          | .unterminated cause width => ⟨[], some ⟨cause, start, start + width, 0⟩⟩

/-- The pieces of `text`. -/
def ofText (text : String) : Lexed := scan 0 0 text.toList

/-- Whether an unterminated string or comment ended the pieces early. -/
def truncated (lexed : Lexed) : Bool := lexed.fault.isSome

/-- The tokens, in order. -/
def tokens (lexed : Lexed) : List Token :=
  lexed.pieces.filterMap fun
    | .token token => some token
    | .filler _ => none

/-- The diagnostics, in the order of the text: one for each unknown character, and the fault. -/
def diagnostics (lexed : Lexed) : List Diagnostic :=
  let unknown := lexed.pieces.filterMap fun
    | .filler ⟨.unknown, text, span⟩ => some ⟨.unknownCharacter text, span⟩
    | _ => none
  unknown ++ lexed.fault.toList

/-- The tokens of some pieces, each with the fillers before it, and the fillers after the
last. -/
def attach : List Piece → List (List Filler × Token) × List Filler
  | [] => ([], [])
  | .token token :: pieces =>
      let later := attach pieces
      (([], token) :: later.1, later.2)
  | .filler filler :: pieces =>
      match attach pieces with
      | ((before, token) :: later, trailing) => ((filler :: before, token) :: later, trailing)
      | ([], trailing) => ([], filler :: trailing)

/-- The fillers in front of each token. -/
def leading (lexed : Lexed) : List (List Filler) := (attach lexed.pieces).1.map Prod.fst

/-- The fillers after the last token. -/
def trailing (lexed : Lexed) : List Filler := (attach lexed.pieces).2

/-- The comments in front of token number `index`; none if there is no such token. -/
def commentsBefore (lexed : Lexed) (index : Nat) : List Filler :=
  (lexed.leading[index]?.getD []).filter fun filler => filler.trivia.isComment

/-- The text that the pieces cover. -/
def covered (lexed : Lexed) : String := String.join (lexed.pieces.map Piece.text)

/-- The same tokens without anything between them. -/
def withoutFillers (lexed : Lexed) : Lexed :=
  { lexed with pieces := lexed.pieces.filter fun
      | .token _ => true
      | .filler _ => false }

end Lexed

end Lustre
