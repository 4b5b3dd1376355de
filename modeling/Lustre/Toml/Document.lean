import Lustre.Toml.Scalar

/-!
# TOML documents

`document` reads a text to the table that it describes, or answers `none` if the
text is no TOML: there is only one way to be wrong.
-/

namespace Lustre.Toml

/-- A text without the blanks that it begins with. -/
def skipSpace (text : List Char) : List Char := text.dropWhile isSpace

/-- What follows a line break, or the end of the text. -/
def afterLineEnd : List Char → Option (List Char)
  | [] => some []
  | '\n' :: rest => some rest
  | '\r' :: '\n' :: rest => some rest
  | _ => none

/-- What follows the end of a line, before which there may be blanks and a comment. -/
def afterLine (text : List Char) : Option (List Char) :=
  match skipSpace text with
  | '#' :: rest => afterLineEnd (rest.dropWhile isPlain)
  | rest => afterLineEnd rest

/-- A text without the blanks, line breaks and comments that it begins with, at most `fuel` of
them. -/
def skipLines : Nat → List Char → Option (List Char)
  | 0, text => some text
  | fuel + 1, text =>
      match skipSpace text with
      | '#' :: rest => (afterLineEnd (rest.dropWhile isPlain)).bind (skipLines fuel)
      | '\n' :: rest => skipLines fuel rest
      | '\r' :: '\n' :: rest => skipLines fuel rest
      | rest => some rest

/-- A text without the blanks, line breaks and comments that it begins with. -/
def skipBlankLines (text : List Char) : Option (List Char) := skipLines (text.length + 1) text

/-! ## Keys -/

/-- A key without dots. -/
def simpleKey (text : List Char) : Option (String × List Char) :=
  match text with
  | '"' :: rest => (basicString rest).map fun (key, rest) => (String.ofList key, rest)
  | '\'' :: rest => (literalString rest).map fun (key, rest) => (String.ofList key, rest)
  | text =>
      match text.takeWhile isBare with
      | [] => none
      | key => some (String.ofList key, text.dropWhile isBare)

/-- A key with at most `fuel` dots, as the keys before its last one and the last one. -/
def dottedKey : Nat → List Char → Option ((List String × String) × List Char)
  | 0, _ => none
  | fuel + 1, text => do
      let (first, rest) ← simpleKey (skipSpace text)
      match skipSpace rest with
      | '.' :: rest =>
          let ((path, last), rest) ← dottedKey fuel rest
          return ((first :: path, last), rest)
      | rest => return (([], first), rest)

/-- The number of levels that values may be nested, and of parts that a key may have. -/
def maxDepth : Nat := 79

/-- A key; blanks around it are passed. -/
def key (text : List Char) : Option ((List String × String) × List Char) := do
  let ((path, last), rest) ← dottedKey text.length text
  if path.length < maxDepth then some ((path, last), rest) else none

/-! ## Values -/

/-- What a word stands for. -/
def boolean : List Char → Option (Value × List Char)
  | 't' :: 'r' :: 'u' :: 'e' :: rest => some (.boolean true, rest)
  | 'f' :: 'a' :: 'l' :: 's' :: 'e' :: rest => some (.boolean false, rest)
  | _ => none

/-- A value that contains no others. -/
def scalar (text : List Char) : Option (Value × List Char) :=
  match string text with
  | some (inside, rest) => some (.string (String.ofList inside), rest)
  | none => (boolean text).or ((time text).or (number text))

mutual

/-- A value with at most `levels` levels of brackets.  Each step deeper or further takes one of
`fuel`. -/
def value (fuel levels : Nat) (text : List Char) : Option (Value × List Char) :=
  match fuel with
  | 0 => none
  | fuel + 1 =>
      match text, levels with
      | '[' :: rest, levels + 1 =>
          (items fuel levels rest).map fun (items, rest) => (.array items, rest)
      | '\x7b' :: rest, levels + 1 =>
          match skipSpace rest with
          | '\x7d' :: rest => some (.table (.empty .defined), rest)
          | rest =>
              (pairs fuel levels (.empty .defined) rest).map fun (table, rest) =>
                (.table table, rest)
      | text, _ => scalar text

/-- The items of an array up to and including its closing bracket. -/
def items (fuel levels : Nat) (text : List Char) : Option (List Value × List Char) :=
  match fuel with
  | 0 => none
  | fuel + 1 => do
      match ← skipBlankLines text with
      | ']' :: rest => return ([], rest)
      | text =>
          let (first, rest) ← value fuel levels text
          match ← skipBlankLines rest with
          | ',' :: rest =>
              let (others, rest) ← items fuel levels rest
              return (first :: others, rest)
          | ']' :: rest => return ([first], rest)
          | _ => none

/-- The entries of an inline table, of which there is one at least, up to and including its closing
brace. -/
def pairs (fuel levels : Nat) (table : Table) (text : List Char) :
    Option (Table × List Char) :=
  match fuel with
  | 0 => none
  | fuel + 1 => do
      let ((path, last), rest) ← key text
      let rest ← afterChar '=' rest
      let (found, rest) ← value fuel levels (skipSpace rest)
      let table ← table.define path last found
      match skipSpace rest with
      | ',' :: rest => pairs fuel levels table rest
      | '\x7d' :: rest => return (table, rest)
      | _ => none

end

/-! ## Lines -/

/-- The document so far, and the table that the current lines belong to. -/
structure State where
  root : Table
  header : List String

/-- Reads `key = value` up to the end of the line. -/
def pairLine (state : State) (text : List Char) : Option (State × List Char) := do
  let ((path, last), rest) ← key text
  let rest ← afterChar '=' rest
  let (found, rest) ← value (text.length + 1) maxDepth (skipSpace rest)
  let rest ← afterLine rest
  let root ← state.root.defineIn state.header path last found
  return ({ state with root := root }, rest)

/-- Reads a header, after its opening brackets, up to the end of the line. -/
def headerLine (double : Bool) (state : State) (text : List Char) : Option (State × List Char) := do
  let ((path, last), rest) ← key text
  let rest ← afterChar ']' rest
  let rest ← if double then afterChar ']' rest else some rest
  let rest ← afterLine rest
  let root ← if double then state.root.pushTable path last else state.root.openTable path last
  return (⟨root, path ++ [last]⟩, rest)

/-- Reads what a text describes, at most `fuel` lines of it. -/
def lines (fuel : Nat) (state : State) (text : List Char) : Option Table :=
  match fuel with
  | 0 => none
  | fuel + 1 => do
      match ← skipBlankLines text with
      | [] => return state.root
      | '[' :: '[' :: rest =>
          let (state, rest) ← headerLine true state rest
          lines fuel state rest
      | '[' :: rest =>
          let (state, rest) ← headerLine false state rest
          lines fuel state rest
      | text =>
          let (state, rest) ← pairLine state text
          lines fuel state rest

/-- The table that a text describes.  A mark of the byte order may stand before it. -/
def document (text : String) : Option Table :=
  let chars :=
    match text.toList with
    | '\ufeff' :: rest => rest
    | chars => chars
  lines (chars.length + 1) ⟨.empty .defined, []⟩ chars

end Lustre.Toml
