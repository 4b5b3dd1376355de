import Lustre.Reader.Cursor

/-!
# Reading names and clocks

A bound name may be followed by pragmas; a used name may be qualified by a
package, without blanks around the `::`.
-/

namespace Lustre

namespace Pragma

/-- White space, in all of Unicode. -/
def isSpace (c : Char) : Bool :=
  let code := c.toNat
  (0x9 ≤ code && code ≤ 0xD) || code == 0x20 || code == 0x85 || code == 0xA0 || code == 0x1680 ||
    (0x2000 ≤ code && code ≤ 0x200A) || code == 0x2028 || code == 0x2029 || code == 0x202F ||
    code == 0x205F || code == 0x3000

/-- `text` without the characters at its ends that satisfy `p`. -/
def trim (p : Char → Bool) (text : List Char) : List Char :=
  ((text.dropWhile p).reverse.dropWhile p).reverse

/-- The key and the value in a pragma's token.  All that stands inside is the key if there is no
colon. -/
def ofToken (token : Token) : Pragma :=
  let inside := trim (· == '%') token.text.toList
  let key := inside.takeWhile (· != ':')
  let value := (inside.dropWhile (· != ':')).drop 1
  ⟨String.ofList (trim isSpace key), String.ofList (trim isSpace value), token.span⟩

end Pragma

namespace Cursor

/-- The number of tokens that the used name at the cursor takes: one or three, or zero if there
is no name. -/
def referenceLength (c : Cursor) : Nat :=
  if c.isAt .ident then
    if c.peekAt 1 = some .colonColon ∧ c.peekAt 2 = some .ident then 3 else 1
  else 0

end Cursor

namespace Read

/-- Any number of pragmas. -/
def pragmas : Read (List Pragma) :=
  iterate [] fun read => do
    match ← take? .pragma with
    | some token => return .yield (read ++ [.ofToken token])
    | none => return .done read

/-- A bound name and its pragmas. -/
def ident : Read Ident := do
  match ← take? .ident with
  | some token => return ⟨token.text, token.span, ← pragmas⟩
  | none => missing .identifier

/-- The names of one declaration. -/
def identList : Read (List Ident) := commaList ident

/-- A used name. -/
def reference : Read Reference := do
  match ← take? .ident with
  | none => missing .identifier
  | some first =>
      match ← take? .colonColon with
      | none => return ⟨none, first.text, first.span⟩
      | some separator =>
          match ← take? .ident with
          | none => missing .member
          | some member =>
              let span := first.span.cover member.span
              if first.span.stop = separator.span.start ∧
                  separator.span.stop = member.span.start then
                return ⟨some first.text, member.text, span⟩
              else throw ⟨.spacedQualifiedName, span⟩

/-- A clock: `c`, `not c`, `not (c)` or `Case(c)`. -/
def clock : Read (Located Clock) := located do
  if ← eat .kwNot then
    if ← eat .lParen then
      let name ← ident
      let _ ← expect .rParen
      return .not name true
    else return .not (← ident) false
  else
    let c ← get
    let length := c.referenceLength
    if length > 0 ∧ c.peekAt length = some .lParen then
      let case ← reference
      advance
      let name ← ident
      let _ ← expect .rParen
      return .case case name
    else return .on (← ident)

end Read

end Lustre
