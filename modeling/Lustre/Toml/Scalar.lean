import Lustre.Toml.Value

/-!
# TOML strings, numbers and times

Each reader takes the beginning of a text and answers a value and the rest, or
`none` if the text does not begin with what is wanted.
-/

namespace Lustre.Toml

/-! ## Characters -/

/-- White space within a line. -/
def isSpace (c : Char) : Bool := c == ' ' || c == '\t'

/-- The characters allowed in comments and in literal strings, quotes aside: no control
characters but tabs. -/
def isPlain (c : Char) : Bool := c == '\t' || (c.toNat ≥ 0x20 && c.toNat != 0x7F)

/-- The characters of keys without quotes. -/
def isBare (c : Char) : Bool := c.isAlphanum || c == '-' || c == '_'

/-- The value of a hexadecimal digit. -/
def hexDigit? (c : Char) : Option Nat :=
  if c.isDigit then some (c.toNat - '0'.toNat)
  else if 'a' ≤ c ∧ c ≤ 'f' then some (c.toNat - 'a'.toNat + 10)
  else if 'A' ≤ c ∧ c ≤ 'F' then some (c.toNat - 'A'.toNat + 10)
  else none

/-- The number that digits of a base spell. -/
def number? (base : Nat) (digits : List Char) : Option Nat :=
  digits.foldlM (fun n c => do
    let d ← hexDigit? c
    if d < base then some (base * n + d) else none) 0

/-- The character with the code that hexadecimal digits spell. -/
def scalar? (digits : List Char) : Option Char := do
  let n ← number? 16 digits
  if n.isValidChar then some (Char.ofNat n) else none

/-- The character that a backslash and a letter stand for. -/
def escape? : Char → Option Char
  | 'b' => some '\x08'
  | 't' => some '\t'
  | 'n' => some '\n'
  | 'f' => some '\x0C'
  | 'r' => some '\r'
  | '"' => some '"'
  | '\\' => some '\\'
  | _ => none

/-! ## Strings -/

/-- Puts a character before the text of a string that was read. -/
def cons (c : Char) : Option (List Char × List Char) → Option (List Char × List Char)
  | some (text, rest) => some (c :: text, rest)
  | none => none

/-- A basic string after its opening quote. -/
def basicString : List Char → Option (List Char × List Char)
  | [] => none
  | '"' :: rest => some ([], rest)
  | '\\' :: 'u' :: a :: b :: c :: d :: rest =>
      match scalar? [a, b, c, d] with
      | some char => cons char (basicString rest)
      | none => none
  | '\\' :: 'U' :: a :: b :: c :: d :: e :: f :: g :: h :: rest =>
      match scalar? [a, b, c, d, e, f, g, h] with
      | some char => cons char (basicString rest)
      | none => none
  | '\\' :: letter :: rest =>
      match escape? letter with
      | some char => cons char (basicString rest)
      | none => none
  | c :: rest => if isPlain c && c != '\\' then cons c (basicString rest) else none

/-- A literal string after its opening quote. -/
def literalString : List Char → Option (List Char × List Char)
  | [] => none
  | '\'' :: rest => some ([], rest)
  | c :: rest => if isPlain c then cons c (literalString rest) else none

/-- What follows the closing quotes of a string over several lines, whose first three are read:
up to two more belong to the string. -/
def closeLong (quote : Char) : List Char → List Char × List Char
  | a :: b :: rest =>
      if a = quote then
        if b = quote then ([quote, quote], rest) else ([quote], b :: rest)
      else ([], a :: b :: rest)
  | [a] => if a = quote then ([quote], []) else ([], [a])
  | [] => ([], [])

/-- Whether a text goes on with a line break after blanks. -/
def breaksLine (text : List Char) : Bool :=
  match text.dropWhile isSpace with
  | '\n' :: _ => true
  | '\r' :: '\n' :: _ => true
  | _ => false

/-- A basic string over several lines, after its opening quotes.  A backslash at the end of a line
makes all blanks and line breaks vanish up to the next character; `skipping` says that this is
under way. -/
def longBasicString (skipping : Bool) : List Char → Option (List Char × List Char)
  | [] => none
  | '"' :: '"' :: '"' :: rest => some (closeLong '"' rest)
  | '\r' :: rest => if rest.head? = some '\n' then longBasicString skipping rest else none
  | '\n' :: rest =>
      if skipping then longBasicString true rest else cons '\n' (longBasicString false rest)
  | '\\' :: 'u' :: a :: b :: c :: d :: rest =>
      match scalar? [a, b, c, d] with
      | some char => cons char (longBasicString false rest)
      | none => none
  | '\\' :: 'U' :: a :: b :: c :: d :: e :: f :: g :: h :: rest =>
      match scalar? [a, b, c, d, e, f, g, h] with
      | some char => cons char (longBasicString false rest)
      | none => none
  | '\\' :: letter :: rest =>
      if breaksLine (letter :: rest) then longBasicString true (letter :: rest)
      else
        match escape? letter with
        | some char => cons char (longBasicString false rest)
        | none => none
  | c :: rest =>
      if skipping && isSpace c then longBasicString true rest
      else if isPlain c && c != '\\' then cons c (longBasicString false rest)
      else none

/-- A literal string over several lines, after its opening quotes. -/
def longLiteralString : List Char → Option (List Char × List Char)
  | [] => none
  | '\'' :: '\'' :: '\'' :: rest => some (closeLong '\'' rest)
  | '\r' :: rest => if rest.head? = some '\n' then longLiteralString rest else none
  | c :: rest => if isPlain c || c == '\n' then cons c (longLiteralString rest) else none

/-- A text without the line break that it begins with, if it does. -/
def dropLineBreak : List Char → List Char
  | '\n' :: rest => rest
  | '\r' :: '\n' :: rest => rest
  | text => text

/-- A string of any of the four forms. -/
def string : List Char → Option (List Char × List Char)
  | '"' :: '"' :: '"' :: rest => longBasicString false (dropLineBreak rest)
  | '\'' :: '\'' :: '\'' :: rest => longLiteralString (dropLineBreak rest)
  | '"' :: rest => basicString rest
  | '\'' :: rest => literalString rest
  | _ => none

/-! ## Numbers -/

/-- The digits that a text begins with; underscores may stand between two of them. -/
def digitRun (isDigit : Char → Bool) : List Char → List Char × List Char
  | [] => ([], [])
  | c :: rest =>
      if isDigit c then
        match rest with
        | '_' :: d :: later =>
            if isDigit d then
              let run := digitRun isDigit (d :: later)
              (c :: run.1, run.2)
            else ([c], rest)
        | rest =>
            let run := digitRun isDigit rest
            (c :: run.1, run.2)
      else ([], c :: rest)

/-- One more than the greatest integer of 64 bits. -/
def integerBound : Nat := 9223372036854775808

/-- An integer between the bounds of 64 bits. -/
def integer? (negative : Bool) (n : Nat) : Option Value :=
  if negative then if n ≤ integerBound then some (.integer (-n)) else none
  else if n < integerBound then some (.integer n)
  else none

/-- An integer in a base other than ten, after its mark. -/
def basedInteger (base : Nat) (text : List Char) : Option (Value × List Char) :=
  let (digits, rest) := digitRun (fun c => ((hexDigit? c).any (· < base))) text
  if digits.isEmpty then none
  else do
    let n ← number? base digits
    let value ← integer? false n
    return (value, rest)

/-- The sign and the digits of the exponent that a text begins with, if it does. -/
def exponent (text : List Char) : Option ((Bool × List Char) × List Char) :=
  match text with
  | e :: rest =>
      if e = 'e' ∨ e = 'E' then
        let (negative, digits) :=
          match rest with
          | '+' :: digits => (false, digits)
          | '-' :: digits => (true, digits)
          | digits => (false, digits)
        let run := digitRun Char.isDigit digits
        if run.1.isEmpty then none else some ((negative, run.1), run.2)
      else none
  | [] => none

/-- The digits of the fraction that a text begins with, if it does. -/
def fraction (text : List Char) : Option (List Char × List Char) :=
  match text with
  | '.' :: rest =>
      let run := digitRun Char.isDigit rest
      if run.1.isEmpty then none else some run
  | _ => none

/-- The least number that is rounded to infinity: half a step above the greatest double. -/
def infinityBound : Nat := Nat.pow 2 1024 - Nat.pow 2 970

/-- The number of decimal digits of `infinityBound`. -/
def infinityDigits : Nat := 309

/-- Whether `digits`, with the point moved `right` places to the right and `left` to the left, are
at least `infinityBound`.  Only where the lengths leave it open is the number compared. -/
def isInfinite (digits : List Char) (right left : Nat) : Bool :=
  let digits := digits.dropWhile (· == '0')
  let size := digits.length + right
  if digits.isEmpty ∨ size < infinityDigits + left then false
  else if size > infinityDigits + left then true
  else
    let n := (number? 10 digits).getD 0
    let scaled := n * Nat.pow 10 (right - left)
    scaled ≥ infinityBound * Nat.pow 10 (left - right)

/-- A floating-point number.  What is too great for one is refused, but not what is too small. -/
def float? (negative : Bool) (whole part : List Char) (power : Bool × List Char) :
    Option Value := do
  let shift ← number? 10 power.2
  let infinite :=
    if power.1 then isInfinite (whole ++ part) 0 (part.length + shift)
    else isInfinite (whole ++ part) shift part.length
  if !negative ∧ infinite then none else some .float

/-- A number in base ten without its sign. -/
def decimal (negative : Bool) (text : List Char) : Option (Value × List Char) :=
  let (digits, rest) :=
    match text with
    | '0' :: rest => (['0'], rest)
    | text => digitRun Char.isDigit text
  if digits.isEmpty then none
  else
    match fraction rest with
    | some (part, after) =>
        let (power, after) := (exponent after).getD ((false, []), after)
        (float? negative digits part power).map (·, after)
    | none =>
        match exponent rest with
        | some (power, after) => (float? negative digits [] power).map (·, after)
        | none => do
            let n ← number? 10 digits
            let value ← integer? negative n
            return (value, rest)

/-- A number after its sign; only numbers in base ten and the special ones have signs. -/
def unsignedNumber (negative : Bool) : List Char → Option (Value × List Char)
  | 'i' :: 'n' :: 'f' :: rest => some (.float, rest)
  | 'n' :: 'a' :: 'n' :: rest => some (.float, rest)
  | text => decimal negative text

/-- A number. -/
def number : List Char → Option (Value × List Char)
  | '+' :: rest => unsignedNumber false rest
  | '-' :: rest => unsignedNumber true rest
  | '0' :: 'x' :: rest => basedInteger 16 rest
  | '0' :: 'o' :: rest => basedInteger 8 rest
  | '0' :: 'b' :: rest => basedInteger 2 rest
  | text => unsignedNumber false text

/-! ## Dates and times -/

/-- A number of exactly `count` digits, between two bounds. -/
def fixedDigits (count least most : Nat) (text : List Char) : Option (Nat × List Char) := do
  let digits := text.take count
  if digits.length = count ∧ digits.all Char.isDigit then
    let n ← number? 10 digits
    if least ≤ n ∧ n ≤ most then some (n, text.drop count) else none
  else none

/-- What follows one character. -/
def afterChar (c : Char) (text : List Char) : Option (List Char) :=
  if text.head? = some c then some text.tail else none

/-- The number of days of a month. -/
def daysIn (year month : Nat) : Nat :=
  if month = 2 then
    if year % 4 = 0 ∧ (year % 100 ≠ 0 ∨ year % 400 = 0) then 29 else 28
  else if [4, 6, 9, 11].contains month then 30
  else 31

/-- What follows a date. -/
def afterDate (text : List Char) : Option (List Char) := do
  let (year, rest) ← fixedDigits 4 0 9999 text
  let (month, rest) ← fixedDigits 2 1 12 (← afterChar '-' rest)
  let (_, rest) ← fixedDigits 2 1 (daysIn year month) (← afterChar '-' rest)
  return rest

/-- What follows a time of day. -/
def afterTime (text : List Char) : Option (List Char) := do
  let (_, rest) ← fixedDigits 2 0 23 text
  let (_, rest) ← fixedDigits 2 0 59 (← afterChar ':' rest)
  let (_, rest) ← fixedDigits 2 0 60 (← afterChar ':' rest)
  match rest with
  | '.' :: digits => if digits.head?.any Char.isDigit then digits.dropWhile Char.isDigit else none
  | rest => rest

/-- What follows an offset from universal time, if there is one. -/
def afterOffset (text : List Char) : Option (List Char) :=
  match text with
  | 'Z' :: rest => some rest
  | 'z' :: rest => some rest
  | sign :: rest =>
      if sign = '+' ∨ sign = '-' then do
        let (_, rest) ← fixedDigits 2 0 23 rest
        let (_, rest) ← fixedDigits 2 0 59 (← afterChar ':' rest)
        return rest
      else some text
  | [] => some []

/-- A date, a time of day, or both. -/
def time (text : List Char) : Option (Value × List Char) :=
  match afterDate text with
  | none => (afterTime text).map (.time, ·)
  | some rest =>
      match rest with
      | delimiter :: later =>
          if delimiter = 'T' ∨ delimiter = 't' ∨ delimiter = ' ' then
            match afterTime later with
            | some rest => (afterOffset rest).map (.time, ·)
            | none => some (.time, rest)
          else some (.time, rest)
      | [] => some (.time, [])

end Lustre.Toml
