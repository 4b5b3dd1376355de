/-!
# Spans and positions

A `Span` is a half-open range of byte offsets into a UTF-8 text.  `Span.slice`
reads the text under a span: it is empty unless both ends are character
boundaries of the text, in order.  A `LineIndex` turns byte offsets into lines
and columns, both counted from one and columns in bytes.
-/

namespace Lustre

/-! ## Measuring text in bytes -/

/-- The number of bytes that `text` takes in UTF-8. -/
def byteLength (text : List Char) : Nat :=
  text.foldr (fun c size => c.utf8Size + size) 0

/-- What follows the first `count` bytes of `text`, if a character ends there. -/
def dropBytes (count : Nat) : List Char → Option (List Char)
  | [] => if count = 0 then some [] else none
  | c :: rest =>
      if count = 0 then some (c :: rest)
      else if c.utf8Size ≤ count then dropBytes (count - c.utf8Size) rest
      else none

/-- The first `count` bytes of `text`, if a character ends there. -/
def takeBytes (count : Nat) : List Char → Option (List Char)
  | [] => if count = 0 then some [] else none
  | c :: rest =>
      if count = 0 then some []
      else if c.utf8Size ≤ count then (takeBytes (count - c.utf8Size) rest).map (c :: ·)
      else none

/-! ## Spans -/

/-- The bytes from `start` up to, not including, `stop` of one file. -/
structure Span where
  start : Nat
  stop : Nat
  file : UInt32 := 0
deriving DecidableEq

namespace Span

/-- The empty span at `offset`. -/
def point (offset : Nat) : Span := ⟨offset, offset, 0⟩

/-- The smallest span over both `first` and `second`, in the file of `first`. -/
def cover (first second : Span) : Span :=
  ⟨min first.start second.start, max first.stop second.stop, first.file⟩

/-- The text under a span; empty when the span does not fit the text. -/
def slice (span : Span) (text : String) : String :=
  if span.start ≤ span.stop then
    let found := (dropBytes span.start text.toList).bind (takeBytes (span.stop - span.start))
    String.ofList (found.getD [])
  else ""

end Span

/-- A value together with the span it was read from. -/
structure Located (α : Type) where
  value : α
  span : Span
deriving DecidableEq

/-! ## Lines and columns -/

/-- A place in a text for a reader: line and column count from one. -/
structure Position where
  line : UInt32
  column : UInt32
deriving DecidableEq

/-- What a search among ascending numbers answers: where the number is, or where it would have to
be put. -/
inductive Search where
  | found (index : Nat)
  | absent (index : Nat)
deriving DecidableEq

namespace Search

/-- Halves `size` of the numbers, from number `base` on, until one is left: the last that is not
larger than `wanted`, if there is any. -/
def narrow (numbers : Array Nat) (wanted base size : Nat) : Nat :=
  if size ≤ 1 then base
  else
    let middle := base + size / 2
    narrow numbers wanted (if wanted < numbers.getD middle 0 then base else middle)
      (size - size / 2)
termination_by size

/-- Searches among ascending numbers. -/
def among (numbers : Array Nat) (wanted : Nat) : Search :=
  let base := narrow numbers wanted 0 numbers.size
  match numbers[base]? with
  | none => absent 0
  | some number =>
      if number = wanted then found base
      else if number < wanted then absent (base + 1)
      else absent base

end Search

/-- The byte offset at which each line of a text begins, in ascending order. -/
structure LineIndex where
  starts : Array Nat

namespace LineIndex

/-- Where lines begin in `text`, which starts at byte `offset`, its first line left out. -/
def laterStarts (offset : Nat) : List Char → List Nat
  | [] => []
  | c :: rest =>
      let next := offset + c.utf8Size
      if c = '\n' then next :: laterStarts next rest else laterStarts next rest

/-- The lines of `text`. -/
def ofText (text : String) : LineIndex := ⟨(0 :: laterStarts 0 text.toList).toArray⟩

/-- The number of the line that an offset is in, the first being line 0: the line that begins there,
or the one before the place where such a line would have to be put.  Offsets past the end of the
text belong to its last line. -/
def line (index : LineIndex) (offset : Nat) : Nat :=
  match Search.among index.starts offset with
  | .found line => line
  | .absent line => line - 1

/-- The position of a byte offset. -/
def position (index : LineIndex) (offset : Nat) : Position :=
  let line := index.line offset
  let column := offset - index.starts.getD line 0
  ⟨line.toUInt32 + 1, column.toUInt32 + 1⟩

end LineIndex

end Lustre
