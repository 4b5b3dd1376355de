/-!
# TOML values and tables

A document is a table that its lines build up.  A table remembers how it came to
be, because that decides what later lines may add: a table with a header is
defined once, a table made on the way to another by its header can still get a
header of its own, and a table made by dotted keys grows by dotted keys only.
-/

namespace Lustre.Toml

/-- How a table came to be. -/
inductive Form where
  /-- By a header of its own, or written inline. -/
  | defined
  /-- On the way to a table with a header. -/
  | implied
  /-- By a dotted key. -/
  | dotted
deriving DecidableEq

mutual

/-- A TOML value.  Of floating-point numbers and times only the presence is kept. -/
inductive Value where
  | string (text : String)
  | integer (value : Int)
  | float
  | boolean (value : Bool)
  | time
  | array (items : List Value)
  /-- An array that headers in double brackets build up, the last table first. -/
  | tables (items : List Table)
  | table (table : Table)

/-- A TOML table. -/
inductive Table where
  | mk (form : Form) (entries : List Entry)

/-- A key and its value. -/
inductive Entry where
  | mk (key : String) (value : Value)

end

namespace Entry

/-- The key of an entry. -/
def key : Entry → String
  | mk key _ => key

/-- The value of an entry. -/
def value : Entry → Value
  | mk _ value => value

end Entry

namespace Table

/-- A table without entries. -/
def empty (form : Form) : Table := mk form []

/-- The entries of a table. -/
def entries : Table → List Entry
  | mk _ entries => entries

/-- How a table came to be. -/
def form : Table → Form
  | mk form _ => form

/-- The value under a key. -/
def find? (table : Table) (key : String) : Option Value :=
  (table.entries.find? fun entry => entry.key == key).map Entry.value

/-- Puts a value under a key, in place of the one that is there. -/
def put (table : Table) (key : String) (value : Value) : Table :=
  mk table.form ((table.entries.filter fun entry => entry.key != key) ++ [.mk key value])

/-- Changes the table that some keys lead to.  Tables on the way are made where they are missing;
in an array of tables the last one counts.  With `form = .dotted` the way must not lead through a
table that is defined. -/
def descend (form : Form) (change : Table → Option Table) : List String → Table → Option Table
  | [], table => change table
  | key :: keys, table =>
      match table.find? key with
      | none => do
          let inner ← descend form change keys (empty form)
          return table.put key (.table inner)
      | some (.table inner) =>
          if form = .dotted ∧ inner.form = .defined then none
          else do
            let inner ← descend form change keys inner
            return table.put key (.table inner)
      | some (.tables (last :: earlier)) => do
          let last ← descend form change keys last
          return table.put key (.tables (last :: earlier))
      | some _ => none

/-- Defines a value under a dotted key.  Nothing may be there yet, and a table that dotted keys
reach must have been made by dotted keys. -/
def define (path : List String) (key : String) (value : Value) (table : Table) : Option Table :=
  descend .dotted (fun inner =>
    if (inner.form == .dotted) == path.isEmpty then none
    else
      match inner.find? key with
      | none => some (inner.put key value)
      | some _ => none) path table

/-- Makes the table that a header names. -/
def openTable (path : List String) (key : String) (table : Table) : Option Table :=
  descend .implied (fun inner =>
    match inner.find? key with
    | none => some (inner.put key (.table (empty .defined)))
    | some (.table (mk .implied entries)) => some (inner.put key (.table (mk .defined entries)))
    | some _ => none) path table

/-- Adds a table to the array that a header in double brackets names. -/
def pushTable (path : List String) (key : String) (table : Table) : Option Table :=
  descend .implied (fun inner =>
    match inner.find? key with
    | none => some (inner.put key (.tables [empty .defined]))
    | some (.tables items) => some (inner.put key (.tables (empty .defined :: items)))
    | some _ => none) path table

/-- Defines a value under a dotted key in the table of the current header. -/
def defineIn (header path : List String) (key : String) (value : Value) (table : Table) :
    Option Table :=
  descend .implied (define path key value) header table

end Table

end Lustre.Toml
