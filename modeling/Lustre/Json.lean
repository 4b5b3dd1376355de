import Lustre.Datum
import Lustre.Diagnostic

/-!
# JSON

Data in JSON: a record is an object with one member for each field, a case of a
choice is its name or an object with its name as the only key, and what is
absent is `null`.  The text of a value has one item on each line and the members
of an object in the order of their keys.
-/

namespace Lustre

mutual

/-- A JSON value, with natural numbers only. -/
inductive Json where
  | null
  | bool (value : Bool)
  | number (value : Nat)
  | string (value : String)
  | array (items : List Json)
  | object (members : List Member)

/-- A member of a JSON object. -/
structure Member where
  key : String
  value : Json

end

/-! ## Data as JSON -/

mutual

/-- Data as a JSON value. -/
def Datum.json : Datum → Json
  | .bool value => .bool value
  | .number value => .number value
  | .text value => .string value
  | .list items => .array (Datum.jsonItems items)
  | .absent => .null
  | .present value => value.json
  | .record _ fields => .object (Field.members fields)
  | .case name => .string name
  | .caseOf name component => .object [⟨name, component.json⟩]
  | .caseWith name fields => .object [⟨name, .object (Field.members fields)⟩]

/-- A list of data as JSON values. -/
def Datum.jsonItems : List Datum → List Json
  | [] => []
  | item :: items => item.json :: Datum.jsonItems items

/-- Fields as members of an object. -/
def Field.members : List Field → List Member
  | [] => []
  | ⟨label, value⟩ :: fields => ⟨label, value.json⟩ :: Field.members fields

end

namespace Diagnostic

/-- A diagnostic as a JSON value.  Without words that would have been accepted, it has no member
for them. -/
def json (diagnostic : Diagnostic) : Json :=
  let expected :=
    match diagnostic.expected with
    | [] => []
    | words => [⟨"expected", .array (words.map .string)⟩]
  .object ([⟨"kind", .string diagnostic.category.label⟩, ⟨"message", .string diagnostic.message⟩,
    ⟨"span", diagnostic.span.datum.json⟩] ++ expected)

end Diagnostic

/-! ## Text -/

namespace Json

/-- The two hexadecimal digits of a small number. -/
def hexPair (n : Nat) : String :=
  String.ofList [Nat.digitChar (n / 16), Nat.digitChar (n % 16)]

/-- A character inside a string.  Control characters are escaped, all others are as they are. -/
def escapeChar (c : Char) : String :=
  match c with
  | '"' => "\\\""
  | '\\' => "\\\\"
  | '\n' => "\\n"
  | '\r' => "\\r"
  | '\t' => "\\t"
  | '\x08' => "\\b"
  | '\x0C' => "\\f"
  | c => if c.toNat < 0x20 then "\\u00" ++ hexPair c.toNat else String.singleton c

/-- A string in quotes. -/
def quote (text : String) : String :=
  "\"" ++ String.join (text.toList.map escapeChar) ++ "\""

/-- Text that was laid out, by the key of its member. -/
structure Entry where
  key : String
  text : String

/-- Entries in the order of their keys. -/
def sortEntries (entries : List Entry) : List Entry :=
  entries.mergeSort fun first second => first.key ≤ second.key

/-- The beginning of a line `depth` levels deep. -/
def lineStart (depth : Nat) : String := "\n" ++ String.ofList (List.replicate (2 * depth) ' ')

/-- Parts between two brackets, on lines `depth + 1` levels deep; on the same line if there are
none. -/
def bracket (depth : Nat) (opening closing : String) : List String → String
  | [] => opening ++ closing
  | parts =>
      let lines := parts.map (lineStart (depth + 1) ++ ·)
      opening ++ ",".intercalate lines ++ lineStart depth ++ closing

mutual

/-- The text of a value whose first line is `depth` levels deep. -/
def layout (depth : Nat) : Json → String
  | null => "null"
  | bool value => if value then "true" else "false"
  | number value => toString value
  | string value => quote value
  | array items => bracket depth "[" "]" (layoutItems (depth + 1) items)
  | object members =>
      let entries := sortEntries (layoutMembers (depth + 1) members)
      bracket depth "\x7b" "\x7d" (entries.map Entry.text)

/-- The texts of the items of an array. -/
def layoutItems (depth : Nat) : List Json → List String
  | [] => []
  | item :: items => layout depth item :: layoutItems depth items

/-- The texts of the members of an object. -/
def layoutMembers (depth : Nat) : List Member → List Entry
  | [] => []
  | ⟨key, value⟩ :: members =>
      ⟨key, quote key ++ ": " ++ layout depth value⟩ :: layoutMembers depth members

end

/-- The text of a value. -/
def text (value : Json) : String := layout 0 value

end Json

end Lustre
