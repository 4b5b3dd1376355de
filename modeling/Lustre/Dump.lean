import Lustre.Datum
import Lustre.Text.Quoted

/-!
# Dumps

The dump of data shows every name: a record or a case of a choice with the names
of its fields, lists and optional parts as they are, and one field or item on
each line, four blanks deeper than what it belongs to.
-/

namespace Lustre

namespace Dump

/-- The beginning of a line `depth` levels deep. -/
def lineStart (depth : Nat) : String := "\n" ++ String.ofList (List.replicate (4 * depth) ' ')

/-- Parts between two brackets, on lines `depth + 1` levels deep and with a comma after each; on
the same line if there are none. -/
def bracket (depth : Nat) (opening closing : String) : List String → String
  | [] => opening ++ closing
  | parts =>
      let lines := parts.map fun part => lineStart (depth + 1) ++ part ++ ","
      opening ++ String.join lines ++ lineStart depth ++ closing

mutual

/-- The dump of data whose first line is `depth` levels deep. -/
def layout (depth : Nat) : Datum → String
  | .bool value => if value then "true" else "false"
  | .number value => toString value
  | .text value => Text.quote value
  | .list items => bracket depth "[" "]" (layoutItems (depth + 1) items)
  | .absent => "None"
  | .present value => bracket depth "Some(" ")" [layout (depth + 1) value]
  | .record name fields | .caseWith name fields =>
      bracket depth (name ++ " \x7b") "\x7d" (layoutFields (depth + 1) fields)
  | .case name => name
  | .caseOf name component => bracket depth (name ++ "(") ")" [layout (depth + 1) component]

/-- The dumps of the items of a list. -/
def layoutItems (depth : Nat) : List Datum → List String
  | [] => []
  | item :: items => layout depth item :: layoutItems depth items

/-- The dumps of fields, with their names. -/
def layoutFields (depth : Nat) : List Field → List String
  | [] => []
  | ⟨label, value⟩ :: fields =>
      (label ++ ": " ++ layout depth value) :: layoutFields depth fields

end

end Dump

namespace Datum

/-- The dump of data. -/
def dump (datum : Datum) : String := Dump.layout 0 datum

end Datum

end Lustre
