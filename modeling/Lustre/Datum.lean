import Lustre.Span

/-!
# Trees as data

A `Datum` is a tree for machines: records with named fields, cases of a choice,
lists and optional parts.  One description of a tree serves two renderings, one
in JSON and one that shows every name.
-/

namespace Lustre

mutual

/-- A piece of structured data. -/
inductive Datum where
  | bool (value : Bool)
  | number (value : Nat)
  | text (value : String)
  | list (items : List Datum)
  | absent
  | present (value : Datum)
  | record (name : String) (fields : List Field)
  /-- A case of a choice without contents. -/
  | case (name : String)
  /-- A case of a choice with one component. -/
  | caseOf (name : String) (component : Datum)
  /-- A case of a choice with named components. -/
  | caseWith (name : String) (fields : List Field)

/-- A named component. -/
structure Field where
  label : String
  value : Datum

end

namespace Datum

/-- Data that may be absent. -/
def optional {α : Type} (datum : α → Datum) : Option α → Datum
  | some a => present (datum a)
  | none => absent

/-- A list of data. -/
def listOf {α : Type} (datum : α → Datum) (items : List α) : Datum := list (items.map datum)

end Datum

namespace Span

/-- A span as data. -/
def datum (span : Span) : Datum :=
  .record "Span" [⟨"start", .number span.start⟩, ⟨"end", .number span.stop⟩,
    ⟨"file_id", .number span.file.toNat⟩]

/-- Data together with a span. -/
def locate (span : Span) (value : Datum) : Datum :=
  .record "Spanned" [⟨"node", value⟩, ⟨"span", span.datum⟩]

end Span

namespace Located

/-- A located value as data. -/
def datum {α : Type} (value : α → Datum) (located : Located α) : Datum :=
  located.span.locate (value located.value)

end Located

end Lustre
