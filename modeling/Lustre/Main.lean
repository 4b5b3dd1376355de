import Lustre.Command.Outcome

/-!
# The command line

Runs the request in the arguments on the files of the machine.
-/

namespace Lustre

/-- The failure that the system reports.  Its error numbers may come negated. -/
def ReadError.ofSystem (error : IO.Error) : ReadError :=
  match error with
  | .noFileOrDirectory _ _ _ => .notFound
  | .inappropriateType _ number _ =>
      if number = 21 ∨ -number = 21 then .isDirectory else .notDirectory
  | error => .other (toString error)

instance : Files IO where
  readBytes path := do
    try return .ok (← IO.FS.readBinFile path)
    catch error => return .error (ReadError.ofSystem error)
  isFile path := do
    try
      let data ← ((← IO.currentDir) / path).metadata
      return data.type == .file
    catch _ => return false
  currentDir := do return (← IO.currentDir).toString

/-- Prints a report, with the position of each diagnostic. -/
def Report.print : Report → IO Unit
  | line text => IO.eprintln text
  | diagnostics path text found => do
      let index := LineIndex.ofText text
      for diagnostic in found do
        let position := index.position diagnostic.span.start
        IO.eprintln s!"{path}:{position.line}:{position.column}: {diagnostic.describe}"

end Lustre

/-- Answers the request in the arguments. -/
def main (arguments : List String) : IO UInt32 := do
  let outcome ← (Lustre.Request.ofWords arguments).answer
  IO.print outcome.output
  for report in outcome.reports do report.print
  return outcome.code.toUInt32
