import Lustre.Reader.Package

/-!
# Reading programs

A program is read from any list of tokens: what cannot be read is reported and
leaves an error in its place.  A single expression must make up the whole text.
-/

namespace Lustre

namespace Recover

variable (deep : Nested)

/-- The path in a quoted file name. -/
def unquote (text : String) : String := String.ofList (text.toList.drop 1).dropLast

/-- An `include` directive. -/
def includeDirective : Read (Located String) := Read.located do
  let _ ← Read.expect .kwInclude
  match ← Read.take? .stringLit with
  | some file =>
      let _ ← Read.eat .semi
      return unquote file.text
  | none => Read.missing .fileName

/-- One more directive after `done`, if one comes next. -/
def includeStep (done : List (Located String)) : Recover (ForInStep (List (Located String))) := do
  let c := (← get).cursor
  if !c.isAt .kwInclude || (← halted) then return .done done
  else
    match ← attempt includeDirective with
    | .ok file => return .yield (done ++ [file])
    | .error e =>
        report e
        skipDeclaration .file c.rest.length
        return .yield done

/-- The `include` directives at the beginning of a file. -/
def includes : Recover (List (Located String)) := iterate [] includeStep

/-- An item of a file, which begins with a token of kind `kind` at the cursor `c`. -/
def item (c : Cursor) (kind : Kind) : Recover Item := do
  if kind = .kwPackage then return .package (← package deep)
  else if kind = .kwModel then return .model (← model deep)
  else if kind = .kwInclude then throw ⟨.misplacedInclude, c.span⟩
  else if declarationStarts.contains kind then return .decl (← declaration deep .file)
  else throw (c.missing .declaration)

/-- One more item after `done`, or the end of the file. -/
def itemStep (done : List (Located Item)) : Recover (ForInStep (List (Located Item))) := do
  let c := (← get).cursor
  if ← halted then return .done done
  else
    match c.peek with
    | none => return .done done
    | some kind =>
        match ← attempt (item deep c kind) with
        | .ok one => return .yield (done ++ [⟨one, ← Read.spanFrom c.span.start⟩])
        | .error e =>
            report e
            skipDeclaration .file c.rest.length
            return .yield (done ++ [⟨.error, ← Read.spanFrom c.span.start⟩])

/-- The items of a file. -/
def items : Recover (List (Located Item)) := iterate [] (itemStep deep)

/-- A program. -/
def program : Recover Program := do
  let includes ← includes
  return ⟨includes, ← items deep⟩

/-- An expression that no token follows. -/
def wholeExpr : Read Expr := do
  let expr ← deep.expr
  if (← get).atEnd then return expr else Read.missing .endOfExpression

/-- An expression that no token follows, or a report of why there is none. -/
def standaloneExpr : Recover (Option Expr) := do
  match ← attempt (wholeExpr deep) with
  | .ok expr => return some expr
  | .error e =>
      report e
      return none

end Recover

end Lustre
