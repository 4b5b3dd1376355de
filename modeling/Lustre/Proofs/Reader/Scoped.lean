import Lustre.Proofs.Reader.Program

/-!
# Files and bodies in any scope

A file is read in the scope of a file, and a body in that of a body: recovery in them is told so by
name.  A parser that keeps the scope in a field asks the field instead, whatever it holds.  Here are
the readers with the scope as an argument; those of the library are the ones for their own scope.
-/

namespace Lustre

namespace Recover

variable (deep : Nested) (scope : Scope)

/-! ## Bodies -/

/-- One more declaration of a body that is read in `scope`. -/
def bodyStepIn (done : List (Located Declaration)) :
    Recover (ForInStep (Partial (List (Located Declaration)))) := do
  let c := (← get).cursor
  if ← halted then return .done (done, none)
  else if ← Read.eat .kwEnd then return .done (done, none)
  else
    match c.peek with
    | none => return .done (done, some (c.unexpected [.kwEnd]))
    | some kind =>
        if kind = .kwPackage ∨ kind = .kwModel then
          return .done (done, some ⟨.nestedPackage, c.span⟩)
        else
          let read :=
            if declarationStarts.contains kind then declaration deep scope
            else throw (c.missing .declarationOrEnd)
          match ← attempt read with
          | .ok decl => return .yield (done ++ [decl], none)
          | .error e =>
              report e
              skipDeclaration scope c.rest.length
              return .yield (done ++ [⟨.error, ← Read.spanFrom c.span.start⟩], none)

/-- The declarations of a body that is read in `scope`. -/
def bodyDeclarationsIn : Recover (Partial (List (Located Declaration))) :=
  iterate ([], none) fun read => bodyStepIn deep scope read.1

theorem bodyStep_eq_bodyStepIn : bodyStep deep = bodyStepIn deep .body := rfl

theorem bodyDeclarations_eq_bodyDeclarationsIn :
    bodyDeclarations deep = bodyDeclarationsIn deep .body := by
  unfold bodyDeclarations bodyDeclarationsIn
  rw [bodyStep_eq_bodyStepIn]

/-! ## Models -/

/-- The end of a model that is read in `scope`. -/
def closeModelIn : Partial Model → Recover Model
  | (model, some e) => do
      report e
      synchronize scope itemStarts
      return model
  | (model, none) => return model

/-- A model that is read in `scope`. -/
def modelIn : Recover Model := do
  let _ ← Read.expect .kwModel
  let name ← Read.ident
  closeModelIn scope (← modelTail deep name)

theorem closeModel_eq_closeModelIn : closeModel = closeModelIn .file := by
  funext read
  obtain ⟨model, failure⟩ := read
  cases failure <;> rfl

theorem model_eq_modelIn : model deep = modelIn deep .file := by
  unfold model modelIn
  rw [closeModel_eq_closeModelIn]

/-! ## Files -/

/-- One more directive of a file that is read in `scope`. -/
def includeStepIn (done : List (Located String)) : Recover (ForInStep (List (Located String))) := do
  let c := (← get).cursor
  if !c.isAt .kwInclude || (← halted) then return .done done
  else
    match ← attempt includeDirective with
    | .ok file => return .yield (done ++ [file])
    | .error e =>
        report e
        skipDeclaration scope c.rest.length
        return .yield done

/-- The directives of a file that is read in `scope`. -/
def includesIn : Recover (List (Located String)) := iterate [] (includeStepIn scope)

/-- An item of a file that is read in `scope`. -/
def itemIn (c : Cursor) (kind : Kind) : Recover Item := do
  if kind = .kwPackage then return .package (← package deep)
  else if kind = .kwModel then return .model (← modelIn deep scope)
  else if kind = .kwInclude then throw ⟨.misplacedInclude, c.span⟩
  else if declarationStarts.contains kind then return .decl (← declaration deep scope)
  else throw (c.missing .declaration)

/-- One more item of a file that is read in `scope`. -/
def itemStepIn (done : List (Located Item)) : Recover (ForInStep (List (Located Item))) := do
  let c := (← get).cursor
  if ← halted then return .done done
  else
    match c.peek with
    | none => return .done done
    | some kind =>
        match ← attempt (itemIn deep scope c kind) with
        | .ok one => return .yield (done ++ [⟨one, ← Read.spanFrom c.span.start⟩])
        | .error e =>
            report e
            skipDeclaration scope c.rest.length
            return .yield (done ++ [⟨.error, ← Read.spanFrom c.span.start⟩])

/-- The items of a file that is read in `scope`. -/
def itemsIn : Recover (List (Located Item)) := iterate [] (itemStepIn deep scope)

/-- A program that is read in `scope`. -/
def programIn : Recover Program := do
  let includes ← includesIn scope
  return ⟨includes, ← itemsIn deep scope⟩

theorem includeStep_eq_includeStepIn : includeStep = includeStepIn .file := rfl

theorem includes_eq_includesIn : includes = includesIn .file := by
  unfold includes includesIn
  rw [includeStep_eq_includeStepIn]

theorem item_eq_itemIn : item deep = itemIn deep .file := by
  funext c kind
  unfold item itemIn
  rw [model_eq_modelIn]

theorem itemStep_eq_itemStepIn : itemStep deep = itemStepIn deep .file := by
  funext done
  unfold itemStep itemStepIn
  rewrite [item_eq_itemIn]
  rfl

theorem items_eq_itemsIn : items deep = itemsIn deep .file := by
  unfold items itemsIn
  rw [itemStep_eq_itemStepIn]

theorem program_eq_programIn : program deep = programIn deep .file := by
  unfold program programIn
  rw [includes_eq_includesIn, items_eq_itemsIn]

/-! ## They are regular -/

variable {deep scope} [deep.Advances]

instance regular_closeModelIn (read : Partial Model) : Regular (closeModelIn scope read) := by
  obtain ⟨model, failure⟩ := read
  cases failure <;> unfold closeModelIn <;> infer_instance

instance regular_modelIn : Regular (modelIn deep scope) := by
  unfold modelIn
  infer_instance

instance regular_itemIn (c : Cursor) (kind : Kind) : Regular (itemIn deep scope c kind) := by
  unfold itemIn
  infer_instance

end Recover

end Lustre
