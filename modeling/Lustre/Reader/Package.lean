import Lustre.Reader.Declaration

/-!
# Reading packages and models

The body of a package or a model is a scope of its own: only the body itself
passes its `end`.
-/

namespace Lustre

namespace Recover

variable (deep : Nested)

/-! ## Bodies -/

/-- One more declaration after `done`, or the end of the body. -/
def bodyStep (done : List (Located Declaration)) :
    Recover (ForInStep (Partial (List (Located Declaration)))) := do
  let c := (← get).cursor
  if ← halted then return .done (done, none)
  else if ← Read.eat .kwEnd then return .done (done, none)
  else
    match c.peek with
    | none => return .done (done, some (c.unexpected [.kwEnd]))
    | some kind =>
        if kind = .kwPackage ∨ kind = .kwModel then
          return .done (done, some ⟨.nestedPackage, c.span⟩)
        else
          let read :=
            if declarationStarts.contains kind then declaration deep .body
            else throw (c.missing .declarationOrEnd)
          match ← attempt read with
          | .ok decl => return .yield (done ++ [decl], none)
          | .error e =>
              report e
              skipDeclaration .body c.rest.length
              return .yield (done ++ [⟨.error, ← Read.spanFrom c.span.start⟩], none)

/-- The declarations of a body up to and including its `end`.  Fails, with the declarations so
far, where the `end` is missing. -/
def bodyDeclarations : Recover (Partial (List (Located Declaration))) :=
  iterate ([], none) fun read => bodyStep deep read.1

/-- `body`, declarations and `end`. -/
def body : Recover (Partial (List (Located Declaration))) := do
  match ← attempt (Read.expect .kwBody) with
  | .error e => return ([], some e)
  | .ok _ => bodyDeclarations deep

/-! ## Packages -/

/-- The word between the name of a package and the model that it instantiates. -/
def instanceWord : Read (Option InstanceWord) := do
  if ← Read.eat .eq then return some .eq
  else if ← Read.eat .kwIs then return some .isWord
  else return none

/-- A package that instantiates a model; it cannot have a body too. -/
def instantiation (name : Ident) (word : InstanceWord) : Recover Package := do
  let model ← Read.ident
  let (brackets, args) ← Read.modelArgs deep
  let _ ← Read.expect .semi
  let c := (← get).cursor
  if c.isAt .kwBody then
    report ⟨.instanceWithBody name.name, c.span⟩
    synchronize .file [.kwEnd]
    let _ ← Read.eat .kwEnd
  return ⟨name, .instantiated word model brackets args⟩

/-- A package. -/
def package : Recover Package := do
  let _ ← Read.expect .kwPackage
  let name ← Read.ident
  match ← instanceWord with
  | some word => instantiation deep name word
  | none =>
      let uses ← Read.uses
      let provides ← Read.provides deep
      let read ← body deep
      reportAny read.2
      return ⟨name, .definition uses provides read.1⟩

/-! ## Models -/

/-- One more parameter of a model after `done`, with its semicolon. -/
def needsStep (done : List (Located StaticParam)) :
    Recover (ForInStep (Partial (List (Located StaticParam)))) := do
  match ← attempt (Read.staticParam deep) with
  | .error e => return .done (done, some e)
  | .ok param =>
      match ← attempt (Read.expect .semi) with
      | .error e => return .done (done ++ [param], some e)
      | .ok _ =>
          let next ← Read.peek
          if next.any [.kwType, .kwConst, .kwNode, .kwFunction, .kwUnsafe].contains then
            return .yield (done ++ [param], none)
          else return .done (done ++ [param], none)

/-- The parameters of a model, after the word `needs`. -/
def needs : Recover (Partial (List (Located StaticParam))) :=
  iterate ([], none) fun read => needsStep deep read.1

/-- The parameters of a model, which must have some. -/
def requiredNeeds (name : Ident) : Recover (Partial (List (Located StaticParam))) := do
  if ← Read.eat .kwNeeds then needs deep
  else
    report ⟨.modelWithoutNeeds name.name, name.span⟩
    return ([], none)

/-- What follows the parameters of a model. -/
def modelContents (name : Ident) (uses : List Ident) :
    Partial (List (Located StaticParam)) → Recover (Partial Model)
  | (needs, some e) => return (⟨name, uses, needs, none, []⟩, some e)
  | (needs, none) => do
      match ← attempt (Read.provides deep) with
      | .error e => return (⟨name, uses, needs, none, []⟩, some e)
      | .ok provides =>
          let read ← body deep
          return (⟨name, uses, needs, provides, read.1⟩, read.2)

/-- What follows the name of a model. -/
def modelTail (name : Ident) : Recover (Partial Model) := do
  match ← attempt Read.uses with
  | .error e => return (⟨name, [], [], none, []⟩, some e)
  | .ok uses => modelContents deep name uses (← requiredNeeds deep name)

/-- A model as far as it could be read, with a report of what made it break off. -/
def closeModel : Partial Model → Recover Model
  | (model, some e) => do
      report e
      synchronize .file itemStarts
      return model
  | (model, none) => return model

/-- A model.  Once its name is read, nothing makes it fail. -/
def model : Recover Model := do
  let _ ← Read.expect .kwModel
  let name ← Read.ident
  closeModel (← modelTail deep name)

end Recover

end Lustre
