import Lustre.Reader.Recovery

/-!
# Reading declarations

A broken equation costs itself, a broken entry of a block costs itself, and a
node whose name could be read is kept with whatever of it was read.
-/

namespace Lustre

namespace Recover

variable (deep : Nested) (scope : Scope)

/-! ## Equations -/

/-- One more equation after `done`, or the end of the equations. -/
def equationStep (done : List (Located Equation)) :
    Recover (ForInStep (Partial (List (Located Equation)))) := do
  let c := (← get).cursor
  if ← halted then return .done (done, none)
  else if ← Read.eat .kwTel then return .done (done, none)
  else if c.peek.all nodeStops.contains then return .done (done, some (c.unexpected [.kwTel]))
  else
    match ← attempt (Read.equation deep) with
    | .ok equation => return .yield (done ++ [equation], none)
    | .error e =>
        report e
        skipStatement scope c.rest.length
        return .yield (done ++ [⟨.error, ← Read.spanFrom c.span.start⟩], none)

/-- The equations of a node up to and including its `tel`.  Fails, with the equations so far,
where the `tel` is missing. -/
def equations : Recover (Partial (List (Located Equation))) :=
  iterate ([], none) fun read => equationStep deep scope read.1

/-! ## Blocks of types and constants -/

/-- One more entry of a block after `entries`.  The block goes on as long as a name and a token of
`follows` come next. -/
def blockStep {α : Type} (follows : List Kind) (entry : Read α) (entries : List α) :
    Recover (ForInStep (List α)) := do
  let start ← remaining
  let entries ←
    match ← attempt entry with
    | .ok one => pure (entries ++ [one])
    | .error e => do
        if (← remaining) = start ∧ entries.isEmpty then throw e
        else
          report e
          skipEntry scope start
          pure entries
  let c := (← get).cursor
  if (← halted) || !(c.isAt .ident && (c.peekAt 1).any follows.contains) then
    return .done entries
  else return .yield entries

/-- The entries of a block.  A block whose first entry does not even begin is a failure. -/
def block {α : Type} (follows : List Kind) (entry : Read α) : Recover (List α) :=
  iterate [] (blockStep scope follows entry)

/-- The entries of a `type` block. -/
def typeBlock : Recover (List (Located TypeDef)) :=
  block scope [.eq, .semi, .pragma] (Read.typeEntry deep)

/-- The entries of a `const` block. -/
def constBlock : Recover (List (Located ConstDef)) :=
  block scope [.comma, .colon, .eq, .pragma] (Read.constEntry deep)

/-! ## Nodes -/

/-- A block of local variables or constants. -/
def localBlock : Recover LocalBlock := do
  if ← Read.eat .kwVar then
    let entry : Read (Located VarDecl) := Read.varDecl deep
    return .vars (← Read.terminated [.ident, .lParen] entry)
  else
    Read.advance
    return .consts (← constBlock deep scope)

/-- One more block after `blocks`, if one comes next. -/
def localStep (blocks : List (Located LocalBlock)) :
    Recover (ForInStep (List (Located LocalBlock))) := do
  match ← Read.peek with
  | some .kwVar | some .kwConst => return .yield (blocks ++ [← located (localBlock deep scope)])
  | _ => return .done blocks

/-- The blocks before the `let` of a node. -/
def localBlocks : Recover (List (Located LocalBlock)) := iterate [] (localStep deep scope)

/-- The target of an alias, if the head of a node goes on with one. -/
def synonymTarget : Read NodeBody := do
  match ← Read.optionalAfter .eq (Read.nodeUse deep) with
  | some target =>
      let _ ← Read.eat .semi
      return .synonym target
  | none => return .missing

/-- The static parameters, the profile and the alias of a node, each of which may be absent. -/
def nodeHeader (head : NodeHead) : Recover (Partial NodeDecl) := do
  match ← attempt (Read.optionalAt .ltLt (Read.staticParams deep)) with
  | .error e => return (⟨head, none, none, .missing⟩, some e)
  | .ok params =>
      match ← attempt (Read.optionalAt .lParen (Read.profile deep)) with
      | .error e => return (⟨head, params, none, .missing⟩, some e)
      | .ok profile =>
          match ← attempt (synonymTarget deep) with
          | .error e => return (⟨head, params, profile, .missing⟩, some e)
          | .ok body => return (⟨head, params, profile, body⟩, none)

/-- The body of a node that has a profile and is no alias. -/
def nodeDefinition (decl : NodeDecl) : Recover (Partial NodeDecl) := do
  let locals ← attempt do
    let _ ← Read.eat .semi
    let locals ← localBlocks deep scope
    let _ ← Read.expect .kwLet
    return locals
  match locals with
  | .error e => return (decl, some e)
  | .ok locals =>
      let (equations, failure) ← equations deep scope
      if failure.isNone then endMark else pure ()
      return ({ decl with body := .definition ⟨locals, equations⟩ }, failure)

/-- What follows the header of a node. -/
def nodeTail (decl : NodeDecl) : Recover (Partial NodeDecl) := do
  let c := (← get).cursor
  match decl.body, decl.profile with
  | .synonym _, _ =>
      if c.isAt .kwVar ∨ c.isAt .kwLet then
        return (decl, some ⟨.aliasWithBody decl.head.name.name, c.span⟩)
      else return (decl, none)
  | _, none =>
      if c.isAt .kwVar ∨ c.isAt .kwConst ∨ c.isAt .kwLet then
        return (decl, some ⟨.bodyWithoutProfile decl.head.name.name, decl.head.name.span⟩)
      else return (decl, some (c.unexpected [.lParen, .eq]))
  | _, some _ => nodeDefinition deep scope decl

/-- A node as far as it could be read, with a report of what made it break off. -/
def closeNode : Partial NodeDecl → Recover NodeDecl
  | (decl, some e) => do
      report e
      skipNode scope
      return decl
  | (decl, none) => return decl

/-- The rest of a node whose header was read, or a report of what is wrong with the header. -/
def openNode : Partial NodeDecl → Recover NodeDecl
  | (decl, some e) => do
      report e
      skipHeader scope
      return decl
  | (decl, none) => do closeNode scope (← nodeTail deep scope decl)

/-- A node.  Once its name is read, nothing makes it fail. -/
def node : Recover NodeDecl := do
  let head ← Read.nodeHead
  openNode deep scope (← nodeHeader deep head)

/-- A node that is implemented elsewhere. -/
def externalNode : Read ExternalNode := do
  let isUnsafe ← Read.eat .kwUnsafe
  let _ ← Read.expect .kwExtern
  let kind ← Read.nodeKind
  let name ← Read.ident
  let profile ← Read.profile deep
  let _ ← Read.eat .semi
  return ⟨⟨isUnsafe, kind, name⟩, profile⟩

/-! ## Declarations -/

/-- A declaration without its place. -/
def anyDeclaration : Recover Declaration := do
  let c := (← get).cursor
  match c.peek with
  | some .kwUnsafe =>
      if c.peekAt 1 = some .kwExtern then return .external (← externalNode deep)
      else return .node (← node deep scope)
  | some .kwExtern => return .external (← externalNode deep)
  | some .kwNode | some .kwFunction => return .node (← node deep scope)
  | some .kwType =>
      Read.advance
      return .types (← typeBlock deep scope)
  | some .kwConst =>
      Read.advance
      return .consts (← constBlock deep scope)
  | _ => throw (c.missing .declaration)

/-- A declaration. -/
def declaration : Recover (Located Declaration) := located (anyDeclaration deep scope)

end Recover

end Lustre
