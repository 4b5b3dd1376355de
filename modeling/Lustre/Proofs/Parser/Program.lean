import Lustre.Proofs.Parser.Signature

/-!
# Parsing declarations and programs

Recovery asks the state whether an `end` closes a body: no procedure is told the scope, and only
`body` changes it.
-/

namespace Lustre

namespace Parser

open Recover (nodeStops itemStarts declarationStarts)

/-! ## Recovery -/

/-- Passes a token if there are still `start` tokens to come. -/
def leave (start : Nat) : Parser Unit := do
  if (← remaining) = start then advance else pure ()

def skipDeclaration (start : Nat) : Parser Unit := do
  leave start
  synchronize itemStarts

def endMark : Parser Unit := do
  if ← eat .semi then pure ()
  else
    let _ ← eat .dot

def endNode : Parser Unit := do
  if ← eat .kwTel then endMark else pure ()

def skipNode : Parser Unit := do
  synchronize (.kwTel :: nodeStops)
  endNode

def skipHeader : Parser Unit := do
  synchronize (.kwLet :: .kwTel :: itemStarts)
  if ← isAt .kwLet then skipNode else endNode

def skipStatement (start : Nat) : Parser Unit := do
  if ← isAt .kwTel then pure () else leave start
  synchronize (.kwTel :: .semi :: nodeStops)
  let _ ← eat .semi

def skipEntry (start : Nat) : Parser Unit := do
  leave start
  synchronize (.semi :: .kwVar :: .kwLet :: .kwTel :: itemStarts)
  let _ ← eat .semi

variable (calls : Calls)

/-! ## Equations -/

def equationStep (done : List (Located Equation)) :
    Parser (ForInStep (Partial (List (Located Equation)))) := do
  let c ← cursor
  if ← halted then return .done (done, none)
  else if ← eat .kwTel then return .done (done, none)
  else if c.peek.all nodeStops.contains then return .done (done, some (c.unexpected [.kwTel]))
  else
    match ← attempt (equation calls) with
    | .ok equation => return .yield (done ++ [equation], none)
    | .error e =>
        report e
        skipStatement c.rest.length
        return .yield (done ++ [⟨.error, ← spanFrom c.span.start⟩], none)

def equations : Parser (Partial (List (Located Equation))) :=
  loop ([], none) fun read => equationStep calls read.1

/-! ## Blocks of types and constants -/

def blockStep {α : Type} (follows : List Kind) (entry : Parser α) (entries : List α) :
    Parser (ForInStep (List α)) := do
  let start ← remaining
  let entries ←
    match ← attempt entry with
    | .ok one => pure (entries ++ [one])
    | .error e => do
        if (← remaining) = start ∧ entries.isEmpty then throw e
        else
          report e
          skipEntry start
          pure entries
  let c ← cursor
  if (← halted) || !(c.isAt .ident && (c.peekAt 1).any follows.contains) then
    return .done entries
  else return .yield entries

def block {α : Type} (follows : List Kind) (entry : Parser α) : Parser (List α) :=
  loop [] (blockStep follows entry)

def typeBlock : Parser (List (Located TypeDef)) :=
  block [.eq, .semi, .pragma] (typeEntry calls)

def constBlock : Parser (List (Located ConstDef)) :=
  block [.comma, .colon, .eq, .pragma] (constEntry calls)

/-! ## Nodes -/

def localBlock : Parser LocalBlock := do
  if ← eat .kwVar then
    let entry : Parser (Located VarDecl) := varDecl calls
    return .vars (← terminated [.ident, .lParen] entry)
  else
    advance
    return .consts (← constBlock calls)

def localStep (blocks : List (Located LocalBlock)) :
    Parser (ForInStep (List (Located LocalBlock))) := do
  match ← peek with
  | some .kwVar | some .kwConst => return .yield (blocks ++ [← located (localBlock calls)])
  | _ => return .done blocks

def localBlocks : Parser (List (Located LocalBlock)) := loop [] (localStep calls)

def synonymTarget : Parser NodeBody := do
  match ← optionalAfter .eq (nodeUse calls) with
  | some target =>
      let _ ← eat .semi
      return .synonym target
  | none => return .missing

def nodeHeader (head : NodeHead) : Parser (Partial NodeDecl) := do
  match ← attempt (optionalAt .ltLt (staticParams calls)) with
  | .error e => return (⟨head, none, none, .missing⟩, some e)
  | .ok params =>
      match ← attempt (optionalAt .lParen (profile calls)) with
      | .error e => return (⟨head, params, none, .missing⟩, some e)
      | .ok profile =>
          match ← attempt (synonymTarget calls) with
          | .error e => return (⟨head, params, profile, .missing⟩, some e)
          | .ok body => return (⟨head, params, profile, body⟩, none)

def nodeDefinition (decl : NodeDecl) : Parser (Partial NodeDecl) := do
  let locals ← attempt do
    let _ ← eat .semi
    let locals ← localBlocks calls
    let _ ← expect .kwLet
    return locals
  match locals with
  | .error e => return (decl, some e)
  | .ok locals =>
      let (equations, failure) ← equations calls
      if failure.isNone then endMark else pure ()
      return ({ decl with body := .definition ⟨locals, equations⟩ }, failure)

def nodeTail (decl : NodeDecl) : Parser (Partial NodeDecl) := do
  let c ← cursor
  match decl.body, decl.profile with
  | .synonym _, _ =>
      if c.isAt .kwVar ∨ c.isAt .kwLet then
        return (decl, some ⟨.aliasWithBody decl.head.name.name, c.span⟩)
      else return (decl, none)
  | _, none =>
      if c.isAt .kwVar ∨ c.isAt .kwConst ∨ c.isAt .kwLet then
        return (decl, some ⟨.bodyWithoutProfile decl.head.name.name, decl.head.name.span⟩)
      else return (decl, some (c.unexpected [.lParen, .eq]))
  | _, some _ => nodeDefinition calls decl

def closeNode : Partial NodeDecl → Parser NodeDecl
  | (decl, some e) => do
      report e
      skipNode
      return decl
  | (decl, none) => return decl

def openNode : Partial NodeDecl → Parser NodeDecl
  | (decl, some e) => do
      report e
      skipHeader
      return decl
  | (decl, none) => do closeNode (← nodeTail calls decl)

def node : Parser NodeDecl := do
  let head ← nodeHead
  openNode calls (← nodeHeader calls head)

def externalNode : Parser ExternalNode := do
  let isUnsafe ← eat .kwUnsafe
  let _ ← expect .kwExtern
  let kind ← nodeKind
  let name ← ident
  let profile ← profile calls
  let _ ← eat .semi
  return ⟨⟨isUnsafe, kind, name⟩, profile⟩

/-! ## Declarations -/

def anyDeclaration : Parser Declaration := do
  let c ← cursor
  match c.peek with
  | some .kwUnsafe =>
      if c.peekAt 1 = some .kwExtern then return .external (← externalNode calls)
      else return .node (← node calls)
  | some .kwExtern => return .external (← externalNode calls)
  | some .kwNode | some .kwFunction => return .node (← node calls)
  | some .kwType =>
      advance
      return .types (← typeBlock calls)
  | some .kwConst =>
      advance
      return .consts (← constBlock calls)
  | _ => throw (c.missing .declaration)

def declaration : Parser (Located Declaration) := located (anyDeclaration calls)

/-! ## Bodies -/

def bodyStep (done : List (Located Declaration)) :
    Parser (ForInStep (Partial (List (Located Declaration)))) := do
  let c ← cursor
  if ← halted then return .done (done, none)
  else if ← eat .kwEnd then return .done (done, none)
  else
    match c.peek with
    | none => return .done (done, some (c.unexpected [.kwEnd]))
    | some kind =>
        if kind = .kwPackage ∨ kind = .kwModel then
          return .done (done, some ⟨.nestedPackage, c.span⟩)
        else
          let read :=
            if declarationStarts.contains kind then declaration calls
            else throw (c.missing .declarationOrEnd)
          match ← attempt read with
          | .ok decl => return .yield (done ++ [decl], none)
          | .error e =>
              report e
              skipDeclaration c.rest.length
              return .yield (done ++ [⟨.error, ← spanFrom c.span.start⟩], none)

def bodyDeclarations : Parser (Partial (List (Located Declaration))) :=
  loop ([], none) fun read => bodyStep calls read.1

def body : Parser (Partial (List (Located Declaration))) := do
  match ← attempt (expect .kwBody) with
  | .error e => return ([], some e)
  | .ok _ => within .body (bodyDeclarations calls)

/-! ## Packages -/

def instanceWord : Parser (Option InstanceWord) := do
  if ← eat .eq then return some .eq
  else if ← eat .kwIs then return some .isWord
  else return none

def instantiation (name : Ident) (word : InstanceWord) : Parser Package := do
  let model ← ident
  let (brackets, args) ← modelArgs calls
  let _ ← expect .semi
  let c ← cursor
  if c.isAt .kwBody then
    report ⟨.instanceWithBody name.name, c.span⟩
    synchronize [.kwEnd]
    let _ ← eat .kwEnd
  return ⟨name, .instantiated word model brackets args⟩

def package : Parser Package := do
  let _ ← expect .kwPackage
  let name ← ident
  match ← instanceWord with
  | some word => instantiation calls name word
  | none =>
      let uses ← uses
      let provides ← provides calls
      let read ← body calls
      reportAny read.2
      return ⟨name, .definition uses provides read.1⟩

/-! ## Models -/

def needsStep (done : List (Located StaticParam)) :
    Parser (ForInStep (Partial (List (Located StaticParam)))) := do
  match ← attempt (staticParam calls) with
  | .error e => return .done (done, some e)
  | .ok param =>
      match ← attempt (expect .semi) with
      | .error e => return .done (done ++ [param], some e)
      | .ok _ =>
          let next ← peek
          if next.any [.kwType, .kwConst, .kwNode, .kwFunction, .kwUnsafe].contains then
            return .yield (done ++ [param], none)
          else return .done (done ++ [param], none)

def needs : Parser (Partial (List (Located StaticParam))) :=
  loop ([], none) fun read => needsStep calls read.1

def requiredNeeds (name : Ident) : Parser (Partial (List (Located StaticParam))) := do
  if ← eat .kwNeeds then needs calls
  else
    report ⟨.modelWithoutNeeds name.name, name.span⟩
    return ([], none)

def modelContents (name : Ident) (uses : List Ident) :
    Partial (List (Located StaticParam)) → Parser (Partial Model)
  | (needs, some e) => return (⟨name, uses, needs, none, []⟩, some e)
  | (needs, none) => do
      match ← attempt (provides calls) with
      | .error e => return (⟨name, uses, needs, none, []⟩, some e)
      | .ok provides =>
          let read ← body calls
          return (⟨name, uses, needs, provides, read.1⟩, read.2)

def modelTail (name : Ident) : Parser (Partial Model) := do
  match ← attempt uses with
  | .error e => return (⟨name, [], [], none, []⟩, some e)
  | .ok uses => modelContents calls name uses (← requiredNeeds calls name)

def closeModel : Partial Model → Parser Model
  | (model, some e) => do
      report e
      synchronize itemStarts
      return model
  | (model, none) => return model

def model : Parser Model := do
  let _ ← expect .kwModel
  let name ← ident
  closeModel (← modelTail calls name)

/-! ## Programs -/

def includeDirective : Parser (Located String) := located do
  let _ ← expect .kwInclude
  match ← take? .stringLit with
  | some file =>
      let _ ← eat .semi
      return Recover.unquote file.text
  | none => missing .fileName

def includeStep (done : List (Located String)) : Parser (ForInStep (List (Located String))) := do
  let c ← cursor
  if !c.isAt .kwInclude || (← halted) then return .done done
  else
    match ← attempt includeDirective with
    | .ok file => return .yield (done ++ [file])
    | .error e =>
        report e
        skipDeclaration c.rest.length
        return .yield done

def includes : Parser (List (Located String)) := loop [] includeStep

def item (c : Cursor) (kind : Kind) : Parser Item := do
  if kind = .kwPackage then return .package (← package calls)
  else if kind = .kwModel then return .model (← model calls)
  else if kind = .kwInclude then throw ⟨.misplacedInclude, c.span⟩
  else if declarationStarts.contains kind then return .decl (← declaration calls)
  else throw (c.missing .declaration)

def itemStep (done : List (Located Item)) : Parser (ForInStep (List (Located Item))) := do
  let c ← cursor
  if ← halted then return .done done
  else
    match c.peek with
    | none => return .done done
    | some kind =>
        match ← attempt (item calls c kind) with
        | .ok one => return .yield (done ++ [⟨one, ← spanFrom c.span.start⟩])
        | .error e =>
            report e
            skipDeclaration c.rest.length
            return .yield (done ++ [⟨.error, ← spanFrom c.span.start⟩])

def items : Parser (List (Located Item)) := loop [] (itemStep calls)

def program : Parser Program := do
  let includes ← includes
  return ⟨includes, ← items calls⟩

def wholeExpr : Parser Expr := do
  let expr ← calls.expr
  if (← cursor).atEnd then return expr else missing .endOfExpression

def standaloneExpr : Parser (Option Expr) := do
  match ← attempt (wholeExpr calls) with
  | .ok expr => return some expr
  | .error e =>
      report e
      return none

end Parser

end Lustre
