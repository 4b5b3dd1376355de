import Lustre.Proofs.Parser.Expr

/-!
# Parsing the parts of declarations

Variables and profiles of nodes, static parameters, entries of blocks, what a package provides, the
arguments for a model, and equations.
-/

namespace Lustre

namespace Parser

variable (calls : Calls)

/-! ## Variables and profiles -/

def typedNames : Parser TypedNames := do
  let names ← identList
  let _ ← expect .colon
  return ⟨names, ← typeExpr calls⟩

def varGroups : Parser (List TypedNames) := do
  let first ← typedNames calls
  loop [first] fun groups => do
    if ← eat .semi then
      if ← isAt .rParen then return .done groups
      else return .yield (groups ++ [← typedNames calls])
    else return .done groups

def varDecl : Parser (Located VarDecl) := located do
  if ← eat .lParen then
    let groups ← varGroups calls
    let _ ← expect .rParen
    let _ ← expect .kwWhen
    return ⟨groups, some (← clock), true⟩
  else
    let group ← typedNames calls
    return ⟨[group], ← optionalAfter .kwWhen clock, false⟩

def params : Parser (List (Located VarDecl)) := do
  let _ ← expect .lParen
  let params ← separated .rParen [.semi] (varDecl calls)
  let _ ← expect .rParen
  return params

def profile : Parser Profile := do
  let inputs ← params calls
  let _ ← expect .kwReturns
  return ⟨inputs, ← params calls⟩

def nodeKind : Parser NodeKind := do
  if ← eat .kwNode then return .node
  else if ← eat .kwFunction then return .function
  else unexpected [.kwNode, .kwFunction]

def nodeHead : Parser NodeHead := do
  let isUnsafe ← eat .kwUnsafe
  let kind ← nodeKind
  return ⟨isUnsafe, kind, ← ident⟩

/-! ## Static parameters -/

def staticParam : Parser (Located StaticParam) := located do
  match ← peek with
  | some .kwType =>
      advance
      return .type (← ident)
  | some .kwConst =>
      advance
      let name ← ident
      let _ ← expect .colon
      return .const name (← typeExpr calls)
  | some .kwUnsafe | some .kwNode | some .kwFunction =>
      let head ← nodeHead
      return .node head (← profile calls)
  | _ => unexpected [.kwType, .kwConst, .kwNode, .kwFunction]

def staticParams : Parser (List (Located StaticParam)) := do
  let _ ← expect .ltLt
  let params ← separated .gtGt [.semi] (staticParam calls)
  let _ ← expect .gtGt
  return params

/-! ## Types and constants -/

def fieldDecl : Parser (Located FieldDecl) := located do
  let names ← identList
  let _ ← expect .colon
  let type ← typeExpr calls
  if ← isAt .eq then
    if names.length > 1 then fail .sharedDefault
    else
      advance
      return ⟨names, type, some (← calls.expr)⟩
  else return ⟨names, type, none⟩

def fieldDecls : Parser (List (Located FieldDecl)) := do
  let _ ← expect .lBrace
  let fields ← separated .rBrace [.semi] (fieldDecl calls)
  let _ ← expect .rBrace
  return fields

def typeBody : Parser (Located TypeBody) := located do
  match ← peek with
  | some .kwEnum =>
      advance
      let _ ← expect .lBrace
      let names ← identList
      let _ ← expect .rBrace
      return .enumeration names
  | some .kwStruct =>
      advance
      return .record true (← fieldDecls calls)
  | some .lBrace => return .record false (← fieldDecls calls)
  | _ => return .synonym (← typeExpr calls)

def typeDef : Parser (Located TypeDef) := located do
  let name ← ident
  return ⟨name, ← optionalAfter .eq (typeBody calls)⟩

def typeEntry : Parser (Located TypeDef) := do
  let entry ← typeDef calls
  let _ ← expect .semi
  return entry

def constDef : Parser ConstDef := do
  let name ← ident
  match ← peek with
  | some .comma =>
      let names ← loop [name] fun names => do
        if ← eat .comma then return .yield (names ++ [← ident]) else return .done names
      let _ ← expect .colon
      return .typed names (← typeExpr calls)
  | some .colon =>
      advance
      let type ← typeExpr calls
      if ← eat .eq then return .typedValue name type (← calls.expr) else return .typed [name] type
  | some .eq =>
      advance
      return .value name (← calls.expr)
  | _ => unexpected [.comma, .colon, .eq]

def constEntry : Parser (Located ConstDef) := do
  let entry ← located (constDef calls)
  let _ ← expect .semi
  return entry

/-! ## What packages show and take -/

def provide : Parser (Located Provide) := located do
  match ← peek with
  | some .kwConst =>
      advance
      let name ← ident
      let _ ← expect .colon
      let type ← typeExpr calls
      return .const name type (← optionalAfter .eq calls.expr)
  | some .kwType =>
      advance
      let entry ← typeDef calls
      return .type entry.value
  | some .kwUnsafe | some .kwNode | some .kwFunction =>
      let head ← nodeHead
      let params ← optionalAt .ltLt (staticParams calls)
      return .node head params (← profile calls)
  | _ => unexpected [.kwConst, .kwType, .kwNode, .kwFunction]

def uses : Parser (List Ident) := do
  if ← eat .kwUses then
    let names ← identList
    let _ ← expect .semi
    return names
  else return []

def provides : Parser (Option (List (Located Provide))) :=
  optionalAfter .kwProvides
    (terminated [.kwConst, .kwType, .kwNode, .kwFunction, .kwUnsafe] (provide calls))

def keywordArg (arg : Nat → Parser StaticArg) : Parser NamedArg := do
  advance
  let name ← ident
  let _ ← expect .eq
  let start ← here
  return ⟨some name, ← arg start⟩

def namedArg (close : Kind) : Parser (Located NamedArg) := located do
  let c ← cursor
  match c.peek with
  | some .ident =>
      if c.namesArgAt 0 then
        let name ← ident
        let _ ← expect .eq
        return ⟨some name, ← staticArg calls close⟩
      else return ⟨none, ← staticArg calls close⟩
  | some .kwType =>
      if c.namesArgAt 1 then keywordArg fun start => typeArg calls start true
      else return ⟨none, ← staticArg calls close⟩
  | some .kwConst =>
      if c.namesArgAt 1 then keywordArg fun start => constArg calls start true
      else return ⟨none, ← staticArg calls close⟩
  | some .kwNode =>
      if c.namesArgAt 1 then keywordArg fun start => nodeArg calls start .node
      else return ⟨none, ← staticArg calls close⟩
  | some .kwFunction =>
      if c.namesArgAt 1 then keywordArg fun start => nodeArg calls start .function
      else return ⟨none, ← staticArg calls close⟩
  | _ => return ⟨none, ← staticArg calls close⟩

def modelArgs : Parser (Brackets × List (Located NamedArg)) := do
  if ← eat .lParen then
    let args ← separated .rParen [.comma, .semi] (namedArg calls .rParen)
    let _ ← expect .rParen
    return (.paren, args)
  else if ← eat .ltLt then
    let args ← separated .gtGt [.comma, .semi] (namedArg calls .gtGt)
    let _ ← expect .gtGt
    return (.angle, args)
  else unexpected [.lParen, .ltLt]

/-! ## Equations -/

def partStep (left : LeftExpr) : Parser (ForInStep LeftExpr) := do
  if ← eat .dot then
    let field ← ident
    return .yield (.field (left.span.cover field.span) left field)
  else if ← eat .lBracket then
    let build ← indexing calls (fun index span => LeftExpr.index span left index)
      (fun first last step span => LeftExpr.slice span left first last step)
    let close ← expect .rBracket
    return .yield (build (left.span.cover close))
  else return .done left

def leftExpr : Parser LeftExpr := do
  loop (.name (← ident)) (partStep calls)

def leftList : Parser LeftList := do
  if ← eat .lParen then
    let items ← do
      if ← isAt .rParen then pure [] else commaList (leftExpr calls)
    let _ ← expect .rParen
    return ⟨items, true⟩
  else return ⟨← commaList (leftExpr calls), false⟩

def statement : Parser Equation := do
  if ← eat .kwAssert then return .assertion (← calls.expr)
  else
    let lhs ← leftList calls
    let _ ← expect .eq
    return .define lhs (← calls.expr)

def equation : Parser (Located Equation) := do
  let equation ← located (statement calls)
  let _ ← expect .semi
  return equation

end Parser

end Lustre
