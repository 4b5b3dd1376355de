import Lustre.Reader.StaticArg

/-!
# Reading the parts of declarations

The parts that are read as a whole or not at all: variables and profiles of
nodes, static parameters, entries of `type` and `const` blocks, what a package
provides, the arguments for a model, and equations.
-/

namespace Lustre

namespace Read

variable (deep : Nested)

/-! ## Variables and profiles -/

/-- `x, y: type`. -/
def typedNames : Read TypedNames := do
  let names ← identList
  let _ ← expect .colon
  return ⟨names, ← typeExpr deep⟩

/-- The groups of a parenthesised declaration, after its first `(` and up to its `)`. -/
def varGroups : Read (List TypedNames) := do
  let first ← typedNames deep
  iterate [first] fun groups => do
    if ← eat .semi then
      if ← isAt .rParen then return .done groups
      else return .yield (groups ++ [← typedNames deep])
    else return .done groups

/-- The declaration of variables. -/
def varDecl : Read (Located VarDecl) := located do
  if ← eat .lParen then
    let groups ← varGroups deep
    let _ ← expect .rParen
    let _ ← expect .kwWhen
    return ⟨groups, some (← clock), true⟩
  else
    let group ← typedNames deep
    return ⟨[group], ← optionalAfter .kwWhen clock, false⟩

/-- The inputs or the outputs of a node. -/
def params : Read (List (Located VarDecl)) := do
  let _ ← expect .lParen
  let params ← separated .rParen [.semi] (varDecl deep)
  let _ ← expect .rParen
  return params

/-- The inputs and the outputs of a node. -/
def profile : Read Profile := do
  let inputs ← params deep
  let _ ← expect .kwReturns
  return ⟨inputs, ← params deep⟩

/-- The keyword for a kind of node. -/
def nodeKind : Read NodeKind := do
  if ← eat .kwNode then return .node
  else if ← eat .kwFunction then return .function
  else unexpected [.kwNode, .kwFunction]

/-- `[unsafe] node name`. -/
def nodeHead : Read NodeHead := do
  let isUnsafe ← eat .kwUnsafe
  let kind ← nodeKind
  return ⟨isUnsafe, kind, ← ident⟩

/-! ## Static parameters -/

/-- A static parameter. -/
def staticParam : Read (Located StaticParam) := located do
  match ← peek with
  | some .kwType =>
      advance
      return .type (← ident)
  | some .kwConst =>
      advance
      let name ← ident
      let _ ← expect .colon
      return .const name (← typeExpr deep)
  | some .kwUnsafe | some .kwNode | some .kwFunction =>
      let head ← nodeHead
      return .node head (← profile deep)
  | _ => unexpected [.kwType, .kwConst, .kwNode, .kwFunction]

/-- Static parameters in `<<` and `>>`. -/
def staticParams : Read (List (Located StaticParam)) := do
  let _ ← expect .ltLt
  let params ← separated .gtGt [.semi] (staticParam deep)
  let _ ← expect .gtGt
  return params

/-! ## Types and constants -/

/-- Fields of a record type that share a type. -/
def fieldDecl : Read (Located FieldDecl) := located do
  let names ← identList
  let _ ← expect .colon
  let type ← typeExpr deep
  if ← isAt .eq then
    if names.length > 1 then fail .sharedDefault
    else
      advance
      return ⟨names, type, some (← deep.expr)⟩
  else return ⟨names, type, none⟩

/-- The fields of a record type, in braces. -/
def fieldDecls : Read (List (Located FieldDecl)) := do
  let _ ← expect .lBrace
  let fields ← separated .rBrace [.semi] (fieldDecl deep)
  let _ ← expect .rBrace
  return fields

/-- What a type name stands for. -/
def typeBody : Read (Located TypeBody) := located do
  match ← peek with
  | some .kwEnum =>
      advance
      let _ ← expect .lBrace
      let names ← identList
      let _ ← expect .rBrace
      return .enumeration names
  | some .kwStruct =>
      advance
      return .record true (← fieldDecls deep)
  | some .lBrace => return .record false (← fieldDecls deep)
  | _ => return .synonym (← typeExpr deep)

/-- `name` or `name = body`. -/
def typeDef : Read (Located TypeDef) := located do
  let name ← ident
  return ⟨name, ← optionalAfter .eq (typeBody deep)⟩

/-- An entry of a `type` block. -/
def typeEntry : Read (Located TypeDef) := do
  let entry ← typeDef deep
  let _ ← expect .semi
  return entry

/-- An entry of a `const` block, without its semicolon. -/
def constDef : Read ConstDef := do
  let name ← ident
  match ← peek with
  | some .comma =>
      let names ← iterate [name] fun names => do
        if ← eat .comma then return .yield (names ++ [← ident]) else return .done names
      let _ ← expect .colon
      return .typed names (← typeExpr deep)
  | some .colon =>
      advance
      let type ← typeExpr deep
      if ← eat .eq then return .typedValue name type (← deep.expr) else return .typed [name] type
  | some .eq =>
      advance
      return .value name (← deep.expr)
  | _ => unexpected [.comma, .colon, .eq]

/-- An entry of a `const` block. -/
def constEntry : Read (Located ConstDef) := do
  let entry ← located (constDef deep)
  let _ ← expect .semi
  return entry

/-! ## What packages show and take -/

/-- Something that a package provides. -/
def provide : Read (Located Provide) := located do
  match ← peek with
  | some .kwConst =>
      advance
      let name ← ident
      let _ ← expect .colon
      let type ← typeExpr deep
      return .const name type (← optionalAfter .eq deep.expr)
  | some .kwType =>
      advance
      let entry ← typeDef deep
      return .type entry.value
  | some .kwUnsafe | some .kwNode | some .kwFunction =>
      let head ← nodeHead
      let params ← optionalAt .ltLt (staticParams deep)
      return .node head params (← profile deep)
  | _ => unexpected [.kwConst, .kwType, .kwNode, .kwFunction]

/-- The packages that another uses. -/
def uses : Read (List Ident) := do
  if ← eat .kwUses then
    let names ← identList
    let _ ← expect .semi
    return names
  else return []

/-- What a package provides, if it says so. -/
def provides : Read (Option (List (Located Provide))) :=
  optionalAfter .kwProvides
    (terminated [.kwConst, .kwType, .kwNode, .kwFunction, .kwUnsafe] (provide deep))

end Read

namespace Cursor

/-- Whether the name of an argument stands after the next `ahead` tokens. -/
def namesArgAt (c : Cursor) (ahead : Nat) : Bool :=
  c.peekAt ahead == some .ident &&
    (c.peekAt (ahead + 1) == some .eq || c.peekAt (ahead + 1) == some .pragma)

end Cursor

namespace Read

variable (deep : Nested)

/-- `name =` after the keyword of an explicit argument, and the argument, which `arg` reads from
where it begins. -/
def keywordArg (arg : Nat → Read StaticArg) : Read NamedArg := do
  advance
  let name ← ident
  let _ ← expect .eq
  let start ← here
  return ⟨some name, ← arg start⟩

/-- An argument for a model in a list that ends with `close`. -/
def namedArg (close : Kind) : Read (Located NamedArg) := located do
  let c ← get
  match c.peek with
  | some .ident =>
      if c.namesArgAt 0 then
        let name ← ident
        let _ ← expect .eq
        return ⟨some name, ← staticArg deep close⟩
      else return ⟨none, ← staticArg deep close⟩
  | some .kwType =>
      if c.namesArgAt 1 then keywordArg fun start => typeArg deep start true
      else return ⟨none, ← staticArg deep close⟩
  | some .kwConst =>
      if c.namesArgAt 1 then keywordArg fun start => constArg deep start true
      else return ⟨none, ← staticArg deep close⟩
  | some .kwNode =>
      if c.namesArgAt 1 then keywordArg fun start => nodeArg deep start .node
      else return ⟨none, ← staticArg deep close⟩
  | some .kwFunction =>
      if c.namesArgAt 1 then keywordArg fun start => nodeArg deep start .function
      else return ⟨none, ← staticArg deep close⟩
  | _ => return ⟨none, ← staticArg deep close⟩

/-- The brackets and the arguments for a model. -/
def modelArgs : Read (Brackets × List (Located NamedArg)) := do
  if ← eat .lParen then
    let args ← separated .rParen [.comma, .semi] (namedArg deep .rParen)
    let _ ← expect .rParen
    return (.paren, args)
  else if ← eat .ltLt then
    let args ← separated .gtGt [.comma, .semi] (namedArg deep .gtGt)
    let _ ← expect .gtGt
    return (.angle, args)
  else unexpected [.lParen, .ltLt]

/-! ## Equations -/

/-- One of `.field` and `[index]` after `left`, if one comes next. -/
def partStep (left : LeftExpr) : Read (ForInStep LeftExpr) := do
  if ← eat .dot then
    let field ← ident
    return .yield (.field (left.span.cover field.span) left field)
  else if ← eat .lBracket then
    let build ← indexing deep (fun index span => LeftExpr.index span left index)
      (fun first last step span => LeftExpr.slice span left first last step)
    let close ← expect .rBracket
    return .yield (build (left.span.cover close))
  else return .done left

/-- A name, or a part of what it stands for. -/
def leftExpr : Read LeftExpr := do
  iterate (.name (← ident)) (partStep deep)

/-- The left-hand sides of an equation; none only in parentheses. -/
def leftList : Read LeftList := do
  if ← eat .lParen then
    let items ← do
      if ← isAt .rParen then pure [] else commaList (leftExpr deep)
    let _ ← expect .rParen
    return ⟨items, true⟩
  else return ⟨← commaList (leftExpr deep), false⟩

/-- An equation or an assertion, without its semicolon. -/
def statement : Read Equation := do
  if ← eat .kwAssert then return .assertion (← deep.expr)
  else
    let lhs ← leftList deep
    let _ ← expect .eq
    return .define lhs (← deep.expr)

/-- An equation or an assertion. -/
def equation : Read (Located Equation) := do
  let equation ← located (statement deep)
  let _ ← expect .semi
  return equation

end Read

end Lustre
