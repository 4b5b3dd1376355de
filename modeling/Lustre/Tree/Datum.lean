import Lustre.Datum
import Lustre.Tree.Program

/-!
# Programs as data

Every tree is described field by field, with its spans and with literals as they
were written.
-/

namespace Lustre

open Datum

/-! ## Names, clocks and operators -/

namespace Pragma

/-- A pragma as data. -/
def datum (pragma : Pragma) : Datum :=
  record "Pragma" [⟨"key", .text pragma.key⟩, ⟨"value", .text pragma.value⟩,
    ⟨"span", pragma.span.datum⟩]

end Pragma

namespace Ident

/-- A bound name as data. -/
def datum (ident : Ident) : Datum :=
  record "Ident" [⟨"name", .text ident.name⟩, ⟨"span", ident.span.datum⟩,
    ⟨"pragmas", listOf Pragma.datum ident.pragmas⟩]

end Ident

namespace Reference

/-- A used name as data. -/
def datum (ref : Reference) : Datum :=
  record "IdentRef" [⟨"package", optional .text ref.package⟩, ⟨"member", .text ref.member⟩,
    ⟨"span", ref.span.datum⟩]

end Reference

namespace Clock

/-- A clock as data. -/
def datum : Clock → Datum
  | on clock => caseOf "On" clock.datum
  | not clock parenthesized =>
      caseWith "Not" [⟨"clock", clock.datum⟩, ⟨"parenthesized", Datum.bool parenthesized⟩]
  | case name clock =>
      caseWith "Enum" [⟨"constructor", name.datum⟩, ⟨"clock", clock.datum⟩]

end Clock

namespace Pattern

/-- A pattern as data. -/
def datum : Pattern → Datum
  | name ref => caseOf "Ident" ref.datum
  | bool value => caseOf "Bool" (Datum.bool value)

end Pattern

namespace NodeKind

/-- A kind of node as data. -/
def datum : NodeKind → Datum
  | node => case "Node"
  | function => case "Function"

end NodeKind

namespace CondWord

/-- The keyword of a conditional as data. -/
def datum : CondWord → Datum
  | ifWord => case "If"
  | whenWord => case "When"

end CondWord

namespace UnaryOp

/-- A prefix operator as data. -/
def datum : UnaryOp → Datum
  | not => case "Not"
  | intCast => case "IntCast"
  | realCast => case "RealCast"
  | neg => case "Neg"
  | pre => case "Pre"
  | current => case "Current"

end UnaryOp

namespace BinaryOp

/-- A binary operator as data. -/
def datum : BinaryOp → Datum
  | bar => case "Bar"
  | arrow => case "Arrow"
  | implies => case "Implies"
  | or => case "Or"
  | xor => case "Xor"
  | and => case "And"
  | lt => case "Lt"
  | le => case "Le"
  | eq => case "Eq"
  | ge => case "Ge"
  | gt => case "Gt"
  | neq => case "Neq"
  | add => case "Add"
  | sub => case "Sub"
  | mul => case "Mul"
  | slash => case "Slash"
  | percent => case "Percent"
  | mod => case "Mod"
  | div => case "Div"
  | power => case "Power"
  | hat => case "Hat"
  | fby => case "Fby"

end BinaryOp

namespace ListOp

/-- An operator over a list as data. -/
def datum : ListOp → Datum
  | atMostOne => case "Diese"
  | noneOf => case "Nor"

end ListOp

namespace PredefinedOp

/-- A predefined operator as data. -/
def datum : PredefinedOp → Datum
  | not => case "Not"
  | fby => case "Fby"
  | pre => case "Pre"
  | current => case "Current"
  | arrow => case "Arrow"
  | and => case "And"
  | or => case "Or"
  | xor => case "Xor"
  | implies => case "Implies"
  | eq => case "Eq"
  | neq => case "Neq"
  | lt => case "Lt"
  | le => case "Le"
  | gt => case "Gt"
  | ge => case "Ge"
  | div => case "Div"
  | mod => case "Mod"
  | minus => case "Minus"
  | plus => case "Plus"
  | slash => case "Slash"
  | star => case "Star"
  | cond => case "If"

end PredefinedOp

/-! ## Expressions, types and static arguments -/

/-- The part of a table that a slice selects, as data. -/
def selectionDatum (first last step : Datum) : Datum :=
  caseOf "Select" (record "Select" [⟨"from", first⟩, ⟨"to", last⟩, ⟨"step", step⟩])

/-- A node and its static arguments as data. -/
def nodeUseDatum (node : Reference) (args : Datum) : Datum :=
  record "EffectiveNode" [⟨"name", node.datum⟩, ⟨"static_args", args⟩]

mutual

/-- An expression as data. -/
def Expr.datum : Expr → Datum
  | .error span => span.locate (case "Error")
  | .bool span value => span.locate (caseOf "Literal" (caseOf "Bool" (Datum.bool value)))
  | .int span digits => span.locate (caseOf "Literal" (caseOf "Int" (.text digits)))
  | .real span digits => span.locate (caseOf "Literal" (caseOf "Real" (.text digits)))
  | .name span ref => span.locate (caseOf "Ident" ref.datum)
  | .inst span node args =>
      span.locate (caseOf "Instance" (nodeUseDatum node (optionalArgsDatum args)))
  | .tuple span items => span.locate (caseOf "Tuple" (list (Expr.data items)))
  | .array span items => span.locate (caseOf "Array" (list (Expr.data items)))
  | .record span type base fields =>
      span.locate (caseWith "Struct" [⟨"name", type.datum⟩, ⟨"base", optional Reference.datum base⟩,
        ⟨"fields", list (FieldInit.data fields)⟩])
  | .field span value field =>
      span.locate (caseWith "Field" [⟨"value", value.datum⟩, ⟨"field", field.datum⟩])
  | .index span value index =>
      span.locate (caseWith "Index" [⟨"value", value.datum⟩,
        ⟨"index", caseOf "Single" index.datum⟩])
  | .slice span value first last step =>
      span.locate (caseWith "Index" [⟨"value", value.datum⟩,
        ⟨"index", selectionDatum first.datum last.datum (optionalDatum step)⟩])
  | .call span callee args =>
      span.locate (caseWith "Call" [⟨"callee", callee.datum⟩, ⟨"args", list (Expr.data args)⟩])
  | .cond span keyword condition yes no =>
      span.locate (caseWith "If" [⟨"keyword", keyword.datum⟩, ⟨"condition", condition.datum⟩,
        ⟨"then_branch", yes.datum⟩, ⟨"else_branch", no.datum⟩])
  | .merge span clock arms =>
      span.locate (caseWith "Merge" [⟨"clock", clock.datum⟩, ⟨"arms", list (MergeArm.data arms)⟩])
  | .sampled span value clock =>
      span.locate (caseWith "When" [⟨"value", value.datum⟩,
        ⟨"clock", Located.datum Clock.datum clock⟩])
  | .unary span op operand =>
      span.locate (caseWith "Unary" [⟨"op", op.datum⟩, ⟨"operand", operand.datum⟩])
  | .binary span op lhs rhs =>
      let name := if op.tier = .comparison then "Comparison" else "Binary"
      span.locate (caseWith name [⟨"op", op.datum⟩, ⟨"lhs", lhs.datum⟩, ⟨"rhs", rhs.datum⟩])
  | .list span op operands =>
      span.locate (caseWith "Nary" [⟨"op", op.datum⟩, ⟨"operands", list (Expr.data operands)⟩])

/-- Expressions as data. -/
def Expr.data : List Expr → List Datum
  | [] => []
  | expr :: exprs => expr.datum :: Expr.data exprs

/-- An expression that may be absent as data. -/
def optionalDatum : Option Expr → Datum
  | some expr => present expr.datum
  | none => absent

/-- Fields of a record as data. -/
def FieldInit.data : List FieldInit → List Datum
  | [] => []
  | ⟨span, field, value⟩ :: fields =>
      span.locate (record "FieldInit" [⟨"field", field.datum⟩, ⟨"value", value.datum⟩]) ::
        FieldInit.data fields

/-- Arms of a merge as data. -/
def MergeArm.data : List MergeArm → List Datum
  | [] => []
  | ⟨span, pattern, value⟩ :: arms =>
      span.locate (record "MergeArm" [⟨"pattern", pattern.datum⟩, ⟨"value", value.datum⟩]) ::
        MergeArm.data arms

/-- A type as data, without its span. -/
def TypeExpr.shape : TypeExpr → Datum
  | .bool _ => case "Bool"
  | .int _ => case "Int"
  | .real _ => case "Real"
  | .named _ ref => caseOf "Named" ref.datum
  | .table _ element length =>
      caseWith "Table" [⟨"element", element.span.locate element.shape⟩, ⟨"length", length.datum⟩]

/-- A static argument as data. -/
def StaticArg.datum : StaticArg → Datum
  | .name span ref => span.locate (caseOf "Ident" ref.datum)
  | .type span type explicit =>
      span.locate (caseWith "Type" [⟨"ty", type.span.locate type.shape⟩,
        ⟨"explicit", Datum.bool explicit⟩])
  | .const span value explicit =>
      span.locate (caseWith "Const" [⟨"value", value.datum⟩, ⟨"explicit", Datum.bool explicit⟩])
  | .node span keyword target node args =>
      span.locate (caseWith "Node" [
        ⟨"node", target.locate (nodeUseDatum node (optionalArgsDatum args))⟩,
        ⟨"keyword", optional NodeKind.datum keyword⟩])
  | .op span op => span.locate (caseOf "Op" op.datum)

/-- Static arguments as data. -/
def StaticArg.data : List StaticArg → List Datum
  | [] => []
  | arg :: args => arg.datum :: StaticArg.data args

/-- The static arguments of a node, if it has any, as data. -/
def optionalArgsDatum : Option (List StaticArg) → Datum
  | some args => present (list (StaticArg.data args))
  | none => absent

end

namespace TypeExpr

/-- A type as data. -/
def datum (type : TypeExpr) : Datum := type.span.locate type.shape

end TypeExpr

namespace NodeUse

/-- A node as a target, as data. -/
def datum (target : NodeUse) : Datum :=
  target.span.locate (nodeUseDatum target.node (optionalArgsDatum target.args))

end NodeUse

/-! ## Parts of declarations -/

/-- Names of one declaration as data. -/
def identsDatum (names : List Ident) : Datum := listOf Ident.datum names

namespace TypedNames

/-- A group of variables as data. -/
def datum (group : TypedNames) : Datum :=
  record "TypedIds" [⟨"names", identsDatum group.names⟩, ⟨"ty", group.type.datum⟩]

end TypedNames

namespace VarDecl

/-- A declaration of variables as data. -/
def datum (decl : VarDecl) : Datum :=
  record "VarDecl" [⟨"groups", listOf TypedNames.datum decl.groups⟩,
    ⟨"clock", optional (Located.datum Clock.datum) decl.clock⟩,
    ⟨"parenthesized", Datum.bool decl.parenthesized⟩]

end VarDecl

namespace Profile

/-- The inputs and the outputs of a node as data. -/
def datum (profile : Profile) : Datum :=
  record "NodeProfile" [⟨"inputs", listOf (Located.datum VarDecl.datum) profile.inputs⟩,
    ⟨"outputs", listOf (Located.datum VarDecl.datum) profile.outputs⟩]

end Profile

namespace NodeHead

/-- The head of a node as fields. -/
def fields (head : NodeHead) : List Field :=
  [⟨"is_unsafe", Datum.bool head.isUnsafe⟩, ⟨"kind", head.kind.datum⟩, ⟨"name", head.name.datum⟩]

end NodeHead

namespace ConstDef

/-- An entry of a `const` block as data. -/
def datum : ConstDef → Datum
  | typed names type => caseWith "Typed" [⟨"names", identsDatum names⟩, ⟨"ty", type.datum⟩]
  | typedValue name type init =>
      caseWith "TypedValued" [⟨"name", name.datum⟩, ⟨"ty", type.datum⟩, ⟨"value", init.datum⟩]
  | value name init => caseWith "Valued" [⟨"name", name.datum⟩, ⟨"value", init.datum⟩]

end ConstDef

namespace FieldDecl

/-- Fields of a record type as data. -/
def datum (decl : FieldDecl) : Datum :=
  record "FieldDecl" [⟨"names", identsDatum decl.names⟩, ⟨"ty", decl.type.datum⟩,
    ⟨"value", optional Expr.datum decl.default⟩]

end FieldDecl

namespace TypeBody

/-- What a type name stands for as data. -/
def datum : TypeBody → Datum
  | synonym type => caseOf "Alias" type.shape
  | enumeration names => caseOf "Enum" (identsDatum names)
  | record keyword fields =>
      caseWith "Struct" [⟨"keyword", Datum.bool keyword⟩,
        ⟨"fields", listOf (Located.datum FieldDecl.datum) fields⟩]

end TypeBody

namespace TypeDef

/-- An entry of a `type` block as data. -/
def datum (entry : TypeDef) : Datum :=
  record "TypeDef" [⟨"name", entry.name.datum⟩,
    ⟨"value", optional (Located.datum TypeBody.datum) entry.body⟩]

end TypeDef

namespace StaticParam

/-- A static parameter as data. -/
def datum : StaticParam → Datum
  | type name => caseOf "Type" name.datum
  | const name range => caseWith "Const" [⟨"name", name.datum⟩, ⟨"ty", range.datum⟩]
  | node head profile => caseWith "Node" (head.fields ++ [⟨"profile", profile.datum⟩])

/-- Static parameters, if there are any, as data. -/
def listDatum (params : Option (List (Located StaticParam))) : Datum :=
  optional (listOf (Located.datum datum)) params

end StaticParam

/-! ## Equations -/

namespace LeftExpr

/-- A left-hand side as data. -/
def datum : LeftExpr → Datum
  | name ident => ident.span.locate (caseOf "Ident" ident.datum)
  | field span value selected =>
      span.locate (caseWith "Field" [⟨"value", value.datum⟩, ⟨"field", selected.datum⟩])
  | index span value place =>
      span.locate (caseWith "Index" [⟨"value", value.datum⟩,
        ⟨"index", caseOf "Single" place.datum⟩])
  | slice span value first last step =>
      span.locate (caseWith "Index" [⟨"value", value.datum⟩,
        ⟨"index", selectionDatum first.datum last.datum (optional Expr.datum step)⟩])

end LeftExpr

namespace LeftList

/-- The left-hand sides of an equation as data. -/
def datum (lhs : LeftList) : Datum :=
  record "LeftList" [⟨"items", listOf LeftExpr.datum lhs.items⟩,
    ⟨"parenthesized", Datum.bool lhs.parenthesized⟩]

end LeftList

namespace Equation

/-- A statement as data. -/
def datum : Equation → Datum
  | assertion condition => caseOf "Assert" condition.datum
  | define lhs rhs => caseWith "Define" [⟨"lhs", lhs.datum⟩, ⟨"rhs", rhs.datum⟩]
  | error => case "Error"

end Equation

/-! ## Declarations -/

namespace LocalBlock

/-- A block of local variables or constants as data. -/
def datum : LocalBlock → Datum
  | vars decls => caseOf "Vars" (listOf (Located.datum VarDecl.datum) decls)
  | consts decls => caseOf "Consts" (listOf (Located.datum ConstDef.datum) decls)

end LocalBlock

namespace NodeDefinition

/-- The body of a node as data. -/
def datum (definition : NodeDefinition) : Datum :=
  record "NodeDefinition" [⟨"locals", listOf (Located.datum LocalBlock.datum) definition.locals⟩,
    ⟨"equations", listOf (Located.datum Equation.datum) definition.equations⟩]

end NodeDefinition

namespace NodeBody

/-- What a node consists of as data. -/
def datum : NodeBody → Datum
  | definition own => caseOf "Definition" own.datum
  | synonym target => caseOf "Alias" target.datum
  | missing => case "Missing"

end NodeBody

namespace NodeDecl

/-- A node as data. -/
def datum (decl : NodeDecl) : Datum :=
  record "NodeDecl" (decl.head.fields ++ [⟨"static_params", StaticParam.listDatum decl.params⟩,
    ⟨"profile", optional Profile.datum decl.profile⟩, ⟨"body", decl.body.datum⟩])

end NodeDecl

namespace ExternalNode

/-- A node that is implemented elsewhere, as data. -/
def datum (node : ExternalNode) : Datum :=
  record "ExternNodeDecl" (node.head.fields ++ [⟨"profile", node.profile.datum⟩])

end ExternalNode

namespace Declaration

/-- A declaration as data. -/
def datum : Declaration → Datum
  | node decl => caseOf "Node" decl.datum
  | types defs => caseOf "Type" (listOf (Located.datum TypeDef.datum) defs)
  | consts defs => caseOf "Const" (listOf (Located.datum ConstDef.datum) defs)
  | external decl => caseOf "Extern" decl.datum
  | error => case "Error"

end Declaration

/-! ## Packages, models and programs -/

namespace Provide

/-- Something that a package provides as data. -/
def datum : Provide → Datum
  | const name range value =>
      caseWith "Const" [⟨"name", name.datum⟩, ⟨"ty", range.datum⟩,
        ⟨"value", optional Expr.datum value⟩]
  | node head params profile =>
      caseWith "Node" (head.fields ++ [⟨"static_params", StaticParam.listDatum params⟩,
        ⟨"profile", profile.datum⟩])
  | type entry => caseOf "Type" entry.datum

end Provide

namespace InstanceWord

/-- The word that introduces a model as data. -/
def datum : InstanceWord → Datum
  | eq => case "Eq"
  | isWord => case "Is"

end InstanceWord

namespace Brackets

/-- The brackets around the arguments for a model as data. -/
def datum : Brackets → Datum
  | paren => case "Paren"
  | angle => case "Angle"

end Brackets

namespace NamedArg

/-- An argument for a model as data. -/
def datum (named : NamedArg) : Datum :=
  record "NamedStaticArg" [⟨"name", optional Ident.datum named.name⟩, ⟨"arg", named.arg.datum⟩]

end NamedArg

/-- What a package provides, if it says so, as data. -/
def providesDatum (provides : Option (List (Located Provide))) : Datum :=
  optional (listOf (Located.datum Provide.datum)) provides

/-- Declarations as data. -/
def declarationsDatum (decls : List (Located Declaration)) : Datum :=
  listOf (Located.datum Declaration.datum) decls

namespace PackageBody

/-- The contents of a package as data. -/
def datum : PackageBody → Datum
  | definition uses provides decls =>
      caseWith "Definition" [⟨"uses", identsDatum uses⟩, ⟨"provides", providesDatum provides⟩,
        ⟨"decls", declarationsDatum decls⟩]
  | instantiated linking model brackets args =>
      caseWith "Alias" [⟨"keyword", linking.datum⟩, ⟨"model", model.datum⟩,
        ⟨"delimiter", brackets.datum⟩, ⟨"args", listOf (Located.datum NamedArg.datum) args⟩]
  | missing => case "Missing"

end PackageBody

namespace Package

/-- A package as data. -/
def datum (package : Package) : Datum :=
  record "PackageDecl" [⟨"name", package.name.datum⟩, ⟨"body", package.body.datum⟩]

end Package

namespace Model

/-- A model as data. -/
def datum (model : Model) : Datum :=
  record "ModelDecl" [⟨"name", model.name.datum⟩, ⟨"uses", identsDatum model.uses⟩,
    ⟨"needs", listOf (Located.datum StaticParam.datum) model.needs⟩,
    ⟨"provides", providesDatum model.provides⟩, ⟨"decls", declarationsDatum model.decls⟩]

end Model

namespace Item

/-- An item as data. -/
def datum : Item → Datum
  | decl single => caseOf "Decl" (Located.datum Declaration.datum single)
  | package whole => caseOf "Package" whole.datum
  | model whole => caseOf "Model" whole.datum
  | error => case "Error"

end Item

/-- The path of an included file as data. -/
def includeDatum (path : String) : Datum := record "Include" [⟨"path", .text path⟩]

namespace Program

/-- A program as data. -/
def datum (program : Program) : Datum :=
  record "SourceFile" [⟨"includes", listOf (Located.datum includeDatum) program.includes⟩,
    ⟨"items", listOf (Located.datum Item.datum) program.items⟩]

end Program

end Lustre
