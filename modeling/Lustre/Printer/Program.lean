import Lustre.Printer.Expr

/-!
# Printing programs

Every item begins on a line of its own, with an empty line before it unless it
is the first; entries of blocks are indented by four blanks.  What was skipped
when the program was read is left out.
-/

namespace Lustre

open Chunk

namespace Chunk

/-- The end of a line. -/
def newline : Chunk := .gap "\n"

/-- A line of its own. -/
def line (chunks : List Chunk) : List Chunk := chunks ++ [newline]

/-- An indented line that ends with a semicolon. -/
def entry (chunks : List Chunk) : List Chunk :=
  .gap "    " :: chunks ++ [sign .semi, newline]

end Chunk

/-- Prints some names of one declaration. -/
def identChunks (names : List Ident) : List Chunk := separate .comma (names.map Ident.chunks)

/-- Prints `: type`. -/
def typing (type : TypeExpr) : List Chunk := sign .colon :: blank :: type.chunks false

/-- Prints `= value`, with a blank before it. -/
def assignment (chunks : List Chunk) : List Chunk := [blank, sign .eq, blank] ++ chunks

/-- Prints a value that may be absent, after `=`. -/
def optionalValue : Option Expr → List Chunk
  | some value => assignment (value.chunks false 0)
  | none => []

/-- Prints the keyword of a node with side effects. -/
def unsafeSign (isUnsafe : Bool) : List Chunk :=
  if isUnsafe then [sign .kwUnsafe, blank] else []

/-! ## Variables, constants and types -/

namespace TypedNames

/-- Prints a group of variables. -/
def chunks (group : TypedNames) : List Chunk := identChunks group.names ++ typing group.type

end TypedNames

namespace VarDecl

/-- Prints a declaration of variables. -/
def chunks (decl : VarDecl) : List Chunk :=
  let groups := separate .semi (decl.groups.map TypedNames.chunks)
  let clock :=
    match decl.clock with
    | some clock => [blank, sign .kwWhen, blank] ++ clock.value.chunks
    | none => []
  (if decl.parenthesized then between .lParen .rParen groups else groups) ++ clock

end VarDecl

namespace Profile

/-- Prints inputs or outputs. -/
def params (params : List (Located VarDecl)) : List Chunk :=
  between .lParen .rParen (separate .semi (params.map fun param => param.value.chunks))

/-- Prints the inputs and the outputs of a node. -/
def chunks (profile : Profile) : List Chunk :=
  params profile.inputs ++ [blank, sign .kwReturns, blank] ++ params profile.outputs

end Profile

namespace ConstDef

/-- Prints an entry of a `const` block. -/
def chunks : ConstDef → List Chunk
  | typed names type => identChunks names ++ typing type
  | typedValue name type init =>
      name.chunks ++ typing type ++ assignment (init.chunks false 0)
  | value name init => name.chunks ++ assignment (init.chunks false 0)

end ConstDef

namespace FieldDecl

/-- Prints fields of a record type. -/
def chunks (decl : FieldDecl) : List Chunk :=
  identChunks decl.names ++ typing decl.type ++ optionalValue decl.default

end FieldDecl

namespace TypeBody

/-- Prints what a type name stands for. -/
def chunks : TypeBody → List Chunk
  | synonym type => type.chunks false
  | enumeration names =>
      [sign .kwEnum, blank, sign .lBrace, blank] ++ identChunks names ++ [blank, sign .rBrace]
  | record keyword fields =>
      (if keyword then [sign .kwStruct, blank] else []) ++ [sign .lBrace, blank] ++
        separate .semi (fields.map fun decl => decl.value.chunks) ++ [blank, sign .rBrace]

end TypeBody

namespace TypeDef

/-- Prints an entry of a `type` block. -/
def chunks (entry : TypeDef) : List Chunk :=
  match entry.body with
  | some body => entry.name.chunks ++ assignment body.value.chunks
  | none => entry.name.chunks

end TypeDef

/-! ## Nodes -/

namespace NodeHead

/-- Prints the head of a node, after the keyword that may stand between. -/
def chunks (head : NodeHead) (keyword : List Chunk) : List Chunk :=
  unsafeSign head.isUnsafe ++ keyword ++ [sign head.kind.symbol, blank] ++ head.name.chunks

end NodeHead

namespace StaticParam

/-- Prints a static parameter. -/
def chunks : StaticParam → List Chunk
  | type name => [sign .kwType, blank] ++ name.chunks
  | const name range => [sign .kwConst, blank] ++ name.chunks ++ typing range
  | node head profile => head.chunks [] ++ profile.chunks

/-- Prints static parameters, if there are any. -/
def list : Option (List (Located StaticParam)) → List Chunk
  | some params =>
      between .ltLt .gtGt (separate .semi (params.map fun param => param.value.chunks))
  | none => []

end StaticParam

namespace LeftExpr

/-- Prints a left-hand side. -/
def chunks : LeftExpr → List Chunk
  | name ident => ident.chunks
  | field _ value selected => value.chunks ++ sign .dot :: selected.chunks
  | index _ value place => value.chunks ++ between .lBracket .rBracket (place.chunks false 0)
  | slice _ value first last step =>
      value.chunks ++
        between .lBracket .rBracket
          (first.chunks false 0 ++ [blank, sign .dotDot, blank] ++ last.chunks false 0 ++
            stepPart false step)

end LeftExpr

namespace LeftList

/-- Prints the left-hand sides of an equation. -/
def chunks (lhs : LeftList) : List Chunk :=
  let items := separate .comma (lhs.items.map LeftExpr.chunks)
  if lhs.parenthesized then between .lParen .rParen items else items

end LeftList

namespace Equation

/-- Prints a statement on a line of its own, and nothing for one that was skipped. -/
def chunks : Equation → List Chunk
  | assertion condition => entry ([sign .kwAssert, blank] ++ condition.chunks false 0)
  | define lhs rhs => entry (lhs.chunks ++ assignment (rhs.chunks false 0))
  | error => []

end Equation

namespace LocalBlock

/-- Prints a block of local variables or constants. -/
def chunks : LocalBlock → List Chunk
  | vars decls => line [sign .kwVar] ++ decls.flatMap fun decl => entry decl.value.chunks
  | consts decls => line [sign .kwConst] ++ decls.flatMap fun decl => entry decl.value.chunks

end LocalBlock

namespace NodeDefinition

/-- Prints the body of a node. -/
def chunks (definition : NodeDefinition) : List Chunk :=
  (definition.locals.flatMap fun block => block.value.chunks) ++
    line [sign .kwLet] ++
    (definition.equations.flatMap fun equation => equation.value.chunks) ++
    line [sign .kwTel]

end NodeDefinition

namespace NodeUse

/-- Prints a node as a target. -/
def chunks (target : NodeUse) : List Chunk :=
  target.node.chunks ++ optionalArgs false target.args

end NodeUse

namespace NodeBody

/-- Prints what follows the profile of a node. -/
def chunks : NodeBody → List Chunk
  | definition own => line [sign .semi] ++ own.chunks
  | synonym target => line (assignment target.chunks ++ [sign .semi])
  | missing => line [sign .semi]

end NodeBody

namespace NodeDecl

/-- Prints a node. -/
def chunks (decl : NodeDecl) : List Chunk :=
  let profile :=
    match decl.profile with
    | some profile => profile.chunks
    | none => []
  decl.head.chunks [] ++ StaticParam.list decl.params ++ profile ++ decl.body.chunks

end NodeDecl

namespace ExternalNode

/-- Prints a node that is implemented elsewhere. -/
def chunks (node : ExternalNode) : List Chunk :=
  line (node.head.chunks [sign .kwExtern, blank] ++ node.profile.chunks ++ [sign .semi])

end ExternalNode

/-! ## Declarations -/

/-- Prints a block: on one line if it has a single entry, otherwise with a line for each. -/
def block (keyword : Kind) (entries : List (List Chunk)) : List Chunk :=
  match entries with
  | [only] => line ([sign keyword, blank] ++ only ++ [sign .semi])
  | entries => line [sign keyword] ++ entries.flatMap entry

namespace Declaration

/-- Prints a declaration, and nothing for one that was skipped. -/
def chunks : Declaration → List Chunk
  | node decl => decl.chunks
  | types defs => block .kwType (defs.map fun entry => entry.value.chunks)
  | consts defs => block .kwConst (defs.map fun entry => entry.value.chunks)
  | external decl => decl.chunks
  | error => []

/-- Whether a declaration was skipped. -/
def isError : Declaration → Bool
  | error => true
  | _ => false

end Declaration

/-- Prints the declarations of a body, with an empty line before each but the first. -/
def bodyChunks : List (Located Declaration) → List Chunk
  | [] => []
  | first :: rest =>
      first.value.chunks ++
        (rest.filter fun decl => !decl.value.isError).flatMap fun decl =>
          newline :: decl.value.chunks

/-! ## Packages and models -/

namespace Provide

/-- Prints something that a package provides. -/
def chunks : Provide → List Chunk
  | const name range value =>
      [sign .kwConst, blank] ++ name.chunks ++ typing range ++ optionalValue value
  | node head params profile =>
      head.chunks [] ++ StaticParam.list params ++ profile.chunks
  | type entry => [sign .kwType, blank] ++ entry.chunks

end Provide

namespace NamedArg

/-- Prints an argument for a model.  The keyword of an explicit argument stands before its
name. -/
def chunks (named : NamedArg) : List Chunk :=
  match named.name with
  | none => named.arg.chunks false
  | some name =>
      match named.arg with
      | .type _ type true =>
          [sign .kwType, blank] ++ name.chunks ++ assignment (type.chunks false)
      | .const _ value true =>
          [sign .kwConst, blank] ++ name.chunks ++ assignment (value.chunks false 0)
      | .node _ (some kind) _ node args =>
          [sign kind.symbol, blank] ++ name.chunks ++
            assignment (node.chunks ++ optionalArgs false args)
      | arg => name.chunks ++ assignment (arg.chunks false)

/-- Prints the arguments for a model.  A blank keeps an operator at the end apart from a
`>>`. -/
def list (brackets : Brackets) (args : List (Located NamedArg)) : List Chunk :=
  let parts := separate .comma (args.map fun arg => arg.value.chunks)
  match brackets with
  | .paren => between .lParen .rParen parts
  | .angle =>
      let closing :=
        if args.getLast?.any fun arg => arg.value.arg.isOp then [blank, sign .gtGt]
        else [sign .gtGt]
      sign .ltLt :: parts ++ closing

end NamedArg

/-- Prints the packages that another uses. -/
def usesChunks (names : List Ident) : List Chunk :=
  match names with
  | [] => []
  | names => line ([sign .kwUses, blank] ++ identChunks names ++ [sign .semi])

/-- Prints what a package provides, if it says so. -/
def providesChunks : Option (List (Located Provide)) → List Chunk
  | some provides =>
      line [sign .kwProvides] ++ provides.flatMap fun provide => entry provide.value.chunks
  | none => []

/-- Prints the body of a package or a model. -/
def bodyLines (decls : List (Located Declaration)) : List Chunk :=
  line [sign .kwBody] ++ bodyChunks decls ++ line [sign .kwEnd]

namespace InstanceWord

/-- The word between the name of a package and its model. -/
def symbol : InstanceWord → Kind
  | eq => .eq
  | isWord => .kwIs

end InstanceWord

namespace Package

/-- Prints a package. -/
def chunks (package : Package) : List Chunk :=
  [sign .kwPackage, blank] ++ package.name.chunks ++
    match package.body with
    | .definition uses provides decls =>
        newline :: usesChunks uses ++ providesChunks provides ++ bodyLines decls
    | .instantiated linking model brackets args =>
        line ([blank, sign linking.symbol, blank] ++ model.chunks ++ NamedArg.list brackets args ++
          [sign .semi])
    | .missing => newline :: bodyLines []

end Package

namespace Model

/-- Prints a model. -/
def chunks (model : Model) : List Chunk :=
  let needs :=
    match model.needs with
    | [] => []
    | needs => line [sign .kwNeeds] ++ needs.flatMap fun param => entry param.value.chunks
  line ([sign .kwModel, blank] ++ model.name.chunks) ++ usesChunks model.uses ++ needs ++
    providesChunks model.provides ++ bodyLines model.decls

end Model

/-! ## Programs -/

namespace Item

/-- Prints an item, and nothing for one that was skipped. -/
def chunks : Item → List Chunk
  | decl single => single.value.chunks
  | package whole => whole.chunks
  | model whole => whole.chunks
  | error => []

/-- Whether an item was skipped. -/
def isError : Item → Bool
  | error => true
  | _ => false

end Item

/-- Prints an `include` directive. -/
def includeChunks (path : String) : List Chunk :=
  line [sign .kwInclude, blank, word .stringLit ("\"" ++ path ++ "\"")]

namespace Program

/-- Prints a program. -/
def chunks (program : Program) : List Chunk :=
  let includes := program.includes.flatMap fun file => includeChunks file.value
  let items := (program.items.filter fun item => !item.value.isError).map fun item =>
    item.value.chunks
  match includes, items with
  | [], first :: rest => first ++ rest.flatMap (newline :: ·)
  | includes, items => includes ++ items.flatMap (newline :: ·)

/-- The text of a program. -/
def print (program : Program) : String := render program.chunks

end Program

end Lustre
