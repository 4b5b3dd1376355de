import Lustre.Tree.Expr

/-!
# Declarations and programs

A program is a list of included files and of items: nodes, types and constants,
packages, and models of packages.  A declaration, equation or item that could
not be read leaves an `error` in its place, so a tree exists for every text.

`Program.outline` lists what a program declares.
-/

namespace Lustre

/-! ## Equations -/

/-- What an equation defines: a name, or a part of what a name stands for. -/
inductive LeftExpr where
  | name (ident : Ident)
  | field (span : Span) (value : LeftExpr) (field : Ident)
  | index (span : Span) (value : LeftExpr) (index : Expr)
  | slice (span : Span) (value : LeftExpr) (first last : Expr) (step : Option Expr)

namespace LeftExpr

/-- Where a left-hand side stands; pragmas after a name are left out. -/
def span : LeftExpr → Span
  | name ident => ident.span
  | field span _ _ | index span _ _ | slice span _ _ _ _ => span

end LeftExpr

/-- The left-hand sides of one equation. -/
structure LeftList where
  items : List LeftExpr
  parenthesized : Bool

/-- A statement in the body of a node. -/
inductive Equation where
  | assertion (condition : Expr)
  | define (lhs : LeftList) (rhs : Expr)
  /-- A statement that was skipped. -/
  | error

/-! ## Variables, constants and types -/

/-- Names declared with one type. -/
structure TypedNames where
  names : List Ident
  type : TypeExpr

/-- `x, y: int`, `x: int when c`, or several groups that share a clock in parentheses. -/
structure VarDecl where
  groups : List TypedNames
  clock : Option (Located Clock)
  parenthesized : Bool

/-- An entry of a `const` block.  Constants without a value are abstract or imported. -/
inductive ConstDef where
  | typed (names : List Ident) (type : TypeExpr)
  | typedValue (name : Ident) (type : TypeExpr) (value : Expr)
  | value (name : Ident) (value : Expr)

/-- Fields of a record type that share a type; only a single field has a default. -/
structure FieldDecl where
  names : List Ident
  type : TypeExpr
  default : Option Expr

/-- What a type name stands for. -/
inductive TypeBody where
  | synonym (type : TypeExpr)
  | enumeration (names : List Ident)
  | record (keyword : Bool) (fields : List (Located FieldDecl))

/-- An entry of a `type` block.  Types without a body are abstract or imported. -/
structure TypeDef where
  name : Ident
  body : Option (Located TypeBody)

/-! ## Nodes -/

/-- `[unsafe] node name` or `[unsafe] function name`. -/
structure NodeHead where
  isUnsafe : Bool
  kind : NodeKind
  name : Ident

/-- The inputs and outputs of a node. -/
structure Profile where
  inputs : List (Located VarDecl)
  outputs : List (Located VarDecl)

/-- A static parameter. -/
inductive StaticParam where
  | type (name : Ident)
  | const (name : Ident) (type : TypeExpr)
  | node (head : NodeHead) (profile : Profile)

/-- A block of local variables or constants. -/
inductive LocalBlock where
  | vars (vars : List (Located VarDecl))
  | consts (consts : List (Located ConstDef))

/-- The body of a node. -/
structure NodeDefinition where
  locals : List (Located LocalBlock)
  equations : List (Located Equation)

/-- A node has a body or is an alias of another, never both; it has neither when its declaration
breaks off. -/
inductive NodeBody where
  | definition (definition : NodeDefinition)
  | synonym (target : NodeUse)
  | missing

/-- A node declaration.  Without `<<...>>` there are no static parameters at all. -/
structure NodeDecl where
  head : NodeHead
  params : Option (List (Located StaticParam))
  profile : Option Profile
  body : NodeBody

/-- A node that is implemented elsewhere. -/
structure ExternalNode where
  head : NodeHead
  profile : Profile

/-- A declaration. -/
inductive Declaration where
  | node (decl : NodeDecl)
  | types (defs : List (Located TypeDef))
  | consts (defs : List (Located ConstDef))
  | external (node : ExternalNode)
  /-- A declaration that was skipped. -/
  | error

/-! ## Packages and models -/

/-- What a package shows of its contents. -/
inductive Provide where
  | const (name : Ident) (type : TypeExpr) (value : Option Expr)
  | node (head : NodeHead) (params : Option (List (Located StaticParam))) (profile : Profile)
  | type (definition : TypeDef)

/-- An argument for a model, by name or by position. -/
structure NamedArg where
  name : Option Ident
  arg : StaticArg

/-- How the instance of a model is introduced. -/
inductive InstanceWord where
  | eq | isWord
deriving DecidableEq

/-- The brackets around the arguments for a model. -/
inductive Brackets where
  | paren | angle
deriving DecidableEq

/-- The contents of a package. -/
inductive PackageBody where
  | definition (uses : List Ident) (provides : Option (List (Located Provide)))
      (decls : List (Located Declaration))
  | instantiated (word : InstanceWord) (model : Ident) (brackets : Brackets)
      (args : List (Located NamedArg))
  | missing

/-- A package. -/
structure Package where
  name : Ident
  body : PackageBody

/-- A package with parameters, those that it `needs`. -/
structure Model where
  name : Ident
  uses : List Ident
  needs : List (Located StaticParam)
  provides : Option (List (Located Provide))
  decls : List (Located Declaration)

/-! ## Programs -/

/-- An item at the outermost level. -/
inductive Item where
  | decl (decl : Located Declaration)
  | package (package : Package)
  | model (model : Model)
  /-- An item that was skipped. -/
  | error

/-- A file: the paths that it includes, and its items. -/
structure Program where
  includes : List (Located String)
  items : List (Located Item)

namespace Program

/-- The program of an empty text. -/
def empty : Program := ⟨[], []⟩

/-! ## What a program declares -/

/-- The declarations outside packages and models. -/
def declarations (program : Program) : List (Located Declaration) :=
  program.items.filterMap fun item =>
    match item.value with
    | .decl decl => some decl
    | _ => none

/-- The packages. -/
def packages (program : Program) : List Package :=
  program.items.filterMap fun item =>
    match item.value with
    | .package package => some package
    | _ => none

/-- The models. -/
def models (program : Program) : List Model :=
  program.items.filterMap fun item =>
    match item.value with
    | .model model => some model
    | _ => none

end Program

namespace Item

/-- The declarations of an item, those inside a package or a model included. -/
def declarations : Item → List (Located Declaration)
  | .decl single => [single]
  | .package ⟨_, .definition _ _ decls⟩ => decls
  | .package _ => []
  | .model parametric => parametric.decls
  | .error => []

end Item

namespace Program

/-- All nodes, those inside packages and models included. -/
def nodes (program : Program) : List NodeDecl :=
  (program.items.flatMap fun item => item.value.declarations).filterMap fun decl =>
    match decl.value with
    | .node node => some node
    | _ => none

end Program

end Lustre
