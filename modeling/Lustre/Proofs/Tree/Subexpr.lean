import Lustre.Tree.Program

/-!
# The expressions in a tree

`exprs` lists the expressions that a tree holds, itself included, in the order of the
text.  A callee that is an instance of a node is left out, since it is no expression by
itself; the expressions in its static arguments are not.
-/

namespace Lustre

/-- Whether an expression is an instance of a node. -/
def Expr.isInst : Expr → Bool
  | inst _ _ _ => true
  | _ => false

mutual

/-- The expressions inside an expression. -/
def Expr.within : Expr → List Expr
  | .error _ | .bool _ _ | .int _ _ | .real _ _ | .name _ _ => []
  | .inst _ _ args => argsExprs args
  | .tuple _ items | .array _ items => Expr.listExprs items
  | .record _ _ _ fields => FieldInit.listExprs fields
  | .field _ value _ => value :: value.within
  | .index _ value index => value :: value.within ++ index :: index.within
  | .slice _ value first last step =>
      value :: value.within ++ first :: first.within ++ last :: last.within ++ stepExprs step
  | .call _ callee args =>
      (if callee.isInst then callee.within else callee :: callee.within) ++ Expr.listExprs args
  | .cond _ _ condition yes no =>
      condition :: condition.within ++ yes :: yes.within ++ no :: no.within
  | .merge _ _ arms => MergeArm.listExprs arms
  | .sampled _ value _ => value :: value.within
  | .unary _ _ operand => operand :: operand.within
  | .binary _ _ lhs rhs => lhs :: lhs.within ++ rhs :: rhs.within
  | .list _ _ operands => Expr.listExprs operands

/-- The expressions in some expressions. -/
def Expr.listExprs : List Expr → List Expr
  | [] => []
  | expr :: exprs => expr :: expr.within ++ Expr.listExprs exprs

/-- The expressions in the step of a slice. -/
def stepExprs : Option Expr → List Expr
  | some step => step :: step.within
  | none => []

/-- The expressions in some fields of a record. -/
def FieldInit.listExprs : List FieldInit → List Expr
  | [] => []
  | ⟨_, _, value⟩ :: fields => value :: value.within ++ FieldInit.listExprs fields

/-- The expressions in some arms of a merge. -/
def MergeArm.listExprs : List MergeArm → List Expr
  | [] => []
  | ⟨_, _, value⟩ :: arms => value :: value.within ++ MergeArm.listExprs arms

/-- The expressions in a type, which are its lengths. -/
def TypeExpr.within : TypeExpr → List Expr
  | .bool _ | .int _ | .real _ | .named _ _ => []
  | .table _ element length => element.within ++ length :: length.within

/-- The expressions in a static argument. -/
def StaticArg.within : StaticArg → List Expr
  | .name _ _ | .op _ _ => []
  | .type _ type _ => type.within
  | .const _ value _ => value :: value.within
  | .node _ _ _ _ args => argsExprs args

/-- The expressions in some static arguments. -/
def StaticArg.listExprs : List StaticArg → List Expr
  | [] => []
  | arg :: args => arg.within ++ StaticArg.listExprs args

/-- The expressions in the static arguments of a node, if it has any. -/
def argsExprs : Option (List StaticArg) → List Expr
  | some args => StaticArg.listExprs args
  | none => []

end

attribute [grind =] Expr.within TypeExpr.within StaticArg.within

/-- An expression and the expressions inside it. -/
def Expr.exprs (e : Expr) : List Expr := e :: e.within

/-! ## Lists -/

theorem Expr.mem_listExprs {s : Expr} {items : List Expr} :
    s ∈ listExprs items ↔ ∃ item ∈ items, s ∈ item.exprs := by
  induction items with
  | nil => simp [listExprs]
  | cons item items ih => simp [listExprs, exprs, ih, or_assoc]

theorem FieldInit.mem_listExprs {s : Expr} {fields : List FieldInit} :
    s ∈ listExprs fields ↔ ∃ init ∈ fields, s ∈ init.value.exprs := by
  induction fields with
  | nil => simp [listExprs]
  | cons init fields ih =>
      cases init
      simp [listExprs, Expr.exprs, ih, or_assoc]

theorem MergeArm.mem_listExprs {s : Expr} {arms : List MergeArm} :
    s ∈ listExprs arms ↔ ∃ arm ∈ arms, s ∈ arm.value.exprs := by
  induction arms with
  | nil => simp [listExprs]
  | cons arm arms ih =>
      cases arm
      simp [listExprs, Expr.exprs, ih, or_assoc]

theorem StaticArg.mem_listExprs {s : Expr} {args : List StaticArg} :
    s ∈ listExprs args ↔ ∃ arg ∈ args, s ∈ arg.within := by
  induction args with
  | nil => simp [listExprs]
  | cons arg args ih => simp [listExprs, ih]

/-! ## Declarations -/

/-- Whatever holds expressions. -/
class HasExprs (α : Type) where
  /-- The expressions that it holds, and those inside them. -/
  exprs : α → List Expr

export HasExprs (exprs)

variable {α : Type} [HasExprs α]

instance : HasExprs (List α) := ⟨fun items => items.flatMap exprs⟩

theorem exprs_append (items later : List α) :
    exprs (items ++ later) = exprs items ++ exprs later :=
  List.flatMap_append

theorem exprs_singleton (item : α) : exprs [item] = exprs item := List.append_nil _

instance : HasExprs (Option α) where
  exprs
    | some item => exprs item
    | none => []

instance : HasExprs (Located α) := ⟨fun item => exprs item.value⟩

instance : HasExprs Expr := ⟨Expr.exprs⟩

instance : HasExprs TypeExpr := ⟨TypeExpr.within⟩

instance : HasExprs StaticArg := ⟨StaticArg.within⟩

instance : HasExprs NodeUse := ⟨fun target => argsExprs target.args⟩

/-- The expressions in a left-hand side. -/
def LeftExpr.within : LeftExpr → List Expr
  | .name _ => []
  | .field _ value _ => value.within
  | .index _ value place => value.within ++ exprs place
  | .slice _ value first last step => value.within ++ exprs first ++ exprs last ++ exprs step

instance : HasExprs LeftExpr := ⟨LeftExpr.within⟩

instance : HasExprs LeftList := ⟨fun lhs => exprs lhs.items⟩

instance : HasExprs Equation where
  exprs
    | .assertion condition => exprs condition
    | .define lhs rhs => exprs lhs ++ exprs rhs
    | .error => []

instance : HasExprs TypedNames := ⟨fun group => exprs group.type⟩

instance : HasExprs VarDecl := ⟨fun decl => exprs decl.groups⟩

instance : HasExprs ConstDef where
  exprs
    | .typed _ type => exprs type
    | .typedValue _ type value => exprs type ++ exprs value
    | .value _ value => exprs value

instance : HasExprs FieldDecl := ⟨fun decl => exprs decl.type ++ exprs decl.default⟩

instance : HasExprs TypeBody where
  exprs
    | .synonym type => exprs type
    | .enumeration _ => []
    | .record _ fields => exprs fields

instance : HasExprs TypeDef := ⟨fun entry => exprs entry.body⟩

instance : HasExprs Profile := ⟨fun profile => exprs profile.inputs ++ exprs profile.outputs⟩

instance : HasExprs StaticParam where
  exprs
    | .type _ => []
    | .const _ type => exprs type
    | .node _ profile => exprs profile

instance : HasExprs LocalBlock where
  exprs
    | .vars vars => exprs vars
    | .consts consts => exprs consts

instance : HasExprs NodeDefinition :=
  ⟨fun definition => exprs definition.locals ++ exprs definition.equations⟩

instance : HasExprs NodeBody where
  exprs
    | .definition definition => exprs definition
    | .synonym target => exprs target
    | .missing => []

instance : HasExprs NodeDecl :=
  ⟨fun decl => exprs decl.params ++ exprs decl.profile ++ exprs decl.body⟩

instance : HasExprs ExternalNode := ⟨fun node => exprs node.profile⟩

instance : HasExprs Declaration where
  exprs
    | .node decl => exprs decl
    | .types defs => exprs defs
    | .consts defs => exprs defs
    | .external node => exprs node
    | .error => []

instance : HasExprs Provide where
  exprs
    | .const _ type value => exprs type ++ exprs value
    | .node _ params profile => exprs params ++ exprs profile
    | .type definition => exprs definition

instance : HasExprs NamedArg := ⟨fun named => exprs named.arg⟩

instance : HasExprs PackageBody where
  exprs
    | .definition _ provides decls => exprs provides ++ exprs decls
    | .instantiated _ _ _ args => exprs args
    | .missing => []

instance : HasExprs Package := ⟨fun package => exprs package.body⟩

instance : HasExprs Model :=
  ⟨fun model => exprs model.needs ++ exprs model.provides ++ exprs model.decls⟩

instance : HasExprs Item where
  exprs
    | .decl decl => exprs decl
    | .package package => exprs package
    | .model model => exprs model
    | .error => []

instance : HasExprs Program := ⟨fun program => exprs program.items⟩

end Lustre
