import Lustre.Proofs.Tree.Words

/-!
# The shape of trees that were read

The types of the trees admit more than reading produces.  `Shaped` says what the
types leave open: an instance stands only where it is called, a merge has an arm,
an operand is of a tier that its operator takes, a block has an entry, a node has a
body, and nothing was skipped.  A static argument is shaped if it could not be taken
for one of another sort.
-/

namespace Lustre

/-! ## Expressions, types and static arguments -/

namespace Expr

/-- Whether an expression is a bare name. -/
def isName : Expr → Bool
  | name _ _ => true
  | _ => false

/-- Whether an expression is a bare name without a package. -/
def isPlainName : Expr → Bool
  | name _ ref => !ref.isQualified
  | _ => false

/-- Whether an expression begins with a plain name and `=`, like a named argument. -/
def opensEquation : Expr → Bool
  | binary _ op lhs _ => (op == .eq && lhs.isPlainName) || lhs.opensEquation
  | _ => false

/-- Whether an expression can be an operand of a comparison, of an operator of the inner tier, of a
prefix operator and of a clock. -/
def isInner : Expr → Bool
  | binary _ op _ _ => op.tier == .inner
  | _ => true

/-- Whether an expression is a literal number. -/
def isNumber : Expr → Bool
  | int _ _ | real _ _ => true
  | _ => false

end Expr

/-- Whether a type is built over one of the types of the language. -/
def TypeExpr.isBuiltin : TypeExpr → Bool
  | .bool _ | .int _ | .real _ => true
  | .named _ _ => false
  | .table _ element _ => element.isBuiltin

mutual

/-- The shape of an expression, which is called at once if `called`. -/
def Expr.Shaped (called : Bool) : Expr → Prop
  | .error _ => False
  | .bool _ _ | .int _ _ | .real _ _ | .name _ _ => True
  | .inst _ _ args => called = true ∧ args.isSome = true ∧ argsShaped args
  | .tuple _ items | .array _ items => Expr.listShaped items
  | .record _ _ _ fields => FieldInit.listShaped fields
  | .field _ value _ => value.Shaped false
  | .index _ value index => value.Shaped false ∧ index.Shaped false
  | .slice _ value first last step =>
      value.Shaped false ∧ first.Shaped false ∧ last.Shaped false ∧ stepShaped step
  | .call _ callee args => callee.Shaped true ∧ Expr.listShaped args
  | .cond _ _ condition yes no =>
      condition.Shaped false ∧ yes.Shaped false ∧ no.Shaped false
  | .merge _ _ arms => called = false ∧ arms ≠ [] ∧ MergeArm.listShaped arms
  | .sampled _ value _ => value.isInner = true ∧ value.Shaped false
  | .unary _ _ operand => operand.isInner = true ∧ operand.Shaped false
  | .binary _ op lhs rhs =>
      (op.tier = .top ∨ lhs.isInner = true ∧ rhs.isInner = true) ∧
      lhs.Shaped false ∧ rhs.Shaped false
  | .list _ _ operands => Expr.listShaped operands

/-- The shape of some expressions. -/
def Expr.listShaped : List Expr → Prop
  | [] => True
  | expr :: exprs => expr.Shaped false ∧ Expr.listShaped exprs

/-- The shape of the step of a slice. -/
def stepShaped : Option Expr → Prop
  | some step => step.Shaped false
  | none => True

/-- The shape of some fields of a record. -/
def FieldInit.listShaped : List FieldInit → Prop
  | [] => True
  | ⟨_, _, value⟩ :: fields => value.Shaped false ∧ FieldInit.listShaped fields

/-- The shape of some arms of a merge. -/
def MergeArm.listShaped : List MergeArm → Prop
  | [] => True
  | ⟨_, _, value⟩ :: arms => value.Shaped false ∧ MergeArm.listShaped arms

/-- The shape of a type. -/
def TypeExpr.Shaped : TypeExpr → Prop
  | .bool _ | .int _ | .real _ | .named _ _ => True
  | .table _ element length => element.Shaped ∧ length.Shaped false

/-- The shape of a static argument: without a keyword it is told apart by what it begins with. -/
def StaticArg.Shaped : StaticArg → Prop
  | .name _ _ | .op _ _ => True
  | .type _ type explicit => (explicit = true ∨ type.isBuiltin = true) ∧ type.Shaped
  | .const _ value explicit => (explicit = true ∨ value.isName = false) ∧ value.Shaped false
  | .node _ keyword _ _ args =>
      (keyword.isSome = true ∨ args.isSome = true) ∧ argsShaped args

/-- The shape of some static arguments. -/
def StaticArg.listShaped : List StaticArg → Prop
  | [] => True
  | arg :: args => arg.Shaped ∧ StaticArg.listShaped args

/-- The shape of the static arguments of a node, if it has any. -/
def argsShaped : Option (List StaticArg) → Prop
  | some args => StaticArg.listShaped args
  | none => True

end

theorem Expr.listShaped_iff (exprs : List Expr) :
    Expr.listShaped exprs ↔ ∀ expr ∈ exprs, expr.Shaped false := by
  induction exprs with
  | nil => simp [Expr.listShaped]
  | cons expr exprs ih => simp [Expr.listShaped, ih]

theorem FieldInit.listShaped_iff (fields : List FieldInit) :
    FieldInit.listShaped fields ↔ ∀ init ∈ fields, init.value.Shaped false := by
  induction fields with
  | nil => simp [FieldInit.listShaped]
  | cons init fields ih =>
      cases init
      simp [FieldInit.listShaped, ih]

theorem MergeArm.listShaped_iff (arms : List MergeArm) :
    MergeArm.listShaped arms ↔ ∀ arm ∈ arms, arm.value.Shaped false := by
  induction arms with
  | nil => simp [MergeArm.listShaped]
  | cons arm arms ih =>
      cases arm
      simp [MergeArm.listShaped, ih]

theorem StaticArg.listShaped_iff (args : List StaticArg) :
    StaticArg.listShaped args ↔ ∀ arg ∈ args, arg.Shaped := by
  induction args with
  | nil => simp [StaticArg.listShaped]
  | cons arg args ih => simp [StaticArg.listShaped, ih]

theorem Reference.beginsPlain (ref : Reference) : BeginsPlain ref.words := by
  unfold words
  split <;> exact ⟨_, _, rfl, rfl⟩

/-- An expression begins with a word, which is not the keyword of an explicit argument. -/
theorem Expr.beginsPlain : ∀ (called : Bool) (e : Expr), e.Shaped called → BeginsPlain e.words
  | _, .error _, h => absurd h id
  | _, .bool _ value, _ => ⟨_, _, rfl, by cases value <;> rfl⟩
  | _, .int _ _, _ | _, .real _ _, _ => ⟨_, _, rfl, rfl⟩
  | _, .name _ ref, _ => ref.beginsPlain
  | _, .inst _ node _, _ => node.beginsPlain.append _
  | _, .tuple _ _, _ | _, .array _ _, _ | _, .merge _ _ _, _ => ⟨_, _, rfl, rfl⟩
  | _, .record _ type _ _, _ => (((type.beginsPlain.append _).append _).append _)
  | _, .cond _ opening _ _ _, _ => ⟨_, _, rfl, by cases opening <;> rfl⟩
  | _, .unary _ op _, _ => ⟨_, _, rfl, by cases op <;> rfl⟩
  | _, .list _ op _, _ => ⟨_, _, rfl, by cases op <;> rfl⟩
  | _, .field _ value _, h => (beginsPlain _ value h).append _
  | _, .index _ value _, h => ((beginsPlain _ value h.1).append _).append _
  | _, .slice _ value _ _ _, h =>
      ((((beginsPlain _ value h.1).append _).append _).append _).append _
  | _, .call _ callee _, h => ((beginsPlain _ callee h.1).append _).append _
  | _, .sampled _ value _, h => (beginsPlain _ value h.2).append _
  | _, .binary _ _ lhs _, h => (beginsPlain _ lhs h.2.1).append _

/-! ## Declarations -/

/-- The shape of a value that may be absent. -/
def valueShaped : Option Expr → Prop
  | some value => value.Shaped false
  | none => True

namespace LeftExpr

/-- The shape of a left-hand side. -/
def Shaped : LeftExpr → Prop
  | name _ => True
  | field _ value _ => value.Shaped
  | index _ value place => value.Shaped ∧ place.Shaped false
  | slice _ value first last step =>
      value.Shaped ∧ first.Shaped false ∧ last.Shaped false ∧ stepShaped step

end LeftExpr

namespace LeftList

/-- The shape of the left-hand sides of an equation: none only in parentheses. -/
def Shaped (lhs : LeftList) : Prop :=
  (lhs.parenthesized = true ∨ lhs.items ≠ []) ∧ ∀ item ∈ lhs.items, item.Shaped

end LeftList

namespace Equation

/-- The shape of a statement, which was not skipped. -/
def Shaped : Equation → Prop
  | assertion condition => condition.Shaped false
  | define lhs rhs => lhs.Shaped ∧ rhs.Shaped false
  | error => False

end Equation

namespace TypedNames

/-- The shape of a group of variables. -/
def Shaped (group : TypedNames) : Prop := group.names ≠ [] ∧ group.type.Shaped

end TypedNames

namespace VarDecl

/-- The shape of a declaration of variables: in parentheses, groups with a clock, otherwise a
single group. -/
def Shaped (decl : VarDecl) : Prop :=
  decl.groups ≠ [] ∧ (∀ group ∈ decl.groups, group.Shaped) ∧
    (if decl.parenthesized then decl.clock.isSome = true else decl.groups.length = 1)

end VarDecl

namespace Profile

/-- The shape of the inputs and the outputs of a node. -/
def Shaped (profile : Profile) : Prop :=
  (∀ param ∈ profile.inputs, param.value.Shaped) ∧ ∀ param ∈ profile.outputs, param.value.Shaped

end Profile

namespace ConstDef

/-- The shape of an entry of a `const` block. -/
def Shaped : ConstDef → Prop
  | typed names type => names ≠ [] ∧ type.Shaped
  | typedValue _ type init => type.Shaped ∧ init.Shaped false
  | value _ init => init.Shaped false

end ConstDef

namespace FieldDecl

/-- The shape of fields of a record type: only a single field has a default. -/
def Shaped (decl : FieldDecl) : Prop :=
  decl.names ≠ [] ∧ decl.type.Shaped ∧ valueShaped decl.default ∧
    (decl.default.isSome = true → decl.names.length = 1)

end FieldDecl

namespace TypeBody

/-- The shape of what a type name stands for. -/
def Shaped : TypeBody → Prop
  | synonym type => type.Shaped
  | enumeration names => names ≠ []
  | record _ fields => ∀ decl ∈ fields, decl.value.Shaped

end TypeBody

namespace TypeDef

/-- The shape of an entry of a `type` block. -/
def Shaped (entry : TypeDef) : Prop := ∀ body, entry.body = some body → body.value.Shaped

end TypeDef

namespace StaticParam

/-- The shape of a static parameter. -/
def Shaped : StaticParam → Prop
  | type _ => True
  | const _ range => range.Shaped
  | node _ profile => profile.Shaped

/-- The shape of static parameters, if there are any. -/
def listShaped (params : Option (List (Located StaticParam))) : Prop :=
  ∀ list, params = some list → ∀ param ∈ list, param.value.Shaped

end StaticParam

namespace LocalBlock

/-- The shape of a block of local variables or constants, which has an entry. -/
def Shaped : LocalBlock → Prop
  | vars decls => decls ≠ [] ∧ ∀ decl ∈ decls, decl.value.Shaped
  | consts decls => decls ≠ [] ∧ ∀ decl ∈ decls, decl.value.Shaped

end LocalBlock

namespace NodeDefinition

/-- The shape of the body of a node. -/
def Shaped (own : NodeDefinition) : Prop :=
  (∀ block ∈ own.locals, block.value.Shaped) ∧ ∀ equation ∈ own.equations, equation.value.Shaped

end NodeDefinition

namespace NodeDecl

/-- The shape of a node: it is an alias, or it has a profile and a body. -/
def Shaped (decl : NodeDecl) : Prop :=
  StaticParam.listShaped decl.params ∧ (∀ profile, decl.profile = some profile → profile.Shaped) ∧
    match decl.body with
    | .definition own => decl.profile.isSome = true ∧ own.Shaped
    | .synonym target => argsShaped target.args
    | .missing => False

end NodeDecl

namespace Declaration

/-- The shape of a declaration, which was not skipped; a block has an entry. -/
def Shaped : Declaration → Prop
  | node decl => decl.Shaped
  | types defs => defs ≠ [] ∧ ∀ entry ∈ defs, entry.value.Shaped
  | consts defs => defs ≠ [] ∧ ∀ entry ∈ defs, entry.value.Shaped
  | external decl => decl.profile.Shaped
  | error => False

end Declaration

/-- A declaration that was read begins with a keyword. -/
theorem Declaration.words_ne_nil {decl : Declaration} (h : decl.Shaped) : decl.words ≠ [] := by
  cases decl with
  | node decl => simp [words, NodeDecl.words, NodeHead.words]
  | types defs => simp [words]
  | consts defs => simp [words]
  | external decl => simp [words, ExternalNode.words, NodeHead.words]
  | error => exact absurd h id

/-! ## Packages, models and programs -/

namespace Provide

/-- The shape of something that a package provides. -/
def Shaped : Provide → Prop
  | const _ range value => range.Shaped ∧ valueShaped value
  | node _ params profile => StaticParam.listShaped params ∧ profile.Shaped
  | type entry => entry.Shaped

/-- The shape of what a package provides: if it says so, there is something. -/
def listShaped (provides : Option (List (Located Provide))) : Prop :=
  ∀ list, provides = some list → list ≠ [] ∧ ∀ provide ∈ list, provide.value.Shaped

end Provide

namespace StaticArg

/-- Whether an argument begins, perhaps after its keyword, like a named argument. -/
def opensEquation : StaticArg → Bool
  | const _ value _ => value.opensEquation
  | _ => false

end StaticArg

namespace NamedArg

/-- The shape of an argument for a model: without a name, it could not be taken for a named
one. -/
def Shaped (named : NamedArg) : Prop :=
  named.arg.Shaped ∧ (named.name.isSome = true ∨ named.arg.opensEquation = false)

end NamedArg

namespace PackageBody

/-- The shape of the contents of a package. -/
def Shaped : PackageBody → Prop
  | definition _ provides decls =>
      Provide.listShaped provides ∧ ∀ decl ∈ decls, decl.value.Shaped
  | instantiated _ _ _ args => ∀ arg ∈ args, arg.value.Shaped
  | missing => False

end PackageBody

namespace Model

/-- The shape of a model, which has parameters. -/
def Shaped (model : Model) : Prop :=
  model.needs ≠ [] ∧ (∀ param ∈ model.needs, param.value.Shaped) ∧
    Provide.listShaped model.provides ∧ ∀ decl ∈ model.decls, decl.value.Shaped

end Model

namespace Item

/-- The shape of an item, which was not skipped. -/
def Shaped : Item → Prop
  | decl single => single.value.Shaped
  | package whole => whole.body.Shaped
  | model whole => whole.Shaped
  | error => False

end Item

namespace Program

/-- The shape of a program. -/
def Shaped (program : Program) : Prop := ∀ item ∈ program.items, item.value.Shaped

end Program

/-! ## What is kept of broken texts

A tree of a text that could not be read as a whole is `Sound`: where something was skipped or is
missing it says so, blocks may have lost all their entries, and everything else is shaped. -/

namespace Equation

/-- A statement that was read is shaped. -/
def Sound (equation : Equation) : Prop := equation ≠ .error → equation.Shaped

end Equation

namespace LocalBlock

/-- The entries of a block of local variables or constants are shaped. -/
def Sound : LocalBlock → Prop
  | vars decls => ∀ decl ∈ decls, decl.value.Shaped
  | consts decls => ∀ decl ∈ decls, decl.value.Shaped

end LocalBlock

namespace NodeDefinition

/-- What was read of the body of a node is shaped. -/
def Sound (own : NodeDefinition) : Prop :=
  (∀ block ∈ own.locals, block.value.Sound) ∧ ∀ equation ∈ own.equations, equation.value.Sound

end NodeDefinition

namespace NodeBody

/-- What was read of a node after its profile is shaped. -/
def Sound : NodeBody → Prop
  | definition own => own.Sound
  | synonym target => argsShaped target.args
  | missing => True

end NodeBody

namespace NodeDecl

/-- What was read of a node is shaped. -/
def Sound (decl : NodeDecl) : Prop :=
  StaticParam.listShaped decl.params ∧ (∀ profile, decl.profile = some profile → profile.Shaped) ∧
    decl.body.Sound

end NodeDecl

namespace Declaration

/-- What was read of a declaration is shaped. -/
def Sound : Declaration → Prop
  | node decl => decl.Sound
  | types defs => ∀ entry ∈ defs, entry.value.Shaped
  | consts defs => ∀ entry ∈ defs, entry.value.Shaped
  | external decl => decl.profile.Shaped
  | error => True

end Declaration

namespace PackageBody

/-- What was read of a package is shaped, and it is not missing. -/
def Sound : PackageBody → Prop
  | definition _ provides decls =>
      Provide.listShaped provides ∧ ∀ decl ∈ decls, decl.value.Sound
  | instantiated _ _ _ args => ∀ arg ∈ args, arg.value.Shaped
  | missing => False

end PackageBody

namespace Model

/-- What was read of a model is shaped. -/
def Sound (model : Model) : Prop :=
  (∀ param ∈ model.needs, param.value.Shaped) ∧ Provide.listShaped model.provides ∧
    ∀ decl ∈ model.decls, decl.value.Sound

end Model

namespace Item

/-- What was read of an item is shaped. -/
def Sound : Item → Prop
  | decl single => single.value.Sound
  | package whole => whole.body.Sound
  | model whole => whole.Sound
  | error => True

end Item

namespace Program

/-- What was read of a program is shaped. -/
def Sound (program : Program) : Prop := ∀ item ∈ program.items, item.value.Sound

end Program

end Lustre
