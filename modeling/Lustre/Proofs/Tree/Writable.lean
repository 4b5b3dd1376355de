import Lustre.Proofs.Tree.Legible

/-!
# Programs that can be printed

A program is `Writable` if it has the shape of one that was read, its names are names, and
its expressions, types and static arguments satisfy what a `Standard` asks of them.  What
is printed for a program depends on this alone, so it is settled here once that programs
read from a text are writable, for every standard that trees inherit from their parts.

The one form that is left out, though it can be read, is the instance of a package whose
first argument is the operator `*` alone: behind the parenthesis it would open a comment.
-/

namespace Lustre

open Lexeme

/-- What is asked of the expressions, the types and the static arguments in a program. -/
structure Standard where
  value : Expr → Prop
  type : TypeExpr → Prop
  arg : StaticArg → Prop

namespace Standard

/-- What is asked of a node with its static arguments, if it has any. -/
def Node (s : Standard) (node : Reference) (args : Option (List StaticArg)) : Prop :=
  node.Printable ∧ ∀ list, args = some list → ∀ arg ∈ list, s.arg arg

end Standard

/-- Some names, at least one. -/
def NamesPrintable (names : List Ident) : Prop := names ≠ [] ∧ ∀ name ∈ names, name.Printable

/-! ## Equations -/

namespace LeftExpr

/-- A left-hand side is made of names and of expressions that can be printed. -/
def Writable (s : Standard) : LeftExpr → Prop
  | name ident => ident.Printable
  | field _ value selected => value.Writable s ∧ selected.Printable
  | index _ value place => value.Writable s ∧ s.value place
  | slice _ value first last step =>
      value.Writable s ∧ s.value first ∧ s.value last ∧ ∀ width, step = some width → s.value width

end LeftExpr

namespace LeftList

/-- There are left-hand sides, or parentheses around none. -/
def Writable (s : Standard) (lhs : LeftList) : Prop :=
  (lhs.parenthesized = true ∨ lhs.items ≠ []) ∧ ∀ item ∈ lhs.items, item.Writable s

end LeftList

namespace Equation

/-- A statement was not skipped. -/
def Writable (s : Standard) : Equation → Prop
  | assertion condition => s.value condition
  | define lhs rhs => lhs.Writable s ∧ s.value rhs
  | error => False

end Equation

/-! ## Variables, constants and types -/

namespace TypedNames

/-- A group of variables has names. -/
def Writable (s : Standard) (group : TypedNames) : Prop :=
  NamesPrintable group.names ∧ s.type group.type

end TypedNames

/-- In parentheses there are groups with a clock, otherwise a single group. -/
structure VarDecl.Writable (s : Standard) (decl : VarDecl) : Prop where
  nonempty : decl.groups ≠ []
  groups : ∀ group ∈ decl.groups, group.Writable s
  clock : ∀ clock, decl.clock = some clock → clock.value.Printable
  form : if decl.parenthesized then decl.clock.isSome = true else decl.groups.length = 1

/-- The inputs and the outputs of a node. -/
structure Profile.Writable (s : Standard) (profile : Profile) : Prop where
  inputs : ∀ param ∈ profile.inputs, param.value.Writable s
  outputs : ∀ param ∈ profile.outputs, param.value.Writable s

namespace ConstDef

/-- An entry of a `const` block. -/
def Writable (s : Standard) : ConstDef → Prop
  | typed names type => NamesPrintable names ∧ s.type type
  | typedValue name type init => name.Printable ∧ s.type type ∧ s.value init
  | value name init => name.Printable ∧ s.value init

end ConstDef

/-- Only a single field has a default. -/
structure FieldDecl.Writable (s : Standard) (decl : FieldDecl) : Prop where
  names : NamesPrintable decl.names
  type : s.type decl.type
  default : ∀ value, decl.default = some value → s.value value ∧ decl.names.length = 1

namespace TypeBody

/-- What a type name stands for. -/
def Writable (s : Standard) : TypeBody → Prop
  | synonym type => s.type type
  | enumeration names => NamesPrintable names
  | record _ fields => ∀ decl ∈ fields, decl.value.Writable s

end TypeBody

/-- An entry of a `type` block. -/
structure TypeDef.Writable (s : Standard) (entry : TypeDef) : Prop where
  name : entry.name.Printable
  body : ∀ body, entry.body = some body → body.value.Writable s

/-! ## Nodes -/

namespace StaticParam

/-- A static parameter. -/
def Writable (s : Standard) : StaticParam → Prop
  | type name => name.Printable
  | const name range => name.Printable ∧ s.type range
  | node head profile => head.name.Printable ∧ profile.Writable s

/-- Static parameters, if there are any. -/
def ListWritable (s : Standard) (params : Option (List (Located StaticParam))) : Prop :=
  ∀ list, params = some list → ∀ param ∈ list, param.value.Writable s

end StaticParam

namespace LocalBlock

/-- A block of local variables or constants has an entry. -/
def Writable (s : Standard) : LocalBlock → Prop
  | vars decls => decls ≠ [] ∧ ∀ decl ∈ decls, decl.value.Writable s
  | consts decls => decls ≠ [] ∧ ∀ decl ∈ decls, decl.value.Writable s

end LocalBlock

/-- The body of a node. -/
structure NodeDefinition.Writable (s : Standard) (own : NodeDefinition) : Prop where
  locals : ∀ block ∈ own.locals, block.value.Writable s
  equations : ∀ equation ∈ own.equations, equation.value.Writable s

namespace NodeBody

/-- A node is an alias, or it has a body and then also a profile. -/
def Writable (s : Standard) (profile : Option Profile) : NodeBody → Prop
  | definition own => profile.isSome = true ∧ own.Writable s
  | synonym target => s.Node target.node target.args
  | missing => False

end NodeBody

/-- A node. -/
structure NodeDecl.Writable (s : Standard) (decl : NodeDecl) : Prop where
  name : decl.head.name.Printable
  params : StaticParam.ListWritable s decl.params
  profile : ∀ profile, decl.profile = some profile → profile.Writable s
  body : decl.body.Writable s decl.profile

/-- A node that is implemented elsewhere. -/
structure ExternalNode.Writable (s : Standard) (node : ExternalNode) : Prop where
  name : node.head.name.Printable
  profile : node.profile.Writable s

namespace Declaration

/-- A declaration was not skipped, and a block has an entry. -/
def Writable (s : Standard) : Declaration → Prop
  | node decl => decl.Writable s
  | types defs => defs ≠ [] ∧ ∀ entry ∈ defs, entry.value.Writable s
  | consts defs => defs ≠ [] ∧ ∀ entry ∈ defs, entry.value.Writable s
  | external decl => decl.Writable s
  | error => False

end Declaration

/-! ## Packages and models -/

namespace Provide

/-- Something that a package provides. -/
def Writable (s : Standard) : Provide → Prop
  | const name range value =>
      name.Printable ∧ s.type range ∧ ∀ init, value = some init → s.value init
  | node head params profile =>
      head.name.Printable ∧ StaticParam.ListWritable s params ∧ profile.Writable s
  | type entry => entry.Writable s

/-- What a package provides: if it says so, there is something. -/
def ListWritable (s : Standard) (provides : Option (List (Located Provide))) : Prop :=
  ∀ list, provides = some list → list ≠ [] ∧ ∀ provide ∈ list, provide.value.Writable s

end Provide

namespace StaticArg

/-- The parts of a static argument, which is told apart from those of other sorts. -/
def Writable (s : Standard) : StaticArg → Prop
  | name _ ref => ref.Printable
  | type _ element explicit => (explicit = true ∨ element.isBuiltin = true) ∧ s.type element
  | const _ value explicit => (explicit = true ∨ value.isName = false) ∧ s.value value
  | node _ keyword _ ref args => (keyword.isSome = true ∨ args.isSome = true) ∧ s.Node ref args
  | op _ _ => True

end StaticArg

/-- An argument for a model could not be taken for a named one if it has no name. -/
structure NamedArg.Writable (s : Standard) (named : NamedArg) : Prop where
  name : ∀ name, named.name = some name → name.Printable
  arg : named.arg.Writable s
  form : named.name.isSome = true ∨ named.arg.opensEquation = false

namespace PackageBody

/-- Whether the arguments for a model begin with `(*`, like a comment. -/
def opensComment : PackageBody → Bool
  | instantiated _ _ .paren (⟨⟨none, .op _ .star⟩, _⟩ :: _) => true
  | _ => false

/-- The contents of a package. -/
def Writable (s : Standard) : PackageBody → Prop
  | definition uses provides decls =>
      (∀ name ∈ uses, name.Printable) ∧ Provide.ListWritable s provides ∧
        ∀ decl ∈ decls, decl.value.Writable s
  | instantiated _ model _ args => model.Printable ∧ ∀ arg ∈ args, arg.value.Writable s
  | missing => False

end PackageBody

/-- A package. -/
structure Package.Writable (s : Standard) (package : Package) : Prop where
  name : package.name.Printable
  body : package.body.Writable s
  comment : package.body.opensComment = false

/-- A model has parameters. -/
structure Model.Writable (s : Standard) (model : Model) : Prop where
  name : model.name.Printable
  uses : ∀ name ∈ model.uses, name.Printable
  nonempty : model.needs ≠ []
  needs : ∀ param ∈ model.needs, param.value.Writable s
  provides : Provide.ListWritable s model.provides
  decls : ∀ decl ∈ model.decls, decl.value.Writable s

/-! ## Programs -/

namespace Item

/-- An item was not skipped. -/
def Writable (s : Standard) : Item → Prop
  | decl single => single.value.Writable s
  | package whole => whole.Writable s
  | model whole => whole.Writable s
  | error => False

end Item

/-- No path ends the string that it stands in. -/
structure Program.Writable (s : Standard) (program : Program) : Prop where
  includes : ∀ file ∈ program.includes, '"' ∉ file.value.toList
  items : ∀ item ∈ program.items, item.value.Writable s

/-! ## Programs that were read -/

theorem forall_mem_part {α β : Type} {P : β → Prop} {f : α → List β} {items : List α}
    (h : ∀ y ∈ items.flatMap f, P y) {item : α} (hmem : item ∈ items) : ∀ y ∈ f item, P y :=
  fun y hy => h y (List.mem_flatMap.mpr ⟨item, hmem, hy⟩)

theorem names_printable {fused : Bool} {names : List Ident}
    (hw : ∀ word ∈ namesWords names, word.Spelt fused) : ∀ name ∈ names, name.Printable :=
  fun _ hmem => Ident.printable (forall_mem_part hw hmem)

namespace Inherited

variable {fused : Bool} {F : Expr → Prop} {E : Bool → Expr → Prop} {T : TypeExpr → Prop}
  {A : StaticArg → Prop} (h : Inherited fused F E T A)

/-- What is asked of full expressions, of types and of static arguments. -/
abbrev standard (_ : Inherited fused F E T A) : Standard := ⟨E false, T, A⟩

theorem node {node : Reference} {args : Option (List StaticArg)} (hargs : argsShaped args)
    (hw : ∀ word ∈ node.words ++ argsWords args, word.Spelt fused)
    (he : ∀ x ∈ argsExprs args, F x) : h.standard.Node node args := by
  rw [List.forall_mem_append] at hw
  refine ⟨Reference.printable hw.1, ?_⟩
  rintro list rfl
  simp only [argsWords, List.forall_mem_append, List.forall_mem_cons] at hw
  exact h.ofArgs list hargs hw.2.1.2 he

theorem leftExpr : ∀ left : LeftExpr, left.Shaped → (∀ word ∈ left.words, word.Spelt fused) →
    (∀ x ∈ exprs left, F x) → left.Writable h.standard
  | .name _, _, hw, _ => Ident.printable hw
  | .field _ value field, hshaped, hw, he => by
      simp only [LeftExpr.words, List.forall_mem_append, List.forall_mem_cons] at hw
      exact ⟨leftExpr value hshaped hw.1 he, Ident.printable hw.2.2⟩
  | .index _ value place, hshaped, hw, he => by
      simp only [LeftExpr.words, List.forall_mem_append, List.forall_mem_cons] at hw
      have he := List.forall_mem_append.mp he
      exact ⟨leftExpr value hshaped.1 hw.1.1 he.1, h.ofExpr place hshaped.2 hw.1.2.2 he.2⟩
  | .slice _ value first last step, hshaped, hw, he => by
      simp only [LeftExpr.words, List.forall_mem_append, List.forall_mem_cons] at hw
      obtain ⟨⟨⟨⟨hvalue, -, hfirst⟩, -, hlast⟩, hstep⟩, -⟩ := hw
      simp only [exprs, LeftExpr.within, List.forall_mem_append] at he
      refine ⟨leftExpr value hshaped.1 hvalue he.1.1.1, h.ofExpr first hshaped.2.1 hfirst he.1.1.2,
        h.ofExpr last hshaped.2.2.1 hlast he.1.2, ?_⟩
      rintro width rfl
      exact h.ofExpr width hshaped.2.2.2 (List.forall_mem_cons.mp hstep).2 he.2

theorem leftList {lhs : LeftList} (hshaped : lhs.Shaped) (hw : ∀ word ∈ lhs.words, word.Spelt fused)
    (he : ∀ x ∈ exprs lhs, F x) : lhs.Writable h.standard := by
  have hitems : ∀ word ∈ lhs.items.flatMap LeftExpr.words, word.Spelt fused := by
    unfold LeftList.words at hw
    split at hw
    · simp only [List.forall_mem_append, List.forall_mem_cons] at hw
      exact hw.1.2
    · exact hw
  exact ⟨hshaped.1, fun item hmem => h.leftExpr item (hshaped.2 item hmem)
    (forall_mem_part hitems hmem) (forall_mem_part he hmem)⟩

theorem equation {equation : Equation} (hshaped : equation.Shaped)
    (hw : ∀ word ∈ equation.words, word.Spelt fused) (he : ∀ x ∈ exprs equation, F x) :
    equation.Writable h.standard := by
  cases equation with
  | assertion condition => exact h.ofExpr condition hshaped (List.forall_mem_cons.mp hw).2 he
  | define lhs rhs =>
      simp only [Equation.words, List.forall_mem_append, List.forall_mem_cons] at hw
      have he := List.forall_mem_append.mp he
      exact ⟨h.leftList hshaped.1 hw.1 he.1, h.ofExpr rhs hshaped.2 hw.2.2 he.2⟩
  | error => exact hshaped

theorem typedNames {group : TypedNames} (hshaped : group.Shaped)
    (hw : ∀ word ∈ group.words, word.Spelt fused) (he : ∀ x ∈ exprs group, F x) :
    group.Writable h.standard := by
  simp only [TypedNames.words, typingWords, List.forall_mem_append, List.forall_mem_cons] at hw
  exact ⟨⟨hshaped.1, names_printable hw.1⟩, h.ofType group.type hshaped.2 hw.2.2 he⟩

theorem varDecl {decl : VarDecl} (hshaped : decl.Shaped)
    (hw : ∀ word ∈ decl.words, word.Spelt fused) (he : ∀ x ∈ exprs decl, F x) :
    decl.Writable h.standard := by
  rw [VarDecl.words, List.forall_mem_append] at hw
  have hgroups : ∀ word ∈ decl.groups.flatMap TypedNames.words, word.Spelt fused := by
    obtain ⟨hw, -⟩ := hw
    split at hw
    · simp only [List.forall_mem_append, List.forall_mem_cons] at hw
      exact hw.1.2
    · exact hw
  refine ⟨hshaped.1, fun group hmem => h.typedNames (hshaped.2.1 group hmem)
    (forall_mem_part hgroups hmem) (forall_mem_part he hmem), fun clock hclock => ?_, hshaped.2.2⟩
  rw [hclock] at hw
  exact Clock.printable (List.forall_mem_cons.mp hw.2).2

theorem params {params : List (Located VarDecl)} (hshaped : ∀ param ∈ params, param.value.Shaped)
    (hw : ∀ word ∈ Profile.paramsWords params, word.Spelt fused)
    (he : ∀ x ∈ exprs params, F x) : ∀ param ∈ params, param.value.Writable h.standard := by
  simp only [Profile.paramsWords, List.forall_mem_append, List.forall_mem_cons] at hw
  exact fun param hmem => h.varDecl (hshaped param hmem) (forall_mem_part hw.1.2 hmem)
    (forall_mem_part he hmem)

theorem profile {profile : Profile} (hshaped : profile.Shaped)
    (hw : ∀ word ∈ profile.words, word.Spelt fused) (he : ∀ x ∈ exprs profile, F x) :
    profile.Writable h.standard := by
  simp only [Profile.words, List.forall_mem_append, List.forall_mem_cons] at hw
  have he := List.forall_mem_append.mp he
  exact ⟨h.params hshaped.1 hw.1 he.1, h.params hshaped.2 hw.2.2 he.2⟩

theorem constDef {decl : ConstDef} (hshaped : decl.Shaped)
    (hw : ∀ word ∈ decl.words, word.Spelt fused) (he : ∀ x ∈ exprs decl, F x) :
    decl.Writable h.standard := by
  cases decl with
  | typed names type =>
      simp only [ConstDef.words, typingWords, List.forall_mem_append, List.forall_mem_cons] at hw
      exact ⟨⟨hshaped.1, names_printable hw.1⟩, h.ofType type hshaped.2 hw.2.2 he⟩
  | typedValue name type init =>
      simp only [ConstDef.words, typingWords, List.forall_mem_append, List.forall_mem_cons] at hw
      have he := List.forall_mem_append.mp he
      exact ⟨Ident.printable hw.1.1, h.ofType type hshaped.1 hw.1.2.2 he.1,
        h.ofExpr init hshaped.2 hw.2.2 he.2⟩
  | value name init =>
      simp only [ConstDef.words, List.forall_mem_append, List.forall_mem_cons] at hw
      exact ⟨Ident.printable hw.1, h.ofExpr init hshaped hw.2.2 he⟩

include h in
theorem optionalValue {value : Option Expr} (hshaped : valueShaped value)
    (hw : ∀ word ∈ valueWords value, word.Spelt fused) (he : ∀ x ∈ exprs value, F x) :
    ∀ init, value = some init → E false init := by
  rintro init rfl
  exact h.ofExpr init hshaped (List.forall_mem_cons.mp hw).2 he

theorem fieldDecl {decl : FieldDecl} (hshaped : decl.Shaped)
    (hw : ∀ word ∈ decl.words, word.Spelt fused) (he : ∀ x ∈ exprs decl, F x) :
    decl.Writable h.standard := by
  simp only [FieldDecl.words, typingWords, List.forall_mem_append, List.forall_mem_cons] at hw
  have he := List.forall_mem_append.mp he
  refine ⟨⟨hshaped.1, names_printable hw.1.1⟩, h.ofType decl.type hshaped.2.1 hw.1.2.2 he.1,
    fun value hvalue => ⟨h.optionalValue hshaped.2.2.1 hw.2 he.2 value hvalue, ?_⟩⟩
  exact hshaped.2.2.2 (by rw [hvalue]; rfl)

theorem typeBody {body : TypeBody} (hshaped : body.Shaped)
    (hw : ∀ word ∈ body.words, word.Spelt fused) (he : ∀ x ∈ exprs body, F x) :
    body.Writable h.standard := by
  cases body with
  | synonym type => exact h.ofType type hshaped hw he
  | enumeration names =>
      simp only [TypeBody.words, List.forall_mem_append, List.forall_mem_cons] at hw
      exact ⟨hshaped, names_printable hw.1.2.2⟩
  | record keyword fields =>
      simp only [TypeBody.words, List.forall_mem_append, List.forall_mem_cons] at hw
      exact fun decl hmem => h.fieldDecl (hshaped decl hmem) (forall_mem_part hw.1.2.2 hmem)
        (forall_mem_part he hmem)

theorem typeDef {entry : TypeDef} (hshaped : entry.Shaped)
    (hw : ∀ word ∈ entry.words, word.Spelt fused) (he : ∀ x ∈ exprs entry, F x) :
    entry.Writable h.standard := by
  obtain ⟨name, body⟩ := entry
  cases body with
  | none => exact ⟨Ident.printable hw, fun body hbody => by cases hbody⟩
  | some body =>
      simp only [TypeDef.words, List.forall_mem_append, List.forall_mem_cons] at hw
      refine ⟨Ident.printable hw.1, fun other hother => ?_⟩
      cases hother
      exact h.typeBody (hshaped body rfl) hw.2.2 he

/-! ### Nodes -/

theorem headName {head : NodeHead} {keyword : List Lexeme}
    (hw : ∀ word ∈ head.words keyword, word.Spelt fused) : head.name.Printable := by
  simp only [NodeHead.words, List.forall_mem_append, List.forall_mem_cons] at hw
  exact Ident.printable hw.2.2

theorem staticParam {param : StaticParam} (hshaped : param.Shaped)
    (hw : ∀ word ∈ param.words, word.Spelt fused) (he : ∀ x ∈ exprs param, F x) :
    param.Writable h.standard := by
  cases param with
  | type name => exact Ident.printable (List.forall_mem_cons.mp hw).2
  | const name range =>
      simp only [StaticParam.words, typingWords, List.forall_mem_append, List.forall_mem_cons] at hw
      exact ⟨Ident.printable hw.1.2, h.ofType range hshaped hw.2.2 he⟩
  | node head profile =>
      rw [StaticParam.words, List.forall_mem_append] at hw
      exact ⟨headName hw.1, h.profile hshaped hw.2 he⟩

theorem staticParams {params : Option (List (Located StaticParam))}
    (hshaped : StaticParam.listShaped params)
    (hw : ∀ word ∈ StaticParam.listWords params, word.Spelt fused)
    (he : ∀ x ∈ exprs params, F x) : StaticParam.ListWritable h.standard params := by
  rintro list rfl param hmem
  simp only [StaticParam.listWords, List.forall_mem_append, List.forall_mem_cons] at hw
  exact h.staticParam (hshaped list rfl param hmem) (forall_mem_part hw.1.2 hmem)
    (forall_mem_part he hmem)

theorem localBlock {block : LocalBlock} (hshaped : block.Shaped)
    (hw : ∀ word ∈ block.words, word.Spelt fused) (he : ∀ x ∈ exprs block, F x) :
    block.Writable h.standard := by
  cases block with
  | vars decls =>
      have hw := (List.forall_mem_cons.mp hw).2
      exact ⟨hshaped.1, fun decl hmem => h.varDecl (hshaped.2 decl hmem) (forall_mem_part hw hmem)
        (forall_mem_part he hmem)⟩
  | consts decls =>
      have hw := (List.forall_mem_cons.mp hw).2
      exact ⟨hshaped.1, fun decl hmem => h.constDef (hshaped.2 decl hmem) (forall_mem_part hw hmem)
        (forall_mem_part he hmem)⟩

theorem nodeDefinition {own : NodeDefinition} (hshaped : own.Shaped)
    (hw : ∀ word ∈ own.words, word.Spelt fused) (he : ∀ x ∈ exprs own, F x) :
    own.Writable h.standard := by
  simp only [NodeDefinition.words, List.forall_mem_append, List.forall_mem_cons] at hw
  have he := List.forall_mem_append.mp he
  exact ⟨fun block hmem => h.localBlock (hshaped.1 block hmem) (forall_mem_part hw.1.1 hmem)
      (forall_mem_part he.1 hmem),
    fun equation hmem => h.equation (hshaped.2 equation hmem) (forall_mem_part hw.1.2.2 hmem)
      (forall_mem_part he.2 hmem)⟩

theorem nodeDecl {decl : NodeDecl} (hshaped : decl.Shaped)
    (hw : ∀ word ∈ decl.words, word.Spelt fused) (he : ∀ x ∈ exprs decl, F x) :
    decl.Writable h.standard := by
  obtain ⟨head, params, profile, body⟩ := decl
  simp only [NodeDecl.words, List.forall_mem_append] at hw
  obtain ⟨⟨⟨hhead, hparams⟩, hprofile⟩, hbody⟩ := hw
  simp only [exprs, List.forall_mem_append] at he
  obtain ⟨hparamsShaped, hprofileShaped, hbodyShaped⟩ := hshaped
  refine ⟨headName hhead, h.staticParams hparamsShaped hparams he.1.1, ?_, ?_⟩
  · rintro own rfl
    rw [Option.toList_some, List.flatMap_singleton] at hprofile
    exact h.profile (hprofileShaped own rfl) hprofile he.1.2
  · cases body with
    | definition own => exact ⟨hbodyShaped.1, h.nodeDefinition hbodyShaped.2 hbody he.2⟩
    | synonym target => exact h.node hbodyShaped (List.forall_mem_cons.mp hbody).2 he.2
    | missing => exact hbodyShaped

theorem externalNode {node : ExternalNode} (hshaped : node.profile.Shaped)
    (hw : ∀ word ∈ node.words, word.Spelt fused) (he : ∀ x ∈ exprs node, F x) :
    node.Writable h.standard := by
  rw [ExternalNode.words, List.forall_mem_append] at hw
  exact ⟨headName hw.1, h.profile hshaped hw.2 he⟩

theorem declaration {decl : Declaration} (hshaped : decl.Shaped)
    (hw : ∀ word ∈ decl.words, word.Spelt fused) (he : ∀ x ∈ exprs decl, F x) :
    decl.Writable h.standard := by
  cases decl with
  | node decl => exact h.nodeDecl hshaped hw he
  | types defs =>
      have hw := (List.forall_mem_cons.mp hw).2
      exact ⟨hshaped.1, fun entry hmem => h.typeDef (hshaped.2 entry hmem) (forall_mem_part hw hmem)
        (forall_mem_part he hmem)⟩
  | consts defs =>
      have hw := (List.forall_mem_cons.mp hw).2
      exact ⟨hshaped.1, fun entry hmem => h.constDef (hshaped.2 entry hmem)
        (forall_mem_part hw hmem) (forall_mem_part he hmem)⟩
  | external node => exact h.externalNode hshaped hw he
  | error => exact hshaped

/-! ### Packages and models -/

theorem provide {provide : Provide} (hshaped : provide.Shaped)
    (hw : ∀ word ∈ provide.words, word.Spelt fused) (he : ∀ x ∈ exprs provide, F x) :
    provide.Writable h.standard := by
  cases provide with
  | const name range value =>
      simp only [Provide.words, typingWords, List.forall_mem_append, List.forall_mem_cons] at hw
      have he := List.forall_mem_append.mp he
      exact ⟨Ident.printable hw.1.1.2, h.ofType range hshaped.1 hw.1.2.2 he.1,
        h.optionalValue hshaped.2 hw.2 he.2⟩
  | node head params profile =>
      simp only [Provide.words, List.forall_mem_append] at hw
      have he := List.forall_mem_append.mp he
      exact ⟨headName hw.1.1, h.staticParams hshaped.1 hw.1.2 he.1, h.profile hshaped.2 hw.2 he.2⟩
  | type entry => exact h.typeDef hshaped (List.forall_mem_cons.mp hw).2 he

theorem provides {provides : Option (List (Located Provide))}
    (hshaped : Provide.listShaped provides)
    (hw : ∀ word ∈ Provide.listWords provides, word.Spelt fused)
    (he : ∀ x ∈ exprs provides, F x) : Provide.ListWritable h.standard provides := by
  rintro list rfl
  have hw := (List.forall_mem_cons.mp hw).2
  exact ⟨(hshaped list rfl).1, fun provide hmem => h.provide ((hshaped list rfl).2 provide hmem)
    (forall_mem_part hw hmem) (forall_mem_part he hmem)⟩

theorem staticArg {arg : StaticArg} (hshaped : arg.Shaped)
    (hw : ∀ word ∈ arg.words, word.Spelt fused) (he : ∀ x ∈ exprs arg, F x) :
    arg.Writable h.standard := by
  cases arg with
  | name _ ref => exact Reference.printable hw
  | type _ type _ => exact ⟨hshaped.1, h.ofType type hshaped.2 (List.forall_mem_append.mp hw).2 he⟩
  | const _ value _ =>
      exact ⟨hshaped.1, h.ofExpr value hshaped.2 (List.forall_mem_append.mp hw).2 he⟩
  | node _ keyword _ node args =>
      rw [StaticArg.words, List.append_assoc, List.forall_mem_append] at hw
      exact ⟨hshaped.1, h.node hshaped.2 hw.2 he⟩
  | op _ _ => trivial

theorem words_of_named {name : Ident} {arg : StaticArg} {P : Lexeme → Prop}
    (h : ∀ word ∈ (⟨some name, arg⟩ : NamedArg).words, P word) :
    (∀ word ∈ name.words, P word) ∧ ∀ word ∈ arg.words, P word := by
  have hgeneral : (∀ word ∈ name.words ++ sign .eq :: arg.words, P word) →
      (∀ word ∈ name.words, P word) ∧ ∀ word ∈ arg.words, P word := by
    intro h
    simp only [List.forall_mem_append, List.forall_mem_cons] at h
    exact ⟨h.1, h.2.2⟩
  cases arg with
  | name | op => exact hgeneral h
  | type _ type explicit =>
      cases explicit with
      | false => exact hgeneral h
      | true =>
          simp only [NamedArg.words, List.forall_mem_append, List.forall_mem_cons] at h
          exact ⟨h.1.2, List.forall_mem_cons.mpr ⟨h.1.1, h.2.2⟩⟩
  | const _ value explicit =>
      cases explicit with
      | false => exact hgeneral h
      | true =>
          simp only [NamedArg.words, List.forall_mem_append, List.forall_mem_cons] at h
          exact ⟨h.1.2, List.forall_mem_cons.mpr ⟨h.1.1, h.2.2⟩⟩
  | node _ keyword _ node args =>
      cases keyword with
      | none => exact hgeneral h
      | some kind =>
          simp only [NamedArg.words, List.forall_mem_append, List.forall_mem_cons] at h
          refine ⟨h.1.1.2, ?_⟩
          simp only [StaticArg.words, nodeWord, Option.toList_some, List.map_cons, List.map_nil,
            List.forall_mem_append, List.forall_mem_cons]
          exact ⟨⟨⟨h.1.1.1, List.forall_mem_nil _⟩, h.1.2.2⟩, h.2⟩

theorem namedArg {named : NamedArg} (hshaped : named.Shaped)
    (hw : ∀ word ∈ named.words, word.Spelt fused) (he : ∀ x ∈ exprs named, F x) :
    named.Writable h.standard := by
  obtain ⟨name, arg⟩ := named
  cases name with
  | none => exact ⟨fun name hname => (by cases hname), h.staticArg hshaped.1 hw he, hshaped.2⟩
  | some name =>
      have hwords := words_of_named hw
      refine ⟨fun other hother => ?_, h.staticArg hshaped.1 hwords.2 he, hshaped.2⟩
      cases hother
      exact Ident.printable hwords.1

theorem decls {decls : List (Located Declaration)} (hshaped : ∀ decl ∈ decls, decl.value.Shaped)
    (hw : ∀ word ∈ bodyWords decls, word.Spelt fused) (he : ∀ x ∈ exprs decls, F x) :
    ∀ decl ∈ decls, decl.value.Writable h.standard := by
  simp only [bodyWords, List.forall_mem_append, List.forall_mem_cons] at hw
  exact fun decl hmem => h.declaration (hshaped decl hmem) (forall_mem_part hw.1.2 hmem)
    (forall_mem_part he hmem)

theorem uses {names : List Ident} (hw : ∀ word ∈ usesWords names, word.Spelt fused) :
    ∀ name ∈ names, name.Printable := by
  cases names with
  | nil => exact List.forall_mem_nil _
  | cons name names => exact names_printable (List.forall_mem_cons.mp hw).2

theorem packageBody {body : PackageBody} (hshaped : body.Shaped)
    (hw : ∀ word ∈ body.words, word.Spelt fused) (he : ∀ x ∈ exprs body, F x) :
    body.Writable h.standard := by
  cases body with
  | definition names provides decls =>
      simp only [PackageBody.words, List.forall_mem_append] at hw
      have he := List.forall_mem_append.mp he
      exact ⟨uses hw.1.1, h.provides hshaped.1 hw.1.2 he.1, h.decls hshaped.2 hw.2 he.2⟩
  | instantiated linking model brackets args =>
      simp only [PackageBody.words, List.forall_mem_append, List.forall_mem_cons] at hw
      obtain ⟨⟨⟨-, hmodel⟩, -, hargs⟩, -⟩ := hw
      exact ⟨Ident.printable hmodel, fun arg hmem => h.namedArg (hshaped arg hmem)
        (forall_mem_part hargs hmem) (forall_mem_part he hmem)⟩
  | missing => exact hshaped

theorem model {model : Model} (hshaped : model.Shaped)
    (hw : ∀ word ∈ model.words, word.Spelt fused) (he : ∀ x ∈ exprs model, F x) :
    model.Writable h.standard := by
  simp only [Model.words, List.forall_mem_append, List.forall_mem_cons] at hw
  obtain ⟨⟨⟨⟨⟨-, hname⟩, huses⟩, -, hneeds⟩, hprovides⟩, hdecls⟩ := hw
  simp only [exprs, List.forall_mem_append] at he
  exact ⟨Ident.printable hname, uses huses, hshaped.1,
    fun param hmem => h.staticParam (hshaped.2.1 param hmem) (forall_mem_part hneeds hmem)
      (forall_mem_part he.1.1 hmem),
    h.provides hshaped.2.2.1 hprovides he.1.2, h.decls hshaped.2.2.2 hdecls he.2⟩

/-! ### Programs -/

theorem item {item : Item} (hshaped : item.Shaped)
    (hcomment : ∀ package, item = .package package → package.body.opensComment = false)
    (hw : ∀ word ∈ item.words, word.Spelt fused) (he : ∀ x ∈ exprs item, F x) :
    item.Writable h.standard := by
  cases item with
  | decl single => exact h.declaration hshaped hw he
  | package whole =>
      simp only [Item.words, Package.words, List.forall_mem_append, List.forall_mem_cons] at hw
      exact ⟨Ident.printable hw.1.2, h.packageBody hshaped hw.2 he, hcomment whole rfl⟩
  | model whole => exact h.model hshaped hw he
  | error => exact hshaped

theorem include_quoted {path : String} (hw : ∀ word ∈ includeWords path, word.Spelt fused) :
    '"' ∉ path.toList := by
  simp only [includeWords, List.forall_mem_cons] at hw
  obtain ⟨inside, htext, hquote⟩ := hw.2.1
  have hpath : path.toList = inside := by
    have hlist := congrArg String.toList htext
    simpa [String.toList_append] using hlist
  rw [hpath]
  exact hquote

/-- A program that was read is writable, if no instance of a package opens a comment. -/
theorem program {program : Program} (hshaped : program.Shaped)
    (hcomment : ∀ package ∈ program.packages, package.body.opensComment = false)
    (hw : ∀ word ∈ program.words, word.Spelt fused) (he : ∀ x ∈ exprs program, F x) :
    program.Writable h.standard := by
  rw [Program.words, List.forall_mem_append] at hw
  refine ⟨fun file hmem => include_quoted (forall_mem_part hw.1 hmem), fun item hmem => ?_⟩
  refine h.item (hshaped item hmem) (fun package hpackage => hcomment package ?_)
    (forall_mem_part hw.2 hmem) (forall_mem_part he hmem)
  exact List.mem_filterMap.mpr ⟨item, hmem, by rw [hpackage]⟩

end Inherited

end Lustre
