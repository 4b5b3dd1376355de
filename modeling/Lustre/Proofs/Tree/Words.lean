import Lustre.Reader.Name

/-!
# The words of a tree

Flattening a tree gives the words that it was written with, in the order of the
text: every name, literal, keyword, operator and bracket, and of a pragma its key
and its value.  Separators are left out, since a tree does not keep them.

An explicit argument for a model is flattened with its keyword first, as in
`type n = t`, however it was written.
-/

namespace Lustre

/-- A word without its place: its kind and its text, or the two parts of a pragma. -/
inductive Lexeme where
  | plain (kind : Kind) (text : String)
  | pragma (key value : String)
deriving DecidableEq

namespace Lexeme

/-- A keyword or a symbol. -/
def sign (kind : Kind) : Lexeme := plain kind kind.describe

/-- A token as a word. -/
def ofToken (token : Token) : Lexeme :=
  if token.kind = .pragma then
    pragma (Pragma.ofToken token).key (Pragma.ofToken token).value
  else plain token.kind token.text

/-- The kind of a word. -/
def kind : Lexeme → Kind
  | plain kind _ => kind
  | pragma _ _ => .pragma

end Lexeme

open Lexeme

/-- The keywords of explicit arguments. -/
def Kind.isArgKeyword : Kind → Bool
  | .kwType | .kwConst | .kwNode | .kwFunction => true
  | _ => false

theorem Kind.isArgKeyword_iff {kind : Kind} : kind.isArgKeyword = true ↔
    kind = .kwType ∨ kind = .kwConst ∨ kind = .kwNode ∨ kind = .kwFunction := by
  unfold isArgKeyword
  split <;> simp_all

/-- Some words, of which the first is not the keyword of an explicit argument. -/
def BeginsPlain (words : List Lexeme) : Prop :=
  ∃ first rest, words = first :: rest ∧ first.kind.isArgKeyword = false

theorem BeginsPlain.append {words : List Lexeme} (h : BeginsPlain words) (later : List Lexeme) :
    BeginsPlain (words ++ later) := by
  obtain ⟨first, rest, rfl, hfirst⟩ := h
  exact ⟨first, rest ++ later, rfl, hfirst⟩

/-! ## Names, clocks and patterns -/

namespace Ident

/-- A bound name and its pragmas. -/
def words (ident : Ident) : List Lexeme :=
  plain .ident ident.name :: ident.pragmas.map fun pragma => .pragma pragma.key pragma.value

end Ident

namespace Reference

/-- A used name. -/
def words (ref : Reference) : List Lexeme :=
  match ref.package with
  | some package => [plain .ident package, sign .colonColon, plain .ident ref.member]
  | none => [plain .ident ref.member]

end Reference

namespace Clock

/-- A clock. -/
def words : Clock → List Lexeme
  | on clock => clock.words
  | not clock true => sign .kwNot :: sign .lParen :: clock.words ++ [sign .rParen]
  | not clock false => sign .kwNot :: clock.words
  | case name clock => name.words ++ sign .lParen :: clock.words ++ [sign .rParen]

end Clock

/-- A truth value. -/
def boolWord (value : Bool) : Lexeme := if value then sign .kwTrue else sign .kwFalse

namespace Pattern

/-- A pattern. -/
def words : Pattern → List Lexeme
  | name ref => ref.words
  | bool value => [boolWord value]

end Pattern

namespace CondWord

/-- The keyword that opens a conditional. -/
def word : CondWord → Lexeme
  | ifWord => sign .kwIf
  | whenWord => sign .kwWhen

end CondWord

/-- The keyword for a kind of node, if it is written. -/
def nodeWord (kind : Option NodeKind) : List Lexeme :=
  kind.toList.map fun kind => sign kind.symbol

/-- The keyword of an explicit argument. -/
def explicitWord (explicit : Bool) (kind : Kind) : List Lexeme :=
  if explicit then [sign kind] else []

/-- The base of a record that changes another. -/
def baseWords (base : Option Reference) : List Lexeme :=
  match base with
  | some base => base.words ++ [sign .kwWith]
  | none => []

/-! ## Expressions, types and static arguments -/

mutual

/-- An expression. -/
def Expr.words : Expr → List Lexeme
  | .error _ => []
  | .bool _ value => [boolWord value]
  | .int _ digits => [plain .intLit digits]
  | .real _ digits => [plain .realLit digits]
  | .name _ ref => ref.words
  | .inst _ node args => node.words ++ argsWords args
  | .tuple _ items => sign .lParen :: Expr.listWords items ++ [sign .rParen]
  | .array _ items => sign .lBracket :: Expr.listWords items ++ [sign .rBracket]
  | .record _ type base fields =>
      type.words ++ sign .lBrace :: baseWords base ++ FieldInit.listWords fields ++ [sign .rBrace]
  | .field _ value field => value.words ++ sign .dot :: field.words
  | .index _ value index => value.words ++ sign .lBracket :: index.words ++ [sign .rBracket]
  | .slice _ value first last step =>
      value.words ++ sign .lBracket :: first.words ++ sign .dotDot :: last.words ++
        stepWords step ++ [sign .rBracket]
  | .call _ callee args =>
      callee.words ++ sign .lParen :: Expr.listWords args ++ [sign .rParen]
  | .cond _ opening condition yes no =>
      opening.word :: condition.words ++ sign .kwThen :: yes.words ++ sign .kwElse :: no.words
  | .merge _ clock arms => sign .kwMerge :: clock.words ++ MergeArm.listWords arms
  | .sampled _ value clock => value.words ++ sign .kwWhen :: clock.value.words
  | .unary _ op operand => sign op.symbol :: operand.words
  | .binary _ op lhs rhs => lhs.words ++ sign op.symbol :: rhs.words
  | .list _ op operands =>
      sign op.symbol :: sign .lParen :: Expr.listWords operands ++ [sign .rParen]

/-- Some expressions. -/
def Expr.listWords : List Expr → List Lexeme
  | [] => []
  | expr :: exprs => expr.words ++ Expr.listWords exprs

/-- The step of a slice. -/
def stepWords : Option Expr → List Lexeme
  | some step => sign .kwStep :: step.words
  | none => []

/-- Some fields of a record. -/
def FieldInit.listWords : List FieldInit → List Lexeme
  | [] => []
  | ⟨_, field, value⟩ :: fields =>
      field.words ++ sign .eq :: value.words ++ FieldInit.listWords fields

/-- Some arms of a merge. -/
def MergeArm.listWords : List MergeArm → List Lexeme
  | [] => []
  | ⟨_, pattern, value⟩ :: arms =>
      sign .lParen :: pattern.words ++ sign .arrow :: value.words ++
        sign .rParen :: MergeArm.listWords arms

/-- A type. -/
def TypeExpr.words : TypeExpr → List Lexeme
  | .bool _ => [sign .kwBool]
  | .int _ => [sign .kwInt]
  | .real _ => [sign .kwReal]
  | .named _ ref => ref.words
  | .table _ element length => element.words ++ sign .caret :: length.words

/-- A static argument. -/
def StaticArg.words : StaticArg → List Lexeme
  | .name _ ref => ref.words
  | .type _ type explicit => explicitWord explicit .kwType ++ type.words
  | .const _ value explicit => explicitWord explicit .kwConst ++ value.words
  | .node _ keyword _ node args => nodeWord keyword ++ node.words ++ argsWords args
  | .op _ op => [sign op.symbol]

/-- Some static arguments. -/
def StaticArg.listWords : List StaticArg → List Lexeme
  | [] => []
  | arg :: args => arg.words ++ StaticArg.listWords args

/-- The static arguments of a node, if it has any. -/
def argsWords : Option (List StaticArg) → List Lexeme
  | some args => sign .ltLt :: StaticArg.listWords args ++ [sign .gtGt]
  | none => []

end

attribute [grind =] Expr.words TypeExpr.words StaticArg.words

namespace FieldInit

/-- One field of a record. -/
def words (init : FieldInit) : List Lexeme := init.field.words ++ sign .eq :: init.value.words

end FieldInit

namespace MergeArm

/-- One arm of a merge. -/
def words (arm : MergeArm) : List Lexeme :=
  sign .lParen :: arm.pattern.words ++ sign .arrow :: arm.value.words ++ [sign .rParen]

end MergeArm

/-! Lists are flattened one item after another. -/

theorem Expr.listWords_eq (exprs : List Expr) :
    Expr.listWords exprs = exprs.flatMap Expr.words := by
  induction exprs with
  | nil => rfl
  | cons expr exprs ih => simp [Expr.listWords, ih]

theorem FieldInit.listWords_eq (fields : List FieldInit) :
    FieldInit.listWords fields = fields.flatMap FieldInit.words := by
  induction fields with
  | nil => rfl
  | cons init fields ih =>
      cases init
      simp [FieldInit.listWords, FieldInit.words, ih]

theorem MergeArm.listWords_eq (arms : List MergeArm) :
    MergeArm.listWords arms = arms.flatMap MergeArm.words := by
  induction arms with
  | nil => rfl
  | cons arm arms ih =>
      cases arm
      simp [MergeArm.listWords, MergeArm.words, ih]

theorem StaticArg.listWords_eq (args : List StaticArg) :
    StaticArg.listWords args = args.flatMap StaticArg.words := by
  induction args with
  | nil => rfl
  | cons arg args ih => simp [StaticArg.listWords, ih]

namespace NodeUse

/-- A node as a target. -/
def words (target : NodeUse) : List Lexeme := target.node.words ++ argsWords target.args

end NodeUse

/-! ## Equations -/

namespace LeftExpr

/-- A left-hand side. -/
def words : LeftExpr → List Lexeme
  | name ident => ident.words
  | field _ value selected => value.words ++ sign .dot :: selected.words
  | index _ value place => value.words ++ sign .lBracket :: place.words ++ [sign .rBracket]
  | slice _ value first last step =>
      value.words ++ sign .lBracket :: first.words ++ sign .dotDot :: last.words ++
        stepWords step ++ [sign .rBracket]

end LeftExpr

namespace LeftList

/-- The left-hand sides of an equation. -/
def words (lhs : LeftList) : List Lexeme :=
  if lhs.parenthesized then
    sign .lParen :: lhs.items.flatMap LeftExpr.words ++ [sign .rParen]
  else lhs.items.flatMap LeftExpr.words

end LeftList

namespace Equation

/-- A statement. -/
def words : Equation → List Lexeme
  | assertion condition => sign .kwAssert :: condition.words
  | define lhs rhs => lhs.words ++ sign .eq :: rhs.words
  | error => []

end Equation

/-! ## Variables, constants and types -/

/-- Some names of one declaration. -/
def namesWords (names : List Ident) : List Lexeme := names.flatMap Ident.words

/-- A type after its colon. -/
def typingWords (type : TypeExpr) : List Lexeme := sign .colon :: type.words

/-- A value that may be absent, after its `=`. -/
def valueWords : Option Expr → List Lexeme
  | some value => sign .eq :: value.words
  | none => []

/-- A clock that may be absent, after its `when`. -/
def clockWords : Option (Located Clock) → List Lexeme
  | some clock => sign .kwWhen :: clock.value.words
  | none => []

namespace TypedNames

/-- A group of variables. -/
def words (group : TypedNames) : List Lexeme := namesWords group.names ++ typingWords group.type

end TypedNames

namespace VarDecl

/-- A declaration of variables. -/
def words (decl : VarDecl) : List Lexeme :=
  let groups := decl.groups.flatMap TypedNames.words
  (if decl.parenthesized then sign .lParen :: groups ++ [sign .rParen] else groups) ++
    clockWords decl.clock

end VarDecl

namespace Profile

/-- Inputs or outputs. -/
def paramsWords (params : List (Located VarDecl)) : List Lexeme :=
  sign .lParen :: (params.flatMap fun param => param.value.words) ++ [sign .rParen]

/-- The inputs and the outputs of a node. -/
def words (profile : Profile) : List Lexeme :=
  paramsWords profile.inputs ++ sign .kwReturns :: paramsWords profile.outputs

end Profile

namespace ConstDef

/-- An entry of a `const` block. -/
def words : ConstDef → List Lexeme
  | typed names type => namesWords names ++ typingWords type
  | typedValue name type init => name.words ++ typingWords type ++ sign .eq :: init.words
  | value name init => name.words ++ sign .eq :: init.words

end ConstDef

namespace FieldDecl

/-- Fields of a record type. -/
def words (decl : FieldDecl) : List Lexeme :=
  namesWords decl.names ++ typingWords decl.type ++ valueWords decl.default

end FieldDecl

namespace TypeBody

/-- What a type name stands for. -/
def words : TypeBody → List Lexeme
  | synonym type => type.words
  | enumeration names => sign .kwEnum :: sign .lBrace :: namesWords names ++ [sign .rBrace]
  | record keyword fields =>
      explicitWord keyword .kwStruct ++
        sign .lBrace :: (fields.flatMap fun decl => decl.value.words) ++ [sign .rBrace]

end TypeBody

namespace TypeDef

/-- An entry of a `type` block. -/
def words (entry : TypeDef) : List Lexeme :=
  match entry.body with
  | some body => entry.name.words ++ sign .eq :: body.value.words
  | none => entry.name.words

end TypeDef

/-! ## Nodes -/

namespace NodeHead

/-- The head of a node, with the keyword that may stand between. -/
def words (head : NodeHead) (keyword : List Lexeme) : List Lexeme :=
  explicitWord head.isUnsafe .kwUnsafe ++ keyword ++ sign head.kind.symbol :: head.name.words

end NodeHead

namespace StaticParam

/-- A static parameter. -/
def words : StaticParam → List Lexeme
  | type name => sign .kwType :: name.words
  | const name range => sign .kwConst :: name.words ++ typingWords range
  | node head profile => head.words [] ++ profile.words

/-- Static parameters, if there are any. -/
def listWords : Option (List (Located StaticParam)) → List Lexeme
  | some params => sign .ltLt :: (params.flatMap fun param => param.value.words) ++ [sign .gtGt]
  | none => []

end StaticParam

namespace LocalBlock

/-- A block of local variables or constants. -/
def words : LocalBlock → List Lexeme
  | vars decls => sign .kwVar :: decls.flatMap fun decl => decl.value.words
  | consts decls => sign .kwConst :: decls.flatMap fun decl => decl.value.words

end LocalBlock

namespace NodeDefinition

/-- The body of a node. -/
def words (definition : NodeDefinition) : List Lexeme :=
  (definition.locals.flatMap fun block => block.value.words) ++
    sign .kwLet :: (definition.equations.flatMap fun equation => equation.value.words) ++
    [sign .kwTel]

end NodeDefinition

namespace NodeBody

/-- What follows the profile of a node. -/
def words : NodeBody → List Lexeme
  | definition own => own.words
  | synonym target => sign .eq :: target.words
  | missing => []

end NodeBody

namespace NodeDecl

/-- A node. -/
def words (decl : NodeDecl) : List Lexeme :=
  decl.head.words [] ++ StaticParam.listWords decl.params ++
    (decl.profile.toList.flatMap Profile.words) ++ decl.body.words

end NodeDecl

namespace ExternalNode

/-- A node that is implemented elsewhere. -/
def words (node : ExternalNode) : List Lexeme :=
  node.head.words [sign .kwExtern] ++ node.profile.words

end ExternalNode

namespace Declaration

/-- A declaration. -/
def words : Declaration → List Lexeme
  | node decl => decl.words
  | types defs => sign .kwType :: defs.flatMap fun entry => entry.value.words
  | consts defs => sign .kwConst :: defs.flatMap fun entry => entry.value.words
  | external decl => decl.words
  | error => []

end Declaration

/-! ## Packages and models -/

namespace Provide

/-- Something that a package provides. -/
def words : Provide → List Lexeme
  | const name range value => sign .kwConst :: name.words ++ typingWords range ++ valueWords value
  | node head params profile => head.words [] ++ StaticParam.listWords params ++ profile.words
  | type entry => sign .kwType :: entry.words

/-- What a package provides, if it says so. -/
def listWords : Option (List (Located Provide)) → List Lexeme
  | some provides => sign .kwProvides :: provides.flatMap fun provide => provide.value.words
  | none => []

end Provide

namespace NamedArg

/-- An argument for a model. -/
def words (named : NamedArg) : List Lexeme :=
  match named.name with
  | none => named.arg.words
  | some name =>
      match named.arg with
      | .type _ type true => sign .kwType :: name.words ++ sign .eq :: type.words
      | .const _ value true => sign .kwConst :: name.words ++ sign .eq :: value.words
      | .node _ (some kind) _ node args =>
          sign kind.symbol :: name.words ++ sign .eq :: node.words ++ argsWords args
      | arg => name.words ++ sign .eq :: arg.words

end NamedArg

namespace InstanceWord

/-- The word between the name of a package and its model. -/
def word : InstanceWord → Lexeme
  | eq => sign .eq
  | isWord => sign .kwIs

end InstanceWord

namespace Brackets

/-- The bracket that opens some arguments. -/
def opening : Brackets → Kind
  | paren => .lParen
  | angle => .ltLt

/-- The bracket that closes some arguments. -/
def closing : Brackets → Kind
  | paren => .rParen
  | angle => .gtGt

end Brackets

/-- The packages that another uses. -/
def usesWords (names : List Ident) : List Lexeme :=
  match names with
  | [] => []
  | names => sign .kwUses :: namesWords names

/-- The body of a package or a model. -/
def bodyWords (decls : List (Located Declaration)) : List Lexeme :=
  sign .kwBody :: (decls.flatMap fun decl => decl.value.words) ++ [sign .kwEnd]

namespace PackageBody

/-- The contents of a package. -/
def words : PackageBody → List Lexeme
  | definition uses provides decls =>
      usesWords uses ++ Provide.listWords provides ++ bodyWords decls
  | instantiated linking model brackets args =>
      linking.word :: model.words ++
        sign brackets.opening :: (args.flatMap fun arg => arg.value.words) ++
        [sign brackets.closing]
  | missing => []

end PackageBody

namespace Package

/-- A package. -/
def words (package : Package) : List Lexeme :=
  sign .kwPackage :: package.name.words ++ package.body.words

end Package

namespace Model

/-- A model. -/
def words (model : Model) : List Lexeme :=
  sign .kwModel :: model.name.words ++ usesWords model.uses ++
    sign .kwNeeds :: (model.needs.flatMap fun param => param.value.words) ++
    Provide.listWords model.provides ++ bodyWords model.decls

end Model

/-! ## Programs -/

namespace Item

/-- An item. -/
def words : Item → List Lexeme
  | decl single => single.value.words
  | package whole => whole.words
  | model whole => whole.words
  | error => []

end Item

/-- An `include` directive. -/
def includeWords (path : String) : List Lexeme :=
  [sign .kwInclude, plain .stringLit ("\"" ++ path ++ "\"")]

namespace Program

/-- A program. -/
def words (program : Program) : List Lexeme :=
  (program.includes.flatMap fun file => includeWords file.value) ++
    program.items.flatMap fun item => item.value.words

end Program

end Lustre
