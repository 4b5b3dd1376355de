import Lustre.Tree.Program
import Lustre.Proofs.Token.Tiling

/-!
# The spans of a tree

The spans of a tree form a tree themselves: an `Extent` is a span with the spans inside
it, in the order of the text.  Every located node, every name and every use of a name is
a part of what it stands in.  Pragmas stand aside: they follow the name that they belong
to, perhaps beyond the end of the node with that name.

`Laid` says that such trees have come from tokens: every span begins and ends with a
token, a part lies within what it is a part of, and of two parts side by side the first
ends before the second begins.  What this means for spans anywhere in a tree is read off
in `Laid.nested`.
-/

namespace Lustre

/-- A span with the spans inside it, or the span of a pragma. -/
inductive Extent where
  | part (span : Span) (parts : List Extent)
  | aside (span : Span)

namespace Extent

/-- The span itself. -/
def span : Extent → Span
  | part span _ | aside span => span

/-- The spans inside. -/
def parts : Extent → List Extent
  | part _ parts => parts
  | aside _ => []

/-- Whether it is the span of a pragma. -/
def isAside : Extent → Bool
  | part _ _ => false
  | aside _ => true

end Extent

/-! ## The spans of names -/

/-- Whatever holds spans. -/
class HasExtents (α : Type) where
  /-- The spans that it holds, in the order of the text. -/
  extents : α → List Extent

export HasExtents (extents)

variable {α : Type} [HasExtents α]

instance : HasExtents (List α) := ⟨fun items => items.flatMap extents⟩

instance : HasExtents (Option α) where
  extents
    | some item => extents item
    | none => []

instance : HasExtents (Located α) := ⟨fun item => [.part item.span (extents item.value)]⟩

instance : HasExtents String := ⟨fun _ => []⟩

instance : HasExtents Pragma := ⟨fun pragma => [.aside pragma.span]⟩

instance : HasExtents Ident := ⟨fun ident => .part ident.span [] :: extents ident.pragmas⟩

instance : HasExtents Reference := ⟨fun ref => [.part ref.span []]⟩

instance : HasExtents Clock where
  extents
    | .on clock => extents clock
    | .not clock _ => extents clock
    | .case case clock => extents case ++ extents clock

instance : HasExtents Pattern where
  extents
    | .name ref => extents ref
    | .bool _ => []

/-! ## The spans of expressions, types and static arguments -/

mutual

/-- The spans inside an expression. -/
def Expr.inside : Expr → List Extent
  | .error _ | .bool _ _ | .int _ _ | .real _ _ => []
  | .name _ ref => extents ref
  | .inst _ node args => extents node ++ argsExtents args
  | .tuple _ items | .array _ items => Expr.listExtents items
  | .record _ type base fields => extents type ++ extents base ++ FieldInit.listExtents fields
  | .field _ value field => .part value.span value.inside :: extents field
  | .index _ value index => [.part value.span value.inside, .part index.span index.inside]
  | .slice _ value first last step =>
      .part value.span value.inside :: .part first.span first.inside ::
      .part last.span last.inside ::
        stepExtents step
  | .call _ callee args => .part callee.span callee.inside :: Expr.listExtents args
  | .cond _ _ condition yes no =>
      [.part condition.span condition.inside, .part yes.span yes.inside, .part no.span no.inside]
  | .merge _ clock arms => extents clock ++ MergeArm.listExtents arms
  | .sampled _ value clock => .part value.span value.inside :: extents clock
  | .unary _ _ operand => [.part operand.span operand.inside]
  | .binary _ _ lhs rhs => [.part lhs.span lhs.inside, .part rhs.span rhs.inside]
  | .list _ _ operands => Expr.listExtents operands

/-- The spans of some expressions. -/
def Expr.listExtents : List Expr → List Extent
  | [] => []
  | expr :: exprs => .part expr.span expr.inside :: Expr.listExtents exprs

/-- The span of the step of a slice. -/
def stepExtents : Option Expr → List Extent
  | some step => [.part step.span step.inside]
  | none => []

/-- The spans of some fields of a record. -/
def FieldInit.listExtents : List FieldInit → List Extent
  | [] => []
  | ⟨span, field, value⟩ :: fields =>
      .part span (extents field ++ [.part value.span value.inside]) :: FieldInit.listExtents fields

/-- The spans of some arms of a merge. -/
def MergeArm.listExtents : List MergeArm → List Extent
  | [] => []
  | ⟨span, pattern, value⟩ :: arms =>
      .part span (extents pattern ++ [.part value.span value.inside]) :: MergeArm.listExtents arms

/-- The spans inside a type. -/
def TypeExpr.inside : TypeExpr → List Extent
  | .bool _ | .int _ | .real _ => []
  | .named _ ref => extents ref
  | .table _ element length => [.part element.span element.inside, .part length.span length.inside]

/-- The spans inside a static argument. -/
def StaticArg.inside : StaticArg → List Extent
  | .name _ ref => extents ref
  | .type _ type _ => [.part type.span type.inside]
  | .const _ value _ => [.part value.span value.inside]
  | .node _ _ target node args => [.part target (extents node ++ argsExtents args)]
  | .op _ _ => []

/-- The spans of some static arguments. -/
def StaticArg.listExtents : List StaticArg → List Extent
  | [] => []
  | arg :: args => .part arg.span arg.inside :: StaticArg.listExtents args

/-- The spans of the static arguments of a node, if it has any. -/
def argsExtents : Option (List StaticArg) → List Extent
  | some args => StaticArg.listExtents args
  | none => []

end

attribute [grind =] Expr.inside TypeExpr.inside StaticArg.inside

instance : HasExtents Expr := ⟨fun expr => [.part expr.span expr.inside]⟩

instance : HasExtents FieldInit :=
    ⟨fun init => [.part init.span (extents init.field ++ extents init.value)]⟩

instance : HasExtents MergeArm :=
    ⟨fun arm => [.part arm.span (extents arm.pattern ++ extents arm.value)]⟩

instance : HasExtents TypeExpr := ⟨fun type => [.part type.span type.inside]⟩

instance : HasExtents StaticArg := ⟨fun arg => [.part arg.span arg.inside]⟩

instance : HasExtents NodeUse :=
  ⟨fun target => [.part target.span (extents target.node ++ extents target.args)]⟩

/-! ## The spans of declarations -/

/-- The spans inside a left-hand side. -/
def LeftExpr.inside : LeftExpr → List Extent
  | .name ident => extents ident
  | .field _ value selected => .part value.span value.inside :: extents selected
  | .index _ value place => .part value.span value.inside :: extents place
  | .slice _ value first last step =>
      .part value.span value.inside :: (extents first ++ extents last ++ extents step)

instance : HasExtents LeftExpr := ⟨fun left => [.part left.span left.inside]⟩

instance : HasExtents LeftList := ⟨fun lhs => extents lhs.items⟩

instance : HasExtents Equation where
  extents
    | .assertion condition => extents condition
    | .define lhs rhs => extents lhs ++ extents rhs
    | .error => []

instance : HasExtents TypedNames := ⟨fun group => extents group.names ++ extents group.type⟩

instance : HasExtents VarDecl := ⟨fun decl => extents decl.groups ++ extents decl.clock⟩

instance : HasExtents ConstDef where
  extents
    | .typed names type => extents names ++ extents type
    | .typedValue name type value => extents name ++ extents type ++ extents value
    | .value name value => extents name ++ extents value

instance : HasExtents FieldDecl :=
  ⟨fun decl => extents decl.names ++ extents decl.type ++ extents decl.default⟩

instance : HasExtents TypeBody where
  extents
    | .synonym type => extents type
    | .enumeration names => extents names
    | .record _ fields => extents fields

instance : HasExtents TypeDef := ⟨fun entry => extents entry.name ++ extents entry.body⟩

instance : HasExtents NodeHead := ⟨fun head => extents head.name⟩

instance : HasExtents Profile := ⟨fun profile => extents profile.inputs ++ extents profile.outputs⟩

instance : HasExtents StaticParam where
  extents
    | .type name => extents name
    | .const name type => extents name ++ extents type
    | .node head profile => extents head ++ extents profile

instance : HasExtents LocalBlock where
  extents
    | .vars vars => extents vars
    | .consts consts => extents consts

instance : HasExtents NodeDefinition :=
  ⟨fun definition => extents definition.locals ++ extents definition.equations⟩

instance : HasExtents NodeBody where
  extents
    | .definition definition => extents definition
    | .synonym target => extents target
    | .missing => []

instance : HasExtents NodeDecl where
  extents decl := extents decl.head ++ extents decl.params ++
    extents decl.profile ++ extents decl.body

instance : HasExtents ExternalNode := ⟨fun node => extents node.head ++ extents node.profile⟩

instance : HasExtents Declaration where
  extents
    | .node decl => extents decl
    | .types defs => extents defs
    | .consts defs => extents defs
    | .external node => extents node
    | .error => []

/-! ## The spans of packages and programs -/

instance : HasExtents Provide where
  extents
    | .const name type value => extents name ++ extents type ++ extents value
    | .node head params profile => extents head ++ extents params ++ extents profile
    | .type definition => extents definition

instance : HasExtents NamedArg := ⟨fun named => extents named.name ++ extents named.arg⟩

instance : HasExtents PackageBody where
  extents
    | .definition uses provides decls => extents uses ++ extents provides ++ extents decls
    | .instantiated _ model _ args => extents model ++ extents args
    | .missing => []

instance : HasExtents Package := ⟨fun package => extents package.name ++ extents package.body⟩

instance : HasExtents Model where
  extents whole := extents whole.name ++ extents whole.uses ++ extents whole.needs ++
    extents whole.provides ++ extents whole.decls

instance : HasExtents Item where
  extents
    | .decl decl => extents decl
    | .package package => extents package
    | .model whole => extents whole
    | .error => []

instance : HasExtents Program := ⟨fun program => extents program.includes ++ extents program.items⟩

/-! ## Lists -/

@[simp] theorem extents_nil : extents ([] : List α) = [] := rfl

@[simp] theorem extents_cons (item : α) (items : List α) :
    extents (item :: items) = extents item ++ extents items := rfl

@[simp] theorem extents_append (items later : List α) :
    extents (items ++ later) = extents items ++ extents later := List.flatMap_append

theorem Expr.listExtents_eq (exprs : List Expr) : Expr.listExtents exprs = extents exprs := by
  induction exprs with
  | nil => rfl
  | cons expr exprs ih => rw [Expr.listExtents, ih]; rfl

theorem FieldInit.listExtents_eq (fields : List FieldInit) :
    FieldInit.listExtents fields = extents fields := by
  induction fields with
  | nil => rfl
  | cons init fields ih => cases init; rw [FieldInit.listExtents, ih]; rfl

theorem MergeArm.listExtents_eq (arms : List MergeArm) :
    MergeArm.listExtents arms = extents arms := by
  induction arms with
  | nil => rfl
  | cons arm arms ih => cases arm; rw [MergeArm.listExtents, ih]; rfl

theorem StaticArg.listExtents_eq (args : List StaticArg) :
    StaticArg.listExtents args = extents args := by
  induction args with
  | nil => rfl
  | cons arg args ih => rw [StaticArg.listExtents, ih]; rfl

theorem argsExtents_eq (args : Option (List StaticArg)) : argsExtents args = extents args := by
  cases args with
  | none => rfl
  | some args => exact StaticArg.listExtents_eq args

theorem NodeUse.extents_eq (target : NodeUse) :
    extents target = [.part target.span (extents target.node ++ argsExtents target.args)] := by
  rw [argsExtents_eq]
  rfl

theorem stepExtents_eq (step : Option Expr) : stepExtents step = extents step := by
  cases step <;> rfl

/-! ## Spans laid on tokens -/

/-- A span that begins where a token begins and ends where one ends. -/
structure Span.OnTokens (span : Span) (tokens : List Token) : Prop where
  wide : span.start ≤ span.stop
  start : ∃ token ∈ tokens, token.span.start = span.start
  stop : ∃ token ∈ tokens, token.span.stop = span.stop

/-- Spans on tokens.  The parts among them lie one behind the other between `low` and `high`, and so
do the parts inside each of them. -/
inductive Laid (tokens : List Token) : Nat → List Extent → Nat → Prop
  | nil {low high : Nat} : Laid tokens low [] high
  | part {low high : Nat} {span : Span} {parts later : List Extent} (htokens : span.OnTokens tokens)
      (hlow : low ≤ span.start) (hhigh : span.stop ≤ high)
      (hparts : Laid tokens span.start parts span.stop)
      (hlater : Laid tokens span.stop later high) : Laid tokens low (.part span parts :: later) high
  | aside {low high : Nat} {span : Span} {later : List Extent} (htokens : span.OnTokens tokens)
      (hlater : Laid tokens low later high) : Laid tokens low (.aside span :: later) high

namespace Laid

variable {tokens more : List Token} {low high middle : Nat} {first later extents : List Extent}

theorem mono (h : Laid tokens low extents high) {low' high' : Nat} (hlow : low' ≤ low)
    (hhigh : high ≤ high') : Laid tokens low' extents high' := by
  induction h generalizing low' with
  | nil => exact .nil
  | part htokens hlow' hhigh' hparts _ _ ih =>
      exact .part htokens (Nat.le_trans hlow hlow') (Nat.le_trans hhigh' hhigh) hparts
        (ih (Nat.le_refl _) hhigh)
  | aside htokens _ ih => exact .aside htokens (ih hlow hhigh)

/-- More tokens do no harm. -/
theorem among (h : Laid tokens low extents high) (hmore : tokens ⊆ more) :
    Laid more low extents high := by
  have htokens : ∀ {span : Span}, span.OnTokens tokens → span.OnTokens more := by
    rintro span ⟨hwide, ⟨first, hfirst, hstart⟩, last, hlast, hstop⟩
    exact ⟨hwide, ⟨first, hmore hfirst, hstart⟩, last, hmore hlast, hstop⟩
  induction h with
  | nil => exact .nil
  | part hon hlow hhigh _ _ ihparts ih => exact .part (htokens hon) hlow hhigh ihparts ih
  | aside hon _ ih => exact .aside (htokens hon) ih

/-- Spans that lie behind others. -/
theorem append {behind : Nat} (h : Laid tokens low first middle)
    (hlater : Laid tokens behind later high)
    (hbehind : middle ≤ behind) (hlow : low ≤ behind) (hhigh : middle ≤ high) :
    Laid tokens low (first ++ later) high := by
  induction h with
  | nil => exact hlater.mono hlow (Nat.le_refl _)
  | part hon hlow' hhigh' hparts _ _ ih =>
      exact .part hon hlow' (Nat.le_trans hhigh' hhigh) hparts
        (ih hbehind (Nat.le_trans hhigh' hbehind) hhigh)
  | aside hon _ ih => exact .aside hon (ih hbehind hlow hhigh)

/-- Some spans without those behind them. -/
theorem left (h : Laid tokens low (first ++ later) high) : Laid tokens low first high := by
  induction first generalizing low with
  | nil => exact .nil
  | cons extent first ih =>
      cases h with
      | part hon hlow hhigh hparts hlater => exact .part hon hlow hhigh hparts (ih hlater)
      | aside hon hlater => exact .aside hon (ih hlater)

/-- Spans end where their parts end. -/
theorem upTo (h : Laid tokens low extents high) {stop : Nat}
    (hstop : ∀ extent ∈ extents, extent.isAside = false → extent.span.stop ≤ stop) :
    Laid tokens low extents stop := by
  induction h with
  | nil => exact .nil
  | part hon hlow _ hparts _ _ ih =>
      exact .part hon hlow (hstop _ List.mem_cons_self rfl) hparts
        (ih fun extent hmem => hstop extent (List.mem_cons_of_mem _ hmem))
  | aside hon _ ih =>
      exact .aside hon (ih fun extent hmem => hstop extent (List.mem_cons_of_mem _ hmem))

end Laid

/-! ## Spans anywhere in a tree -/

/-- An extent is one of some extents, or inside one of them, at whatever depth. -/
inductive Extent.Occurs (extent : Extent) : List Extent → Prop
  | here {extents : List Extent} (h : extent ∈ extents) : extent.Occurs extents
  | inside {outer : Extent} {extents : List Extent} (h : outer ∈ extents)
      (hinside : extent.Occurs outer.parts) : extent.Occurs extents

/-- The spans of a tree nest.  Each lies in the text and begins and ends with a token of it; what is
inside another lies within it; and what stands side by side, in the tree or inside a span, is
disjoint and in order.  Only pragmas need not lie within what they are inside of. -/
structure SpansNest (text : String) (tree : List Extent) : Prop where
  onTokens : ∀ extent : Extent, extent.Occurs tree →
    extent.span.OnTokens (Lexed.ofText text).tokens ∧ extent.span.stop ≤ text.utf8ByteSize
  within : ∀ outer inner : Extent, outer.Occurs tree → inner.Occurs outer.parts →
    inner.isAside = false →
    outer.span.start ≤ inner.span.start ∧ inner.span.stop ≤ outer.span.stop
  inOrder : ∀ siblings, siblings = tree ∨
    (∃ outer : Extent, outer.Occurs tree ∧ siblings = outer.parts) →
    (siblings.filter fun extent => !extent.isAside).Pairwise fun extent later =>
      extent.span.stop ≤ later.span.start

namespace Laid

variable {tokens : List Token} {low high : Nat} {extents : List Extent} {extent : Extent}

/-- What is known of one of some extents. -/
theorem of_mem (h : Laid tokens low extents high) (hmem : extent ∈ extents) :
    extent.span.OnTokens tokens ∧
      Laid tokens extent.span.start extent.parts extent.span.stop ∧
      (extent.isAside = false → low ≤ extent.span.start ∧ extent.span.stop ≤ high) := by
  induction h with
  | nil => cases hmem
  | part hon hlow hhigh hparts _ _ ih =>
      rcases List.mem_cons.mp hmem with rfl | hmem
      · exact ⟨hon, hparts, fun _ => ⟨hlow, hhigh⟩⟩
      · obtain ⟨hon', hparts', hwithin⟩ := ih hmem
        refine ⟨hon', hparts', fun hpart => ⟨?_, (hwithin hpart).2⟩⟩
        exact Nat.le_trans hlow (Nat.le_trans hon.wide (hwithin hpart).1)
  | aside hon _ ih =>
      rcases List.mem_cons.mp hmem with rfl | hmem
      · exact ⟨hon, .nil, fun hpart => by cases hpart⟩
      · exact ih hmem

/-- The same at whatever depth. -/
theorem of_occurs (hoccurs : extent.Occurs extents) {low high : Nat}
    (h : Laid tokens low extents high) : extent.span.OnTokens tokens ∧
      Laid tokens extent.span.start extent.parts extent.span.stop ∧
      (extent.isAside = false → low ≤ extent.span.start ∧ extent.span.stop ≤ high) := by
  induction hoccurs generalizing low high with
  | here hmem => exact h.of_mem hmem
  | @inside outer extents hmem hinside ih =>
      obtain ⟨-, hparts, hwithin⟩ := h.of_mem hmem
      obtain ⟨hon, hinner, hbounds⟩ := ih hparts
      refine ⟨hon, hinner, fun hpart => ?_⟩
      -- nothing is inside a pragma
      have houter : outer.isAside = false := by
        cases outer with
        | part => rfl
        | aside => cases hinside with
          | here h => cases h
          | inside h => cases h
      have := hwithin houter
      have := hbounds hpart
      omega

theorem pairwise (h : Laid tokens low extents high) :
    (extents.filter fun extent => !extent.isAside).Pairwise fun extent later =>
      extent.span.stop ≤ later.span.start := by
  induction h with
  | nil => exact .nil
  | part hon hlow hhigh hparts hlater _ ih =>
      refine List.pairwise_cons.mpr ⟨fun later hmem => ?_, ih⟩
      obtain ⟨hmem, hpart⟩ := List.mem_filter.mp hmem
      exact ((hlater.of_mem hmem).2.2 (by simpa using hpart)).1
  | aside hon _ ih => exact ih

/-- Spans laid on the tokens of a text nest. -/
theorem nested {text : String} (h : Laid (Lexed.ofText text).tokens low extents high) :
    SpansNest text extents where
  onTokens extent hoccurs := by
    have hon := (of_occurs hoccurs h).1
    obtain ⟨token, htoken, hstop⟩ := hon.stop
    exact ⟨hon, hstop ▸ (Token.le_size text token htoken).2⟩
  within _ _ houter hinner := (of_occurs hinner (of_occurs houter h).2.1).2.2
  inOrder := by
    rintro siblings (rfl | ⟨outer, houter, rfl⟩)
    · exact h.pairwise
    · exact (of_occurs houter h).2.1.pairwise

end Laid

end Lustre
