import Lustre.Proofs.Tree.Rebuild

/-!
# Programs up to places and parentheses

`rebuild` copies whatever holds expressions without its places, and lets a function change each of
these expressions.  For expressions it is `Expr.rebuild`, where a full expression demands no rank.

A second rebuilding makes up for the first where it undoes what the first did.  This is a law of
every instance (`Rebuildable.rebuild_rebuild`), so that the core of a program, its tree up to places
and parentheses around one expression, neither depends on places nor on the parentheses that
printing puts in (`Program.core_eq`).
-/

namespace Lustre

/-! ## What can be rebuilt -/

/-- Whatever holds expressions and places. -/
class Rebuildable (α : Type) where
  /-- The same without places, with each full expression in it changed. -/
  rebuild : (Nat → Expr → Expr) → α → α
  rebuild_rebuild {wrap first : Nat → Expr → Expr} (h : Undoes wrap first) (a : α) :
    rebuild wrap (rebuild first a) = rebuild wrap a

export Rebuildable (rebuild)

attribute [simp] Rebuildable.rebuild_rebuild

variable {α : Type} {wrap first : Nat → Expr → Expr}

section

variable [Rebuildable α]

instance : Rebuildable (List α) where
  rebuild wrap := List.map (rebuild wrap)
  rebuild_rebuild h items := by simp [h]

instance : Rebuildable (Option α) where
  rebuild wrap := Option.map (rebuild wrap)
  rebuild_rebuild h item := by cases item <;> simp [h]

instance : Rebuildable (Located α) where
  rebuild wrap item := .nowhere (rebuild wrap item.value)
  rebuild_rebuild h item := by simp [Located.nowhere, h]

theorem rebuild_list (wrap : Nat → Expr → Expr) (items : List α) :
    rebuild wrap items = items.map (rebuild wrap) := rfl

theorem rebuild_none (wrap : Nat → Expr → Expr) : rebuild wrap (none : Option α) = none := rfl

end

/-! ## Expressions, types and names -/

instance : Rebuildable Expr where
  rebuild wrap expr := wrap 0 (expr.rebuild wrap)
  rebuild_rebuild h expr := by rw [h, Expr.rebuild_rebuild h]

instance : Rebuildable TypeExpr := ⟨TypeExpr.rebuild, fun h => TypeExpr.rebuild_rebuild h⟩

instance : Rebuildable StaticArg := ⟨StaticArg.rebuild, fun h => StaticArg.rebuild_rebuild h⟩

instance : Rebuildable Ident := ⟨fun _ => Ident.strip, fun _ => Ident.strip_strip⟩

instance : Rebuildable Clock := ⟨fun _ => Clock.strip, fun _ => Clock.strip_strip⟩

instance : Rebuildable String := ⟨fun _ path => path, fun _ _ => rfl⟩

instance : Rebuildable NodeUse where
  rebuild wrap target := ⟨.nowhere, target.node.strip, argsRebuild wrap target.args⟩
  rebuild_rebuild h target := by simp [argsRebuild_argsRebuild h]

/-! ## Equations -/

/-- A left-hand side, rebuilt. -/
def LeftExpr.rebuild (wrap : Nat → Expr → Expr) : LeftExpr → LeftExpr
  | name ident => name ident.strip
  | field _ value selected => field .nowhere (value.rebuild wrap) selected.strip
  | index _ value place => index .nowhere (value.rebuild wrap) (Lustre.rebuild wrap place)
  | slice _ value first last step =>
      slice .nowhere (value.rebuild wrap) (Lustre.rebuild wrap first) (Lustre.rebuild wrap last)
        (Lustre.rebuild wrap step)

theorem LeftExpr.rebuild_rebuild (h : Undoes wrap first) (left : LeftExpr) :
    (left.rebuild first).rebuild wrap = left.rebuild wrap := by
  induction left with
  | name => simp [LeftExpr.rebuild]
  | field _ _ _ ih => simp [LeftExpr.rebuild, ih]
  | index _ _ _ ih => simp [LeftExpr.rebuild, ih, h]
  | slice _ _ _ _ _ ih => simp [LeftExpr.rebuild, ih, h]

instance : Rebuildable LeftExpr := ⟨LeftExpr.rebuild, LeftExpr.rebuild_rebuild⟩

instance : Rebuildable LeftList where
  rebuild wrap lhs := ⟨rebuild wrap lhs.items, lhs.parenthesized⟩
  rebuild_rebuild h lhs := by simp [h]

instance : Rebuildable Equation where
  rebuild wrap
    | .assertion condition => .assertion (rebuild wrap condition)
    | .define lhs rhs => .define (rebuild wrap lhs) (rebuild wrap rhs)
    | .error => .error
  rebuild_rebuild h equation := by cases equation <;> simp [h]

/-! ## Variables, constants and types -/

instance : Rebuildable TypedNames where
  rebuild wrap group := ⟨rebuild wrap group.names, rebuild wrap group.type⟩
  rebuild_rebuild h group := by simp [h]

instance : Rebuildable VarDecl where
  rebuild wrap decl := ⟨rebuild wrap decl.groups, rebuild wrap decl.clock, decl.parenthesized⟩
  rebuild_rebuild h decl := by simp [h]

instance : Rebuildable ConstDef where
  rebuild wrap
    | .typed names type => .typed (rebuild wrap names) (rebuild wrap type)
    | .typedValue name type value =>
        .typedValue name.strip (rebuild wrap type) (rebuild wrap value)
    | .value name value => .value name.strip (rebuild wrap value)
  rebuild_rebuild h entry := by cases entry <;> simp [h]

instance : Rebuildable FieldDecl where
  rebuild wrap decl :=
    ⟨rebuild wrap decl.names, rebuild wrap decl.type, rebuild wrap decl.default⟩
  rebuild_rebuild h decl := by simp [h]

instance : Rebuildable TypeBody where
  rebuild wrap
    | .synonym type => .synonym (rebuild wrap type)
    | .enumeration names => .enumeration (rebuild wrap names)
    | .record keyword fields => .record keyword (rebuild wrap fields)
  rebuild_rebuild h body := by cases body <;> simp [h]

instance : Rebuildable TypeDef where
  rebuild wrap entry := ⟨entry.name.strip, rebuild wrap entry.body⟩
  rebuild_rebuild h entry := by simp [h]

/-! ## Nodes -/

/-- The head of a node without its places. -/
def NodeHead.strip (head : NodeHead) : NodeHead := ⟨head.isUnsafe, head.kind, head.name.strip⟩

@[simp] theorem NodeHead.strip_strip (head : NodeHead) : head.strip.strip = head.strip := by
  simp [strip]

instance : Rebuildable NodeHead := ⟨fun _ => NodeHead.strip, fun _ => NodeHead.strip_strip⟩

instance : Rebuildable Profile where
  rebuild wrap profile := ⟨rebuild wrap profile.inputs, rebuild wrap profile.outputs⟩
  rebuild_rebuild h profile := by simp [h]

instance : Rebuildable StaticParam where
  rebuild wrap
    | .type name => .type name.strip
    | .const name type => .const name.strip (rebuild wrap type)
    | .node head profile => .node head.strip (rebuild wrap profile)
  rebuild_rebuild h param := by cases param <;> simp [h]

instance : Rebuildable LocalBlock where
  rebuild wrap
    | .vars decls => .vars (rebuild wrap decls)
    | .consts decls => .consts (rebuild wrap decls)
  rebuild_rebuild h block := by cases block <;> simp [h]

instance : Rebuildable NodeDefinition where
  rebuild wrap own := ⟨rebuild wrap own.locals, rebuild wrap own.equations⟩
  rebuild_rebuild h own := by simp [h]

instance : Rebuildable NodeBody where
  rebuild wrap
    | .definition own => .definition (rebuild wrap own)
    | .synonym target => .synonym (rebuild wrap target)
    | .missing => .missing
  rebuild_rebuild h body := by cases body <;> simp [h]

instance : Rebuildable NodeDecl where
  rebuild wrap decl :=
    ⟨decl.head.strip, rebuild wrap decl.params, rebuild wrap decl.profile, rebuild wrap decl.body⟩
  rebuild_rebuild h decl := by simp [h]

instance : Rebuildable ExternalNode where
  rebuild wrap node := ⟨node.head.strip, rebuild wrap node.profile⟩
  rebuild_rebuild h node := by simp [h]

instance : Rebuildable Declaration where
  rebuild wrap
    | .node decl => .node (rebuild wrap decl)
    | .types defs => .types (rebuild wrap defs)
    | .consts defs => .consts (rebuild wrap defs)
    | .external decl => .external (rebuild wrap decl)
    | .error => .error
  rebuild_rebuild h decl := by cases decl <;> simp [h]

/-! ## Packages and models -/

instance : Rebuildable Provide where
  rebuild wrap
    | .const name range value => .const name.strip (rebuild wrap range) (rebuild wrap value)
    | .node head params profile =>
        .node head.strip (rebuild wrap params) (rebuild wrap profile)
    | .type entry => .type (rebuild wrap entry)
  rebuild_rebuild h provide := by cases provide <;> simp [h]

instance : Rebuildable NamedArg where
  rebuild wrap named := ⟨rebuild wrap named.name, rebuild wrap named.arg⟩
  rebuild_rebuild h named := by simp [h]

instance : Rebuildable PackageBody where
  rebuild wrap
    | .definition uses provides decls =>
        .definition (rebuild wrap uses) (rebuild wrap provides) (rebuild wrap decls)
    | .instantiated linking model brackets args =>
        .instantiated linking model.strip brackets (rebuild wrap args)
    | .missing => .missing
  rebuild_rebuild h body := by cases body <;> simp [h]

instance : Rebuildable Package where
  rebuild wrap package := ⟨package.name.strip, rebuild wrap package.body⟩
  rebuild_rebuild h package := by simp [h]

instance : Rebuildable Model where
  rebuild wrap model :=
    ⟨model.name.strip, rebuild wrap model.uses, rebuild wrap model.needs,
      rebuild wrap model.provides, rebuild wrap model.decls⟩
  rebuild_rebuild h model := by simp [h]

/-! ## Programs -/

instance : Rebuildable Item where
  rebuild wrap
    | .decl decl => .decl (rebuild wrap decl)
    | .package package => .package (rebuild wrap package)
    | .model model => .model (rebuild wrap model)
    | .error => .error
  rebuild_rebuild h item := by cases item <;> simp [h]

instance : Rebuildable Program where
  rebuild wrap program := ⟨rebuild wrap program.includes, rebuild wrap program.items⟩
  rebuild_rebuild h program := by simp [h]

namespace Program

/-- A program up to places and parentheses around one expression. -/
def core (program : Program) : Program := rebuild Expr.unwrap program

/-- If what was read is what was printed, up to places and the parentheses that printing puts in,
both have one core. -/
theorem core_eq {read program : Program}
    (h : rebuild Expr.keep read = rebuild (Expr.settle false) program) :
    read.core = program.core := by
  have hkeep : Undoes Expr.unwrap Expr.keep := fun _ _ => rfl
  have hsettle : Undoes Expr.unwrap (Expr.settle false) := Expr.unwrap_settle false
  calc read.core = rebuild Expr.unwrap (rebuild Expr.keep read) :=
        (Rebuildable.rebuild_rebuild hkeep read).symm
    _ = rebuild Expr.unwrap (rebuild (Expr.settle false) program) := by rw [h]
    _ = program.core := Rebuildable.rebuild_rebuild hsettle program

end Program

end Lustre
