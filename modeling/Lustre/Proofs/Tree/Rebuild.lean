import Lustre.Printer.Expr

/-!
# Trees up to places and parentheses

`rebuild` copies a tree without the places that it was read from, and lets a function
change each expression inside another according to the rank that its place demands.

* With no change it is `strip`, the tree without places.
* With `settle` it is `settled`, the tree with the parentheses that printing puts in.
* With `unwrap` it is `core`, the tree without parentheses around one expression.

A second rebuilding makes up for the first where it undoes what the first did
(`Expr.rebuild_rebuild`); so putting parentheses in does not change the core.
-/

namespace Lustre

/-! ## Names, clocks and patterns -/

/-- No place in particular. -/
def Span.nowhere : Span := ⟨0, 0, 0⟩

/-- A pragma without its place. -/
def Pragma.strip (pragma : Pragma) : Pragma := { pragma with span := .nowhere }

/-- A bound name without its place. -/
def Ident.strip (ident : Ident) : Ident := ⟨ident.name, .nowhere, ident.pragmas.map Pragma.strip⟩

/-- A used name without its place. -/
def Reference.strip (ref : Reference) : Reference := { ref with span := .nowhere }

/-- A clock without its places. -/
def Clock.strip : Clock → Clock
  | on clock => on clock.strip
  | not clock parenthesized => not clock.strip parenthesized
  | case name clock => case name.strip clock.strip

/-- Something without its place. -/
def Located.nowhere {α : Type} (value : α) : Located α := ⟨value, .nowhere⟩

/-- A pattern without its place. -/
def Pattern.strip : Pattern → Pattern
  | name ref => name ref.strip
  | bool value => bool value

/-! ## Expressions, types and static arguments -/

mutual

/-- An expression without places, with every expression inside it changed by `wrap`, which is told
the rank that its place demands. -/
def Expr.rebuild (wrap : Nat → Expr → Expr) : Expr → Expr
  | .error _ => .error .nowhere
  | .bool _ value => .bool .nowhere value
  | .int _ digits => .int .nowhere digits
  | .real _ digits => .real .nowhere digits
  | .name _ ref => .name .nowhere ref.strip
  | .inst _ node args => .inst .nowhere node.strip (argsRebuild wrap args)
  | .tuple _ items => .tuple .nowhere (Expr.listRebuild wrap items)
  | .array _ items => .array .nowhere (Expr.listRebuild wrap items)
  | .record _ type base fields =>
      .record .nowhere type.strip (base.map Reference.strip) (FieldInit.listRebuild wrap fields)
  | .field _ value field => .field .nowhere (wrap Prec.atom (value.rebuild wrap)) field.strip
  | .index _ value index =>
      .index .nowhere (wrap Prec.atom (value.rebuild wrap)) (wrap 0 (index.rebuild wrap))
  | .slice _ value first last step =>
      .slice .nowhere (wrap Prec.atom (value.rebuild wrap)) (wrap 0 (first.rebuild wrap))
        (wrap 0 (last.rebuild wrap)) (stepRebuild wrap step)
  | .call _ callee args =>
      .call .nowhere (wrap Prec.atom (callee.rebuild wrap)) (Expr.listRebuild wrap args)
  | .cond _ opening condition yes no =>
      .cond .nowhere opening (wrap 0 (condition.rebuild wrap)) (wrap 0 (yes.rebuild wrap))
        (wrap 0 (no.rebuild wrap))
  | .merge _ clock arms => .merge .nowhere clock.strip (MergeArm.listRebuild wrap arms)
  | .sampled _ value clock =>
      .sampled .nowhere (wrap Prec.sampling.level (value.rebuild wrap)) (.nowhere clock.value.strip)
  | .unary _ op operand => .unary .nowhere op (wrap (op.prec.level + 1) (operand.rebuild wrap))
  | .binary _ op lhs rhs =>
      .binary .nowhere op (wrap op.strength.leftMin (lhs.rebuild wrap))
        (wrap op.strength.rightMin (rhs.rebuild wrap))
  | .list _ op operands => .list .nowhere op (Expr.listRebuild wrap operands)

/-- Some full expressions, rebuilt. -/
def Expr.listRebuild (wrap : Nat → Expr → Expr) : List Expr → List Expr
  | [] => []
  | expr :: exprs => wrap 0 (expr.rebuild wrap) :: Expr.listRebuild wrap exprs

/-- The step of a slice, rebuilt. -/
def stepRebuild (wrap : Nat → Expr → Expr) : Option Expr → Option Expr
  | some step => some (wrap 0 (step.rebuild wrap))
  | none => none

/-- Some fields of a record, rebuilt. -/
def FieldInit.listRebuild (wrap : Nat → Expr → Expr) : List FieldInit → List FieldInit
  | [] => []
  | ⟨_, field, value⟩ :: fields =>
      ⟨.nowhere, field.strip, wrap 0 (value.rebuild wrap)⟩ :: FieldInit.listRebuild wrap fields

/-- Some arms of a merge, rebuilt. -/
def MergeArm.listRebuild (wrap : Nat → Expr → Expr) : List MergeArm → List MergeArm
  | [] => []
  | ⟨_, pattern, value⟩ :: arms =>
      ⟨.nowhere, pattern.strip, wrap 0 (value.rebuild wrap)⟩ :: MergeArm.listRebuild wrap arms

/-- A type, rebuilt. -/
def TypeExpr.rebuild (wrap : Nat → Expr → Expr) : TypeExpr → TypeExpr
  | .bool _ => .bool .nowhere
  | .int _ => .int .nowhere
  | .real _ => .real .nowhere
  | .named _ ref => .named .nowhere ref.strip
  | .table _ element length =>
      .table .nowhere (element.rebuild wrap) (wrap (Prec.hat.level + 1) (length.rebuild wrap))

/-- A static argument, rebuilt. -/
def StaticArg.rebuild (wrap : Nat → Expr → Expr) : StaticArg → StaticArg
  | .name _ ref => .name .nowhere ref.strip
  | .type _ type explicit => .type .nowhere (type.rebuild wrap) explicit
  | .const _ value explicit => .const .nowhere (wrap 0 (value.rebuild wrap)) explicit
  | .node _ keyword _ node args =>
      .node .nowhere keyword .nowhere node.strip (argsRebuild wrap args)
  | .op _ op => .op .nowhere op

/-- Some static arguments, rebuilt. -/
def StaticArg.listRebuild (wrap : Nat → Expr → Expr) : List StaticArg → List StaticArg
  | [] => []
  | arg :: args => arg.rebuild wrap :: StaticArg.listRebuild wrap args

/-- The static arguments of a node, rebuilt if it has any. -/
def argsRebuild (wrap : Nat → Expr → Expr) : Option (List StaticArg) → Option (List StaticArg)
  | some args => some (StaticArg.listRebuild wrap args)
  | none => none

end

section

variable (wrap : Nat → Expr → Expr)

theorem Expr.listRebuild_eq (exprs : List Expr) :
    Expr.listRebuild wrap exprs = exprs.map fun expr => wrap 0 (expr.rebuild wrap) := by
  induction exprs with
  | nil => rfl
  | cons expr exprs ih => rw [Expr.listRebuild, ih, List.map_cons]

theorem StaticArg.listRebuild_eq (args : List StaticArg) :
    StaticArg.listRebuild wrap args = args.map (StaticArg.rebuild wrap) := by
  induction args with
  | nil => rfl
  | cons arg args ih => rw [StaticArg.listRebuild, ih, List.map_cons]

/-- A field of a record, rebuilt. -/
def FieldInit.rebuild (init : FieldInit) : FieldInit :=
  ⟨.nowhere, init.field.strip, wrap 0 (init.value.rebuild wrap)⟩

theorem FieldInit.listRebuild_eq (fields : List FieldInit) :
    FieldInit.listRebuild wrap fields = fields.map (FieldInit.rebuild wrap) := by
  induction fields with
  | nil => rfl
  | cons init fields ih =>
      cases init
      rw [FieldInit.listRebuild, ih, List.map_cons]
      rfl

/-- An arm of a merge, rebuilt. -/
def MergeArm.rebuild (arm : MergeArm) : MergeArm :=
  ⟨.nowhere, arm.pattern.strip, wrap 0 (arm.value.rebuild wrap)⟩

theorem MergeArm.listRebuild_eq (arms : List MergeArm) :
    MergeArm.listRebuild wrap arms = arms.map (MergeArm.rebuild wrap) := by
  induction arms with
  | nil => rfl
  | cons arm arms ih =>
      cases arm
      rw [MergeArm.listRebuild, ih, List.map_cons]
      rfl

/-- Rebuilding does not change how tightly an expression holds together. -/
@[simp] theorem Expr.rank_rebuild (expr : Expr) : (expr.rebuild wrap).rank = expr.rank := by
  cases expr <;> rfl

end

/-! ## Rebuilding twice -/

@[simp] theorem Pragma.strip_strip (pragma : Pragma) : pragma.strip.strip = pragma.strip := rfl

@[simp] theorem Ident.strip_strip (ident : Ident) : ident.strip.strip = ident.strip := by
  simp [strip, Function.comp_def]

@[simp] theorem Reference.strip_strip (ref : Reference) : ref.strip.strip = ref.strip := rfl

@[simp] theorem Clock.strip_strip (clock : Clock) : clock.strip.strip = clock.strip := by
  cases clock <;> simp [strip]

@[simp] theorem Pattern.strip_strip (pattern : Pattern) : pattern.strip.strip = pattern.strip := by
  cases pattern <;> simp [strip]

/-- What `wrap` does makes up for what `first` did. -/
def Undoes (wrap first : Nat → Expr → Expr) : Prop :=
  ∀ least expr, wrap least ((first least expr).rebuild wrap) = wrap least (expr.rebuild wrap)

section

variable {wrap first : Nat → Expr → Expr}

theorem Undoes.eq (h : Undoes wrap first) (least : Nat) (expr : Expr) :
    wrap least ((first least expr).rebuild wrap) = wrap least (expr.rebuild wrap) :=
  h least expr

mutual

/-- A second rebuilding makes up for the first, if its changes undo those of the first. -/
theorem Expr.rebuild_rebuild (h : Undoes wrap first) : ∀ expr : Expr,
    (expr.rebuild first).rebuild wrap = expr.rebuild wrap
  | .error _ | .bool _ _ | .int _ _ | .real _ _ => rfl
  | .name _ ref => by simp [Expr.rebuild]
  | .inst _ node args => by simp [Expr.rebuild, argsRebuild_argsRebuild h args]
  | .tuple _ items | .array _ items => by simp [Expr.rebuild, Expr.listRebuild_listRebuild h items]
  | .record _ type base fields => by
      simp [Expr.rebuild, FieldInit.listRebuild_listRebuild h fields, Function.comp_def]
  | .field _ value field => by simp [Expr.rebuild, h.eq, value.rebuild_rebuild h]
  | .index _ value index => by
      simp [Expr.rebuild, h.eq, value.rebuild_rebuild h, index.rebuild_rebuild h]
  | .slice _ value first last step => by
      simp [Expr.rebuild, h.eq, value.rebuild_rebuild h, first.rebuild_rebuild h,
        last.rebuild_rebuild h, stepRebuild_stepRebuild h step]
  | .call _ callee args => by
      simp [Expr.rebuild, h.eq, callee.rebuild_rebuild h, Expr.listRebuild_listRebuild h args]
  | .cond _ _ condition yes no => by
      simp [Expr.rebuild, h.eq, condition.rebuild_rebuild h, yes.rebuild_rebuild h,
        no.rebuild_rebuild h]
  | .merge _ clock arms => by simp [Expr.rebuild, MergeArm.listRebuild_listRebuild h arms]
  | .sampled _ value clock => by simp [Expr.rebuild, h.eq, value.rebuild_rebuild h, Located.nowhere]
  | .unary _ op operand => by simp [Expr.rebuild, h.eq, operand.rebuild_rebuild h]
  | .binary _ op lhs rhs => by
      simp [Expr.rebuild, h.eq, lhs.rebuild_rebuild h, rhs.rebuild_rebuild h]
  | .list _ op operands => by simp [Expr.rebuild, Expr.listRebuild_listRebuild h operands]

theorem Expr.listRebuild_listRebuild (h : Undoes wrap first) : ∀ exprs : List Expr,
    Expr.listRebuild wrap (Expr.listRebuild first exprs) = Expr.listRebuild wrap exprs
  | [] => rfl
  | expr :: exprs => by
      simp [Expr.listRebuild, h.eq, expr.rebuild_rebuild h, Expr.listRebuild_listRebuild h exprs]

theorem stepRebuild_stepRebuild (h : Undoes wrap first) : ∀ step : Option Expr,
    stepRebuild wrap (stepRebuild first step) = stepRebuild wrap step
  | none => rfl
  | some step => by simp [stepRebuild, h.eq, step.rebuild_rebuild h]

theorem FieldInit.listRebuild_listRebuild (h : Undoes wrap first) : ∀ fields : List FieldInit,
    FieldInit.listRebuild wrap (FieldInit.listRebuild first fields) =
      FieldInit.listRebuild wrap fields
  | [] => rfl
  | ⟨_, field, value⟩ :: fields => by
      simp [FieldInit.listRebuild, h.eq, value.rebuild_rebuild h,
        FieldInit.listRebuild_listRebuild h fields]

theorem MergeArm.listRebuild_listRebuild (h : Undoes wrap first) : ∀ arms : List MergeArm,
    MergeArm.listRebuild wrap (MergeArm.listRebuild first arms) = MergeArm.listRebuild wrap arms
  | [] => rfl
  | ⟨_, pattern, value⟩ :: arms => by
      simp [MergeArm.listRebuild, h.eq, value.rebuild_rebuild h,
        MergeArm.listRebuild_listRebuild h arms]

theorem TypeExpr.rebuild_rebuild (h : Undoes wrap first) : ∀ type : TypeExpr,
    (type.rebuild first).rebuild wrap = type.rebuild wrap
  | .bool _ | .int _ | .real _ => rfl
  | .named _ ref => by simp [TypeExpr.rebuild]
  | .table _ element length => by
      simp [TypeExpr.rebuild, h.eq, element.rebuild_rebuild h, length.rebuild_rebuild h]

theorem StaticArg.rebuild_rebuild (h : Undoes wrap first) : ∀ arg : StaticArg,
    (arg.rebuild first).rebuild wrap = arg.rebuild wrap
  | .name _ ref => by simp [StaticArg.rebuild]
  | .type _ type _ => by simp [StaticArg.rebuild, type.rebuild_rebuild h]
  | .const _ value _ => by simp [StaticArg.rebuild, h.eq, value.rebuild_rebuild h]
  | .node _ _ _ node args => by simp [StaticArg.rebuild, argsRebuild_argsRebuild h args]
  | .op _ _ => rfl

theorem StaticArg.listRebuild_listRebuild (h : Undoes wrap first) : ∀ args : List StaticArg,
    StaticArg.listRebuild wrap (StaticArg.listRebuild first args) = StaticArg.listRebuild wrap args
  | [] => rfl
  | arg :: args => by
      simp [StaticArg.listRebuild, arg.rebuild_rebuild h, StaticArg.listRebuild_listRebuild h args]

theorem argsRebuild_argsRebuild (h : Undoes wrap first) : ∀ args : Option (List StaticArg),
    argsRebuild wrap (argsRebuild first args) = argsRebuild wrap args
  | none => rfl
  | some args => by simp [argsRebuild, StaticArg.listRebuild_listRebuild h args]

end

end

/-! ## Three ways to rebuild -/

namespace Expr

/-- Leaves an expression as it is. -/
def keep (_least : Nat) (expr : Expr) : Expr := expr

/-- Puts an expression in parentheses where printing does. -/
def settle (full : Bool) (least : Nat) (expr : Expr) : Expr :=
  if expr.rank < Prec.atom ∧ (full ∨ expr.rank < least) then .tuple .nowhere [expr] else expr

/-- Takes the parentheses off one expression. -/
def unwrap (_least : Nat) : Expr → Expr
  | tuple _ [expr] => expr
  | expr => expr

/-- An expression without places. -/
def strip (expr : Expr) : Expr := expr.rebuild keep

/-- An expression with the parentheses that printing puts inside it. -/
def settled (full : Bool) (expr : Expr) : Expr := expr.rebuild (settle full)

/-- The same where its place demands the rank `least`. -/
def settledAt (full : Bool) (least : Nat) (expr : Expr) : Expr :=
  settle full least (expr.settled full)

/-- An expression up to places and parentheses around one expression. -/
def core (expr : Expr) : Expr := unwrap 0 (expr.rebuild unwrap)

theorem unwrap_settle (full : Bool) (least : Nat) (expr : Expr) :
    unwrap least ((settle full least expr).rebuild unwrap) =
      unwrap least (expr.rebuild unwrap) := by
  unfold settle
  split <;> rfl

/-- Places have no part in the core. -/
theorem core_strip (expr : Expr) : expr.strip.core = expr.core := by
  have hinside : expr.strip.rebuild unwrap = expr.rebuild unwrap :=
    rebuild_rebuild (fun _ _ => rfl) expr
  rw [core, hinside, core]

/-- The parentheses that printing puts in have no part in the core. -/
theorem core_settledAt (full : Bool) (least : Nat) (expr : Expr) :
    (expr.settledAt full least).core = expr.core := by
  have hinside : (expr.settled full).rebuild unwrap = expr.rebuild unwrap :=
    rebuild_rebuild (unwrap_settle full) expr
  have hunwrap := unwrap_settle full least (expr.settled full)
  rw [hinside] at hunwrap
  exact hunwrap

end Expr

end Lustre
