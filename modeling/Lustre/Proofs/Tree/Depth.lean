import Lustre.Tree.Expr

/-!
# How deep expressions are nested

The depth of an expression is the number of levels that lie inside it: a further level begins
with each full expression in it, with the operand of a prefix operator, with the right operand of
a binary operator other than a comparison, and with each list of static arguments.  The nesting
of a full expression counts the expression itself too.
-/

namespace Lustre

mutual

/-- The levels inside an expression. -/
def Expr.depth : Expr → Nat
  | .error _ => 0
  | .bool _ _ => 0
  | .int _ _ => 0
  | .real _ _ => 0
  | .name _ _ => 0
  | .inst _ _ args => argsDepth args
  | .tuple _ items => Expr.listDepth items
  | .array _ items => Expr.listDepth items
  | .record _ _ _ fields => FieldInit.listDepth fields
  | .field _ value _ => value.depth
  | .index _ value index => max value.depth (index.depth + 1)
  | .slice _ value first last step =>
      max (max (max value.depth (first.depth + 1)) (last.depth + 1)) (stepDepth step)
  | .call _ callee args => max callee.depth (Expr.listDepth args)
  | .cond _ _ condition yes no =>
      max (max (condition.depth + 1) (yes.depth + 1)) (no.depth + 1)
  | .merge _ _ arms => MergeArm.listDepth arms
  | .sampled _ value _ => value.depth
  | .unary _ _ operand => operand.depth + 1
  | .binary _ op lhs rhs =>
      max lhs.depth (if op.tier = .comparison then rhs.depth else rhs.depth + 1)
  | .list _ _ operands => Expr.listDepth operands

/-- The levels of some full expressions. -/
def Expr.listDepth : List Expr → Nat
  | [] => 0
  | expr :: exprs => max (expr.depth + 1) (Expr.listDepth exprs)

/-- The levels of the step of a slice. -/
def stepDepth : Option Expr → Nat
  | some step => step.depth + 1
  | none => 0

/-- The levels of some fields of a record. -/
def FieldInit.listDepth : List FieldInit → Nat
  | [] => 0
  | ⟨_, _, value⟩ :: fields => max (value.depth + 1) (FieldInit.listDepth fields)

/-- The levels of some arms of a merge. -/
def MergeArm.listDepth : List MergeArm → Nat
  | [] => 0
  | ⟨_, _, value⟩ :: arms => max (value.depth + 1) (MergeArm.listDepth arms)

/-- The levels inside a type. -/
def TypeExpr.depth : TypeExpr → Nat
  | .bool _ => 0
  | .int _ => 0
  | .real _ => 0
  | .named _ _ => 0
  | .table _ element length => max element.depth length.depth

/-- The levels inside a static argument. -/
def StaticArg.depth : StaticArg → Nat
  | .name _ _ => 0
  | .type _ type _ => type.depth
  | .const _ value _ => value.depth + 1
  | .node _ _ _ _ args => argsDepth args
  | .op _ _ => 0

/-- The levels inside some static arguments. -/
def StaticArg.listDepth : List StaticArg → Nat
  | [] => 0
  | arg :: args => max arg.depth (StaticArg.listDepth args)

/-- The levels of the static arguments of a node, if it has any. -/
def argsDepth : Option (List StaticArg) → Nat
  | some args => StaticArg.listDepth args + 1
  | none => 0

end

/-- The levels of a full expression. -/
def Expr.nesting (expr : Expr) : Nat := expr.depth + 1

/-! ## Lists that grow at the end -/

theorem Expr.listDepth_concat (exprs : List Expr) (expr : Expr) :
    Expr.listDepth (exprs ++ [expr]) = max (Expr.listDepth exprs) (expr.depth + 1) := by
  induction exprs with
  | nil => simp [Expr.listDepth]
  | cons first exprs ih => rw [List.cons_append, Expr.listDepth, Expr.listDepth, ih, Nat.max_assoc]

theorem FieldInit.listDepth_concat (fields : List FieldInit) (init : FieldInit) :
    FieldInit.listDepth (fields ++ [init]) = max (FieldInit.listDepth fields)
      (init.value.depth + 1) := by
  induction fields with
  | nil =>
      cases init
      simp [FieldInit.listDepth]
  | cons first fields ih =>
      cases first
      rw [List.cons_append, FieldInit.listDepth, FieldInit.listDepth, ih, Nat.max_assoc]

theorem MergeArm.listDepth_concat (arms : List MergeArm) (arm : MergeArm) :
    MergeArm.listDepth (arms ++ [arm]) = max (MergeArm.listDepth arms) (arm.value.depth + 1) := by
  induction arms with
  | nil =>
      cases arm
      simp [MergeArm.listDepth]
  | cons first arms ih =>
      cases first
      rw [List.cons_append, MergeArm.listDepth, MergeArm.listDepth, ih, Nat.max_assoc]

theorem StaticArg.listDepth_concat (args : List StaticArg) (arg : StaticArg) :
    StaticArg.listDepth (args ++ [arg]) = max (StaticArg.listDepth args) arg.depth := by
  induction args with
  | nil => simp [StaticArg.listDepth]
  | cons first args ih =>
      rw [List.cons_append, StaticArg.listDepth, StaticArg.listDepth, ih, Nat.max_assoc]

end Lustre
