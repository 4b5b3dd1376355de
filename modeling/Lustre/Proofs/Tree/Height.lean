import Lustre.Proofs.Tree.Depth
import Lustre.Proofs.Tree.Subexpr

/-!
# How high trees are

A part of a tree is either a level deeper than the whole, as the limit on nesting counts, or
stands along with it: left of an operator, in front of a postfix form or a clock, or in the type
of a table.  A `Branch` goes from a tree to one of its parts, from there to a part of that, and
so on.  On its way it goes at most as many levels deeper as the tree is deep
(`Branch.count_deeper_le`), but nothing limits the steps between.

So what is known of the height is this: it is limited by the depth and by how many steps
follow one another without going deeper (`Subtree.heightAtMost_of_runs`).
-/

namespace Lustre

/-! ## Parts of trees -/

/-- How a part of a tree is placed: a level deeper, or along with the whole. -/
inductive Placing where
  | deeper | along
deriving DecidableEq

/-- The levels that it takes to get there. -/
def Placing.levels : Placing → Nat
  | deeper => 1
  | along => 0

/-- A tree in an expression: an expression, a type or a static argument. -/
inductive Subtree where
  | ofExpr (expr : Expr)
  | ofType (type : TypeExpr)
  | ofArg (arg : StaticArg)

namespace Subtree

/-- The levels inside a tree. -/
def depth : Subtree → Nat
  | ofExpr expr => expr.depth
  | ofType type => type.depth
  | ofArg arg => arg.depth

/-- Full expressions, each a level deeper. -/
def deeperExprs (exprs : List Expr) : List (Placing × Subtree) :=
  exprs.map fun expr => (.deeper, ofExpr expr)

/-- The static arguments of a node, if it has any, which are a level deeper. -/
def deeperArgs (args : Option (List StaticArg)) : List (Placing × Subtree) :=
  (args.getD []).map fun arg => (.deeper, ofArg arg)

/-- The parts of a tree. -/
def parts : Subtree → List (Placing × Subtree)
  | ofExpr (.error _) | ofExpr (.bool _ _) | ofExpr (.int _ _) | ofExpr (.real _ _)
  | ofExpr (.name _ _) => []
  | ofExpr (.inst _ _ args) => deeperArgs args
  | ofExpr (.tuple _ items) | ofExpr (.array _ items) | ofExpr (.list _ _ items) =>
      deeperExprs items
  | ofExpr (.record _ _ _ fields) => deeperExprs (fields.map FieldInit.value)
  | ofExpr (.field _ value _) | ofExpr (.sampled _ value _) => [(.along, ofExpr value)]
  | ofExpr (.index _ value index) => (.along, ofExpr value) :: deeperExprs [index]
  | ofExpr (.slice _ value first last step) =>
      (.along, ofExpr value) :: deeperExprs (first :: last :: step.toList)
  | ofExpr (.call _ callee args) => (.along, ofExpr callee) :: deeperExprs args
  | ofExpr (.cond _ _ condition yes no) => deeperExprs [condition, yes, no]
  | ofExpr (.merge _ _ arms) => deeperExprs (arms.map MergeArm.value)
  | ofExpr (.unary _ _ operand) => deeperExprs [operand]
  | ofExpr (.binary _ op lhs rhs) =>
      [(.along, ofExpr lhs), (if op.tier = .comparison then .along else .deeper, ofExpr rhs)]
  | ofType (.table _ element length) => [(.along, ofType element), (.along, ofExpr length)]
  | ofType _ => []
  | ofArg (.type _ type _) => [(.along, ofType type)]
  | ofArg (.const _ value _) => deeperExprs [value]
  | ofArg (.node _ _ _ _ args) => deeperArgs args
  | ofArg (.name _ _) | ofArg (.op _ _) => []

/-- Whether a tree is at most so high, counted in trees on the way down. -/
def heightAtMost : Nat → Subtree → Bool
  | 0, _ => false
  | bound + 1, tree => tree.parts.all fun part => heightAtMost bound part.2

end Subtree

/-! ## Depth and parts -/

theorem Expr.depth_le_listDepth {exprs : List Expr} {expr : Expr} (h : expr ∈ exprs) :
    expr.depth + 1 ≤ Expr.listDepth exprs := by
  induction exprs with
  | nil => cases h
  | cons first exprs ih =>
      rw [Expr.listDepth]
      rcases List.mem_cons.mp h with rfl | h
      · exact Nat.le_max_left _ _
      · exact Nat.le_trans (ih h) (Nat.le_max_right _ _)

theorem FieldInit.listDepth_eq (fields : List FieldInit) :
    FieldInit.listDepth fields = Expr.listDepth (fields.map FieldInit.value) := by
  induction fields with
  | nil => rfl
  | cons init fields ih =>
      cases init
      rw [FieldInit.listDepth, List.map_cons, Expr.listDepth, ih]

theorem MergeArm.listDepth_eq (arms : List MergeArm) :
    MergeArm.listDepth arms = Expr.listDepth (arms.map MergeArm.value) := by
  induction arms with
  | nil => rfl
  | cons arm arms ih =>
      cases arm
      rw [MergeArm.listDepth, List.map_cons, Expr.listDepth, ih]

theorem StaticArg.depth_le_listDepth {args : List StaticArg} {arg : StaticArg} (h : arg ∈ args) :
    arg.depth ≤ StaticArg.listDepth args := by
  induction args with
  | nil => cases h
  | cons first args ih =>
      rw [StaticArg.listDepth]
      rcases List.mem_cons.mp h with rfl | h
      · exact Nat.le_max_left _ _
      · exact Nat.le_trans (ih h) (Nat.le_max_right _ _)

/-! An expression inside another, or inside a type or a static argument, is not deeper. -/

mutual

theorem Expr.depth_within : ∀ e : Expr, ∀ s ∈ e.within, s.depth ≤ e.depth
  | .error _, s, h | .bool _ _, s, h | .int _ _, s, h | .real _ _, s, h | .name _ _, s, h => by
      cases h
  | .inst _ _ args, s, h => depth_argsExprs args s h
  | .tuple _ items, s, h | .array _ items, s, h | .list _ _ items, s, h =>
      Expr.depth_listExprs items s h
  | .record _ _ _ fields, s, h => FieldInit.depth_listExprs fields s h
  | .merge _ _ arms, s, h => MergeArm.depth_listExprs arms s h
  -- `grind` tells whether `s` is a part or inside one, and finds its level in the maximum
  | .field _ value _, s, h => by
      have hvalue := value.depth_within s
      grind [Expr.within, Expr.depth]
  | .sampled _ value _, s, h => by
      have hvalue := value.depth_within s
      grind [Expr.within, Expr.depth]
  | .index _ value index, s, h => by
      have hvalue := value.depth_within s
      have hindex := index.depth_within s
      grind [Expr.within, Expr.depth]
  | .slice _ value first last step, s, h => by
      have hvalue := value.depth_within s
      have hfirst := first.depth_within s
      have hlast := last.depth_within s
      have hstep := depth_stepExprs step s
      grind [Expr.within, Expr.depth]
  | .call _ callee args, s, h => by
      have hcallee := callee.depth_within s
      have hargs := Expr.depth_listExprs args s
      grind [Expr.within, Expr.depth]
  | .cond _ _ condition yes no, s, h => by
      have hcondition := condition.depth_within s
      have hyes := yes.depth_within s
      have hno := no.depth_within s
      grind [Expr.within, Expr.depth]
  | .unary _ _ operand, s, h => by
      have hoperand := operand.depth_within s
      grind [Expr.within, Expr.depth]
  | .binary _ _ lhs rhs, s, h => by
      have hlhs := lhs.depth_within s
      have hrhs := rhs.depth_within s
      grind [Expr.within, Expr.depth]

theorem Expr.depth_listExprs :
    ∀ exprs : List Expr, ∀ s ∈ Expr.listExprs exprs, s.depth ≤ Expr.listDepth exprs
  | [], s, h => by cases h
  | expr :: exprs, s, h => by
      have hexpr := expr.depth_within s
      have hlater := Expr.depth_listExprs exprs s
      grind [Expr.listExprs, Expr.listDepth]

theorem depth_stepExprs : ∀ step : Option Expr, ∀ s ∈ stepExprs step,
    s.depth ≤ stepDepth step
  | none, s, h => by cases h
  | some step, s, h => by
      have hstep := step.depth_within s
      grind [stepExprs, stepDepth]

theorem FieldInit.depth_listExprs :
    ∀ fields : List FieldInit, ∀ s ∈ FieldInit.listExprs fields,
      s.depth ≤ FieldInit.listDepth fields
  | [], s, h => by cases h
  | ⟨_, _, value⟩ :: fields, s, h => by
      have hvalue := value.depth_within s
      have hlater := FieldInit.depth_listExprs fields s
      grind [FieldInit.listExprs, FieldInit.listDepth]

theorem MergeArm.depth_listExprs :
    ∀ arms : List MergeArm, ∀ s ∈ MergeArm.listExprs arms,
      s.depth ≤ MergeArm.listDepth arms
  | [], s, h => by cases h
  | ⟨_, _, value⟩ :: arms, s, h => by
      have hvalue := value.depth_within s
      have hlater := MergeArm.depth_listExprs arms s
      grind [MergeArm.listExprs, MergeArm.listDepth]

theorem TypeExpr.depth_within : ∀ type : TypeExpr, ∀ s ∈ type.within, s.depth ≤ type.depth
  | .bool _, s, h | .int _, s, h | .real _, s, h | .named _ _, s, h => by cases h
  | .table _ element length, s, h => by
      have helement := element.depth_within s
      have hlength := length.depth_within s
      grind [TypeExpr.within, TypeExpr.depth]

theorem StaticArg.depth_within : ∀ arg : StaticArg, ∀ s ∈ arg.within, s.depth ≤ arg.depth
  | .name _ _, s, h | .op _ _, s, h => by cases h
  | .type _ type _, s, h => type.depth_within s h
  | .const _ value _, s, h => by
      have hvalue := value.depth_within s
      grind [StaticArg.within, StaticArg.depth]
  | .node _ _ _ _ args, s, h => depth_argsExprs args s h

theorem StaticArg.depth_listExprs :
    ∀ args : List StaticArg, ∀ s ∈ StaticArg.listExprs args,
      s.depth ≤ StaticArg.listDepth args
  | [], s, h => by cases h
  | arg :: args, s, h => by
      have harg := arg.depth_within s
      have hlater := StaticArg.depth_listExprs args s
      grind [StaticArg.listExprs, StaticArg.listDepth]

theorem depth_argsExprs :
    ∀ args : Option (List StaticArg), ∀ s ∈ argsExprs args, s.depth ≤ argsDepth args
  | none, s, h => by cases h
  | some args, s, h => Nat.le_succ_of_le (StaticArg.depth_listExprs args s h)

end

namespace Subtree

/-- A part has as many levels less as it is deeper. -/
theorem depth_deeperExprs {exprs : List Expr} {part : Placing × Subtree}
    (h : part ∈ deeperExprs exprs) : part.2.depth + part.1.levels ≤ Expr.listDepth exprs := by
  obtain ⟨expr, hexpr, rfl⟩ := List.mem_map.mp h
  exact Expr.depth_le_listDepth hexpr

theorem depth_deeperArgs {args : Option (List StaticArg)} {part : Placing × Subtree}
    (h : part ∈ deeperArgs args) : part.2.depth + part.1.levels ≤ argsDepth args := by
  obtain ⟨arg, harg, rfl⟩ := List.mem_map.mp h
  cases args with
  | none => cases harg
  | some args => exact Nat.succ_le_succ (StaticArg.depth_le_listDepth harg)

theorem depth_part {tree : Subtree} {part : Placing × Subtree} (h : part ∈ tree.parts) :
    part.2.depth + part.1.levels ≤ tree.depth := by
  cases tree with
  | ofExpr expr =>
      cases expr with
      | error | bool | int | real | name => cases h
      | inst => exact depth_deeperArgs h
      | tuple | array | list => exact depth_deeperExprs h
      | record _ _ _ fields =>
          rw [depth, Expr.depth, FieldInit.listDepth_eq]
          exact depth_deeperExprs h
      | merge _ _ arms =>
          rw [depth, Expr.depth, MergeArm.listDepth_eq]
          exact depth_deeperExprs h
      | field | sampled =>
          obtain rfl := List.mem_singleton.mp h
          exact Nat.le_refl _
      | index _ value index =>
          rw [depth, Expr.depth]
          rcases List.mem_cons.mp h with rfl | h
          · exact Nat.le_max_left _ _
          · have hle := depth_deeperExprs h
            simp only [Expr.listDepth] at hle
            omega
      | slice _ value first last step =>
          rw [depth, Expr.depth]
          rcases List.mem_cons.mp h with rfl | h
          · change value.depth ≤ _
            omega
          · have hle := depth_deeperExprs h
            cases step <;> simp only [Expr.listDepth, Option.toList, stepDepth] at hle ⊢ <;> omega
      | call _ callee args =>
          rw [depth, Expr.depth]
          rcases List.mem_cons.mp h with rfl | h
          · exact Nat.le_max_left _ _
          · exact Nat.le_trans (depth_deeperExprs h) (Nat.le_max_right _ _)
      | cond _ _ condition yes no =>
          have hle := depth_deeperExprs h
          simp only [Expr.listDepth] at hle
          rw [depth, Expr.depth]
          omega
      | unary => exact depth_deeperExprs h
      -- only the right operand is nested, and not that of a comparison
      | binary _ op lhs rhs =>
          rw [depth, Expr.depth]
          rcases List.mem_cons.mp h with rfl | h
          · exact Nat.le_max_left _ _
          · obtain rfl := List.mem_singleton.mp h
            refine Nat.le_trans (Nat.le_of_eq ?_) (Nat.le_max_right _ _)
            split <;> rfl
  | ofType type =>
      cases type with
      | bool | int | real | named => cases h
      | table _ element length =>
          rw [depth, TypeExpr.depth]
          rcases List.mem_cons.mp h with rfl | h
          · exact Nat.le_max_left _ _
          · obtain rfl := List.mem_singleton.mp h
            exact Nat.le_max_right _ _
  | ofArg arg =>
      cases arg with
      | name | op => cases h
      | type =>
          obtain rfl := List.mem_singleton.mp h
          exact Nat.le_refl _
      | const => exact depth_deeperExprs h
      | node => exact depth_deeperArgs h

end Subtree

/-! ## Branches -/

/-- A way down a tree, from the whole to a part, to a part of that, and so on. -/
inductive Branch : Subtree → List Placing → Prop
  | stop (tree : Subtree) : Branch tree []
  | down {tree part : Subtree} {placing : Placing} {placings : List Placing}
      (hpart : (placing, part) ∈ tree.parts) (hlater : Branch part placings) :
      Branch tree (placing :: placings)

/-- A branch goes at most as many levels deeper as the tree has. -/
theorem Branch.count_deeper_le {tree : Subtree} {placings : List Placing}
    (h : Branch tree placings) : placings.count .deeper ≤ tree.depth := by
  induction h with
  | stop => exact Nat.zero_le _
  | @down tree part placing placings hpart _ ih =>
      have hle : part.depth + placing.levels ≤ tree.depth := Subtree.depth_part hpart
      cases placing with
      | deeper =>
          rw [List.count_cons_self]
          exact Nat.le_trans (Nat.succ_le_succ ih) hle
      | along =>
          rw [List.count_cons_of_ne (by decide)]
          exact Nat.le_trans ih hle

/-! ## Runs of steps that do not go deeper -/

/-- More than `most` steps that do not go deeper follow one another. -/
def HasLongRun (most : Nat) (placings : List Placing) : Prop :=
  List.replicate (most + 1) .along <:+: placings

section

variable {most seen : Nat} {placings : List Placing}

/-- A run that has been too long already. -/
theorem HasLongRun.of_seen (h : most < seen) (placings : List Placing) :
    HasLongRun most (List.replicate seen .along ++ placings) := by
  obtain ⟨more, rfl⟩ : ∃ more, seen = most + 1 + more := ⟨seen - (most + 1), by omega⟩
  rw [← List.replicate_append_replicate, List.append_assoc]
  exact (List.prefix_append _ _).isInfix

/-- A run behind a step that goes deeper. -/
theorem HasLongRun.behind (h : HasLongRun most placings) :
    HasLongRun most (List.replicate seen .along ++ .deeper :: placings) := by
  have hlater : placings <:+: List.replicate seen .along ++ .deeper :: placings :=
    ⟨List.replicate seen .along ++ [.deeper], [], by simp⟩
  exact h.trans hlater

/-- One more step of the run that has been seen. -/
theorem replicate_append_cons (seen : Nat) (placings : List Placing) :
    List.replicate seen Placing.along ++ .along :: placings =
      List.replicate (seen + 1) .along ++ placings := by
  rw [List.replicate_succ', List.append_assoc]
  rfl

/-- With no long run there is a short one before each level and one behind the last.  Of the first
one, `seen` steps have been passed. -/
theorem seen_add_length_le (hseen : seen ≤ most)
    (h : ¬HasLongRun most (List.replicate seen .along ++ placings)) :
    seen + placings.length ≤ placings.count .deeper * (most + 1) + most := by
  induction placings generalizing seen with
  | nil => simpa using hseen
  | cons placing placings ih =>
      rw [List.length_cons]
      cases placing with
      | along =>
          rw [replicate_append_cons] at h
          have hlt : seen + 1 ≤ most := by
            apply Nat.le_of_not_lt
            intro hlong
            exact h (.of_seen hlong placings)
          have hle := ih hlt h
          rw [List.count_cons_of_ne (by decide)]
          omega
      | deeper =>
          -- the next run begins here
          have hle : 0 + placings.length ≤ placings.count .deeper * (most + 1) + most := by
            apply ih (Nat.zero_le most)
            intro hlong
            exact h (.behind hlong)
          rw [List.count_cons_self, Nat.succ_mul]
          omega

theorem length_le_of_runs (h : ¬HasLongRun most placings) :
    placings.length ≤ placings.count .deeper * (most + 1) + most := by
  have hle := @seen_add_length_le most 0 placings (Nat.zero_le most) h
  omega

end

/-! ## Height -/

namespace Subtree

/-- The height is the number of trees on the longest branch. -/
theorem heightAtMost_iff {bound : Nat} {tree : Subtree} :
    tree.heightAtMost bound = true ↔
      ∀ placings, Branch tree placings → placings.length < bound := by
  induction bound generalizing tree with
  | zero =>
      constructor
      · intro h
        cases h
      · intro h
        exact absurd (h [] (.stop tree)) (Nat.lt_irrefl 0)
  | succ bound ih =>
      rw [heightAtMost, List.all_eq_true]
      constructor
      · intro h placings hbranch
        cases hbranch with
        | stop => exact Nat.succ_pos _
        | down hpart hlater => exact Nat.succ_lt_succ (ih.mp (h _ hpart) _ hlater)
      · intro h part hpart
        apply ih.mpr
        intro placings hlater
        exact Nat.lt_of_succ_lt_succ (h _ (.down hpart hlater))

/-- Nowhere on the way down do more than `most` steps follow one another without going deeper. -/
def RunsAtMost (most : Nat) (tree : Subtree) : Prop :=
  ∀ placings, Branch tree placings → ¬HasLongRun most placings

/-- A run is no longer than the whole way. -/
theorem runsAtMost_of_heightAtMost {most : Nat} {tree : Subtree}
    (h : tree.heightAtMost (most + 1) = true) : tree.RunsAtMost most := by
  intro placings hbranch hrun
  have hlength : placings.length < most + 1 := heightAtMost_iff.mp h placings hbranch
  have hle : most + 1 ≤ placings.length := by simpa using hrun.length_le
  omega

/-- With short runs the depth limits the height. -/
theorem heightAtMost_of_runs {most levels : Nat} {tree : Subtree} (h : tree.RunsAtMost most)
    (hdepth : tree.depth ≤ levels) : tree.heightAtMost ((levels + 1) * (most + 1)) = true := by
  rw [heightAtMost_iff]
  intro placings hbranch
  have hcount : placings.count .deeper ≤ levels := Nat.le_trans hbranch.count_deeper_le hdepth
  calc
    placings.length ≤ placings.count .deeper * (most + 1) + most :=
      length_le_of_runs (h placings hbranch)
    _ ≤ levels * (most + 1) + most :=
      Nat.add_le_add_right (Nat.mul_le_mul_right _ hcount) _
    _ < (levels + 1) * (most + 1) := by
      rw [Nat.succ_mul]
      omega

end Subtree

end Lustre
