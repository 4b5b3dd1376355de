import Lustre.Proofs.Reader.Levels
import Lustre.Proofs.Reread.Limit

/-!
# How high the trees of a text are

The limit on nesting keeps the trees of a text low only where they grow by going deeper.  With
a limit on how many steps follow one another without going deeper, the height is limited too
(`height_le_of_runs`).  Without one it is not: each further term of a sum stands beside a left
operand that is one higher, and takes no level (`sums_grow_without_bound`).
-/

namespace Lustre

open Subtree

/-- Every expression of a text, whatever is wrong with it, is so high at most as the levels allow
that lie between steps that go deeper, if at most `most` other steps follow one another. -/
theorem height_le_of_runs (most : Nat) :
    (∀ (text : String) (options : ParseOptions), ∀ e ∈ exprs (parse text options).program,
      (ofExpr e).RunsAtMost most →
        (ofExpr e).heightAtMost ((maxNesting + 1) * (most + 1)) = true) ∧
    ∀ text : String, ∀ e ∈ exprs (parseExpr text).1, (ofExpr e).RunsAtMost most →
      (ofExpr e).heightAtMost ((maxNesting + 1) * (most + 1)) = true := by
  refine ⟨fun text options e he hruns => ?_, fun text e he hruns => ?_⟩
  · exact heightAtMost_of_runs hruns (fitsIn_parse text options e he)
  · exact heightAtMost_of_runs hruns (fitsIn_parseExpr text e he)

/-- A tree that is four high has no run of more than three steps. -/
theorem height_of_conditional :
    let text := "if a then b - c - d else (x)"
    ∃ e, (parseExpr text).1 = some e ∧ (ofExpr e).RunsAtMost 3 ∧
      (ofExpr e).heightAtMost ((maxNesting + 1) * (3 + 1)) = true := by
  intro text
  obtain ⟨e, he, hheight⟩ : ∃ e, (parseExpr text).1 = some e ∧
      (ofExpr e).heightAtMost (3 + 1) = true :=
    Option.map_eq_some_iff.mp (by decide +kernel)
  have hruns : (ofExpr e).RunsAtMost 3 := runsAtMost_of_heightAtMost hheight
  have hmem : e ∈ exprs (parseExpr text).1 := by
    rw [he]
    exact List.mem_cons_self
  exact ⟨e, he, hruns, (height_le_of_runs 3).2 text e hmem hruns⟩

/-! ## Sums -/

/-- The name `x`. -/
def plainName : Expr := .name .nowhere ⟨none, "x", .nowhere⟩

/-- `x + x + ... + x` with so many additions. -/
def leftSum : Nat → Expr
  | 0 => plainName
  | additions + 1 => .binary .nowhere .add (leftSum additions) plainName

/-- The terms stand without parentheses. -/
example : (leftSum 3).print = "x + x + x + x" := by
  decide +kernel

namespace leftSum

theorem printable (additions : Nat) : (leftSum additions).Printable false := by
  have hname : plainName.Printable false := by
    refine .name ⟨?_, fun package hpackage => by cases hpackage⟩
    decide
  induction additions with
  | zero => exact hname
  | succ additions ih => exact .binary ih hname

/-- There are two levels, one of them for the terms on the right. -/
theorem nesting_le (additions : Nat) : (leftSum additions).nesting ≤ 2 := by
  induction additions with
  | zero => decide
  | succ additions ih =>
      have hdepth : (leftSum (additions + 1)).depth = max (leftSum additions).depth 1 := rfl
      rw [Expr.nesting] at ih ⊢
      omega

theorem leftMin_le_rank (additions : Nat) :
    BinaryOp.add.strength.leftMin ≤ (leftSum additions).rank := by
  cases additions with
  | zero => decide
  | succ additions => exact Nat.le_refl _

/-- A sum needs no parentheses on the left of a sum. -/
theorem settled_eq (additions : Nat) : (leftSum additions).settled false = leftSum additions := by
  induction additions with
  | zero => rfl
  | succ additions ih =>
      have hleft : Expr.settle false BinaryOp.add.strength.leftMin (leftSum additions) =
          leftSum additions := by
        have hrank := leftMin_le_rank additions
        rw [Expr.settle, if_neg]
        simp
        omega
      change Expr.binary .nowhere .add (Expr.settle false _ ((leftSum additions).settled false))
        plainName = _
      rw [ih, hleft]
      rfl

theorem settledAt_eq (additions : Nat) :
    (leftSum additions).settledAt false 0 = leftSum additions := by
  rw [Expr.settledAt, settled_eq, Expr.settle, if_neg]
  simp

/-- A sum is higher than it has additions, wherever its terms stand. -/
theorem not_heightAtMost (additions : Nat) {tree : Expr} (h : tree.strip = leftSum additions) :
    (ofExpr tree).heightAtMost additions = false := by
  induction additions generalizing tree with
  | zero => rfl
  | succ additions ih =>
      cases tree with
      | binary span op lhs rhs =>
          obtain ⟨-, -, hlhs, -⟩ := Expr.binary.inj h
          have hleft : (ofExpr lhs).heightAtMost additions = false := ih hlhs
          rw [heightAtMost, parts, List.all_cons, hleft, Bool.false_and]
      | _ => cases h

end leftSum

/-- There is no limit on the height of the trees of a text. -/
theorem sums_grow_without_bound : ¬ ∃ bound : Nat,
    (∀ (text : String) (options : ParseOptions), ∀ e ∈ exprs (parse text options).program,
      (ofExpr e).heightAtMost bound = true) ∧
    ∀ text : String, ∀ e ∈ exprs (parseExpr text).1, (ofExpr e).heightAtMost bound = true := by
  rintro ⟨bound, -, hbound⟩
  have hresult := parseExpr_render_of_printable (leftSum.printable bound) false
  rw [leftSum.settledAt_eq] at hresult
  have hfits : (leftSum bound).nesting ≤ maxNesting :=
    Nat.le_trans (leftSum.nesting_le bound) (by decide)
  obtain ⟨tree, hparse, htree⟩ := (if_pos hfits).mp hresult
  have hmem : tree ∈ exprs (parseExpr (leftSum bound).print).1 := by
    change tree ∈ exprs (parseExpr (Chunk.render ((leftSum bound).chunks false 0))).1
    rw [hparse]
    exact List.mem_cons_self
  have hlow := hbound _ tree hmem
  rw [leftSum.not_heightAtMost bound htree] at hlow
  cases hlow

end Lustre
