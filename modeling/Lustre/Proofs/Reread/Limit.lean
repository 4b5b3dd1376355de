import Lustre.Proofs.Reader.Nesting
import Lustre.Proofs.Reader.Room
import Lustre.Proofs.Reread.Relexed

/-!
# Accepted and printed expressions, and the limit on nesting

What is accepted with some limit on nesting is accepted with every limit that its own levels do
not exceed, and with no other (`accepted_iff_nesting_le`).

Parentheses that printing adds make an expression deeper, and then its text may exceed the limit
although the text that it was read from does not.  With enough levels it is always read back, as
the expression with these parentheses, and so the limit is exceeded exactly if there are too
many levels in that expression.
-/

namespace Lustre

open Chunk

/-! ## Depth without places -/

section

open Lustre.Expr (keep)

mutual

theorem Expr.depth_keep : ∀ expr : Expr, (expr.rebuild keep).depth = expr.depth
  | .error _ | .bool _ _ | .int _ _ | .real _ _ | .name _ _ => rfl
  | .inst _ _ args => by simp [Expr.rebuild, Expr.depth, argsDepth_keep args]
  | .tuple _ items | .array _ items => by
      simp [Expr.rebuild, Expr.depth, Expr.listDepth_keep items]
  | .record _ _ _ fields => by simp [Expr.rebuild, Expr.depth, FieldInit.listDepth_keep fields]
  | .field _ value _ => by simp [Expr.rebuild, Expr.depth, keep, value.depth_keep]
  | .index _ value index => by
      simp [Expr.rebuild, Expr.depth, keep, value.depth_keep, index.depth_keep]
  | .slice _ value first last step => by
      simp [Expr.rebuild, Expr.depth, keep, value.depth_keep, first.depth_keep, last.depth_keep,
        stepDepth_keep step]
  | .call _ callee args => by
      simp [Expr.rebuild, Expr.depth, keep, callee.depth_keep, Expr.listDepth_keep args]
  | .cond _ _ condition yes no => by
      simp [Expr.rebuild, Expr.depth, keep, condition.depth_keep, yes.depth_keep, no.depth_keep]
  | .merge _ _ arms => by simp [Expr.rebuild, Expr.depth, MergeArm.listDepth_keep arms]
  | .sampled _ value _ => by simp [Expr.rebuild, Expr.depth, keep, value.depth_keep]
  | .unary _ _ operand => by simp [Expr.rebuild, Expr.depth, keep, operand.depth_keep]
  | .binary _ _ lhs rhs => by
      simp [Expr.rebuild, Expr.depth, keep, lhs.depth_keep, rhs.depth_keep]
  | .list _ _ operands => by simp [Expr.rebuild, Expr.depth, Expr.listDepth_keep operands]

theorem Expr.listDepth_keep : ∀ exprs : List Expr,
    Expr.listDepth (Expr.listRebuild keep exprs) = Expr.listDepth exprs
  | [] => rfl
  | expr :: exprs => by
      simp [Expr.listRebuild, Expr.listDepth, keep, expr.depth_keep, Expr.listDepth_keep exprs]

theorem stepDepth_keep : ∀ step : Option Expr, stepDepth (stepRebuild keep step) = stepDepth step
  | none => rfl
  | some step => by simp [stepRebuild, stepDepth, keep, step.depth_keep]

theorem FieldInit.listDepth_keep : ∀ fields : List FieldInit,
    FieldInit.listDepth (FieldInit.listRebuild keep fields) = FieldInit.listDepth fields
  | [] => rfl
  | ⟨_, _, value⟩ :: fields => by
      simp [FieldInit.listRebuild, FieldInit.listDepth, keep, value.depth_keep,
        FieldInit.listDepth_keep fields]

theorem MergeArm.listDepth_keep : ∀ arms : List MergeArm,
    MergeArm.listDepth (MergeArm.listRebuild keep arms) = MergeArm.listDepth arms
  | [] => rfl
  | ⟨_, _, value⟩ :: arms => by
      simp [MergeArm.listRebuild, MergeArm.listDepth, keep, value.depth_keep,
        MergeArm.listDepth_keep arms]

theorem TypeExpr.depth_keep : ∀ type : TypeExpr, (type.rebuild keep).depth = type.depth
  | .bool _ | .int _ | .real _ | .named _ _ => rfl
  | .table _ element length => by
      simp [TypeExpr.rebuild, TypeExpr.depth, keep, element.depth_keep, length.depth_keep]

theorem StaticArg.depth_keep : ∀ arg : StaticArg, (arg.rebuild keep).depth = arg.depth
  | .name _ _ | .op _ _ => rfl
  | .type _ type _ => by simp [StaticArg.rebuild, StaticArg.depth, type.depth_keep]
  | .const _ value _ => by simp [StaticArg.rebuild, StaticArg.depth, keep, value.depth_keep]
  | .node _ _ _ _ args => by simp [StaticArg.rebuild, StaticArg.depth, argsDepth_keep args]

theorem StaticArg.listDepth_keep : ∀ args : List StaticArg,
    StaticArg.listDepth (StaticArg.listRebuild keep args) = StaticArg.listDepth args
  | [] => rfl
  | arg :: args => by
      simp [StaticArg.listRebuild, StaticArg.listDepth, arg.depth_keep,
        StaticArg.listDepth_keep args]

theorem argsDepth_keep : ∀ args : Option (List StaticArg),
    argsDepth (argsRebuild keep args) = argsDepth args
  | none => rfl
  | some args => by simp [argsRebuild, argsDepth, StaticArg.listDepth_keep args]

end

end

/-- Places have no part in the nesting. -/
theorem Expr.nesting_strip (expr : Expr) : expr.strip.nesting = expr.nesting :=
  congrArg (· + 1) expr.depth_keep

/-! ## Reading with enough levels -/

/-- With as many levels as printed words, nothing is nested too deeply. -/
theorem wholeExpr_of_shows {expr : Expr} (h : expr.Printable false) (full : Bool) {c : Cursor}
    (hshows : c.Shows (expr.chunks full 0)) :
    ∃ levels read c', Recover.wholeExpr (.upTo levels) c = .ok read c' ∧
      read.strip = expr.settledAt full 0 := by
  let levels := c.rest.length + 1
  have hgives := gives_wholeExpr h full levels hshows
  have hroom := (Recover.roomy_wholeExpr levels).spares c
  unfold Gives at hgives
  unfold Spares at hroom
  cases hread : Recover.wholeExpr (.upTo levels) c with
  | ok read c' =>
      rw [hread] at hgives
      exact ⟨levels, read, c', hread, hgives⟩
  | error e c' =>
      rw [hread] at hgives hroom
      exact absurd (hroom.2 (congrArg some hgives)) (Nat.not_succ_le_self _)

/-- A printed expression is refused exactly if it is nested too deeply with the parentheses that
were printed. -/
theorem parseExpr_render_of_printable {expr : Expr} (h : expr.Printable false) (full : Bool) :
    let result := parseExpr (render (expr.chunks full 0))
    if (expr.settledAt full 0).nesting ≤ maxNesting then
      ∃ tree, result = (some tree, []) ∧ tree.strip = expr.settledAt full 0
    else ∃ d, result = (none, [d]) ∧ d.message = "expression nested too deeply" := by
  intro result
  have happart := h.apart full
  obtain ⟨levels, read, c', hread, htree⟩ := wholeExpr_of_shows h full (Run.ofText_render happart).1
  obtain ⟨-, hsame, hover⟩ := Recover.spends_wholeExpr levels maxNesting _ read c' hread
  rw [← htree, Expr.nesting_strip]
  split
  · rename_i hfits
    exact ⟨read, parseExpr_render_of_ok happart (hsame hfits), rfl⟩
  · rename_i hdeep
    have hfailure := hover (Nat.zero_le _) (Nat.lt_of_not_le hdeep)
    cases hwhole : Recover.wholeExpr (.upTo maxNesting)
        (Run.ofText (render (expr.chunks full 0))
          (Lexed.ofText (render (expr.chunks full 0)))).cursor
      with
    | ok tree c =>
        rw [hwhole] at hfailure
        cases hfailure
    | error e c =>
        rw [hwhole] at hfailure
        refine ⟨e, parseExpr_render_of_error happart hwhole, ?_⟩
        rw [Diagnostic.message, Option.some.inj hfailure]
        rfl

/-! ## Any limit -/

/-- With any number of levels allowed, tokens that are accepted with some are accepted exactly if
their expression has no more, and as the same expression.  Otherwise all that is reported is that it
is nested too deeply. -/
theorem accepted_iff_nesting_le (tokens : List Token) (size levels : Nat) {expr : Expr} {run : Run}
    (h : (Run.start tokens size).expr levels = (some expr, run)) (limit : Nat) :
    run.log.entries = [] ∧
      if expr.nesting ≤ limit then (Run.start tokens size).expr limit = (some expr, run)
      else ∃ d last, (Run.start tokens size).expr limit = (none, last) ∧ last.log.entries = [d] ∧
        d.message = "expression nested too deeply" := by
  -- an answer means that the whole text was read without a report
  have hwhole : ∃ c, Recover.wholeExpr (.upTo levels) (.start tokens size) = .ok expr c ∧
      run = { Run.start tokens size with cursor := c } := by
    unfold Run.expr at h
    cases hread : Recover.wholeExpr (.upTo levels) (Run.start tokens size).cursor with
    | ok found c =>
        rw [Recover.standaloneExpr_of_ok hread] at h
        obtain ⟨hfound, hrun⟩ := Prod.mk.inj h
        cases hfound
        exact ⟨c, hread, hrun.symm⟩
    | error e c =>
        rw [Recover.standaloneExpr_of_error hread] at h
        cases h
  obtain ⟨c, hread, rfl⟩ := hwhole
  refine ⟨rfl, ?_⟩
  obtain ⟨-, hsame, hover⟩ := Recover.spends_wholeExpr levels limit _ expr c hread
  split
  · rename_i hfits
    unfold Run.expr
    rw [Recover.standaloneExpr_of_ok (hsame hfits)]
  · rename_i hdeep
    -- with too few levels, the same reading fails with this one cause
    have hfailure := hover (Nat.zero_le _) (Nat.lt_of_not_le hdeep)
    cases hlimited : Recover.wholeExpr (.upTo limit) (.start tokens size) with
    | ok found c =>
        rw [hlimited] at hfailure
        cases hfailure
    | error e c =>
        rw [hlimited] at hfailure
        refine ⟨e, ⟨c, (Run.start tokens size).log.record c e⟩, ?_, rfl, ?_⟩
        · unfold Run.expr
          rw [Recover.standaloneExpr_of_error hlimited]
        · rw [Diagnostic.message, Option.some.inj hfailure]
          rfl

/-- A call within static arguments is read twice, at two depths.  Here the parentheses around `b`
are what is deepest: the list of arguments, `not`, and what stands between them are a level each. -/
theorem call_in_arguments_takes_five_levels :
    let start := Run.start (Lexed.ofText "f<<g<<+>>(x), not (b)>>(- a[i], 1 + 2 + 3)").tokens 42
    ∃ expr run, start.expr 64 = (some expr, run) ∧ start.expr 5 = (some expr, run) ∧
      ∃ d last, start.expr 4 = (none, last) ∧ last.log.entries = [d] ∧
        d.message = "expression nested too deeply" := by
  intro start
  obtain ⟨expr, hexpr, hnesting⟩ : ∃ expr, (start.expr 64).1 = some expr ∧ expr.nesting = 5 :=
    Option.map_eq_some_iff.mp (by decide +kernel)
  have hread : start.expr 64 = (some expr, (start.expr 64).2) := by rw [← hexpr]
  have hfits := (accepted_iff_nesting_le _ 42 64 hread 5).2
  have hdeep := (accepted_iff_nesting_le _ 42 64 hread 4).2
  rw [if_pos (Nat.le_of_eq hnesting)] at hfits
  rw [if_neg (by rw [hnesting]; decide)] at hdeep
  exact ⟨expr, _, hread, hfits, hdeep⟩

/-! ## Printing what was read -/

/-- The text that is printed for an answer is nested too deeply exactly if the answer has too many
levels together with the parentheses that printing adds.  This takes that no literal number of the
text stands before a dot, and that no literal integer ends in one. -/
theorem printing_exceeds_limit_iff {text : String} {expr : Expr}
    (h : (parseExpr text).1 = some expr)
    (hdots : dotsNumber ((Lexed.ofText text).wordsBut Kind.isSeparator) = false)
    (hdigits : ∀ token ∈ (Lexed.ofText text).tokens, token.kind = .intLit →
      '.' ∉ token.text.toList) :
    (∃ d ∈ (parseExpr expr.print).2, d.message = "expression nested too deeply") ↔
      maxNesting < (expr.settledAt false 0).nesting := by
  have hresult := parseExpr_render_of_printable (printable_of_parseExpr h hdots hdigits) false
  change if _ then ∃ tree, parseExpr expr.print = _ ∧ _ else ∃ d, parseExpr expr.print = _ ∧ _
    at hresult
  split at hresult
  · rename_i hfits
    obtain ⟨tree, hprint, -⟩ := hresult
    simp [hprint, Nat.not_lt_of_le hfits]
  · rename_i hdeep
    obtain ⟨d, hprint, hmessage⟩ := hresult
    simp [hprint, hmessage, Nat.lt_of_not_le hdeep]

/-- Parentheses around the operand of a prefix operator make it a level deeper. -/
theorem printing_keeps_prefixes_within_limit :
    let text := "pre pre (a + - - b)"
    ∃ expr, (parseExpr text).1 = some expr ∧ expr.print = "pre (pre (a + - (-b)))" ∧
      expr.nesting = 7 ∧ (expr.settledAt false 0).nesting = 9 ∧
      ¬∃ d ∈ (parseExpr expr.print).2, d.message = "expression nested too deeply" := by
  intro text
  obtain ⟨expr, hexpr, hfacts⟩ : ∃ expr, (parseExpr text).1 = some expr ∧
      (expr.print, expr.nesting, (expr.settledAt false 0).nesting) =
        ("pre (pre (a + - (-b)))", 7, 9) :=
    Option.map_eq_some_iff.mp (by decide +kernel)
  simp only [Prod.mk.injEq] at hfacts
  obtain ⟨hprint, hnesting, hsettled⟩ := hfacts
  refine ⟨expr, hexpr, hprint, hnesting, hsettled, ?_⟩
  rw [printing_exceeds_limit_iff hexpr (by decide +kernel) (by decide +kernel), hsettled]
  decide

/-- A minus sign under another one is put in parentheses: with as many of them as half the limit
and one more, printing exceeds it. -/
theorem printed_minus_signs_exceed_limit :
    let text := String.join (List.replicate 33 "- ") ++ "x"
    ∃ expr, (parseExpr text).1 = some expr ∧
      (parseExpr expr.print).2.map Diagnostic.message = ["expression nested too deeply"] := by
  intro text
  exact Option.map_eq_some_iff.mp (by decide +kernel)

end Lustre
