import Lustre.Parse
import Lustre.Proofs.Reader.Recovery
import Lustre.Proofs.Reread.StaticArg

/-!
# Printed expressions read back

The text of a printable expression is cut into the words that were printed, and from these the
expression is read back: with the parentheses that printing put in as tuples of one item, and in
other places, but the same up to these.  Both hold for the text with as few parentheses as
possible and for the one with all of them.  Only the limit on nesting can get in the way.
-/

namespace Lustre

open Chunk

/-- No word of a printed expression runs into the next one. -/
theorem Expr.Printable.apart {expr : Expr} (h : expr.Printable false) (full : Bool) :
    Apart false (expr.chunks full 0) := by
  have hcalm : Calm false [] := ⟨fun _ hd => (by cases hd), fun hd => (by cases hd)⟩
  simpa using (h.solid full).expr.apart [] .nil hcalm

/-! ## A run over one expression -/

namespace Recover

variable {deep : Nested} {run : Run} {c : Cursor}

theorem standaloneExpr_of_ok {expr : Expr} (h : wholeExpr deep run.cursor = .ok expr c) :
    standaloneExpr deep run = .ok (some expr) { run with cursor := c } := by
  change EStateM.bind (attempt (monadLift (wholeExpr deep))) _ run = _
  rw [EStateM.bind, attempt, lift_run, h]
  rfl

theorem standaloneExpr_of_error {e : Diagnostic} (h : wholeExpr deep run.cursor = .error e c) :
    standaloneExpr deep run = .ok none ⟨c, run.log.record c e⟩ := by
  change EStateM.bind (attempt (monadLift (wholeExpr deep))) _ run = _
  rw [EStateM.bind, attempt, lift_run, h]
  rfl

end Recover

/-- Nothing is wrong with the words of a printed text, and a run begins before all of them. -/
theorem Run.ofText_render {chunks : List Chunk} (h : Apart false chunks) :
    (Run.ofText (render chunks) (Lexed.ofText (render chunks))).cursor.Shows chunks ∧
      (Run.ofText (render chunks) (Lexed.ofText (render chunks))).log =
        ⟨[], 200, false, false⟩ := by
  have hscan := Lexed.scan_chars h 0
  rw [← toList_render] at hscan
  have hfault : (Lexed.ofText (render chunks)).fault = none :=
    Option.toList_eq_nil_iff.mp (List.append_eq_nil_iff.mp hscan.2).2
  refine ⟨⟨0, hscan.1⟩, ?_⟩
  change (⟨_, 200, (Lexed.ofText (render chunks)).fault.isSome, false⟩ : Log) = _
  rw [hfault]
  exact congrArg (fun entries => (⟨entries, 200, false, false⟩ : Log)) hscan.2

/-- What is read from printed words is the answer for their text. -/
theorem parseExpr_render_of_ok {chunks : List Chunk} (h : Apart false chunks)
    {tree : Expr} {c : Cursor}
    (hwhole : Recover.wholeExpr (.upTo maxNesting)
      (Run.ofText (render chunks) (Lexed.ofText (render chunks))).cursor = .ok tree c) :
    parseExpr (render chunks) = (some tree, []) := by
  unfold parseExpr Run.expr
  rw [Recover.standaloneExpr_of_ok hwhole, (Run.ofText_render h).2]
  rfl

theorem parseExpr_render_of_error {chunks : List Chunk} (h : Apart false chunks) {e : Diagnostic}
    {c : Cursor} (hwhole : Recover.wholeExpr (.upTo maxNesting)
      (Run.ofText (render chunks) (Lexed.ofText (render chunks))).cursor = .error e c) :
    parseExpr (render chunks) = (none, [e]) := by
  unfold parseExpr Run.expr
  rw [Recover.standaloneExpr_of_error hwhole, (Run.ofText_render h).2]
  rfl

/-- An expression that is read back from some words is the answer for their text, unless it is
nested too deeply. -/
theorem parseExpr_render {chunks : List Chunk} (h : Apart false chunks) {Q : Expr → Cursor → Prop}
    (hgives : ∀ c : Cursor, c.Shows chunks → Gives (Recover.wholeExpr (.upTo maxNesting)) c Q) :
    (∃ d, parseExpr (render chunks) = (none, [d]) ∧ d.cause = .nestedTooDeeply) ∨
      ∃ tree c, parseExpr (render chunks) = (some tree, []) ∧ Q tree c := by
  have hread := hgives _ (Run.ofText_render h).1
  unfold Gives at hread
  cases hwhole : Recover.wholeExpr (.upTo maxNesting)
      (Run.ofText (render chunks) (Lexed.ofText (render chunks))).cursor with
  | ok tree c =>
      rw [hwhole] at hread
      exact .inr ⟨tree, c, parseExpr_render_of_ok h hwhole, hread⟩
  | error e c =>
      rw [hwhole] at hread
      exact .inl ⟨e, parseExpr_render_of_error h hwhole, hread⟩

/-! ## The whole text -/

/-- All words of a printed expression are read. -/
theorem gives_wholeExpr {expr : Expr} (h : expr.Printable false) (full : Bool) (levels : Nat)
    {c : Cursor} (hshows : c.Shows (expr.chunks full 0)) :
    Gives (Recover.wholeExpr (.upTo levels)) c fun read _ =>
      read.strip = expr.settledAt full 0 := by
  have hwords : c.Shows (expr.chunks full 0 ++ []) := by rwa [List.append_nil]
  refine ((Nested.rereads_upTo levels).whole h rfl hwords).bind fun read c' hread => .get ?_
  rw [if_pos hread.2.atEnd]
  exact .pure hread.1

/-- Both texts of a printable expression are read back as the same expression, up to places and
parentheses around one expression, unless it is nested too deeply. -/
theorem printed_expr_reads_back {expr : Expr} (h : expr.Printable false) {text : String}
    (htext : text = expr.print ∨ text = expr.printFull) :
    (∃ d, parseExpr text = (none, [d]) ∧ d.message = "expression nested too deeply") ∨
      ∃ tree, parseExpr text = (some tree, []) ∧ tree.core = expr.core := by
  obtain ⟨full, rfl⟩ : ∃ full, text = render (expr.chunks full 0) := by
    rcases htext with rfl | rfl
    · exact ⟨false, rfl⟩
    · exact ⟨true, rfl⟩
  rcases parseExpr_render (h.apart full) fun c => gives_wholeExpr h full maxNesting with
    ⟨d, hparse, hcause⟩ | ⟨tree, _, hparse, htree⟩
  · refine .inl ⟨d, hparse, ?_⟩
    rw [Diagnostic.message, hcause]
    rfl
  · refine .inr ⟨tree, hparse, ?_⟩
    rw [← Expr.core_strip, htree, Expr.core_settledAt]

/-- The blanks that keep `+` from `>>` and `-` from `-` are enough. -/
theorem printed_call_reads_back :
    let ref (name : String) : Reference := ⟨none, name, .nowhere⟩
    let expr : Expr := .call .nowhere (.inst .nowhere (ref "f") (some [.op .nowhere .plus]))
      [.unary .nowhere .neg (.unary .nowhere .neg (.name .nowhere (ref "x")))]
    expr.Printable false ∧ expr.print = "f<<+ >>(- (-x))" ∧
      ∃ tree, parseExpr expr.print = (some tree, []) ∧ tree.core = expr.core := by
  intro ref expr
  have href : ∀ name, isProperName name = true → (ref name).Printable := fun name h =>
    ⟨h, fun package hpackage => by cases hpackage⟩
  have hexpr : expr.Printable false := by
    refine .call (.inst (href "f" (by decide)) ?_) ?_
    · intro arg harg
      obtain rfl := List.mem_singleton.mp harg
      exact .op
    · intro arg harg
      obtain rfl := List.mem_singleton.mp harg
      exact .unary (.unary (.name (href "x" (by decide))))
  refine ⟨hexpr, by decide +kernel, ?_⟩
  rcases printed_expr_reads_back hexpr (.inl rfl) with ⟨d, hparse, -⟩ | hread
  · have hnone : (parseExpr expr.print).2 = [] := by decide +kernel
    rw [hparse] at hnone
    cases hnone
  · exact hread

end Lustre
