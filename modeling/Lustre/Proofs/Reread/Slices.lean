import Lustre.Proofs.Reader.Carries
import Lustre.Proofs.Reader.Standing
import Lustre.Proofs.Reread.Relexed
import Lustre.Proofs.Token.Slicing

/-!
# Reading the text under a span

An expression in a tree is read again from the text under its span.  This text has the
tokens that the expression was read from, in another place, and these are enough to read
it (`Cursor.Alone`); reading does not depend on the place (`Context.Carries`).
-/

namespace Lustre

open Movable

/-! ## The tokens under a span -/

/-- The tokens passed on the way, the last of which ends where the cursor is. -/
theorem Cursor.Onward.taken {c c' : Cursor} (h : c.Onward c') : ∃ taken, c.rest = taken ++ c'.rest ∧
    ∀ last, taken.getLast? = some last → last.span.stop = c'.last := by
  induction h with
  | here => exact ⟨[], rfl, fun last hlast => by cases hlast⟩
  | @pass c' _ ih =>
      obtain ⟨taken, hrest, hlast⟩ := ih
      unfold Cursor.pass
      split
      · rename_i token rest heq
        refine ⟨taken ++ [token], by rw [hrest, heq]; simp, fun last h => ?_⟩
        rw [List.getLast?_concat] at h
        rw [Option.some.inj h]
      · exact ⟨taken, hrest, hlast⟩

/-- The tokens passed, of which there are some, begin where the cursor is. -/
theorem Cursor.Moves.taken {c c' : Cursor} (h : c.Moves [] c') : ∃ taken first last,
    c.rest = taken ++ c'.rest ∧ taken.head? = some first ∧ first.span.start = c.span.start ∧
      taken.getLast? = some last ∧ last.span.stop = c'.last := by
  obtain ⟨taken, hrest, hlast⟩ := h.covers.onward.taken
  cases taken with
  | nil =>
      have hshorter := h.shorter
      rw [hrest] at hshorter
      exact absurd hshorter (Nat.lt_irrefl _)
  | cons first taken =>
      have hsome := List.getLast?_eq_some_getLast (List.cons_ne_nil first taken)
      refine ⟨first :: taken, first, _, hrest, rfl, ?_, hsome, hlast _ hsome⟩
      rw [Cursor.span, hrest]
      rfl

/-! ## In another place -/

theorem Context.opens_nil : ∀ token ∈ ([] : List Token).head?, token.kind ∈ itemHeads := by
  intro token htoken
  cases htoken

/-- The tokens of a text that are found `shift` bytes later in another one. -/
def Context.shifted (shift : Nat) : Context where
  place := (· + shift)
  later := []
  mono _ _ hle := Nat.add_le_add_right hle shift
  opens := opens_nil

/-- The beginning of a text, and the same tokens behind other ones. -/
theorem Context.beside_shifted {shift last size : Nat} {tokens : List Token}
    (hlast : last ≤ shift) :
    (shifted shift).Beside (.start tokens size) ⟨move (· + shift) tokens, last, size + shift⟩ where
  rest := (List.append_nil _).symm
  last start := by
    change max last (start + shift) = max 0 start + shift
    omega
  size _ := rfl
  qualified first second _ _ hsame := Nat.add_right_cancel hsame

/-- What is read from some tokens is read from them in another place, if it is all that is there. -/
theorem Read.expr_of_shifted {levels shift last size : Nat} {tokens : List Token}
    {e : Expr} {d : Cursor}
    (hlast : last ≤ shift)
    (h : (Nested.upTo levels).expr ⟨move (· + shift) tokens, last, size + shift⟩ = .ok e d)
    (hrest : d.rest = []) :
    ∃ alone c, (Nested.upTo levels).expr (.start tokens size) = .ok alone c ∧
      c.rest = [] ∧ e = move (· + shift) alone := by
  have hbeside : (Context.shifted shift).Beside (.start tokens size)
      ⟨move (· + shift) tokens, last, size + shift⟩ := Context.beside_shifted hlast
  have halike := Context.carries_expr (Context.levels_upTo levels) _ _ hbeside
  unfold Context.Reads Link.Alike at halike
  split at halike
  · rename_i alone c hread
    obtain ⟨e', d', hread', hmoved, hend⟩ := halike (.inl rfl)
    obtain ⟨rfl, rfl⟩ := EStateM.Result.ok.inj (h.symm.trans hread')
    refine ⟨alone, c, hread, ?_, hmoved⟩
    have hnil := hend.rest
    rw [hrest] at hnil
    exact List.map_eq_nil_iff.mp (List.append_eq_nil_iff.mp hnil.symm).1
  · obtain ⟨d', hread', -⟩ := halike (.inl rfl)
    cases h.symm.trans hread'

/-! ## Expressions -/

/-- Before the end of a text, an expression is its answer. -/
theorem parseExpr_of_tokens {text : String} {e : Expr} {c : Cursor}
    (hclean : (Lexed.ofText text).diagnostics = [])
    (h : (Nested.upTo maxNesting).expr (.start (Lexed.ofText text).tokens text.utf8ByteSize) =
      .ok e c)
    (hrest : c.rest = []) : parseExpr text = (some e, []) := by
  have hend : c.atEnd = true := List.isEmpty_iff.mpr hrest
  have hwhole : Recover.wholeExpr (.upTo maxNesting)
      (Run.ofText text (Lexed.ofText text)).cursor = .ok e c := by
    refine (bind_of_ok h).trans ?_
    change (if c.atEnd = true then pure e else Read.missing .endOfExpression : Read Expr) c = _
    rw [if_pos hend]
    rfl
  have hentries : (Run.ofText text (Lexed.ofText text)).log.entries = [] := hclean
  unfold parseExpr Run.expr
  rw [Recover.standaloneExpr_of_ok hwhole]
  dsimp only
  rw [hentries]
  rfl

/-- What an answer was read from, in a text with which nothing is wrong. -/
theorem tokens_of_parseExpr {text : String} {e : Expr} (h : (parseExpr text).1 = some e) :
    (Lexed.ofText text).diagnostics = [] ∧ ∃ c,
      (Nested.upTo maxNesting).expr (.start (Lexed.ofText text).tokens text.utf8ByteSize) =
        .ok e c := by
  obtain ⟨c, hwhole⟩ := wholeExpr_of_parseExpr h
  constructor
  · unfold parseExpr Run.expr at h
    rw [Recover.standaloneExpr_of_ok hwhole] at h
    dsimp only at h
    split at h
    · exact List.isEmpty_iff.mp ‹_›
    · cases h
  · obtain ⟨read, c₁, hread, hend⟩ := bind_eq_ok.mp hwhole
    change (if c₁.atEnd = true then pure read else Read.missing .endOfExpression : Read Expr) c₁ = _
      at hend
    split at hend
    · cases hend
      exact ⟨c, hread⟩
    · cases hend

/-- Every expression in a tree, apart from callees that are instances of a node, is read again from
the text under its span: alone, with nothing wrong, and as it stands in the tree but for the
place. -/
theorem spans_are_faithful {text : String} {e : Expr} (h : (parseExpr text).1 = some e)
    (hpragmas : ∀ token ∈ (Lexed.ofText text).tokens, token.kind ≠ .pragma)
    (hdigits : ∀ token ∈ (Lexed.ofText text).tokens, token.kind = .intLit →
      '.' ∉ token.text.toList) :
    ∀ s ∈ e.exprs, ∃ alone, parseExpr (s.span.slice text) = (some alone, []) ∧
      s = move (· + s.span.start) alone := by
  obtain ⟨hclean, c₁, hread⟩ := tokens_of_parseExpr h
  have hplain : (Cursor.start (Lexed.ofText text).tokens text.utf8ByteSize).Plain :=
    ⟨Token.ordered_tokens text, hpragmas⟩
  have hstands := (Nested.standing_upTo hplain maxNesting fun _ _ _ => id).top 0 _ .here e c₁ hread
  intro s hs
  obtain ⟨c, c', honward, halone⟩ := hstands.holds s hs
  obtain ⟨taken, first, last, hrest, hfirst, hstart, hlast, hstop⟩ := halone.moves.taken
  obtain ⟨before, htokens⟩ := honward.suffix
  change before ++ c.rest = (Lexed.ofText text).tokens at htokens
  rw [hrest] at htokens
  have htext : ∀ token ∈ taken, token ∈ (Lexed.ofText text).tokens := fun token hmem => by
    rw [← htokens]
    exact List.mem_append_right _ (List.mem_append_left _ hmem)
  obtain ⟨hmoved, hinside, -⟩ := Lexed.tokens_slice htokens.symm hfirst hlast hclean
    fun token hmem => hdigits token (htext token hmem)
  rw [hstart, hstop, ← halone.span] at hmoved hinside
  have hspan : s.span.start = c.span.start := by rw [halone.span]
  -- the tokens of the slice, in their places in the text
  have hcut : c.Cut c'.rest ⟨move (· + c.span.start)
      (Lexed.ofText (s.span.slice text)).tokens, c.last,
      (s.span.slice text).utf8ByteSize + c.span.start⟩ :=
    ⟨by rw [hrest, ← hmoved], rfl⟩
  obtain ⟨d, hreads, hend⟩ := halone.reads _ hcut
  obtain ⟨alone, d', hreads', hend', hsame⟩ :=
    Read.expr_of_shifted (hplain.onward honward).inOrder.bounds.1 hreads hend
  refine ⟨alone, parseExpr_of_tokens hinside hreads' hend', ?_⟩
  rw [hspan]
  exact hsame

/-- A comment stays in the slices around it, and an expression in a static argument has its own
slice. -/
theorem spans_of_delayed_call :
    let text := "1 -> pre f<<+, 2 * k>>(x -- old\n - 1, -y)"
    ∃ e, (parseExpr text).1 = some e ∧
      e.exprs.map (fun s => s.span.slice text) =
        ["1 -> pre f<<+, 2 * k>>(x -- old\n - 1, -y)", "1",
          "pre f<<+, 2 * k>>(x -- old\n - 1, -y)", "f<<+, 2 * k>>(x -- old\n - 1, -y)",
          "2 * k", "2", "k", "x -- old\n - 1", "x", "1", "-y", "y"] ∧
      ∀ s ∈ e.exprs, ∃ alone, parseExpr (s.span.slice text) = (some alone, []) ∧
        s = move (· + s.span.start) alone := by
  intro text
  obtain ⟨e, he, hslices⟩ : ∃ e, (parseExpr text).1 = some e ∧
      e.exprs.map (fun s => s.span.slice text) =
        ["1 -> pre f<<+, 2 * k>>(x -- old\n - 1, -y)", "1",
          "pre f<<+, 2 * k>>(x -- old\n - 1, -y)", "f<<+, 2 * k>>(x -- old\n - 1, -y)",
          "2 * k", "2", "k", "x -- old\n - 1", "x", "1", "-y", "y"] :=
    Option.map_eq_some_iff.mp (by decide +kernel)
  exact ⟨e, he, hslices, spans_are_faithful he (by decide +kernel) (by decide +kernel)⟩

end Lustre
