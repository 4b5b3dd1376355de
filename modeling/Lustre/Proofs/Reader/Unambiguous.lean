import Lustre.Proofs.Reader.Discipline

/-!
# No text is ambiguous

Where a static argument begins with a name, a look at two or three tokens decides
whether the name is the whole argument; only if it is not, the argument is read as an
expression.  The look ahead and the reader of expressions agree on where a name ends
(`Expr.Opens`), so an expression read there is never a name that the end of the argument
follows, with whatever token the arguments end and even if the argument is read a second
time.  The failure that the reader of arguments keeps for this case is never given, and
no log contains it.
-/

namespace Lustre

/-- Whether a cause says that an argument is ambiguous, if only where a text was cut short. -/
def Cause.saysAmbiguous : Cause → Bool
  | .cutShort cause => cause.saysAmbiguous
  | cause => cause.category == .ambiguity

/-! ## What is read after a look ahead -/

/-- An expression that is a bare name ends where the name was foreseen to end, so the end of an
argument follows it only if it was foreseen. -/
theorem Nested.endsArg_behind_name {levels : Nat} {c c' : Cursor} {span : Span} {ref : Reference}
    (hread : (upTo levels).expr c = .ok (.name span ref) c') (close : Kind) :
    c'.endsArg 0 close = c.endsArg c.referenceLength close := by
  -- a bare name takes the tokens that the look ahead counted, and no others
  have hrest : c'.rest = c.rest.drop c.referenceLength :=
    ((faithful_upTo levels).opens 0 c _ c' hread).whole rfl
  rw [Cursor.endsArg, Cursor.endsArg, Cursor.peekAt, Cursor.peekAt, hrest, List.getElem?_drop,
    Nat.add_zero]

/-! ## What is reported -/

namespace Cause

theorem not_saysAmbiguous_of_isGrammatical {cause : Cause} (h : cause.isGrammatical = true) :
    cause.saysAmbiguous = false := by
  cases cause <;> first | rfl | cases h

theorem category_of_not_saysAmbiguous {cause : Cause} (h : cause.saysAmbiguous = false) :
    cause.category ≠ .ambiguity := by
  cases cause <;> simp_all [saysAmbiguous, category]

end Cause

/-- What is wrong with a word does not make anything ambiguous. -/
theorem Lexed.not_saysAmbiguous {text : String} {d : Diagnostic}
    (h : d ∈ (ofText text).diagnostics) : d.cause.saysAmbiguous = false := by
  rcases cause_of_mem_diagnostics h with ⟨character, hcause⟩ | hcause | hcause <;> rw [hcause] <;>
    rfl

namespace Log

/-- Neither what readers report nor what is said at a limit makes anything ambiguous. -/
theorem Grown.not_saysAmbiguous {start log : Log} {found last : List Diagnostic}
    (h : start.Grown log found last)
    (hstart : ∀ d ∈ start.entries, d.cause.saysAmbiguous = false) :
    ∀ d ∈ log.entries, d.cause.saysAmbiguous = false := by
  intro d hd
  rw [h.entries, List.append_assoc, List.mem_append, List.mem_append] at hd
  rcases hd with hd | hd | hd
  · exact hstart d hd
  · exact Cause.not_saysAmbiguous_of_isGrammatical (h.grammatical d hd)
  · -- a log that ended repeats one more cause, or says that there were too many
    cases h.ending with
    | running => cases hd
    | cutShort _ d' hd' =>
        have hwithin : d'.cause.saysAmbiguous = false :=
          Cause.not_saysAmbiguous_of_isGrammatical hd'
        rwa [List.mem_singleton.mp hd]
    | capped _ d' hd' span =>
        rcases List.mem_cons.mp hd with rfl | hd
        · exact Cause.not_saysAmbiguous_of_isGrammatical hd'
        · rw [List.mem_singleton.mp hd]
          rfl

end Log

/-- The log of a text that is read as one expression. -/
theorem grown_parseExpr (text : String) : ∃ log found last, (parseExpr text).2 = log.entries ∧
    (Run.ofText text (Lexed.ofText text)).log.Grown log found last := by
  have hyields : Yields (Recover.standaloneExpr (.upTo maxNesting)) _ :=
    Recover.yields_standaloneExpr
  have hreported := hyields.reported (Run.ofText text (Lexed.ofText text))
  rw [← Run.expr_snd] at hreported
  obtain ⟨found, last, hgrown⟩ := hreported.grown rfl
  exact ⟨_, found, last, rfl, hgrown⟩

/-- No diagnostic on a text says that an argument is ambiguous, be the text read as a program or as
an expression; nor does the reader of an argument that begins with a name fail with one, at
whatever tokens it is started.  For where the look ahead does not find the end of the argument,
an expression that is read there is no bare name that the end of the argument follows. -/
theorem no_argument_is_ambiguous :
    (∀ (text : String) (options : ParseOptions), ∀ d ∈ (parse text options).diagnostics,
      d.cause.saysAmbiguous = false ∧ d.category ≠ .ambiguity) ∧
    (∀ text : String, ∀ d ∈ (parseExpr text).2,
      d.cause.saysAmbiguous = false ∧ d.category ≠ .ambiguity) ∧
    (∀ (levels start : Nat) (close : Kind) (c c' : Cursor) (d : Diagnostic),
      Read.nameLedArg (.upTo levels) close start c = .error d c' → d.cause.saysAmbiguous = false) ∧
    ∀ (levels : Nat) (close : Kind) (c c' : Cursor) (span : Span) (ref : Reference),
      c.endsArg c.referenceLength close = false →
      (Nested.upTo levels).expr c = .ok (.name span ref) c' → c'.endsArg 0 close = false := by
  refine ⟨fun text options d hd => ?_, fun text d hd => ?_, ?_, ?_⟩
  · obtain ⟨log, found, last, hdiagnostics, hgrown⟩ := grown_parse text options
    rw [hdiagnostics] at hd
    have hnot := hgrown.not_saysAmbiguous (fun d hd => Lexed.not_saysAmbiguous hd) d hd
    exact ⟨hnot, Cause.category_of_not_saysAmbiguous hnot⟩
  · obtain ⟨log, found, last, hdiagnostics, hgrown⟩ := grown_parseExpr text
    rw [hdiagnostics] at hd
    have hnot := hgrown.not_saysAmbiguous (fun d hd => Lexed.not_saysAmbiguous hd) d hd
    exact ⟨hnot, Cause.category_of_not_saysAmbiguous hnot⟩
  · intro levels start close c c' d herror
    have hforward : Forward (Read.nameLedArg (.upTo levels) close start) := inferInstance
    exact Cause.not_saysAmbiguous_of_isGrammatical ((hforward.proceeds c).grammatical d c' herror)
  · intro levels close c c' span ref hends hread
    rw [Nested.endsArg_behind_name hread]
    exact hends

/-- In `x )`, where arguments end with `>>`, the name is followed by nothing that ends an argument:
the look ahead does not take it for one, and it is read as an expression. -/
theorem name_before_parenthesis :
    let c := Cursor.start [⟨.ident, "x", ⟨0, 1, 0⟩⟩, ⟨.rParen, ")", ⟨2, 3, 0⟩⟩] 3
    ∃ c' : Cursor, (Nested.upTo 1).expr c = .ok (.name ⟨0, 1, 0⟩ ⟨none, "x", ⟨0, 1, 0⟩⟩) c' ∧
      c'.endsArg 0 .gtGt = false := by
  intro c
  have hread : (Nested.upTo 1).expr c =
      .ok (.name ⟨0, 1, 0⟩ ⟨none, "x", ⟨0, 1, 0⟩⟩) c.pass := rfl
  exact ⟨c.pass, hread, no_argument_is_ambiguous.2.2.2 1 .gtGt c c.pass _ _ (by decide) hread⟩

end Lustre
