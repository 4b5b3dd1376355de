import Lustre.Proofs.Reader.Reports
import Lustre.Proofs.Token.Tiling

/-!
# The discipline of the log

A log begins with the diagnostics on the words of its text.  What readers report comes
behind them, and has to do with the grammar, up to the report that meets a limit: at the
end of a text that was cut short it is marked as such, and at the cap one last entry says
that there were too many.  Then the log is closed (`Log.Grown`).

A run can be driven step by step, with its settings changed in between.  Whatever is
set, a halted run stays halted, and no reading moves the cursor back.
-/

namespace Lustre

/-! ## Messages -/

/-- The text begins with a letter other than `t`. -/
def BeginsApart (text : String) : Prop := ∃ first rest, text.toList = first :: rest ∧ first ≠ 't'

namespace BeginsApart

theorem append {text : String} (h : BeginsApart text) (more : String) :
    BeginsApart (text ++ more) := by
  obtain ⟨first, rest, htext, hfirst⟩ := h
  exact ⟨first, rest ++ more.toList, by rw [String.toList_append, htext, List.cons_append], hfirst⟩

theorem ofList {first : Char} {rest : List Char} (h : first ≠ 't') :
    BeginsApart (String.ofList (first :: rest)) :=
  ⟨first, rest, String.toList_ofList, h⟩

theorem ne_tooMany {text : String} (h : BeginsApart text) : text ≠ "too many errors; stopping" := by
  obtain ⟨first, rest, htext, hfirst⟩ := h
  have hmany : "too many errors; stopping".toList = 't' :: _ := String.toList_ofList
  rintro rfl
  rw [hmany] at htext
  exact hfirst (List.cons.inj htext).1.symm

end BeginsApart

namespace Cause

/-- Whether a cause is that of one failure of its own: no limit was met, and it was not stated from
outside. -/
def isPlain : Cause → Bool
  | .tooManyErrors | .cutShort _ | .stated _ _ _ => false
  | _ => true

/-- No other message begins like the one on too many errors. -/
theorem beginsApart_message {cause : Cause} (h : cause.isPlain = true) :
    BeginsApart cause.message := by
  fun_cases message cause <;> cases h
  all_goals
    repeat with_reducible apply BeginsApart.append
    exact .ofList (by decide)

theorem isPlain_of_isGrammatical {cause : Cause} (h : cause.isGrammatical = true) :
    cause.isPlain = true := by
  cases cause <;> simp_all [isGrammatical, isPlain]

theorem category_of_isPlain {cause : Cause} (h : cause.isPlain = true) :
    cause.category ≠ .endOfInput := by
  cases cause <;> simp_all [isPlain, category]

theorem category_of_isGrammatical {cause : Cause} (h : cause.isGrammatical = true) :
    cause.category = .syntactic ∨ cause.category = .structural := by
  cases cause <;> simp_all [isGrammatical, category]

end Cause

/-- What can be wrong with a word. -/
theorem Lexed.cause_of_mem_diagnostics {text : String} {d : Diagnostic}
    (h : d ∈ (ofText text).diagnostics) : (∃ character, d.cause = .unknownCharacter character) ∨
      d.cause = .unterminatedString ∨ d.cause = .unterminatedComment := by
  obtain ⟨left, -, -, hfault⟩ := scan_cuts 0 text.toList
  rw [diagnostics_eq, List.mem_append, List.mem_map] at h
  rcases h with ⟨filler, -, rfl⟩ | h
  · exact .inl ⟨filler.text, rfl⟩
  · have hsome : (ofText text).fault = some d := by simpa using h
    exact .inr (hfault d hsome).1

/-- What is wrong with a word is said for itself. -/
theorem Lexed.plain_of_mem_diagnostics {text : String} {d : Diagnostic}
    (h : d ∈ (ofText text).diagnostics) : d.cause.isPlain = true := by
  rcases cause_of_mem_diagnostics h with ⟨character, hcause⟩ | hcause | hcause <;> rw [hcause] <;>
    rfl

/-! ## How a log ends -/

namespace Log

/-- How the entries of a log end, and whether it is halted. -/
inductive Ending (truncated halted : Bool) : List Diagnostic → Prop
  | running (h : halted = false) : Ending truncated halted []
  | cutShort (h : halted = true) (d : Diagnostic) (hd : d.cause.isGrammatical = true)
      (htruncated : truncated = true) : Ending truncated halted [⟨.cutShort d.cause, d.span⟩]
  | capped (h : halted = true) (d : Diagnostic) (hd : d.cause.isGrammatical = true) (span : Span) :
      Ending truncated halted [d, ⟨.tooManyErrors, span⟩]

/-- What has become of a log: some reports, with which it did not meet its cap, and an end. -/
structure Grown (start log : Log) (found last : List Diagnostic) : Prop where
  entries : log.entries = start.entries ++ found ++ last
  cap : log.cap = start.cap
  truncated : log.truncated = start.truncated
  grammatical : ∀ d ∈ found, d.cause.isGrammatical = true
  room : found = [] ∨ start.entries.length + found.length < start.cap
  ending : Ending start.truncated log.halted last

/-- A report goes to the others, or closes the log. -/
theorem Grown.record {start log : Log} {found last : List Diagnostic}
    (h : start.Grown log found last)
    (c : Cursor) {d : Diagnostic} (hd : d.cause.isGrammatical = true) :
    ∃ found last, start.Grown (log.record c d) found last := by
  obtain ⟨hentries, hcap, htruncated, hgrammatical, hroom, hending⟩ := h
  unfold Log.record
  split
  · exact ⟨found, last, hentries, hcap, htruncated, hgrammatical, hroom, hending⟩
  · rename_i hhalted
    obtain ⟨hrunning, rfl⟩ : log.halted = false ∧ last = [] := by
      cases hending with
      | running h => exact ⟨h, rfl⟩
      | cutShort h | capped h => exact absurd h hhalted
    rw [List.append_nil] at hentries
    split
    · -- at the end of a text that is cut short, the report gets another cause and halts
      rename_i hcut
      have hcut : log.truncated = true := (Bool.and_eq_true_iff.mp hcut).1
      refine ⟨found, _, ?_, hcap, htruncated, hgrammatical, hroom,
        .cutShort rfl d hd (htruncated ▸ hcut)⟩
      rw [hentries]
    · dsimp only
      split
      · -- the report that meets the cap is followed by the one that says so
        refine ⟨found, _, ?_, hcap, htruncated, hgrammatical, hroom, .capped rfl d hd c.span⟩
        rw [hentries, List.append_assoc _ [d]]
        rfl
      · rename_i hbelow
        have hlength : log.entries.length = start.entries.length + found.length := by
          rw [hentries, List.length_append]
        refine ⟨found ++ [d], [], ?_, hcap, htruncated, ?_, .inr ?_, ?_⟩
        · simp [hentries]
        · intro other hother
          rcases List.mem_append.mp hother with hother | hother
          · exact hgrammatical other hother
          · rwa [List.mem_singleton.mp hother]
        · rw [List.length_append, hlength, List.length_singleton] at hbelow
          rw [List.length_append, List.length_singleton]
          omega
        · exact .running hrunning

/-- So do all reports. -/
theorem Reported.grown {start log : Log} (h : start.Reported log) (hstart : start.halted = false) :
    ∃ found last, start.Grown log found last := by
  induction h with
  | none => exact ⟨[], [], by simp, rfl, rfl, by simp, .inl rfl, .running hstart⟩
  | more _ c hd ih =>
      obtain ⟨found, last, hgrown⟩ := ih
      exact hgrown.record c hd

namespace Grown

variable {start log : Log} {found last : List Diagnostic}

theorem length_le (h : start.Grown log found last) :
    log.entries.length ≤ max (start.entries.length + 2) (start.cap + 1) := by
  have hlast : last.length ≤ 2 := by
    cases h.ending <;> simp
  have hroom := h.room
  rw [h.entries, List.length_append, List.length_append]
  rcases hroom with rfl | hroom
  · simp only [List.length_nil]
    omega
  · omega

theorem category (h : start.Grown log found last) : ∀ d ∈ found ++ last,
    d.category ∈ [Category.syntactic, .structural, .endOfInput] := by
  have hgrammatical : ∀ d : Diagnostic, d.cause.isGrammatical = true →
      d.category ∈ [Category.syntactic, .structural, .endOfInput] := by
    intro d hd
    rcases Cause.category_of_isGrammatical hd with heq | heq <;> simp [Diagnostic.category, heq]
  intro d hd
  rcases List.mem_append.mp hd with hd | hd
  · exact hgrammatical d (h.grammatical d hd)
  · cases h.ending with
    | running => cases hd
    | cutShort _ d' hd' =>
        rw [List.mem_singleton.mp hd]
        simp [Diagnostic.category, Cause.category]
    | capped _ d' hd' span =>
        rcases List.mem_cons.mp hd with rfl | hd
        · exact hgrammatical d hd'
        · rw [List.mem_singleton.mp hd]
          simp [Diagnostic.category, Cause.category]

/-- What was there or was reported since is an entry on one failure. -/
theorem plain (h : start.Grown log found last)
    (hstart : ∀ d ∈ start.entries, d.cause.isPlain = true) :
    ∀ d ∈ start.entries ++ found, d.cause.isPlain = true := by
  intro d hd
  rcases List.mem_append.mp hd with hd | hd
  · exact hstart d hd
  · exact Cause.isPlain_of_isGrammatical (h.grammatical d hd)

/-- Only the last entry says that a limit was met. -/
theorem plain_before_last (h : start.Grown log found last)
    (hstart : ∀ d ∈ start.entries, d.cause.isPlain = true) :
    ∀ d ∈ log.entries.dropLast, d.cause.isPlain = true := by
  have hplain := h.plain hstart
  rw [h.entries]
  intro d hd
  cases h.ending with
  | running =>
      rw [List.append_nil] at hd
      exact hplain d (List.dropLast_subset _ hd)
  | cutShort =>
      rw [List.dropLast_concat] at hd
      exact hplain d hd
  | capped _ d' hd' span =>
      have hsplit : start.entries ++ found ++ [d', ⟨.tooManyErrors, span⟩] =
          start.entries ++ found ++ [d'] ++ [⟨.tooManyErrors, span⟩] := by simp
      rw [hsplit, List.dropLast_concat] at hd
      rcases List.mem_append.mp hd with hd | hd
      · exact hplain d hd
      · rw [List.mem_singleton.mp hd]
        exact Cause.isPlain_of_isGrammatical hd'

/-- An entry says that the text was cut short only if it was, and then none says that there were too
many. -/
theorem of_endOfInput (h : start.Grown log found last)
    (hstart : ∀ d ∈ start.entries, d.cause.isPlain = true) {d : Diagnostic} (hd : d ∈ log.entries)
    (hcategory : d.category = .endOfInput) :
    start.truncated = true ∧ ∀ d ∈ log.entries, d.message ≠ "too many errors; stopping" := by
  have hplain := h.plain hstart
  have hnot : ∀ d : Diagnostic, d.cause.isPlain = true → d.category ≠ .endOfInput := fun d hd =>
    Cause.category_of_isPlain hd
  rw [h.entries] at hd ⊢
  have hlast := (List.mem_append.mp hd).resolve_left fun hd => hnot d (hplain d hd) hcategory
  cases h.ending with
  | running => cases hlast
  | cutShort _ d' hd' htruncated =>
      refine ⟨htruncated, fun d hd => ?_⟩
      rcases List.mem_append.mp hd with hd | hd
      · exact (Cause.beginsApart_message (hplain d hd)).ne_tooMany
      · rw [List.mem_singleton.mp hd]
        have hmessage := Cause.beginsApart_message (Cause.isPlain_of_isGrammatical hd')
        exact (hmessage.append _).ne_tooMany
  | capped _ d' hd' span =>
      rcases List.mem_cons.mp hlast with rfl | hlast
      · exact absurd hcategory (hnot d (Cause.isPlain_of_isGrammatical hd'))
      · rw [List.mem_singleton.mp hlast] at hcategory
        cases hcategory

end Grown

end Log

/-! ## Runs step by step -/

/-- What can be done with a run. -/
inductive Run.Step where
  | setCap (cap : Nat)
  | setTruncated (truncated : Bool)
  | setEntries (entries : List Diagnostic)
  | readExpr
  | readProgram

namespace Run

namespace Step

/-- Whether a step reads tokens. -/
def reads : Step → Bool
  | setCap _ | setTruncated _ | setEntries _ => false
  | readExpr | readProgram => true

/-- The run after a step. -/
def apply (run : Run) : Step → Run
  | setCap cap => run.withCap cap
  | setTruncated truncated => run.withTruncated truncated
  | setEntries entries => run.withEntries entries
  | readExpr => (run.expr maxNesting).2
  | readProgram => (run.program maxNesting).2

end Step

/-- The run after some steps. -/
def after (run : Run) (steps : List Step) : Run := steps.foldl Step.apply run

end Run

namespace Recover

instance regular_standaloneExpr {deep : Nested} [deep.Advances] :
    Regular (standaloneExpr deep) := by
  refine .after fun result => ?_
  cases result <;> infer_instance

end Recover

namespace Run

theorem expr_snd (levels : Nat) (run : Run) :
    (run.expr levels).2 = finalState (Recover.standaloneExpr (.upTo levels) run) := by
  unfold expr
  split <;> rename_i hread <;> rw [hread] <;> rfl

theorem program_snd (levels : Nat) (run : Run) :
    (run.program levels).2 = finalState (Recover.program (.upTo levels) run) := by
  unfold program
  split <;> rename_i hread <;> rw [hread] <;> rfl

/-- A step that reads tokens does what a regular reader does. -/
theorem Step.apply_of_reads {step : Step} (h : step.reads = true) (run : Run) :
    run.log.Extended (step.apply run).log ∧ run.cursor.Onward (step.apply run).cursor := by
  cases step with
  | setCap | setTruncated | setEntries => cases h
  | readExpr =>
      have hregular : Regular (Recover.standaloneExpr (.upTo maxNesting)) := inferInstance
      rw [apply, expr_snd]
      exact ⟨hregular.extended run, hregular.onward run⟩
  | readProgram =>
      have hregular : Regular (Recover.program (.upTo maxNesting)) := inferInstance
      rw [apply, program_snd]
      exact ⟨hregular.extended run, hregular.onward run⟩

theorem Step.onward_apply (step : Step) (run : Run) :
    run.cursor.Onward (step.apply run).cursor := by
  by_cases h : step.reads = true
  · exact (apply_of_reads h run).2
  · cases step with
    | setCap | setTruncated | setEntries => exact .here
    | readExpr | readProgram => exact absurd rfl h

theorem Step.halted_apply (step : Step) {run : Run} (h : run.log.halted = true) :
    (step.apply run).log.halted = true := by
  by_cases hreads : step.reads = true
  · rw [(apply_of_reads hreads run).1.frozen h]
    exact h
  · cases step with
    | setCap | setTruncated | setEntries => exact h
    | readExpr | readProgram => exact absurd rfl hreads

/-- A halted run stays halted. -/
theorem halted_after (steps : List Step) {run : Run} (h : run.log.halted = true) :
    (run.after steps).log.halted = true := by
  induction steps generalizing run with
  | nil => exact h
  | cons step steps ih => exact ih (step.halted_apply h)

end Run

/-! ## The diagnostics of a text -/

/-- The log of a text in the end. -/
theorem grown_parse (text : String) (options : ParseOptions) : ∃ log found last,
    (parse text options).diagnostics = log.entries ∧
      (Run.reading text options).log.Grown log found last := by
  obtain ⟨program, run', hread, -, hdiagnostics⟩ := parse_eq_run text options
  have hyields : Yields (Recover.program (.upTo maxNesting)) Program.Sound := Recover.yields_program
  have hreported := hyields.reported (.reading text options)
  rw [hread] at hreported
  obtain ⟨found, last, hgrown⟩ := hreported.grown rfl
  exact ⟨run'.log, found, last, hdiagnostics, hgrown⟩

/-- The diagnostics of a text begin with those on its words.  The others have to do with the grammar
or the end of the text, and they keep to the cap.  That there were too many, or that the text was
cut short, is said at most once and last.  And whatever is done with a run step by step, once it
is halted no reading reports anything, and no step moves the cursor back. -/
theorem diagnostics_keep_discipline :
    (∀ (text : String) (options : ParseOptions),
      let lexed := Lexed.ofText text
      let diagnostics := (parse text options).diagnostics
      ∃ reported, diagnostics = lexed.diagnostics ++ reported ∧
        (∀ d ∈ reported, d.category ∈ [Category.syntactic, .structural, .endOfInput]) ∧
        diagnostics.length ≤ max (lexed.diagnostics.length + 2) (max options.maxErrors 1 + 1) ∧
        (∀ d ∈ diagnostics.dropLast,
          d.message ≠ "too many errors; stopping" ∧ d.category ≠ .endOfInput) ∧
        ∀ d ∈ diagnostics, d.category = .endOfInput →
          lexed.truncated = true ∧ ∀ d ∈ diagnostics, d.message ≠ "too many errors; stopping") ∧
    ∀ (tokens : List Token) (size : Nat) (before later : List Run.Step) (step : Run.Step),
      let run := (Run.start tokens size).after before
      let reached := run.after later
      (run.log.halted = true → step.reads = true →
        (step.apply reached).log.entries = reached.log.entries) ∧
      (step.apply reached).cursor.rest <:+ reached.cursor.rest := by
  refine ⟨fun text options => ?_, fun tokens size before later step =>
    ⟨fun hhalted hreads => ?_, ?_⟩⟩
  · obtain ⟨log, found, last, hdiagnostics, hgrown⟩ := grown_parse text options
    have hstart : ∀ d ∈ (Run.reading text options).log.entries, d.cause.isPlain = true :=
      fun d hd => Lexed.plain_of_mem_diagnostics hd
    dsimp only
    rw [hdiagnostics]
    refine ⟨found ++ last, ?_, hgrown.category, hgrown.length_le, fun d hd => ?_,
      fun d hd hcategory => hgrown.of_endOfInput hstart hd hcategory⟩
    · rw [hgrown.entries, List.append_assoc]
      rfl
    · have hplain := hgrown.plain_before_last hstart d hd
      exact ⟨(Cause.beginsApart_message hplain).ne_tooMany, Cause.category_of_isPlain hplain⟩
  · have hlater := Run.halted_after later hhalted
    rw [((step.apply_of_reads hreads _).1).frozen hlater]
  · exact (step.onward_apply _).suffix

/-- A semicolon is no expression, which is one error too many already.  Behind it nothing more is
reported, although a `tel` is no declaration either and would be reported had the run not halted. -/
theorem discipline_of_halted_run :
    let tokens := [⟨.semi, ";", ⟨0, 1, 0⟩⟩, ⟨.kwTel, "tel", ⟨2, 5, 0⟩⟩]
    let run := (Run.start tokens 5).after [.setCap 1, .readExpr]
    let reached := run.after [.setCap 5, .setEntries []]
    run.log.halted = true ∧
      (Run.Step.readProgram.apply reached).log.entries = reached.log.entries ∧
      (Run.Step.readProgram.apply { reached with log.halted := false }).log.entries.length = 1 := by
  have hhalted : ((Run.start [⟨.semi, ";", ⟨0, 1, 0⟩⟩, ⟨.kwTel, "tel", ⟨2, 5, 0⟩⟩] 5).after
      [.setCap 1, .readExpr]).log.halted = true := by decide
  refine ⟨hhalted, ?_, by decide⟩
  exact (diagnostics_keep_discipline.2 _ 5 [.setCap 1, .readExpr] [.setCap 5, .setEntries []]
    .readProgram).1 hhalted rfl

end Lustre
