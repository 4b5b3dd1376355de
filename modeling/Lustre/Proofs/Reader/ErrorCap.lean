import Lustre.Proofs.Reader.Program

/-!
# The error cap only cuts

Two runs over the same tokens, one with a lower cap than the other, march in step:
they read the same trees and report the same diagnostics, until the first run meets
its cap.  From then on nothing is said of what it reads, but its log is a beginning
of what the other run reports, with one last entry that says that it was cut.

## Strategy

`InStep` is the simulation and `Cut` the way out of it.  That a report keeps the
runs in step or cuts the first one is the only fact about logs
(`SameButCap.record`).  `Regular.marches` carries it to all readers, by induction on
how they are put together, since a cut log is frozen and the other only grows.  What
remains is the two loops over a file: after the cut the first run adds at most the
item that it was reading.
-/

namespace Lustre

variable {α β : Type}

/-! ## Two logs -/

namespace Log

/-- Two logs that differ only in their caps, the first of which is the lower. -/
structure SameButCap (log log' : Log) : Prop where
  entries : log'.entries = log.entries
  truncated : log'.truncated = log.truncated
  halted : log'.halted = log.halted
  cap : log.cap ≤ log'.cap

/-- The first log met its cap on the way to the second. -/
structure Cut (log log' : Log) : Prop where
  halted : log.halted = true
  entries : ∃ before span, log.entries = before ++ [⟨.tooManyErrors, span⟩] ∧
    before <+: log'.entries

/-- A log that is cut stays so, since it changes no more and the other only grows. -/
theorem Cut.extended {log log₁ log' log₁' : Log} (h : log.Cut log') (h₁ : log.Extended log₁)
    (h₁' : log'.Extended log₁') : log₁.Cut log₁' := by
  obtain rfl := h₁.frozen h.halted
  obtain ⟨before, span, hentries, hbefore⟩ := h.entries
  exact ⟨h.halted, before, span, hentries, hbefore.trans h₁'.entries⟩

/-- A report finds its place in both logs, or cuts the first. -/
theorem SameButCap.record {log log' : Log} (h : log.SameButCap log') (c : Cursor) (d : Diagnostic) :
    (log.record c d).SameButCap (log'.record c d) ∨ (log.record c d).Cut (log'.record c d) := by
  unfold Log.record
  rw [h.halted, h.truncated, h.entries]
  split
  · exact .inl h
  · split
    · exact .inl ⟨rfl, rfl, rfl, h.cap⟩
    · have hcap := h.cap
      dsimp only
      by_cases hfirst : (log.entries ++ [d]).length ≥ log.cap
      · rw [if_pos hfirst]
        by_cases hsecond : (log.entries ++ [d]).length ≥ log'.cap
        · rw [if_pos hsecond]
          exact .inl ⟨rfl, rfl, rfl, hcap⟩
        · rw [if_neg hsecond]
          exact .inr ⟨rfl, log.entries ++ [d], c.span, rfl, List.prefix_refl _⟩
      · rw [if_neg hfirst, if_neg (by omega)]
        exact .inl ⟨rfl, rfl, rfl, hcap⟩

end Log

/-! ## Two runs -/

/-- Two runs at the same place whose logs differ only in their caps. -/
structure Run.SameButCap (run run' : Run) : Prop where
  cursor : run.cursor = run'.cursor
  log : run.log.SameButCap run'.log

/-- Two answers that agree, after runs that agree. -/
inductive InStep {α : Type} :
    EStateM.Result Diagnostic Run α → EStateM.Result Diagnostic Run α → Prop
  | ok (a : α) {run run' : Run} (h : run.SameButCap run') : InStep (.ok a run) (.ok a run')
  | error (d : Diagnostic) {run run' : Run} (h : run.SameButCap run') :
      InStep (.error d run) (.error d run')

/-- From runs that agree, a reader gives answers that agree, or the first run is cut. -/
def Marches (read : Recover α) : Prop :=
  ∀ run run', Run.SameButCap run run' → InStep (read run) (read run') ∨
    (finalState (read run)).log.Cut (finalState (read run')).log

theorem Marches.bind {read : Recover α} {next : α → Recover β} (h : Marches read)
    (hnext : ∀ a, Marches (next a)) (hregular : ∀ a, Regular (next a)) :
    Marches (read >>= next) := by
  intro run run' hsame
  change InStep (EStateM.bind read next run) (EStateM.bind read next run') ∨
    (finalState (EStateM.bind read next run)).log.Cut (finalState (EStateM.bind read next run')).log
  have hread := h run run' hsame
  unfold EStateM.bind
  -- if the first step was cut, then so was the run, for what follows only adds to the logs
  cases hfirst : read run with
  | ok a middle =>
      cases hsecond : read run' with
      | ok a' middle' =>
          rw [hfirst, hsecond] at hread
          rcases hread with hstep | hcut
          · cases hstep with
            | ok a hmiddle => exact hnext a _ _ hmiddle
          · exact .inr (hcut.extended ((hregular a).extended middle)
              ((hregular a').extended middle'))
      | error e' middle' =>
          rw [hfirst, hsecond] at hread
          rcases hread with hstep | hcut
          · cases hstep
          · exact .inr (hcut.extended ((hregular a).extended middle) (.refl _))
  | error e middle =>
      cases hsecond : read run' with
      | ok a' middle' =>
          rw [hfirst, hsecond] at hread
          rcases hread with hstep | hcut
          · cases hstep
          · exact .inr (hcut.extended (.refl _) ((hregular a').extended middle'))
      | error e' middle' =>
          rw [hfirst, hsecond] at hread
          rcases hread with hstep | hcut
          · cases hstep with
            | error e hmiddle => exact .inl (.error e hmiddle)
          · exact .inr hcut

/-- Every regular reader marches in step with itself. -/
theorem Regular.marches {read : Recover α} (h : Regular read) : Marches read := by
  induction h with
  | pure a => exact fun run run' hsame => .inl (.ok a hsame)
  | throw d => exact fun run run' hsame => .inl (.error d hsame)
  | bind _ hregular ih ihnext => exact ih.bind ihnext hregular
  | look _ hcursor ih =>
      rename_i next _
      rintro ⟨c, log⟩ ⟨_, log'⟩ ⟨rfl, hlog⟩
      change InStep (next ⟨c, log⟩ ⟨c, log⟩) (next ⟨c, log'⟩ ⟨c, log'⟩) ∨
        (finalState (next ⟨c, log⟩ ⟨c, log⟩)).log.Cut (finalState (next ⟨c, log'⟩ ⟨c, log'⟩)).log
      -- what is looked at is the cursor, which both runs share
      rw [hcursor c log' log]
      exact ih ⟨c, log⟩ ⟨c, log⟩ ⟨c, log'⟩ ⟨rfl, hlog⟩
  | halted =>
      rintro run run' hsame
      have hhalted : run'.log.halted = run.log.halted := hsame.log.halted
      change InStep (.ok run.log.halted run) (.ok run'.log.halted run') ∨ _
      rw [hhalted]
      exact .inl (.ok _ hsame)
  | lift read _ =>
      rintro ⟨c, log⟩ ⟨_, log'⟩ ⟨rfl, hlog⟩
      left
      rw [Recover.lift_run, Recover.lift_run]
      cases hread : read c with
      | ok a c' => exact .ok _ ⟨rfl, hlog⟩
      | error e c' => exact .error _ ⟨rfl, hlog⟩
  | attempt _ ih =>
      rename_i read _
      intro run run' hsame
      have hread := ih run run' hsame
      -- a failure is caught in both runs, since it has not been reported yet
      unfold Recover.attempt
      cases hfirst : read run <;> cases hsecond : read run' <;> rw [hfirst, hsecond] at hread <;>
        rcases hread with hstep | hcut
      all_goals first
        | exact .inr hcut
        | cases hstep
      · rename_i hmiddle
        exact .inl (.ok _ hmiddle)
      · rename_i hmiddle
        exact .inl (.ok _ hmiddle)
  | report d =>
      rintro ⟨c, log⟩ ⟨_, log'⟩ ⟨rfl, hlog⟩
      -- only a report can meet the lower cap
      rcases hlog.record c d with hsame | hcut
      · exact .inl (.ok () ⟨rfl, hsame⟩)
      · exact .inr hcut
  | synchronize scope stops =>
      rintro ⟨c, log⟩ ⟨_, log'⟩ ⟨rfl, hlog⟩
      exact .inl (.ok () ⟨rfl, hlog⟩)

/-! ## The loops over a file -/

/-- What a reader answers, if it answers, satisfies `P`. -/
def Answers (read : Recover α) (P : α → Prop) : Prop := ∀ run a run', read run = .ok a run' → P a

namespace Answers

variable {P : α → Prop} {Q : β → Prop}

theorem pure {a : α} (h : P a) : Answers (Pure.pure a : Recover α) P := by
  intro run b run' hok
  cases hok
  exact h

theorem bind {read : Recover α} {next : α → Recover β} (h : ∀ a, Answers (next a) Q) :
    Answers (read >>= next) Q := by
  intro run b run' hok
  obtain ⟨a, middle, -, hlast⟩ := bind_eq_ok.mp hok
  exact h a middle b run' hlast

theorem ite {p : Prop} [Decidable p] {yes no : Recover α} (hyes : Answers yes P)
    (hno : Answers no P) : Answers (if p then yes else no) P := by
  split
  · exact hyes
  · exact hno

theorem mono {read : Recover α} {P' : α → Prop} (h : Answers read P) (hP : ∀ a, P a → P' a) :
    Answers read P' :=
  fun run a run' hok => hP a (h run a run' hok)

end Answers

/-- A step over the items of a file ends the loop or adds one. -/
theorem Recover.answers_itemStep {deep : Nested} (done : List (Located Item)) :
    Answers (itemStep deep done) fun next =>
      next = .done done ∨ ∃ one, next = .yield (done ++ [one]) := by
  refine .bind fun run => .bind fun stopped => .ite (.pure (.inl rfl)) ?_
  split
  · exact .pure (.inl rfl)
  · refine .bind fun result => ?_
    cases result with
    | ok one => exact .bind fun span => .pure (.inr ⟨_, rfl⟩)
    | error e => exact .bind fun _ => .bind fun _ => .bind fun span => .pure (.inr ⟨_, rfl⟩)

/-- One round of a loop. -/
theorem iterateUpTo_succ {step : α → Recover (ForInStep α)} {bound : Nat} {a : α} {run run' : Run}
    {next : ForInStep α} (h : step a run = .ok next run') :
    iterateUpTo step (bound + 1) a run = goOn step bound next run' := by
  rw [iterateUpTo_eq_bind]
  rw [bind_of_ok h]

/-- A loop that collects items: it stops at a halted log, and every step adds to what it has, but
little if the first of two runs is cut in that step. -/
structure Collects (step : List α → Recover (ForInStep (List α))) (short : List α → List α) :
    Prop where
  regular : ∀ done, Regular (step done)
  total : ∀ done, Recover.Total (step done)
  halted : ∀ done run, run.log.halted = true → step done run = .ok (.done done) run
  adds : ∀ done, Answers (step done) fun next => done <+: next.value
  cut : ∀ done run run' next last, Run.SameButCap run run' → step done run = .ok next last →
    ¬InStep (step done run) (step done run') → short next.value <+: done

namespace Collects

variable {step : List α → Recover (ForInStep (List α))} {short : List α → List α}

/-- What is collected begins with what was there. -/
theorem prefix_of_iterate
    (h : Collects step short) {bound : Nat} {done items : List α} {run run' : Run}
    (hok : iterateUpTo step bound done run = .ok items run') : done <+: items := by
  induction bound generalizing done run with
  | zero =>
      cases hok
      exact List.prefix_refl _
  | succ bound ih =>
      obtain ⟨next, middle, hstep⟩ := (h.total done).total run
      have hadds := h.adds done run next middle hstep
      rw [iterateUpTo_succ hstep] at hok
      cases next with
      | done a =>
          cases hok
          exact hadds
      | yield a => exact hadds.trans (ih hok)

/-- A halted loop adds nothing. -/
theorem iterate_halted (h : Collects step short) (bound : Nat) (done : List α) {run : Run}
    (hhalted : run.log.halted = true) : iterateUpTo step bound done run = .ok done run := by
  cases bound with
  | zero => rfl
  | succ bound =>
      rw [iterateUpTo_succ (h.halted done run hhalted)]
      rfl

/-- The items of two runs: the same, or nearly a beginning if the first run is cut. -/
theorem marches (h : Collects step short) (bound : Nat) (done : List α) {run run' : Run}
    (hsame : run.SameButCap run') :
    InStep (iterateUpTo step bound done run) (iterateUpTo step bound done run') ∨
      ∃ items last items' last', iterateUpTo step bound done run = .ok items last ∧
        iterateUpTo step bound done run' = .ok items' last' ∧ last.log.Cut last'.log ∧
        short items <+: items' := by
  induction bound generalizing done run run' with
  | zero => exact .inl (.ok done hsame)
  | succ bound ih =>
      obtain ⟨next, middle, hstep⟩ := (h.total done).total run
      obtain ⟨next', middle', hstep'⟩ := (h.total done).total run'
      rw [iterateUpTo_succ hstep, iterateUpTo_succ hstep']
      by_cases hin : InStep (step done run) (step done run')
      · -- The step is the same in both runs, and so is the rest of the loop.
        rw [hstep, hstep'] at hin
        cases hin with
        | ok _ hmiddle =>
            cases next with
            | done a => exact .inl (.ok a hmiddle)
            | yield a => exact ih a hmiddle
      · -- The first run is cut: it goes on with what this step gave, and no further.
        have hcut : middle.log.Cut middle'.log := by
          have hmarches := (h.regular done).marches run run' hsame
          rw [hstep, hstep'] at hmarches
          exact hmarches.resolve_left (by rwa [← hstep, ← hstep'])
        have hshort := h.cut done run run' next middle hsame hstep hin
        have hadds := h.adds done run' next' middle' hstep'
        have hfirst : goOn step bound next middle = .ok next.value middle := by
          cases next with
          | done a => rfl
          | yield a => exact h.iterate_halted bound a hcut.halted
        have hsecond : ∃ items' last', goOn step bound next' middle' = .ok items' last' ∧
            done <+: items' ∧ middle'.log.Extended last'.log := by
          cases next' with
          | done a => exact ⟨a, middle', rfl, hadds, .refl _⟩
          | yield a =>
              have hloop := Recover.Total.iterateUpTo h.total bound a
              obtain ⟨items', last', hok⟩ := hloop.total middle'
              have hregular : ∀ done, Regular (step done) := h.regular
              have hlog := (Regular.instIterateUpTo step bound a).extended middle'
              rw [hok] at hlog
              exact ⟨items', last', hok, hadds.trans (h.prefix_of_iterate hok), hlog⟩
        obtain ⟨items', last', hsecond, hprefix, hlog⟩ := hsecond
        exact .inr ⟨_, _, _, _, hfirst, hsecond, hcut.extended (.refl _) hlog, hshort.trans hprefix⟩

end Collects

namespace Recover

/-- A step over the directives of a file. -/
theorem includeStep_eq (done : List (Located String)) (run : Run) :
    includeStep done run =
      if (!run.cursor.isAt .kwInclude || run.log.halted) = true then .ok (.done done) run
      else
        match includeDirective run.cursor with
        | .ok file c => .ok (.yield (done ++ [file])) { run with cursor := c }
        | .error e c => (do
            report e
            skipDeclaration .file run.cursor.rest.length
            return .yield done : Recover _) { run with cursor := c } := by
  change (if (!run.cursor.isAt .kwInclude || run.log.halted) = true then
    pure (ForInStep.done done) else _ : Recover _) run = _
  split
  · rfl
  · change EStateM.bind (Recover.attempt (monadLift includeDirective)) _ run = _
    rw [EStateM.bind, Recover.attempt, lift_run]
    cases includeDirective run.cursor <;> rfl

/-- The items of a file: after a cut the first run adds at most the item that it was reading. -/
theorem collects_itemStep (deep : Nested) [deep.Advances] :
    Collects (itemStep deep) List.dropLast where
  regular done := inferInstance
  total done := by
    refine .after fun run => .after fun stopped => .choose inferInstance ?_
    split
    · infer_instance
    · refine .after fun result => ?_
      cases result <;> infer_instance
  halted done run hhalted := by
    change (if run.log.halted = true then pure (ForInStep.done done) else _ : Recover _) run = _
    rw [if_pos hhalted]
    rfl
  adds done := (answers_itemStep done).mono fun next => by
    rintro (rfl | ⟨one, rfl⟩)
    · exact List.prefix_refl _
    · exact List.prefix_append _ _
  cut done run run' next last _ hok _ := by
    rcases answers_itemStep done run next last hok with rfl | ⟨one, rfl⟩
    · exact List.dropLast_prefix _
    · simp [ForInStep.value]

/-- The directives of a file: a directive that is read is reported nowhere, so the step in which the
first run is cut adds nothing. -/
theorem collects_includeStep : Collects includeStep id where
  regular done := inferInstance
  total done := by
    refine .after fun run => .after fun stopped => .choose inferInstance ?_
    refine .after fun result => ?_
    cases result <;> infer_instance
  halted done run hhalted := by
    rw [includeStep_eq, if_pos (by simp [hhalted])]
  adds done := by
    refine .bind fun run => .bind fun stopped => .ite (.pure (List.prefix_refl _)) ?_
    refine .bind fun result => ?_
    cases result with
    | ok file => exact .pure (List.prefix_append _ _)
    | error e => exact .bind fun _ => .bind fun _ => .pure (List.prefix_refl _)
  cut done run run' next last hsame hok hnot := by
    obtain ⟨c, log⟩ := run
    obtain ⟨_, log'⟩ := run'
    obtain ⟨rfl, hlog⟩ := hsame
    have hhalted : log'.halted = log.halted := hlog.halted
    simp only [includeStep_eq, hhalted] at hok hnot
    split at hok
    · cases hok
      exact List.prefix_refl _
    · rename_i hgoes
      rw [if_neg hgoes, if_neg hgoes] at hnot
      -- without a report, both runs would be in step
      cases hread : includeDirective c with
      | ok file c' =>
          rw [hread] at hnot
          exact absurd (.ok _ ⟨rfl, hlog⟩) hnot
      | error e c' =>
          rw [hread] at hok
          have hanswer : Answers (do
              report e
              skipDeclaration .file c.rest.length
              return ForInStep.yield done : Recover _) fun next => next = .yield done :=
            .bind fun _ => .bind fun _ => .pure rfl
          rw [hanswer _ _ _ hok]
          exact List.prefix_refl _

/-- What two runs read of a file. -/
theorem marches_program (deep : Nested) [deep.Advances] {run run' : Run}
    (hsame : run.SameButCap run') :
    InStep (program deep run) (program deep run') ∨
      ∃ first last second last', program deep run = .ok first last ∧
        program deep run' = .ok second last' ∧ last.log.Cut last'.log ∧
        first.includes <+: second.includes ∧ first.items.dropLast <+: second.items := by
  have hprogram : ∀ {run middle last : Run} {files : List (Located String)}
      {found : List (Located Item)}, includes run = .ok files middle →
      items deep middle = .ok found last → program deep run = .ok ⟨files, found⟩ last := by
    intro run middle last files found hfiles hfound
    change (includes >>= _) run = _
    rw [bind_of_ok hfiles]
    rw [bind_of_ok hfound]
    rfl
  have hbound : run'.cursor.rest.length = run.cursor.rest.length := by rw [hsame.cursor]
  -- the directives first, since the items are read behind them
  have hincludes := collects_includeStep.marches (run.cursor.rest.length + 1) [] hsame
  obtain ⟨files, middle, hfiles⟩ := Total.includes.total run
  obtain ⟨files', middle', hfiles'⟩ := Total.includes.total run'
  obtain ⟨found, last, hfound⟩ := (Total.items deep).total middle
  obtain ⟨found', last', hfound'⟩ := (Total.items deep).total middle'
  rw [hprogram hfiles hfound, hprogram hfiles' hfound']
  change iterateUpTo includeStep _ [] run = _ at hfiles
  change iterateUpTo includeStep _ [] run' = _ at hfiles'
  rw [hbound] at hfiles'
  rw [hfiles, hfiles'] at hincludes
  rcases hincludes with hstep | ⟨_, _, _, _, hok, hok', hcut, hshort⟩
  · -- The directives are the same, so what matters is the items.
    cases hstep with
    | ok _ hmiddle =>
        have hbound' : middle'.cursor.rest.length = middle.cursor.rest.length := by
          rw [hmiddle.cursor]
        have hitems := (collects_itemStep deep).marches (middle.cursor.rest.length + 1) [] hmiddle
        change iterateUpTo (itemStep deep) _ [] middle = _ at hfound
        change iterateUpTo (itemStep deep) _ [] middle' = _ at hfound'
        rw [hbound'] at hfound'
        rw [hfound, hfound'] at hitems
        rcases hitems with hstep | ⟨_, _, _, _, hok, hok', hcut, hshort⟩
        · cases hstep with
          | ok _ hlast => exact .inl (.ok _ hlast)
        · cases hok
          cases hok'
          exact .inr ⟨_, _, _, _, rfl, rfl, hcut, List.prefix_refl _, hshort⟩
  · -- The first run was cut at a directive and reads no items.
    cases hok
    cases hok'
    have hnone : items deep middle = .ok [] middle :=
      (collects_itemStep deep).iterate_halted _ [] hcut.halted
    cases hnone.symm.trans hfound
    have hlog := (@regular_items deep _).extended middle'
    rw [hfound'] at hlog
    exact .inr ⟨_, _, _, _, rfl, rfl, hcut.extended (.refl _) hlog, hshort, List.nil_prefix⟩

end Recover

/-- The error cap only cuts.  With a lower cap the diagnostics are the same, and the program too,
unless they end with the remark that there were too many.  Then they are, but for this remark, a
beginning of those with the higher cap, and so are the directives and, except perhaps the last one,
the items. -/
theorem error_cap_only_cuts (text : String) (low high : ParseOptions)
    (h : low.maxErrors ≤ high.maxErrors) :
    ((parse text low).diagnostics.getLast?.map Diagnostic.message ≠
        some "too many errors; stopping" →
      (parse text high).program = (parse text low).program ∧
        (parse text high).diagnostics = (parse text low).diagnostics) ∧
      ((parse text low).diagnostics.getLast?.map Diagnostic.message =
          some "too many errors; stopping" →
        (parse text low).diagnostics.dropLast <+: (parse text high).diagnostics ∧
          (parse text low).program.includes <+: (parse text high).program.includes ∧
          (parse text low).program.items.dropLast <+: (parse text high).program.items) := by
  obtain ⟨first, last, hfirst, hprogram, hdiagnostics⟩ := parse_eq_run text low
  obtain ⟨second, last', hsecond, hprogram', hdiagnostics'⟩ := parse_eq_run text high
  rw [hprogram, hdiagnostics, hprogram', hdiagnostics']
  have hsame : (Run.reading text low).SameButCap (.reading text high) :=
    ⟨rfl, rfl, rfl, rfl, by simp only [Run.reading, Run.withCap]; omega⟩
  rcases Recover.marches_program (.upTo maxNesting) hsame with hstep | hcut
  · rw [hfirst, hsecond] at hstep
    cases hstep with
    | ok _ hrun =>
        rw [hrun.log.entries]
        exact ⟨fun _ => ⟨rfl, rfl⟩, fun _ => ⟨List.dropLast_prefix _, List.prefix_refl _,
          List.dropLast_prefix _⟩⟩
  · obtain ⟨_, _, _, _, hread, hread', hcut, hincludes, hitems⟩ := hcut
    cases hfirst.symm.trans hread
    cases hsecond.symm.trans hread'
    obtain ⟨before, span, hentries, hbefore⟩ := hcut.entries
    rw [hentries, List.getLast?_concat, List.dropLast_concat]
    exact ⟨fun hnot => absurd rfl hnot, fun _ => ⟨hbefore, hincludes, hitems⟩⟩

/-- Three broken nodes, of which a cap of two keeps the first. -/
theorem error_cap_cuts_third :
    (parse "node 1; node 2; node 3;" ⟨2, true⟩).diagnostics.length = 3 ∧
      (parse "node 1; node 2; node 3;" ⟨3, true⟩).diagnostics.length = 4 ∧
      (parse "node 1; node 2; node 3;" ⟨2, true⟩).diagnostics.dropLast <+:
        (parse "node 1; node 2; node 3;" ⟨3, true⟩).diagnostics ∧
      (parse "node 1; node 2; node 3;" ⟨2, true⟩).program.items.dropLast <+:
        (parse "node 1; node 2; node 3;" ⟨3, true⟩).program.items := by
  have hcut := (error_cap_only_cuts "node 1; node 2; node 3;" ⟨2, true⟩ ⟨3, true⟩ (by decide)).2
    (by decide +kernel)
  exact ⟨by decide +kernel, by decide +kernel, hcut.1, hcut.2.2⟩

end Lustre
