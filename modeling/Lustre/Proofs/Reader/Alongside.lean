import Lustre.Proofs.Reader.Carries
import Lustre.Proofs.Reader.Headway

/-!
# The same run in another text

Runs beside each other stand at cursors beside each other, and their logs have got the
same diagnostics since the runs began.  If the tokens of the first run are all there
is, this includes broken texts: recovery skips the same tokens, and the limits of the
logs are met together, since they count entries and ask for the end of the tokens.

With more tokens behind, a report ends the comparison, for the end of the tokens is
where most things go wrong.  What is claimed then is claimed of runs that end without a
report.  A failure that is kept as a value has to be ruled out as well, and so has a list
that ends only because no token is left: the answer of the first run must be `sound`.
That an answer on the way was sound is seen from what follows (`Cleanly`).
-/

namespace Lustre

open Movable

variable {α β γ δ : Type}

/-- A context, and the logs with which the two runs begin. -/
structure RunContext extends Context where
  first : Log
  second : Log
  agree : later = [] → second.entries.length = first.entries.length ∧ second.cap = first.cap ∧
    second.truncated = first.truncated

namespace RunContext

/-- The tokens of the first run are all there is, and the two logs meet their limits together. -/
def alone (place : Nat → Nat) (mono : ∀ a b, a ≤ b → place a ≤ place b) (first second : Log)
    (hlength : second.entries.length = first.entries.length) (hcap : second.cap = first.cap)
    (htruncated : second.truncated = first.truncated) : RunContext where
  place := place
  later := []
  mono := mono
  opens := nofun
  first := first
  second := second
  agree _ := ⟨hlength, hcap, htruncated⟩

variable (M : RunContext)

/-- Both logs have got the same since the runs began. -/
def Noted (log log' : Log) : Prop :=
  ∃ found stopped, log = { M.first with entries := M.first.entries ++ found, halted := stopped } ∧
    log' = { M.second with
      entries := M.second.entries ++ move M.place found, halted := stopped } ∧
    (M.later ≠ [] → stopped = false)

/-- The runs stand at the same place and have reported the same. -/
structure BesideRun (run run' : Run) : Prop where
  cursor : M.Beside run.cursor run'.cursor
  log : M.Noted run.log run'.log

/-- Runs as the states of two readings.  A failure at a token is no more than any other. -/
def runs : Link Run := ⟨M.place, M.BesideRun, M.later = [], fun _ => False⟩

/-- From two runs, the second reader answers what the first answers, as far as `R` tells, if the
answer is sound and nothing was reported. -/
abbrev Runs (sound : α → Cursor → Prop) (R : α → β → Prop) (read : Recover α) (read' : Recover β)
    (run run' : Run) : Prop :=
  M.runs.Alike (fun a last => last.log.entries = [] ∧ sound a last.cursor) R read read' run run'

/-- From any two runs beside each other, a reader answers the same, moved to its place in the other
text. -/
def Follows [Movable α] (sound : α → Cursor → Prop) (read : Recover α) : Prop :=
  ∀ run run', M.BesideRun run run' → M.Runs sound M.Moved read read run run'

/-- Two answers of readers whose failures are caught. -/
inductive CaughtAlike (R : α → β → Prop) : Except Diagnostic α → Except Diagnostic β → Prop
  | ok {a : α} {a' : β} (h : R a a') : CaughtAlike R (.ok a) (.ok a')
  | error (hlater : M.later = []) (e : Diagnostic) : CaughtAlike R (.error e)
      (.error (move M.place e))

variable {M}

/-! ## Two logs -/

theorem Noted.start (hfirst : M.first.halted = false) (hsecond : M.second.halted = false) :
    M.Noted M.first M.second := by
  refine ⟨[], false, ?_, ?_, fun _ => rfl⟩
  · rw [List.append_nil, ← hfirst]
  · rw [← hsecond]
    change M.second = { M.second with entries := M.second.entries ++ [] }
    rw [List.append_nil]

theorem Noted.halted {log log' : Log} (h : M.Noted log log') : log'.halted = log.halted := by
  obtain ⟨found, stopped, rfl, rfl, -⟩ := h
  rfl

theorem Noted.running {log log' : Log} (h : M.Noted log log') (hlater : M.later ≠ []) :
    log.halted = false := by
  obtain ⟨found, stopped, rfl, rfl, hstopped⟩ := h
  exact hstopped hlater

/-- A report meets a limit in both logs or in none. -/
theorem Noted.record {log log' : Log} (h : M.Noted log log') (hlater : M.later = []) {c c' : Cursor}
    (hc : M.Beside c c') (d : Diagnostic) :
    M.Noted (log.record c d) (log'.record c' (move M.place d)) := by
  obtain ⟨found, stopped, rfl, rfl, hstopped⟩ := h
  obtain ⟨hlength, hcap, htruncated⟩ := M.agree hlater
  have hend : c'.atEnd = c.atEnd := by
    rw [Cursor.atEnd, hc.rest, hlater, List.append_nil, isEmpty_move]
    rfl
  have hspan := hc.span (.inr hlater)
  -- whatever the first log takes up, the second takes up in the other place
  have hnotes : ∀ more stopped, M.Noted
      ⟨(M.first.entries ++ found) ++ more, M.first.cap, M.first.truncated, stopped⟩
      ⟨(M.second.entries ++ move M.place found) ++ move M.place more,
        M.first.cap, M.first.truncated, stopped⟩ := by
    intro more stopped
    refine ⟨found ++ more, stopped, ?_, ?_, fun hnot => absurd hlater hnot⟩
    · rw [List.append_assoc]
    · rw [List.append_assoc, ← move_append, ← hcap, ← htruncated]
  have hcount : (M.second.entries ++ move M.place found ++ [move M.place d]).length =
      (M.first.entries ++ found ++ [d]).length := by
    simp [hlength]
  -- both logs have the same length and the same cap, so they decide alike
  unfold Log.record
  dsimp only
  rw [hend, hcap, htruncated, hcount, hspan]
  split
  · simpa using hnotes [] stopped
  · split
    · exact hnotes [_] true
    · split
      · rw [List.append_assoc _ [d], List.append_assoc _ [move M.place d]]
        exact hnotes [d, _] true
      · rename_i hrunning _ _
        rw [Bool.not_eq_true] at hrunning
        rw [hrunning]
        exact hnotes [d] false

/-! ## Rules -/

namespace Runs

variable {run run' : Run} {sound : α → Cursor → Prop} {last : γ → Cursor → Prop}
  {R : α → β → Prop} {S : γ → δ → Prop}

theorem pure {a : α} {a' : β} (hrun : M.BesideRun run run') (h : R a a') :
    M.Runs sound R (Pure.pure a) (Pure.pure a') run run' :=
  Link.Alike.pure hrun h

theorem throw {d d' : Diagnostic} (hrun : M.BesideRun run run')
    (h : M.later = [] → d' = move M.place d) :
    M.Runs sound R (MonadExcept.throw d) (MonadExcept.throw d') run run' :=
  Link.Alike.throw hrun fun hclaimed => h (hclaimed.resolve_right id)

/-- What comes before a run without a report and with a sound answer was not reported either. -/
theorem quiet {next : α → Recover γ} [hnext : ∀ a, Regular (next a)] {read : Recover α}
    [hread : Regular read] (hrun : M.BesideRun run run') (hlater : M.later ≠ []) {a : α} {b : γ}
    {run₁ run₂ : Run} (hfirst : read run = .ok a run₁) (hsecond : next a run₁ = .ok b run₂)
    (hempty : run₂.log.entries = []) : run₁.log.entries = [] ∧ run₁.log.halted = false := by
  have hlog := (hnext a).extended run₁
  have hlog₁ := hread.extended run
  rw [hsecond] at hlog
  rw [hfirst] at hlog₁
  have hnone := hlog.entries_eq_nil hempty
  refine ⟨hnone, ?_⟩
  have hsame : run₁.log = run.log := hlog₁.kept hnone
  rw [hsame]
  exact hrun.log.running hlater

/-- What follows is alike, and shows that the first answer was sound. -/
theorem bind {read : Recover α} {read' : Recover β} {next : α → Recover γ} {next' : β → Recover δ}
    [Regular read] [∀ a, Regular (next a)] (hrun : M.BesideRun run run')
    (h : M.Runs sound R read read' run run')
    (hsound : ∀ a run₁, Cleanly (next a) run₁ fun b c => last b c → sound a run₁.cursor)
    (hnext : ∀ a a' run₁ run₁', R a a' → M.BesideRun run₁ run₁' →
      M.Runs last S (next a) (next' a') run₁ run₁') :
    M.Runs last S (read >>= next) (read' >>= next') run run' := by
  refine Link.Alike.bind h (fun a a' run₁ run₁' _ ha hrun₁ => hnext a a' run₁ run₁' ha hrun₁) ?_
    fun _ _ _ _ _ _ _ => False.elim
  rintro hlater a run₁ b run₂ hfirst hsecond ⟨hempty, hlast⟩
  obtain ⟨hnone, hhalted⟩ := quiet hrun hlater hfirst hsecond hempty
  exact ⟨hnone, hsound a run₁ hhalted b run₂ hsecond hempty hlast⟩

/-- In a text without more tokens nothing has to be shown sound. -/
theorem strictly {read : Recover α} {read' : Recover β} {next : α → Recover γ}
    {next' : β → Recover δ}
    (hlater : M.later = []) (h : M.Runs sound R read read' run run')
    (hnext : ∀ a a' run₁ run₁', R a a' → M.BesideRun run₁ run₁' →
      M.Runs last S (next a) (next' a') run₁ run₁') :
    M.Runs last S (read >>= next) (read' >>= next') run run' :=
  Link.Alike.bind h (fun a a' run₁ run₁' _ ha hrun₁ => hnext a a' run₁ run₁' ha hrun₁)
    (fun hnot => absurd hlater hnot) fun hnot => absurd hlater hnot

/-- What follows a part of recovery. -/
theorem skipped {read : Recover Unit} {next : Unit → Recover γ} {next' : Unit → Recover δ}
    (hlater : M.later = []) (h : M.Follows (fun _ _ => True) read) (hrun : M.BesideRun run run')
    (hnext : ∀ run₁ run₁', M.BesideRun run₁ run₁' → M.Runs last S (next ()) (next' ()) run₁ run₁') :
    M.Runs last S (read >>= next) (read >>= next') run run' :=
  strictly hlater (h run run' hrun) fun _ _ run₁ run₁' _ hrun₁ => hnext run₁ run₁' hrun₁

theorem get {next : Run → Recover γ} {next' : Run → Recover δ}
    (h : M.Runs last S (next run) (next' run') run run') :
    M.Runs last S (MonadState.get >>= next) (MonadState.get >>= next') run run' :=
  h

/-- A reader that reports nothing leaves the logs alone. -/
theorem lifted {good : α → Cursor → Prop} {read : Read α} {read' : Read β}
    (hrun : M.BesideRun run run')
    (h : M.cursors.Alike good R read read' run.cursor run'.cursor) :
    M.runs.Alike (fun a last => good a last.cursor) R (monadLift read : Recover α)
      (monadLift read' : Recover β) run run' := by
  unfold Link.Alike at h ⊢
  rw [Recover.lift_run, Recover.lift_run]
  cases hread : read run.cursor with
  | ok a c =>
      rw [hread] at h
      intro hclaimed
      obtain ⟨a', c', hread', ha, hc⟩ := h hclaimed
      rw [hread']
      exact ⟨a', ⟨c', run'.log⟩, rfl, ha, hc, hrun.log⟩
  | error e c =>
      rw [hread] at h
      intro hclaimed
      obtain ⟨c', hread', hc⟩ := h (.inl (hclaimed.resolve_right id))
      rw [hread']
      exact ⟨⟨c', run'.log⟩, rfl, hc, hrun.log⟩

theorem lift {read : Read α} {read' : Read β} (hrun : M.BesideRun run run')
    (h : M.cursors.Alike sound R read read' run.cursor run'.cursor) :
    M.Runs sound R (monadLift read : Recover α) (monadLift read' : Recover β) run run' :=
  (lifted hrun h).mono (fun _ _ hgood => hgood.2) fun _ _ h => h

/-- What follows a reader that reports nothing. -/
theorem read {read : Read α} {read' : Read β} {next : α → Recover γ} {next' : β → Recover δ}
    (hrun : M.BesideRun run run') (h : M.Reads R read read' run.cursor run'.cursor)
    (hnext : ∀ a a' run₁ run₁', R a a' → M.BesideRun run₁ run₁' →
      M.Runs last S (next a) (next' a') run₁ run₁') :
    M.Runs last S ((monadLift read : Recover α) >>= next) ((monadLift read' : Recover β) >>= next')
      run run' :=
  Link.Alike.bind (lifted hrun h) (fun a a' run₁ run₁' _ => hnext a a' run₁ run₁')
    (fun _ _ _ _ _ _ _ _ => trivial) fun _ _ _ _ _ _ _ => False.elim

/-- What follows a reader that carries over. -/
theorem carried [Movable α] {read : Read α} {next : α → Recover γ} {next' : α → Recover δ}
    (h : M.Carries read read) (hrun : M.BesideRun run run')
    (hnext : ∀ a run₁ run₁', M.BesideRun run₁ run₁' →
      M.Runs last S (next a) (next' (move M.place a)) run₁ run₁') :
    M.Runs last S ((monadLift read : Recover α) >>= next) ((monadLift read : Recover α) >>= next')
      run run' :=
  .read hrun (h _ _ hrun.cursor) fun a a' run₁ run₁' ha hrun₁ => by
    cases ha
    exact hnext a run₁ run₁' hrun₁

/-- Two steps that are known to succeed. -/
theorem after {read : Recover α} {read' : Recover β} {next : α → Recover γ} {next' : β → Recover δ}
    {a : α} {a' : β} {run₁ run₁' : Run} (h : read run = .ok a run₁) (h' : read' run' = .ok a' run₁')
    (hnext : M.Runs last S (next a) (next' a') run₁ run₁') :
    M.Runs last S (read >>= next) (read' >>= next') run run' := by
  unfold Runs Link.Alike at *
  rwa [bind_of_ok h, bind_of_ok h']

theorem halted {next : Bool → Recover γ} {next' : Bool → Recover δ} (hrun : M.BesideRun run run')
    (h : ∀ stopped, M.Runs last S (next stopped) (next' stopped) run run') :
    M.Runs last S (Recover.halted >>= next) (Recover.halted >>= next') run run' := by
  change M.Runs last S (next run.log.halted) (next' run'.log.halted) run run'
  rw [hrun.log.halted]
  exact h _

theorem advance {next : Unit → Recover γ} {next' : Unit → Recover δ} (hrun : M.BesideRun run run')
    (haligned : M.Aligned run.cursor)
    (h : ∀ run₁ run₁', M.BesideRun run₁ run₁' → M.Runs last S (next ()) (next' ()) run₁ run₁') :
    M.Runs last S ((monadLift Read.advance : Recover Unit) >>= next)
      ((monadLift Read.advance : Recover Unit) >>= next') run run' :=
  h ⟨run.cursor.pass, run.log⟩ ⟨run'.cursor.pass, run'.log⟩ ⟨hrun.cursor.pass haligned, hrun.log⟩

theorem spanFrom {start : Nat} {next : Span → Recover γ} {next' : Span → Recover δ}
    (hrun : M.BesideRun run run')
    (h : ∀ span, M.Runs last S (next span) (next' (move M.place span)) run run') :
    M.Runs last S ((monadLift (Read.spanFrom start) : Recover Span) >>= next)
      ((monadLift (Read.spanFrom (M.place start)) : Recover Span) >>= next') run run' := by
  change M.Runs last S (next (run.cursor.spanFrom start))
    (next' (run'.cursor.spanFrom (M.place start)))
    run run'
  rw [hrun.cursor.spanFrom]
  exact h _

theorem peek {next : Option Kind → Recover γ} {next' : Option Kind → Recover δ}
    (hrun : M.BesideRun run run') (haligned : M.Aligned run.cursor)
    (h : M.Runs last S (next run.cursor.peek) (next' run.cursor.peek) run run') :
    M.Runs last S ((monadLift Read.peek : Recover (Option Kind)) >>= next)
      ((monadLift Read.peek : Recover (Option Kind)) >>= next') run run' := by
  change M.Runs last S (next run.cursor.peek) (next' run'.cursor.peek) run run'
  rw [hrun.cursor.peek haligned]
  exact h

theorem ifAt {kind : Kind} {yes no : Recover γ} {yes' no' : Recover δ} (hrun : M.BesideRun run run')
    (hkind : kind ∉ itemHeads)
    (hyes : run.cursor.peek = some kind → M.Runs last S yes yes' run run')
    (hno : M.Runs last S no no' run run') :
    M.Runs last S ((monadLift (Read.isAt kind) : Recover Bool) >>= fun found =>
        if found = true then yes else no)
      ((monadLift (Read.isAt kind) : Recover Bool) >>= fun found =>
        if found = true then yes' else no') run run' := by
  change M.Runs last S (if run.cursor.isAt kind = true then yes else no)
    (if run'.cursor.isAt kind = true then yes' else no') run run'
  rw [hrun.cursor.isAt hkind]
  split
  · rename_i hat
    exact hyes (beq_iff_eq.mp hat)
  · exact hno

theorem eat {kind : Kind} {next : Bool → Recover γ} {next' : Bool → Recover δ}
    (hrun : M.BesideRun run run') (hkind : kind ∉ itemHeads)
    (hyes : ∀ run₁ run₁', M.BesideRun run₁ run₁' →
      M.Runs last S (next true) (next' true) run₁ run₁')
    (hno : run.cursor.peek ≠ some kind → M.Runs last S (next false) (next' false) run run') :
    M.Runs last S ((monadLift (Read.eat kind) : Recover Bool) >>= next)
      ((monadLift (Read.eat kind) : Recover Bool) >>= next') run run' := by
  have hiff := hrun.cursor.peek_iff hkind
  by_cases hpeek : run.cursor.peek = some kind
  · have hpass : M.BesideRun ⟨run.cursor.pass, run.log⟩ ⟨run'.cursor.pass, run'.log⟩ :=
      ⟨hrun.cursor.pass (Context.aligned_of_peek hpeek), hrun.log⟩
    exact after (by rw [Recover.lift_run, Read.eat_of_peek hpeek])
      (by rw [Recover.lift_run, Read.eat_of_peek (hiff.mpr hpeek)]) (hyes _ _ hpass)
  · exact after (by rw [Recover.lift_run, Read.eat_of_ne hpeek])
      (by rw [Recover.lift_run, Read.eat_of_ne fun h => hpeek (hiff.mp h)]) (hno hpeek)

theorem ifEat {kind : Kind} {yes no : Recover γ} {yes' no' : Recover δ}
    (hrun : M.BesideRun run run') (hkind : kind ∉ itemHeads)
    (hyes : ∀ run₁ run₁', M.BesideRun run₁ run₁' → M.Runs last S yes yes' run₁ run₁')
    (hno : run.cursor.peek ≠ some kind → M.Runs last S no no' run run') :
    M.Runs last S ((monadLift (Read.eat kind) : Recover Bool) >>= fun found =>
        if found = true then yes else no)
      ((monadLift (Read.eat kind) : Recover Bool) >>= fun found =>
        if found = true then yes' else no') run run' :=
  eat hrun hkind (fun run₁ run₁' hrun₁ => by simpa using hyes run₁ run₁' hrun₁) fun hpeek => by
    simpa using hno hpeek

theorem expect {kind : Kind} {next : Span → Recover γ} {next' : Span → Recover δ}
    (hrun : M.BesideRun run run')
    (h : ∀ span run₁ run₁', M.BesideRun run₁ run₁' →
      M.Runs last S (next span) (next' (move M.place span)) run₁ run₁') :
    M.Runs last S ((monadLift (Read.expect kind) : Recover Span) >>= next)
      ((monadLift (Read.expect kind) : Recover Span) >>= next') run run' :=
  carried (Context.carries_expect kind) hrun h

/-- With more tokens behind, nothing is claimed of an answer that is not sound. -/
theorem unsound {read : Recover α} {read' : Recover β} (hrun : M.BesideRun run run')
    (hlater : M.later ≠ []) (h : Cleanly read run fun a c => ¬sound a c) :
    M.Runs sound R read read' run run' := by
  have hrunning := hrun.log.running hlater
  unfold Runs Link.Alike
  split
  · rename_i a last hok
    rintro (hstrict | ⟨hempty, hsound⟩)
    · exact absurd hstrict hlater
    · exact absurd hsound (h hrunning a last hok hempty)
  · exact fun hclaimed => absurd (hclaimed.resolve_right id) hlater

/-- A reader whose answer at the end is not sound needs a look only where both see the same. -/
theorem aligned {read : Recover α} {read' : Recover β} (hrun : M.BesideRun run run')
    (hend : run.cursor.rest = [] → Cleanly read run fun a c => ¬sound a c)
    (h : M.Aligned run.cursor → M.Runs sound R read read' run run') :
    M.Runs sound R read read' run run' := by
  by_cases haligned : M.Aligned run.cursor
  · exact h haligned
  · have hrest : run.cursor.rest = [] := Decidable.byContradiction fun hne => haligned (.inl hne)
    exact unsound hrun (fun hnil => haligned (.inr hnil)) (hend hrest)

/-- A failure that is caught is an answer, but no good one. -/
theorem attempted {good : α → Run → Prop} {read : Recover α} {read' : Recover β}
    (h : M.runs.Alike good R read read' run run') :
    M.runs.Alike (fun result last => ∃ a, result = .ok a ∧ good a last) (M.CaughtAlike R)
      (Recover.attempt read) (Recover.attempt read') run run' := by
  unfold Link.Alike at h ⊢
  unfold Recover.attempt
  cases hfirst : read run with
  | ok a run₁ =>
      rw [hfirst] at h
      rintro hclaimed
      have hgood : M.runs.strict ∨ good a run₁ := by
        refine hclaimed.imp id fun ⟨a', heq, ha'⟩ => ?_
        cases heq
        exact ha'
      obtain ⟨a', run₁', hsecond, ha, hrun₁⟩ := h hgood
      exact ⟨.ok a', run₁', by rw [hsecond], .ok ha, hrun₁⟩
  | error e run₁ =>
      rw [hfirst] at h
      rintro (hstrict | ⟨a', heq, _⟩)
      · obtain ⟨run₁', hsecond, hrun₁⟩ := h (.inl hstrict)
        exact ⟨.error _, run₁', by rw [hsecond]; rfl, .error hstrict e, hrun₁⟩
      · cases heq

/-- What follows a reader whose failure is caught: with more tokens behind, what follows the failure
is not sound. -/
theorem caught {read : Recover α} {read' : Recover β} {next : Except Diagnostic α → Recover γ}
    {next' : Except Diagnostic β → Recover δ} [hread : Regular read]
    [hregular : ∀ a, Regular (next (.ok a))] [hregularFail : ∀ e, Regular (next (.error e))]
    (hrun : M.BesideRun run run') (h : M.Runs sound R read read' run run')
    (hsound : ∀ a run₁, Cleanly (next (.ok a)) run₁ fun b c => last b c → sound a run₁.cursor)
    (hunsound : ∀ e run₁, Cleanly (next (.error e)) run₁ fun b c => ¬last b c)
    (hok : ∀ a a' run₁ run₁', R a a' → M.BesideRun run₁ run₁' →
      M.Runs last S (next (.ok a)) (next' (.ok a')) run₁ run₁')
    (hfail : M.later = [] → ∀ e run₁ run₁', M.BesideRun run₁ run₁' →
      M.Runs last S (next (.error e)) (next' (.error (move M.place e))) run₁ run₁') :
    M.Runs last S (Recover.attempt read >>= next) (Recover.attempt read' >>= next') run run' := by
  have hnext : ∀ result, Regular (next result) := by
    intro result
    cases result with
    | ok a => exact hregular a
    | error e => exact hregularFail e
  refine Link.Alike.bind (attempted h) (fun result result' run₁ run₁' _ hresult hrun₁ => ?_) ?_
    fun _ _ _ _ _ _ _ => False.elim
  · cases hresult with
    | ok ha => exact hok _ _ run₁ run₁' ha hrun₁
    | error hlater e => exact hfail hlater e run₁ run₁' hrun₁
  · rintro hlater result run₁ b run₂ hfirst hsecond ⟨hempty, hlast⟩
    obtain ⟨hnone, hhalted⟩ := quiet hrun hlater hfirst hsecond hempty
    cases result with
    | ok a => exact ⟨a, rfl, hnone, hsound a run₁ hhalted b run₂ hsecond hempty hlast⟩
    | error e => exact absurd hlast (hunsound e run₁ hhalted b run₂ hsecond hempty)

/-- The same for a reader that reports nothing. -/
theorem caughtRead [Movable α] {read : Read α} {next : Except Diagnostic α → Recover γ}
    {next' : Except Diagnostic α → Recover δ} (h : M.Carries read read)
    (hrun : M.BesideRun run run')
    (hunsound : ∀ e run₁, Cleanly (next (.error e)) run₁ fun b c => ¬last b c)
    (hok : ∀ a run₁ run₁', M.BesideRun run₁ run₁' →
      M.Runs last S (next (.ok a)) (next' (.ok (move M.place a))) run₁ run₁')
    (hfail : M.later = [] → ∀ e run₁ run₁', M.BesideRun run₁ run₁' →
      M.Runs last S (next (.error e)) (next' (.error (move M.place e))) run₁ run₁') :
    M.Runs last S (Recover.attempt (monadLift read) >>= next)
      (Recover.attempt (monadLift read) >>= next') run run' := by
  refine Link.Alike.bind (attempted (lifted hrun (h _ _ hrun.cursor)))
    (fun result result' run₁ run₁' _ hresult hrun₁ => ?_) ?_ fun _ _ _ _ _ _ _ => False.elim
  · cases hresult with
    | ok ha =>
        cases ha
        exact hok _ run₁ run₁' hrun₁
    | error hlater e => exact hfail hlater e run₁ run₁' hrun₁
  · rintro hlater result run₁ b run₂ hfirst hsecond ⟨hempty, hlast⟩
    have hlog : run₁.log = run.log := by
      rw [Recover.attempt, Recover.lift_run] at hfirst
      cases hread : read run.cursor <;> rw [hread] at hfirst <;> cases hfirst <;> rfl
    have hhalted : run₁.log.halted = false := by
      rw [hlog]
      exact hrun.log.running hlater
    cases result with
    | ok a => exact ⟨a, rfl, trivial⟩
    | error e => exact absurd hlast (hunsound e run₁ hhalted b run₂ hsecond hempty)

/-- With more tokens behind, a report ends the comparison. -/
theorem report {d d' : Diagnostic} {next : Unit → Recover γ} {next' : Unit → Recover δ}
    [hregular : Regular (next ())] (hrun : M.BesideRun run run')
    (hd : M.later = [] → d' = move M.place d)
    (h : M.later = [] → ∀ run₁ run₁', M.BesideRun run₁ run₁' →
      M.Runs last S (next ()) (next' ()) run₁ run₁') :
    M.Runs last S (Recover.report d >>= next) (Recover.report d' >>= next') run run' := by
  by_cases hlater : M.later = []
  · refine after rfl rfl (h hlater _ _ ⟨hrun.cursor, ?_⟩)
    rw [hd hlater]
    exact hrun.log.record hlater hrun.cursor d
  · exact unsound hrun hlater .report

theorem located [Movable α] {read : Recover α} [Regular read] (hrun : M.BesideRun run run')
    (haligned : M.Aligned run.cursor)
    (h : M.Runs (fun _ _ => True) M.Moved read read run run') :
    M.Runs (fun _ _ => True) M.Moved (Recover.located read) (Recover.located read) run run' := by
  have hstart : run'.cursor.span.start = M.place run.cursor.span.start := by
    rw [hrun.cursor.span haligned]
    rfl
  refine after rfl rfl ?_
  rw [hstart]
  refine bind hrun h (fun _ _ _ _ _ _ _ _ => trivial) fun a a' run₁ run₁' ha hrun₁ => ?_
  cases ha
  exact spanFrom hrun₁ fun span => .pure hrun₁ rfl

/-- Loops whose steps are alike are alike. -/
theorem iterate {step : α → Recover (ForInStep α)} {step' : β → Recover (ForInStep β)} {a : α}
    {a' : β} (hadvancing : Recover.Advancing step) [∀ a, Regular (step a)]
    (hrun : M.BesideRun run run') (ha : R a a')
    (hstep : ∀ a a' run run', R a a' → M.BesideRun run run' →
      M.Runs (Link.StepGood sound fun _ => True) (Link.StepAlike R) (step a) (step' a') run run') :
    M.Runs sound R (Recover.iterate a step) (Recover.iterate a' step') run run' := by
  have hlength := hrun.cursor.length_le
  refine Link.Alike.iterateUpTo (G := fun run => run.log.entries = []) Run.left hadvancing
    (fun a a' run run' ha hrun => ?_) (fun bound a run b last hok hgood => ?_)
    (fun _ _ _ _ _ _ => False.elim) _ _ hrun ha (Nat.lt_succ_self _) (Nat.lt_succ_of_le hlength)
  · refine (hstep a a' run run' ha hrun).mono (fun next last hgood => ?_) fun _ _ h => h
    cases next with
    | done b => exact hgood
    | yield b => exact ⟨hgood, trivial⟩
  · have hlog := (Regular.instIterateUpTo step bound a).extended run
    rw [hok] at hlog
    exact hlog.entries_eq_nil hgood.1

end Runs

end RunContext

end Lustre
