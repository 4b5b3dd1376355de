import Lustre.Proofs.Reader.Progress
import Lustre.Proofs.Reader.Signature
import Lustre.Reader.Program

/-!
# Reading without a report

A reader of declarations is put together from a few operations (`Regular`), and so
only ever adds to the log: if a whole run ends without a diagnostic, no reader on
the way has reported one.  `Cleanly` is `Meets` for such runs: what holds of the
answer if nothing was reported.  A failure that is caught is either reported, and
then nothing is claimed, or kept as the failure of a `Partial` answer.

That a reader is regular is found by instance search, along the way in which it is
put together.  What the operations keep is then shown once, by induction on
`Regular`, for all readers.
-/

namespace Lustre

variable {α β : Type}

/-! ## The log only grows -/

namespace Log

/-- A later state of a log: nothing was taken out of it, it is the same log as long as nothing is
put in, and it stays as it is once it is halted. -/
structure Extended (log log' : Log) : Prop where
  entries : log.entries <+: log'.entries
  unchanged : log'.entries = log.entries → log' = log
  frozen : log.halted = true → log' = log
  truncated : log'.truncated = log.truncated

namespace Extended

variable {log log₁ log₂ : Log}

theorem refl (log : Log) : log.Extended log := ⟨List.prefix_refl _, fun _ => rfl, fun _ => rfl, rfl⟩

/-- Nothing was in a log that ends empty. -/
theorem entries_eq_nil (h : log.Extended log₁) (hempty : log₁.entries = []) : log.entries = [] := by
  have hprefix := h.entries
  rw [hempty] at hprefix
  exact List.prefix_nil.mp hprefix

/-- A log that ends empty was never changed. -/
theorem kept (h : log.Extended log₁) (hempty : log₁.entries = []) : log₁ = log :=
  h.unchanged (hempty.trans (h.entries_eq_nil hempty).symm)

theorem trans (h₁ : log.Extended log₁) (h₂ : log₁.Extended log₂) : log.Extended log₂ where
  entries := h₁.entries.trans h₂.entries
  unchanged hsame := by
    have hshorter : log₁.entries <+: log.entries := hsame ▸ h₂.entries
    have hmiddle : log₁.entries = log.entries :=
      hshorter.eq_of_length_le h₁.entries.length_le
    obtain rfl := h₁.unchanged hmiddle
    exact h₂.unchanged hsame
  frozen hhalted := by
    obtain rfl := h₁.frozen hhalted
    exact h₂.frozen hhalted
  truncated := h₂.truncated.trans h₁.truncated

end Extended

theorem extended_record (log : Log) (c : Cursor) (d : Diagnostic) :
    log.Extended (log.record c d) := by
  unfold record
  split
  · exact .refl log
  · rename_i hhalted
    split
    · exact ⟨List.prefix_append _ _, fun h => absurd h (by simp), fun h => absurd h hhalted, rfl⟩
    · dsimp only
      split
      · exact ⟨by simp [List.append_assoc], fun h => absurd h (by simp), fun h =>
          absurd h hhalted, rfl⟩
      · exact ⟨List.prefix_append _ _, fun h => absurd h (by simp), fun h => absurd h hhalted, rfl⟩

/-- A log that does not halt has something in it once a diagnostic is recorded. -/
theorem record_ne_nil {log : Log} (h : log.halted = false) (c : Cursor) (d : Diagnostic) :
    (log.record c d).entries ≠ [] := by
  unfold record
  rw [if_neg (by simp [h])]
  split
  · simp
  · dsimp only
    split <;> simp

end Log

/-! ## Readers that leave the log to `report` -/

/-- A reader that reports nothing, in a run. -/
theorem Recover.lift_run (read : Read α) (run : Run) : (monadLift read : Recover α) run =
    match read run.cursor with
    | .ok a c => .ok a { run with cursor := c }
    | .error e c => .error e { run with cursor := c } :=
  rfl

namespace Recover

variable {α : Type} {run run' : Run} {e : Diagnostic}

theorem lift_ok {read : Read α} {a : α} {c : Cursor} (h : read run.cursor = .ok a c) :
    (monadLift read : Recover α) run = .ok a ⟨c, run.log⟩ := by
  rw [lift_run, h]

theorem lift_error {read : Read α} {c : Cursor} (h : read run.cursor = .error e c) :
    (monadLift read : Recover α) run = .error e ⟨c, run.log⟩ := by
  rw [lift_run, h]

theorem attempt_ok {read : Recover α} {a : α} (h : read run = .ok a run') :
    attempt read run = .ok (.ok a) run' := by
  rw [attempt, h]

theorem attempt_error {read : Recover α} (h : read run = .error e run') :
    attempt read run = .ok (.error e) run' := by
  rw [attempt, h]

theorem report_run (e : Diagnostic) (run : Run) :
    report e run = .ok () ⟨run.cursor, run.log.record run.cursor e⟩ :=
  rfl

end Recover

/-- Skipping tokens goes forward. -/
theorem Cursor.onward_skipUntil (c : Cursor) (stop : Kind → Bool) :
    c.Onward (c.skipUntil stop) := by
  have hgo : ∀ (rest : List Token) (last : Nat),
      c.Onward ⟨rest, last, c.size⟩ → c.Onward (Cursor.skipUntil.go c stop last rest) := by
    intro rest
    induction rest with
    | nil => exact fun _ h => h
    | cons token rest ih =>
        intro last h
        unfold Cursor.skipUntil.go
        split
        · exact h
        · exact ih _ h.pass
  exact hgo c.rest c.last .here

/-- What is left to do of a loop after a round of it. -/
def goOn (step : α → Recover (ForInStep α)) (bound : Nat) : ForInStep α → Recover α
  | .done a => pure a
  | .yield a => iterateUpTo step bound a

/-- A loop is its first round and what is left to do then. -/
theorem iterateUpTo_eq_bind (step : α → Recover (ForInStep α)) (bound : Nat) (a : α) :
    iterateUpTo step (bound + 1) a = step a >>= goOn step bound := by
  rw [iterateUpTo]
  rfl

/-- A reader that is put together from readers of tokens, reports and moves of the cursor.  Of the
log such a reader can ask only whether the run was halted. -/
class inductive Regular : {α : Type} → Recover α → Prop
  | pure {α : Type} (a : α) : Regular (Pure.pure a : Recover α)
  | throw {α : Type} (d : Diagnostic) : Regular (MonadExcept.throw d : Recover α)
  | bind {α β : Type} {read : Recover α} {next : α → Recover β} (h : Regular read)
      (hnext : ∀ a, Regular (next a)) : Regular (read >>= next)
  /-- What comes next depends on the cursor. -/
  | look {β : Type} {next : Run → Recover β} (h : ∀ run, Regular (next run))
      (hcursor : ∀ c log log', next ⟨c, log⟩ = next ⟨c, log'⟩) : Regular (MonadState.get >>= next)
  | halted : Regular Recover.halted
  | lift {α : Type} (read : Read α) (h : Forward read) : Regular (monadLift read : Recover α)
  | attempt {α : Type} {read : Recover α} (h : Regular read) : Regular (Recover.attempt read)
  | report (d : Diagnostic) : Regular (Recover.report d)
  | synchronize (scope : Scope) (stops : List Kind) : Regular (Recover.synchronize scope stops)

namespace Regular

/-- A regular reader only adds to the log. -/
theorem extended {read : Recover α} (h : Regular read) (run : Run) :
    run.log.Extended (finalState (read run)).log := by
  -- only reports change the log, and each of them is an extension
  induction h generalizing run with
  | pure | throw | halted | synchronize => exact .refl _
  | bind _ _ ih ihnext =>
      rename_i read next _ _
      have hread := ih run
      change Log.Extended _ (finalState (EStateM.bind read next run)).log
      unfold EStateM.bind
      split
      · rename_i a middle hok
        rw [hok] at hread
        exact hread.trans (ihnext a middle)
      · rename_i e middle herror
        rw [herror] at hread
        exact hread
  | look _ _ ih => exact ih run run
  | lift read _ =>
      change Log.Extended _ (finalState (match read run.cursor with
        | .ok a c => .ok a { run with cursor := c }
        | .error e c => .error e { run with cursor := c } : EStateM.Result _ _ _)).log
      split <;> exact .refl _
  | attempt _ ih =>
      have hread := ih run
      unfold Recover.attempt
      split
      · rename_i a run' hok
        rwa [hok] at hread
      · rename_i e run' herror
        rwa [herror] at hread
  | report d => exact run.log.extended_record run.cursor d

/-- A regular reader never goes back behind the token where it was started. -/
theorem onward {read : Recover α} (h : Regular read) (run : Run) :
    run.cursor.Onward (finalState (read run)).cursor := by
  -- only readers and skips move the cursor, and both move it on
  induction h generalizing run with
  | pure | throw | halted | report => exact .here
  | bind _ _ ih ihnext =>
      rename_i read next _ _
      have hread := ih run
      change run.cursor.Onward (finalState (EStateM.bind read next run)).cursor
      unfold EStateM.bind
      split
      · rename_i a middle hok
        rw [hok] at hread
        exact hread.trans (ihnext a middle)
      · rename_i e middle herror
        rwa [herror] at hread
  | look _ _ ih => exact ih run run
  | lift read hforward =>
      have hread := hforward.onward run.cursor
      change run.cursor.Onward (finalState (match read run.cursor with
        | .ok a c => .ok a { run with cursor := c }
        | .error e c => .error e { run with cursor := c } : EStateM.Result _ _ _)).cursor
      split <;> rename_i hok <;> rwa [hok] at hread
  | attempt _ ih =>
      have hread := ih run
      unfold Recover.attempt
      split
      · rename_i a run' hok
        rwa [hok] at hread
      · rename_i e run' herror
        rwa [herror] at hread
  | synchronize scope stops => exact run.cursor.onward_skipUntil _

instance instPure (a : α) : Regular (Pure.pure a : Recover α) := pure a

instance instThrow (d : Diagnostic) : Regular (MonadExcept.throw d : Recover α) := throw d

instance instBind (read : Recover α) (next : α → Recover β) [h : Regular read]
    [hnext : ∀ a, Regular (next a)] : Regular (read >>= next) :=
  bind h hnext

instance instIte (p : Prop) [Decidable p] (yes no : Recover α) [hyes : Regular yes]
    [hno : Regular no] : Regular (if p then yes else no) := by
  split
  · exact hyes
  · exact hno

instance instLift (read : Read α) [h : Forward read] : Regular (monadLift read : Recover α) :=
  lift read h

instance instAttempt (read : Recover α) [h : Regular read] : Regular (Recover.attempt read) :=
  attempt h

instance instReport (d : Diagnostic) : Regular (Recover.report d) := report d

instance instReportAny (failure : Option Diagnostic) : Regular (Recover.reportAny failure) := by
  cases failure <;> unfold Recover.reportAny <;> infer_instance

instance instSynchronize (scope : Scope) (stops : List Kind) :
    Regular (Recover.synchronize scope stops) :=
  synchronize scope stops

instance instHalted : Regular Recover.halted := halted

instance instRemaining : Regular Recover.remaining :=
  look (fun run => pure run.cursor.rest.length) fun _ _ _ => rfl

instance instIterateUpTo (step : α → Recover (ForInStep α)) [h : ∀ a, Regular (step a)]
    (bound : Nat) (a : α) : Regular (Lustre.iterateUpTo step bound a) := by
  induction bound generalizing a with
  | zero => exact pure a
  | succ bound ih =>
      rw [iterateUpTo_eq_bind]
      refine bind (h a) fun next => ?_
      cases next with
      | done b => exact pure b
      | yield b => exact ih b

instance instGoOn (step : α → Recover (ForInStep α)) [∀ a, Regular (step a)] (bound : Nat)
    (next : ForInStep α) : Regular (goOn step bound next) := by
  cases next <;> unfold goOn <;> infer_instance

instance instIterate (a : α) (step : α → Recover (ForInStep α)) [∀ a, Regular (step a)] :
    Regular (Recover.iterate a step) :=
  look (fun _ => inferInstance) fun _ _ _ => rfl

instance instLocated (read : Recover α) [Regular read] : Regular (Recover.located read) := by
  unfold Recover.located
  infer_instance

instance instLeave (start : Nat) : Regular (Recover.leave start) := by
  unfold Recover.leave
  infer_instance

/-! Where the way on depends on the shape of an answer, the search is guided to that place. -/

theorem after {read : Recover α} {next : α → Recover β} [h : Regular read]
    (hnext : ∀ a, Regular (next a)) : Regular (read >>= next) :=
  bind h hnext

theorem choose {p : Prop} [Decidable p] {yes no : Recover α} (hyes : Regular yes)
    (hno : Regular no) : Regular (if p then yes else no) :=
  instIte p yes no

end Regular

/-! ## Runs without a report -/

/-- If `read` succeeds from `run`, which has not halted, and nothing has been reported in the end,
its answer and the cursor that it reaches satisfy `Q`. -/
def Cleanly (read : Recover α) (run : Run) (Q : α → Cursor → Prop) : Prop :=
  run.log.halted = false → ∀ a run', read run = .ok a run' → run'.log.entries = [] → Q a run'.cursor

namespace Cleanly

variable {c : Cursor} {log : Log} {P Q : α → Cursor → Prop} {R : β → Cursor → Prop} {kind : Kind}

theorem mono {read : Recover α} {run : Run} (h : Cleanly read run P)
    (hPQ : ∀ a c, P a c → Q a c) : Cleanly read run Q :=
  fun hrun a run' hok hempty => hPQ a _ (h hrun a run' hok hempty)

theorem pure {a : α} (h : Q a c) : Cleanly (Pure.pure a : Recover α) ⟨c, log⟩ Q := by
  intro _ b run' hok _
  cases hok
  exact h

theorem bindPure {a : α} {next : α → Recover β} {run : Run} (h : Cleanly (next a) run R) :
    Cleanly (Pure.pure a >>= next) run R :=
  h

theorem throw {e : Diagnostic} {run : Run} : Cleanly (MonadExcept.throw e : Recover α) run Q := by
  intro _ a run' hok
  cases hok

theorem bind {read : Recover α} {next : α → Recover β} (h : Cleanly read ⟨c, log⟩ P)
    (hnext : ∀ a c', P a c' → Cleanly (next a) ⟨c', log⟩ R) [hread : Regular read]
    [hregular : ∀ a, Regular (next a)] : Cleanly (read >>= next) ⟨c, log⟩ R := by
  intro hlog b run' hok hempty
  change EStateM.bind read next ⟨c, log⟩ = .ok b run' at hok
  unfold EStateM.bind at hok
  split at hok
  · rename_i a middle hmiddle
    have hfirst := hread.extended ⟨c, log⟩
    rw [hmiddle] at hfirst
    have hsecond := (hregular a).extended middle
    rw [hok] at hsecond
    -- nothing was reported in the end, so the log is still the one at the beginning
    have hnone := hsecond.entries_eq_nil hempty
    have hlogs : middle.log = log := hfirst.kept hnone
    have hsame : middle = ⟨middle.cursor, log⟩ := by
      rw [← hlogs]
    have hP := h hlog a middle hmiddle hnone
    exact hnext a middle.cursor hP hlog b run' (hsame ▸ hok) hempty
  · cases hok

theorem get {next : Run → Recover β} (h : Cleanly (next ⟨c, log⟩) ⟨c, log⟩ R) :
    Cleanly (MonadState.get >>= next) ⟨c, log⟩ R :=
  h

/-- What follows a reader that reports nothing. -/
theorem read {read : Read α} {next : α → Recover β} (h : Meets read c P)
    (hnext : ∀ a c', P a c' → Cleanly (next a) ⟨c', log⟩ R) :
    Cleanly ((monadLift read : Recover α) >>= next) ⟨c, log⟩ R := by
  intro hlog b run' hok hempty
  change EStateM.bind (fun run => match read run.cursor with
    | .ok a c => .ok a { run with cursor := c }
    | .error e c => .error e { run with cursor := c }) next ⟨c, log⟩ = .ok b run' at hok
  unfold EStateM.bind at hok
  cases hread : read c with
  | ok a c' =>
      simp only [hread] at hok
      exact hnext a c' (h a c' hread) hlog b run' hok hempty
  | error e c' =>
      simp only [hread] at hok
      cases hok

/-- A reader that reports nothing. -/
theorem lift {read : Read α} (h : Meets read c Q) :
    Cleanly (monadLift read : Recover α) ⟨c, log⟩ Q := by
  have hbind : Cleanly ((monadLift read : Recover α) >>= Pure.pure) ⟨c, log⟩ Q :=
    Cleanly.read h fun a c' ha => .pure ha
  simpa using hbind

/-- What follows a reader that reports nothing and whose failure is caught. -/
theorem caughtRead {read : Read α} {next : Except Diagnostic α → Recover β} (h : Meets read c P)
    (hok : ∀ a c', P a c' → Cleanly (next (.ok a)) ⟨c', log⟩ R)
    (hfail : ∀ e c', Cleanly (next (.error e)) ⟨c', log⟩ R) :
    Cleanly (Recover.attempt (monadLift read) >>= next) ⟨c, log⟩ R := by
  intro hlog b run' hsome hempty
  change EStateM.bind (Recover.attempt fun run => match read run.cursor with
    | .ok a c => .ok a { run with cursor := c }
    | .error e c => .error e { run with cursor := c }) next ⟨c, log⟩ = .ok b run' at hsome
  unfold EStateM.bind Recover.attempt at hsome
  cases hread : read c with
  | ok a c' =>
      simp only [hread] at hsome
      exact hok a c' (h a c' hread) hlog b run' hsome hempty
  | error e c' =>
      simp only [hread] at hsome
      exact hfail e c' hlog b run' hsome hempty

/-- Nothing is claimed of a run that reports something. -/
theorem report {d : Diagnostic} {next : Unit → Recover β} [hregular : Regular (next ())] :
    Cleanly (Recover.report d >>= next) ⟨c, log⟩ R := by
  intro hlog b run' hok hempty
  have hsecond := hregular.extended ⟨c, log.record c d⟩
  change next () ⟨c, log.record c d⟩ = .ok b run' at hok
  rw [hok] at hsecond
  exact absurd (hsecond.entries_eq_nil hempty) (Log.record_ne_nil hlog c d)

/-- What is caught is a failure of which nothing is known. -/
theorem attempt {read : Recover α} {R : Except Diagnostic α → Cursor → Prop}
    (h : Cleanly read ⟨c, log⟩ fun a c' => R (.ok a) c') (hfail : ∀ e c', R (.error e) c') :
    Cleanly (Recover.attempt read) ⟨c, log⟩ R := by
  intro hlog result run' hok hempty
  unfold Recover.attempt at hok
  split at hok
  · rename_i hread
    cases hok
    exact h hlog _ _ hread hempty
  · cases hok
    exact hfail _ _

/-- What follows a reader whose failure is caught. -/
theorem caught {read : Recover α} {next : Except Diagnostic α → Recover β}
    (h : Cleanly read ⟨c, log⟩ P) (hok : ∀ a c', P a c' → Cleanly (next (.ok a)) ⟨c', log⟩ R)
    (hfail : ∀ e c', Cleanly (next (.error e)) ⟨c', log⟩ R) [Regular read]
    [hregular : ∀ a, Regular (next (.ok a))] [hregularFail : ∀ e, Regular (next (.error e))] :
    Cleanly (Recover.attempt read >>= next) ⟨c, log⟩ R := by
  have hnext : ∀ result, Regular (next result) := by
    intro result
    cases result with
    | ok a => exact hregular a
    | error e => exact hregularFail e
  refine bind (P := fun result c' => ∀ a, result = .ok a → P a c') ?_ fun result c' hresult => ?_
  · refine attempt (h.mono fun a c' ha b hb => ?_) nofun
    cases hb
    exact ha
  · cases result with
    | ok a => exact hok a c' (hresult a rfl)
    | error e => exact hfail e c'

theorem halted {next : Bool → Recover β} (h : Cleanly (next false) ⟨c, log⟩ R) :
    Cleanly (Recover.halted >>= next) ⟨c, log⟩ R := by
  intro hlog b run' hok
  change next log.halted ⟨c, log⟩ = .ok b run' at hok
  rw [hlog] at hok
  exact h hlog b run' hok

theorem unlessHalted {yes no : Recover β} (h : Cleanly no ⟨c, log⟩ R) :
    Cleanly (Recover.halted >>= fun stopped => if stopped = true then yes else no) ⟨c, log⟩ R :=
  halted h

theorem peek {next : Option Kind → Recover β} (h : Cleanly (next c.peek) ⟨c, log⟩ R) :
    Cleanly ((monadLift Read.peek : Recover (Option Kind)) >>= next) ⟨c, log⟩ R :=
  h

theorem advance {next : Unit → Recover β} (h : Cleanly (next ()) ⟨c.pass, log⟩ R) :
    Cleanly ((monadLift Read.advance : Recover Unit) >>= next) ⟨c, log⟩ R :=
  h

theorem here {next : Nat → Recover β} (h : ∀ start, Cleanly (next start) ⟨c, log⟩ R) :
    Cleanly ((monadLift Read.here : Recover Nat) >>= next) ⟨c, log⟩ R :=
  h _

theorem spanFrom {start : Nat} {next : Span → Recover β}
    (h : ∀ span, Cleanly (next span) ⟨c, log⟩ R) :
    Cleanly ((monadLift (Read.spanFrom start) : Recover Span) >>= next) ⟨c, log⟩ R :=
  h _

theorem ifAt {yes no : Recover β} (hyes : c.peek = some kind → Cleanly yes ⟨c, log⟩ R)
    (hno : c.peek ≠ some kind → Cleanly no ⟨c, log⟩ R) :
    Cleanly ((monadLift (Read.isAt kind) : Recover Bool) >>= fun found =>
      if found = true then yes else no) ⟨c, log⟩ R := by
  change Cleanly (if c.isAt kind = true then yes else no) ⟨c, log⟩ R
  split
  · rename_i h
    exact hyes (by simpa [Cursor.isAt] using h)
  · rename_i h
    exact hno (by simpa [Cursor.isAt] using h)

theorem ifEat {yes no : Recover β} (hyes : c.peek = some kind → Cleanly yes ⟨c.pass, log⟩ R)
    (hno : c.peek ≠ some kind → Cleanly no ⟨c, log⟩ R) :
    Cleanly ((monadLift (Read.eat kind) : Recover Bool) >>= fun found =>
      if found = true then yes else no) ⟨c, log⟩ R := by
  refine .read (P := fun found c' =>
    found = true ∧ c.peek = some kind ∧ c' = c.pass ∨ found = false ∧ c.peek ≠ some kind ∧ c' = c)
    ?_ ?_
  · exact .ifAt (fun h => .advance (.pure (.inl ⟨rfl, h, rfl⟩))) fun h => .pure (.inr ⟨rfl, h, rfl⟩)
  · rintro found c' (⟨rfl, h, rfl⟩ | ⟨rfl, h, rfl⟩)
    · exact hyes h
    · exact hno h

theorem expect {next : Span → Recover β}
    (h : c.peek = some kind → ∀ span, Cleanly (next span) ⟨c.pass, log⟩ R) :
    Cleanly ((monadLift (Read.expect kind) : Recover Span) >>= next) ⟨c, log⟩ R := by
  refine .read (P := fun _ c' => c.peek = some kind ∧ c' = c.pass) ?_ ?_
  · exact .ifAt (fun hpeek => .get (.advance (.pure ⟨hpeek, rfl⟩))) fun _ => .unexpected
  · rintro span c' ⟨hpeek, rfl⟩
    exact h hpeek span

theorem located {read : Recover α} {R : Located α → Cursor → Prop} [Regular read]
    (h : Cleanly read ⟨c, log⟩ fun a c' => ∀ span, R ⟨a, span⟩ c') :
    Cleanly (Recover.located read) ⟨c, log⟩ R :=
  .here fun _ => .bind h fun _ _ ha => .spanFrom fun span => .pure (ha span)

/-- A loop whose steps pass tokens ends only where a step ends it. -/
theorem iterate {step : α → Recover (ForInStep α)} {a : α} {I : α → Cursor → Prop} (h : I a c)
    (hstep : ∀ a c, I a c → Cleanly (step a) ⟨c, log⟩
      (StepKeeps (fun a c' => I a c' ∧ c'.rest.length < c.rest.length) Q))
    [hregular : ∀ a, Regular (step a)] : Cleanly (Recover.iterate a step) ⟨c, log⟩ Q := by
  have hbounded : ∀ bound a c, I a c → c.rest.length < bound →
      Cleanly (iterateUpTo step bound a) ⟨c, log⟩ Q := by
    intro bound
    induction bound with
    | zero => intros; omega
    | succ bound ih =>
        intro a c h hbound
        rw [iterateUpTo_eq_bind]
        refine bind (hstep a c h) fun next c' hkeeps => ?_
        cases next with
        | done a => exact .pure hkeeps
        | yield a =>
            obtain ⟨hkeeps, hsize⟩ := hkeeps
            exact ih a c' hkeeps (by omega)
  exact .get (hbounded _ a c h (Nat.lt_succ_self _))

end Cleanly

end Lustre
