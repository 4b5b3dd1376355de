import Lustre.Proofs.Reader.Beside
import Lustre.Proofs.Reader.Headway

/-!
# Where a text is cut short

Two runs over the same tokens, the first of which knows that an unterminated word cut
them short, go on in step until something is reported at the end of the tokens.  The
first run halts there.  The second goes on, but no token is left for it, and so the two
read the same trees: the loops that watch for a halt stop at the end of the tokens
anyway, and what they leave undone is no more than a report.

## Strategy

`InStep` and `Parted` are the two ways in which the runs belong together, `Stopped` is
what is left once a cap is met.  A report keeps the runs in step, parts them or stops
one of them (`InStep.record`).  That a reader `Agrees` with itself is found by instance
search along the way in which it is put together, down to the loops that watch for a
halt; the failure that is kept beside equations or declarations is the only answer that
may differ once the runs have parted (`SameTree`).
-/

namespace Lustre

variable {α β γ δ : Type}

/-! ## Two logs -/

/-- The beginnings of two runs over the same tokens, of which the first knows that they were cut
short. -/
structure Pair where
  first : Run
  second : Run
  cursor : second.cursor = first.cursor
  truncated : first.log.truncated = true
  whole : second.log.truncated = false
  running : first.log.halted = false
  running' : second.log.halted = false

namespace Pair

variable (M : Pair)

/-- Both logs have got the same since the beginning, and no cap was met. -/
def Noted (log log' : Log) : Prop :=
  ∃ found, log = { M.first.log with entries := M.first.log.entries ++ found } ∧
    log' = { M.second.log with entries := M.second.log.entries ++ found } ∧
    (found = [] ∨ (M.second.log.entries ++ found).length < M.second.log.cap)

/-- A report at the end of the tokens halted the first run.  In the second it is a report like
others, which halts it only if it is one too many. -/
structure Ended (log log' : Log) : Prop where
  halted : log.halted = true
  entries : ∃ before d more,
    log.entries = M.first.log.entries ++ before ++ [⟨.cutShort d.cause, d.span⟩] ∧
    log'.entries = M.second.log.entries ++ before ++ d :: more ∧
    (before = [] ∨ (M.second.log.entries ++ before).length < M.second.log.cap) ∧
    (M.second.log.cap ≤ (M.second.log.entries ++ before).length + 1 →
      log'.halted = true ∧ more = [⟨.tooManyErrors, .point M.first.cursor.size⟩])

/-- The first run met its cap, or the second met its own at a token, where the first went on. -/
inductive Stopped (log log' : Log) : Prop
  | first (span : Span) (h : ⟨.tooManyErrors, span⟩ ∈ log.entries) : Stopped log log'
  | second (halted : log'.halted = true) (token : Token) (htoken : token ∈ M.first.cursor.rest)
      (before : List Diagnostic)
      (hentries : log'.entries = M.second.log.entries ++ before ++ [⟨.tooManyErrors, token.span⟩])
      (hmet : M.second.log.cap ≤ (M.second.log.entries ++ before).length)
      (hbefore : Log.Extended ⟨M.first.log.entries ++ before, M.first.log.cap, true, false⟩ log) :
      Stopped log log'

variable {M}

theorem Ended.extended {log log₁ log' log₁' : Log} (h : M.Ended log log') (h₁ : log.Extended log₁)
    (h₁' : log'.Extended log₁') : M.Ended log₁ log₁' := by
  obtain ⟨hhalted, before, d, more, hentries, hentries', hroom, hcap⟩ := h
  obtain rfl := h₁.frozen hhalted
  obtain ⟨later, hlater⟩ := h₁'.entries
  refine ⟨hhalted, before, d, more ++ later, hentries, ?_, hroom, fun hmet => ?_⟩
  · rw [← hlater, hentries', List.append_assoc, List.cons_append]
  · obtain ⟨hhalted', hmore⟩ := hcap hmet
    obtain rfl := h₁'.frozen hhalted'
    have hnone : later = [] := by simpa using hlater
    exact ⟨hhalted', by rw [hnone, List.append_nil, hmore]⟩

theorem Stopped.extended {log log₁ log' log₁' : Log} (h : M.Stopped log log')
    (h₁ : log.Extended log₁) (h₁' : log'.Extended log₁') : M.Stopped log₁ log₁' := by
  cases h with
  | first span h => exact .first span (h₁.entries.subset h)
  | second hhalted token htoken before hentries hmet hbefore =>
      obtain rfl := h₁'.frozen hhalted
      exact .second hhalted token htoken before hentries hmet (hbefore.trans h₁)

/-- A report finds its place in both logs, unless it stands at the end of the tokens or meets a
cap. -/
theorem Noted.record {log log' : Log} (h : M.Noted log log') {c : Cursor}
    (hc : M.first.cursor.Onward c) (d : Diagnostic) :
    M.Noted (log.record c d) (log'.record c d) ∨
      c.rest = [] ∧ M.Ended (log.record c d) (log'.record c d) ∨
      M.Stopped (log.record c d) (log'.record c d) := by
  obtain ⟨found, rfl, rfl, hroom⟩ := h
  unfold Log.record
  simp only [M.running, M.running', M.truncated, M.whole, Bool.false_eq_true,
    if_false, Bool.true_and, Bool.false_and]
  -- the texts differ in what is reported at their ends, and nowhere else
  rcases hrest : c.rest with _ | ⟨token, rest⟩
  · have hend : c.atEnd = true := by rw [Cursor.atEnd, hrest]; rfl
    have hspan : c.span = .point M.first.cursor.size := by
      rw [Cursor.span, hrest, hc.size]
    rw [if_pos hend, hspan]
    refine .inr (.inl ⟨rfl, rfl, ?_⟩)
    dsimp only
    split
    · -- the shorter text runs on after this report, unless it meets the cap
      rename_i hmet
      exact ⟨found, d, [_], rfl, by simp, hroom, fun _ => ⟨rfl, rfl⟩⟩
    · rename_i hnot
      refine ⟨found, d, [], rfl, rfl, hroom, fun hmet => absurd ?_ hnot⟩
      rw [List.length_append]
      exact hmet
  · have hend : ¬c.atEnd = true := by rw [Cursor.atEnd, hrest]; simp
    have hspan : c.span = token.span := by rw [Cursor.span, hrest]
    have htoken : token ∈ M.first.cursor.rest := by
      apply hc.suffix.subset
      rw [hrest]
      exact List.mem_cons_self
    rw [if_neg hend, hspan]
    split
    · exact .inr (.inr (.first token.span (by simp)))
    · split
      · rename_i hmet
        refine .inr (.inr (.second rfl token htoken (found ++ [d]) (by simp)
          (by simpa using hmet) ?_))
        rw [← List.append_assoc]
        exact .refl _
      · rename_i hroom'
        refine .inl ⟨found ++ [d], by simp [M.running, M.truncated], by simp [M.running', M.whole],
          .inr ?_⟩
        simpa using hroom'

/-! ## Two runs -/

variable (M) in
/-- Both runs stand at the same place, have reported the same and go on. -/
structure InStep (run run' : Run) : Prop where
  cursor : run.cursor = run'.cursor
  onward : M.first.cursor.Onward run.cursor
  log : M.Noted run.log run'.log

variable (M) in
/-- Both runs are at the end of the tokens, where the first was halted. -/
structure Parted (run run' : Run) : Prop where
  cursor : run.cursor = run'.cursor
  rest : run.cursor.rest = []
  log : M.Ended run.log run'.log

variable (M) in
/-- What a reader gives in two runs: the same answer as long as they are in step, answers related by
`R` once they have parted. -/
inductive Matched (R : α → α → Prop) :
    EStateM.Result Diagnostic Run α → EStateM.Result Diagnostic Run α → Prop
  | ok (a : α) {run run' : Run} (h : M.InStep run run') : Matched R (.ok a run) (.ok a run')
  | error (e : Diagnostic) {run run' : Run} (h : M.InStep run run') :
      Matched R (.error e run) (.error e run')
  | okParted {a a' : α} (ha : R a a') {run run' : Run} (h : M.Parted run run') :
      Matched R (.ok a run) (.ok a' run')
  | errorParted (e : Diagnostic) {run run' : Run} (h : M.Parted run run') :
      Matched R (.error e run) (.error e run')
  | stopped {result result' : EStateM.Result Diagnostic Run α}
      (h : M.Stopped (finalState result).log (finalState result').log) : Matched R result result'

namespace Matched

variable {R : α → α → Prop} {S : β → β → Prop} {run run' : Run}

theorem mono {S : α → α → Prop} {result result' : EStateM.Result Diagnostic Run α}
    (h : M.Matched R result result') (hRS : ∀ a a', R a a' → S a a') :
    M.Matched S result result' := by
  cases h with
  | ok a h => exact .ok a h
  | error e h => exact .error e h
  | okParted ha h => exact .okParted (hRS _ _ ha) h
  | errorParted e h => exact .errorParted e h
  | stopped h => exact .stopped h

/-- How two answers are matched. -/
theorem of_ok {a a' : α} (h : M.Matched R (.ok a run) (.ok a' run')) :
    a = a' ∧ M.InStep run run' ∨ R a a' ∧ M.Parted run run' ∨ M.Stopped run.log run'.log := by
  cases h with
  | ok a h => exact .inl ⟨rfl, h⟩
  | okParted ha h => exact .inr (.inl ⟨ha, h⟩)
  | stopped h => exact .inr (.inr h)

/-- What follows has to be looked at twice, in step and after the runs have parted. -/
theorem bind {read read' : Recover α} {next : α → Recover β} [hregular : ∀ a, Regular (next a)]
    (h : M.Matched R (read run) (read' run'))
    (hstep : ∀ a run run', M.InStep run run' → M.Matched S (next a run) (next a run'))
    (hparted : ∀ a a' run run', R a a' → M.Parted run run' →
      M.Matched S (next a run) (next a' run')) :
    M.Matched S ((read >>= next) run) ((read' >>= next) run') := by
  change M.Matched S (EStateM.bind read next run) (EStateM.bind read' next run')
  unfold EStateM.bind
  generalize read run = result at h
  generalize read' run' = result' at h
  cases h with
  | ok a h => exact hstep a _ _ h
  | error e h => exact .error e h
  | okParted ha h => exact hparted _ _ _ _ ha h
  | errorParted e h => exact .errorParted e h
  | stopped h =>
      refine .stopped (h.extended ?_ ?_)
      · cases result with
        | ok a middle => exact (hregular a).extended middle
        | error e middle => exact .refl _
      · cases result' with
        | ok a middle => exact (hregular a).extended middle
        | error e middle => exact .refl _

/-- At the end of the tokens, whatever a reader does to the second log, it goes no further. -/
theorem ofParted {read read' : Recover α} {P P' : α → Prop} [hread : Regular read]
    [hread' : Regular read'] [htotal : Recover.Total read] [htotal' : Recover.Total read']
    (h : M.Parted run run') (hP : Meets read run fun a _ => P a)
    (hP' : Meets read' run' fun a _ => P' a) (hR : ∀ a a', P a → P' a' → R a a') :
    M.Matched R (read run) (read' run') := by
  obtain ⟨a, last, hok⟩ := htotal.total run
  obtain ⟨a', last', hok'⟩ := htotal'.total run'
  have honward := hread.onward run
  have honward' := hread'.onward run'
  have hlog := h.log.extended (hread.extended run) (hread'.extended run')
  rw [hok] at honward hlog ⊢
  rw [hok'] at honward' hlog ⊢
  have hcursor : last.cursor = run.cursor := honward.eq_of_end h.rest
  have hcursor' : last'.cursor = run'.cursor := honward'.eq_of_end (h.cursor ▸ h.rest)
  refine .okParted (hR a a' (hP a last hok) (hP' a' last' hok')) ⟨?_, ?_, hlog⟩
  · rw [hcursor, hcursor', h.cursor]
  · rw [hcursor, h.rest]

/-- While the runs are in step, neither is halted. -/
theorem halted {next : Bool → Recover β} (h : M.InStep run run')
    (hnext : M.Matched S (next false run) (next false run')) :
    M.Matched S ((Recover.halted >>= next) run) ((Recover.halted >>= next) run') := by
  obtain ⟨found, hlog, hlog', -⟩ := h.log
  change M.Matched S (next run.log.halted run) (next run'.log.halted run')
  have hrunning : run.log.halted = false := by rw [hlog]; exact M.running
  have hrunning' : run'.log.halted = false := by rw [hlog']; exact M.running'
  rw [hrunning, hrunning']
  exact hnext

/-- Loops whose rounds are matched are matched. -/
theorem iterateUpTo {step : α → Recover (ForInStep α)} [∀ a, Regular (step a)]
    (hstep : ∀ a run run', M.InStep run run' →
      M.Matched (Link.StepAlike R) (step a run) (step a run'))
    (hparted : ∀ a a' run run', R a a' → M.Parted run run' →
      M.Matched (Link.StepAlike R) (step a run) (step a' run')) (bound : Nat) :
    (∀ a run run', M.InStep run run' →
      M.Matched R (Lustre.iterateUpTo step bound a run) (Lustre.iterateUpTo step bound a run')) ∧
    ∀ a a' run run', R a a' → M.Parted run run' →
      M.Matched R (Lustre.iterateUpTo step bound a run)
        (Lustre.iterateUpTo step bound a' run') := by
  induction bound with
  | zero => exact ⟨fun a _ _ h => .ok a h, fun _ _ _ _ ha h => .okParted ha h⟩
  | succ bound ih =>
      have hnext : ∀ next next' run run', Link.StepAlike R next next' → M.Parted run run' →
          M.Matched R (goOn step bound next run) (goOn step bound next' run') := by
        intro next next' run run' hnext h
        cases hnext with
        | done hb => exact .okParted hb h
        | yield hb => exact ih.2 _ _ run run' hb h
      refine ⟨fun a run run' h => ?_, fun a a' run run' ha h => ?_⟩
      · rw [iterateUpTo_eq_bind]
        refine (hstep a run run' h).bind (fun next run run' h => ?_) hnext
        cases next with
        | done b => exact .ok b h
        | yield b => exact ih.1 b run run' h
      · rw [iterateUpTo_eq_bind]
        refine (hparted a a' run run' ha h).bind (fun next run run' h => ?_) hnext
        cases next with
        | done b => exact .ok b h
        | yield b => exact ih.1 b run run' h

theorem iterate {step : α → Recover (ForInStep α)} [∀ a, Regular (step a)]
    (hstep : ∀ a run run', M.InStep run run' →
      M.Matched (Link.StepAlike R) (step a run) (step a run'))
    (hparted : ∀ a a' run run', R a a' → M.Parted run run' →
      M.Matched (Link.StepAlike R) (step a run) (step a' run')) {a : α}
    (h : M.InStep run run' ∨ R a a ∧ M.Parted run run') :
    M.Matched R (Recover.iterate a step run) (Recover.iterate a step run') := by
  change M.Matched R (Lustre.iterateUpTo step (run.cursor.rest.length + 1) a run)
    (Lustre.iterateUpTo step (run'.cursor.rest.length + 1) a run')
  rcases h with h | ⟨ha, h⟩
  · rw [h.cursor]
    exact (iterateUpTo hstep hparted _).1 a run run' h
  · rw [h.cursor]
    exact (iterateUpTo hstep hparted _).2 a a run run' ha h

end Matched

/-! ## Readers that answer the same -/

variable (M) in
/-- Two results whose answers are the same as far as `view` shows. -/
abbrev Shown (view : α → γ) :
    EStateM.Result Diagnostic Run α → EStateM.Result Diagnostic Run α → Prop :=
  M.Matched fun a a' => view a = view a'

/-- A reader that answers the same in both runs, as far as `view` shows, even if it is started after
the runs have parted. -/
structure Keeps (M : Pair) (view : α → γ) (read : Recover α) : Prop where
  regular : Regular read
  inStep : ∀ run run', M.InStep run run' → M.Shown view (read run) (read run')
  parted : ∀ run run', M.Parted run run' → M.Shown view (read run) (read run')

/-- A reader that answers the same in both runs. -/
class Agrees (M : Pair) (read : Recover α) : Prop where
  keeps : M.Keeps id read

namespace Keeps

variable {view : α → γ} {view' : β → δ}

theorem ofAgrees {read : Recover α} (h : M.Agrees read) : M.Keeps view read where
  regular := h.keeps.regular
  inStep run run' hrun := (h.keeps.inStep run run' hrun).mono fun _ _ ha => congrArg view ha
  parted run run' hrun := (h.keeps.parted run run' hrun).mono fun _ _ ha => congrArg view ha

theorem after {read : Recover α} {next : α → Recover β} [h : M.Agrees read]
    (hnext : ∀ a, M.Keeps view' (next a)) : M.Keeps view' (read >>= next) := by
  have hregular : ∀ a, Regular (next a) := fun a => (hnext a).regular
  have hparted : ∀ a a' run run', a = a' → M.Parted run run' →
      M.Shown view' (next a run) (next a' run') := by
    rintro a _ run run' rfl h
    exact (hnext a).parted run run' h
  exact ⟨.bind h.keeps.regular hregular,
    fun run run' hrun => (h.keeps.inStep run run' hrun).bind (fun a => (hnext a).inStep) hparted,
    fun run run' hrun => (h.keeps.parted run run' hrun).bind (fun a => (hnext a).inStep) hparted⟩

/-- What follows shows no more than `view` did. -/
theorem bind {read : Recover α} {next : α → Recover β} (f : γ → δ) (h : M.Keeps view read)
    (hnext : ∀ a, M.Agrees (next a)) (htotal : ∀ a, Recover.Total (next a))
    (hshows : ∀ a run, Meets (next a) run fun b _ => view' b = f (view a)) :
    M.Keeps view' (read >>= next) := by
  have hregular : ∀ a, Regular (next a) := fun a => (hnext a).keeps.regular
  have hstep : ∀ a run run', M.InStep run run' →
      M.Shown view' (next a run) (next a run') :=
    fun a => (ofAgrees (hnext a)).inStep
  have hparted : ∀ a a' run run', view a = view a' → M.Parted run run' →
      M.Shown view' (next a run) (next a' run') := by
    intro a a' run run' ha hrun
    refine .ofParted hrun (hshows a run) (hshows a' run') fun b b' hb hb' => ?_
    rw [hb, hb', ha]
  exact ⟨.bind h.regular hregular, fun run run' hrun => (h.inStep run run' hrun).bind hstep hparted,
    fun run run' hrun => (h.parted run run' hrun).bind hstep hparted⟩

/-- What comes next may depend on the cursor. -/
theorem look {next : Run → Recover β} (h : ∀ run, M.Keeps view' (next run))
    (hcursor : ∀ c log log', next ⟨c, log⟩ = next ⟨c, log'⟩) :
    M.Keeps view' (MonadState.get >>= next) where
  regular := .look (fun run => (h run).regular) hcursor
  inStep := by
    rintro ⟨c, log⟩ ⟨_, log'⟩ hrun
    cases hrun.cursor
    change M.Matched _ (next ⟨c, log⟩ ⟨c, log⟩) (next ⟨c, log'⟩ ⟨c, log'⟩)
    rw [hcursor c log' log]
    exact (h _).inStep _ _ hrun
  parted := by
    rintro ⟨c, log⟩ ⟨_, log'⟩ hrun
    cases hrun.cursor
    change M.Matched _ (next ⟨c, log⟩ ⟨c, log⟩) (next ⟨c, log'⟩ ⟨c, log'⟩)
    rw [hcursor c log' log]
    exact (h _).parted _ _ hrun

/-- Loops whose rounds are the same, as far as `view` shows. -/
theorem iterate {step : α → Recover (ForInStep α)} [∀ a, Regular (step a)] {a : α}
    (hstep : ∀ a run run', M.InStep run run' →
      M.Matched (Link.StepAlike fun a a' => view a = view a') (step a run) (step a run'))
    (hparted : ∀ a a' run run', view a = view a' → M.Parted run run' →
      M.Matched (Link.StepAlike fun a a' => view a = view a') (step a run) (step a' run')) :
    M.Keeps view (Recover.iterate a step) :=
  ⟨inferInstance, fun _ _ hrun => .iterate hstep hparted (.inl hrun),
    fun _ _ hrun => .iterate hstep hparted (.inr ⟨rfl, hrun⟩)⟩

end Keeps

namespace Agrees

instance (a : α) : M.Agrees (pure a : Recover α) :=
  ⟨inferInstance, fun _ _ h => .ok a h, fun _ _ h => .okParted rfl h⟩

instance (d : Diagnostic) : M.Agrees (throw d : Recover α) :=
  ⟨inferInstance, fun _ _ h => .error d h, fun _ _ h => .errorParted d h⟩

theorem after {read : Recover α} {next : α → Recover β} [M.Agrees read]
    (hnext : ∀ a, M.Agrees (next a)) : M.Agrees (read >>= next) :=
  ⟨.after fun a => (hnext a).keeps⟩

theorem choose {p : Prop} [Decidable p] {yes no : Recover α} (hyes : M.Agrees yes)
    (hno : M.Agrees no) : M.Agrees (if p then yes else no) := by
  split
  · exact hyes
  · exact hno

theorem look {next : Run → Recover β} (h : ∀ run, M.Agrees (next run))
    (hcursor : ∀ c log log', next ⟨c, log⟩ = next ⟨c, log'⟩) : M.Agrees (MonadState.get >>= next) :=
  ⟨.look (fun run => (h run).keeps) hcursor⟩

instance (read : Recover α) (next : α → Recover β) [M.Agrees read]
    [hnext : ∀ a, M.Agrees (next a)] :
    M.Agrees (read >>= next) :=
  after hnext

instance (p : Prop) [Decidable p] (yes no : Recover α) [hyes : M.Agrees yes] [hno : M.Agrees no] :
    M.Agrees (if p then yes else no) :=
  choose hyes hno

instance instLift (read : Read α) [hread : Forward read] :
    M.Agrees (monadLift read : Recover α) := by
  refine ⟨inferInstance, ?_, ?_⟩
  · rintro ⟨c, log⟩ ⟨_, log'⟩ ⟨rfl, honward, hlog⟩
    have hlater := honward.trans (hread.onward c)
    rw [Recover.lift_run, Recover.lift_run]
    cases hok : read c with
    | ok a c' =>
        rw [hok] at hlater
        exact .ok a ⟨rfl, hlater, hlog⟩
    | error e c' =>
        rw [hok] at hlater
        exact .error e ⟨rfl, hlater, hlog⟩
  · rintro ⟨c, log⟩ ⟨_, log'⟩ ⟨rfl, hrest, hlog⟩
    have hlater : (finalState (read c)).rest = [] := by
      have hsuffix := (hread.onward c).suffix
      rwa [show c.rest = [] from hrest, List.suffix_nil] at hsuffix
    rw [Recover.lift_run, Recover.lift_run]
    cases hok : read c with
    | ok a c' =>
        rw [hok] at hlater
        exact .okParted rfl ⟨rfl, hlater, hlog⟩
    | error e c' =>
        rw [hok] at hlater
        exact .errorParted e ⟨rfl, hlater, hlog⟩

theorem attempted {read : Recover α} {run run' : Run} (h : M.Shown id (read run) (read run')) :
    M.Shown id (Recover.attempt read run) (Recover.attempt read run') := by
  unfold Recover.attempt
  generalize read run = result at h
  generalize read run' = result' at h
  cases h with
  | ok a h => exact .ok _ h
  | error e h => exact .ok _ h
  | okParted ha h =>
      exact .okParted (congrArg _ ha) h
  | errorParted e h => exact .okParted rfl h
  | stopped h => cases result <;> cases result' <;> exact .stopped h

instance (read : Recover α) [h : M.Agrees read] : M.Agrees (Recover.attempt read) :=
  ⟨.attempt h.keeps.regular, fun run run' hrun => attempted (h.keeps.inStep run run' hrun),
    fun run run' hrun => attempted (h.keeps.parted run run' hrun)⟩

instance instReport (d : Diagnostic) : M.Agrees (Recover.report d) := by
  refine ⟨inferInstance, ?_, ?_⟩
  · rintro ⟨c, log⟩ ⟨_, log'⟩ ⟨rfl, honward, hlog⟩
    rcases hlog.record honward d with hlog | ⟨hrest, hlog⟩ | hlog
    · exact .ok () ⟨rfl, honward, hlog⟩
    · exact .okParted rfl ⟨rfl, hrest, hlog⟩
    · exact .stopped hlog
  · rintro ⟨c, log⟩ ⟨_, log'⟩ ⟨rfl, hrest, hlog⟩
    exact .okParted rfl ⟨rfl, hrest,
      hlog.extended (log.extended_record c d) (log'.extended_record c d)⟩

instance (failure : Option Diagnostic) : M.Agrees (Recover.reportAny failure) := by
  cases failure <;> unfold Recover.reportAny <;> infer_instance

instance (scope : Scope) (stops : List Kind) : M.Agrees (Recover.synchronize scope stops) := by
  refine ⟨inferInstance, ?_, ?_⟩
  · rintro ⟨c, log⟩ ⟨_, log'⟩ ⟨rfl, honward, hlog⟩
    exact .ok () ⟨rfl, honward.trans (c.onward_skipUntil _), hlog⟩
  · rintro ⟨c, log⟩ ⟨_, log'⟩ ⟨rfl, hrest, hlog⟩
    have hsuffix := (c.onward_skipUntil fun kind =>
      stops.contains kind || (scope == .body && kind == .kwEnd)).suffix
    rw [show c.rest = [] from hrest, List.suffix_nil] at hsuffix
    exact .okParted rfl ⟨rfl, hsuffix, hlog⟩

instance : M.Agrees Recover.remaining :=
  look (fun _ => inferInstance) fun _ _ _ => rfl

instance (a : α) (step : α → Recover (ForInStep α)) [h : ∀ a, M.Agrees (step a)] :
    M.Agrees (Recover.iterate a step) := by
  have hregular : ∀ a, Regular (step a) := fun a => (h a).keeps.regular
  have halike : ∀ next next' : ForInStep α, id next = id next' →
      Link.StepAlike (fun a a' => id a = id a') next next' := by
    rintro next _ rfl
    exact .of_refl (R := fun a a' => id a = id a') (fun _ => rfl) next
  refine ⟨.iterate (fun a run run' hrun => ?_) ?_⟩
  · exact ((h a).keeps.inStep run run' hrun).mono halike
  · rintro a _ run run' rfl hrun
    exact ((h a).keeps.parted run run' hrun).mono halike

instance (read : Recover α) [M.Agrees read] : M.Agrees (Recover.located read) := by
  unfold Recover.located
  infer_instance

end Agrees

/-- A step that watches for a halt sees none while the runs are in step. -/
theorem InStep.watching {next : Run → Bool → Recover β} {run run' : Run} (h : M.InStep run run')
    (hnext : ∀ run, M.Agrees (next run false))
    (hcursor : ∀ c log log', next ⟨c, log⟩ = next ⟨c, log'⟩) :
    M.Shown id ((MonadState.get >>= fun run => Recover.halted >>= next run) run)
      ((MonadState.get >>= fun run => Recover.halted >>= next run) run') := by
  obtain ⟨c, log⟩ := run
  obtain ⟨c', log'⟩ := run'
  cases h.cursor
  change M.Matched _ ((Recover.halted >>= next ⟨c, log⟩) ⟨c, log⟩)
    ((Recover.halted >>= next ⟨c, log'⟩) ⟨c, log'⟩)
  rw [hcursor c log' log]
  exact .halted h ((hnext _).keeps.inStep _ _ h)

end Pair

namespace Recover

open Pair

variable {M : Pair} {deep : Nested} [deep.Advances] {scope : Scope}

/-! ## Recovery -/

instance agrees_leave (start : Nat) : M.Agrees (leave start) := by
  unfold leave
  infer_instance

instance agrees_skipDeclaration (start : Nat) : M.Agrees (skipDeclaration scope start) := by
  unfold skipDeclaration
  infer_instance

instance agrees_endMark : M.Agrees endMark := by
  unfold endMark
  infer_instance

instance agrees_endNode : M.Agrees endNode := by
  unfold endNode
  infer_instance

instance agrees_skipNode : M.Agrees (skipNode scope) := by
  unfold skipNode
  infer_instance

instance agrees_skipHeader : M.Agrees (skipHeader scope) := by
  unfold skipHeader
  infer_instance

instance agrees_skipStatement (start : Nat) : M.Agrees (skipStatement scope start) := by
  unfold skipStatement
  infer_instance

instance agrees_skipEntry (start : Nat) : M.Agrees (skipEntry scope start) := by
  unfold skipEntry
  infer_instance

/-! ## Equations and blocks -/

omit [deep.Advances] in
/-- At the end of the tokens the equations end, with or without a failure. -/
theorem meets_equationStep_of_end (done : List (Located Equation)) {run : Run}
    (h : run.cursor.rest = []) :
    Meets (equationStep deep scope done) run fun next _ => ∃ failure,
    next = .done (done, failure) := by
  have hpeek : run.cursor.peek = none := by rw [Cursor.peek, h]; rfl
  refine .get (.halted fun stopped => ?_)
  split
  · exact .pure ⟨_, rfl⟩
  · refine .ifEaten (fun htel => (Option.some_ne_none _ (htel.symm.trans hpeek)).elim) fun _ => ?_
    rw [hpeek]
    exact .pure ⟨_, rfl⟩

/-- A loop over the parts of a body, which ends at the end of the tokens, halted or not. -/
theorem keeps_iterate {step : List α → Recover (ForInStep (Partial (List α)))}
    [∀ done, Regular (step done)] [∀ done, Total (step done)]
    (hstep : ∀ done run run', M.InStep run run' →
      M.Shown id (step done run) (step done run'))
    (hend : ∀ done (run : Run), run.cursor.rest = [] →
      Meets (step done) run fun next _ => ∃ failure, next = .done (done, failure)) :
    M.Keeps Prod.fst (iterate ([], none) fun read => step read.1) := by
  refine .iterate (fun read run run' h => ?_) fun read read' run run' hread h => ?_
  · refine (hstep read.1 run run' h).mono fun next _ hnext => ?_
    cases hnext
    exact .of_refl (R := fun read read' => read.1 = read'.1) (fun _ => rfl) next
  · refine .ofParted h (hend read.1 run h.rest) (hend read'.1 run' (h.cursor ▸ h.rest)) ?_
    rintro _ _ ⟨failure, rfl⟩ ⟨failure', rfl⟩
    exact .done hread

theorem keeps_equations : M.Keeps Prod.fst (equations deep scope) := by
  refine keeps_iterate (fun done run run' h => ?_) fun done run => meets_equationStep_of_end done
  refine h.watching (fun run => ?_) fun _ _ _ => rfl
  refine .choose inferInstance (.after fun found => .choose inferInstance ?_)
  refine .choose inferInstance (.after fun result => ?_)
  cases result <;> infer_instance

/-- Whether a block goes on does not depend on a halt at the end of the tokens. -/
theorem agrees_blockEnd {α : Type} (follows : List Kind) (entries : List α) :
    M.Agrees (do
      let c := (← get).cursor
      if (← halted) || !(c.isAt .ident && (c.peekAt 1).any follows.contains) then
        return .done entries
      else return .yield entries : Recover (ForInStep (List α))) := by
  refine ⟨regular_blockEnd follows entries,
    fun run run' h => h.watching (fun _ => inferInstance) fun _ _ _ => rfl, fun run run' h => ?_⟩
  · have hend : ∀ run : Run, run.cursor.rest = [] → Meets (do
        let c := (← get).cursor
        if (← halted) || !(c.isAt .ident && (c.peekAt 1).any follows.contains) then
          return .done entries
        else return .yield entries : Recover (ForInStep (List α))) run fun next _ =>
          next = .done entries := by
      intro run hrest
      refine .get (.halted fun stopped => ?_)
      have hident : run.cursor.isAt .ident = false := by simp [Cursor.isAt, Cursor.peek, hrest]
      rw [if_pos (by simp [hident])]
      exact .pure rfl
    have hregular := regular_blockEnd follows entries
    refine .ofParted h (hend run h.rest) (hend run' (h.cursor ▸ h.rest)) ?_
    rintro _ _ rfl rfl
    rfl

instance agrees_blockStep {α : Type} (follows : List Kind) (entry : Read α) [Forward entry]
    (entries : List α) : M.Agrees (blockStep scope follows entry entries) := by
  refine .after fun start => .after fun result => ?_
  cases result with
  | ok one => exact .after (agrees_blockEnd follows)
  | error e =>
      refine .after fun left => .choose (.after (agrees_blockEnd follows)) ?_
      exact .after fun _ => .after fun _ => .after (agrees_blockEnd follows)

instance agrees_block {α : Type} (follows : List Kind) (entry : Read α) [Forward entry] :
    M.Agrees (block scope follows entry) := by
  unfold block
  infer_instance

instance agrees_typeBlock : M.Agrees (typeBlock deep scope) := agrees_block _ _

instance agrees_constBlock : M.Agrees (constBlock deep scope) := agrees_block _ _

/-! ## Nodes -/

instance agrees_localBlock : M.Agrees (localBlock deep scope) := by
  unfold localBlock
  infer_instance

instance agrees_localStep (blocks : List (Located LocalBlock)) :
    M.Agrees (localStep deep scope blocks) := by
  refine .after fun next => ?_
  split <;> infer_instance

instance agrees_localBlocks : M.Agrees (localBlocks deep scope) := by
  unfold localBlocks
  infer_instance

instance agrees_nodeHeader (head : NodeHead) : M.Agrees (nodeHeader deep head) := by
  refine .after fun params => ?_
  cases params with
  | error e => infer_instance
  | ok params =>
      refine .after fun profile => ?_
      cases profile with
      | error e => infer_instance
      | ok profile =>
          refine .after fun body => ?_
          cases body <;> infer_instance

instance total_endMark : Total endMark := by
  unfold endMark
  infer_instance

/-- The tree of a node does not depend on the failure beside its equations. -/
theorem keeps_nodeDefinition (decl : NodeDecl) :
    M.Keeps Prod.fst (nodeDefinition deep scope decl) := by
  refine .after fun locals => ?_
  cases locals with
  | error e => exact .ofAgrees inferInstance
  | ok locals =>
      refine keeps_equations.bind
        (fun equations => { decl with body := .definition ⟨locals, equations⟩ })
        inferInstance inferInstance ?_
      intro read run
      dsimp only
      split
      · exact .bind .any fun _ _ _ => .pure rfl
      · exact .pure rfl

theorem keeps_nodeTail (decl : NodeDecl) : M.Keeps Prod.fst (nodeTail deep scope decl) := by
  refine .look (fun run => ?_) fun _ _ _ => rfl
  dsimp only
  split
  · exact .ofAgrees inferInstance
  · exact .ofAgrees inferInstance
  · exact keeps_nodeDefinition decl

instance agrees_closeNode (read : Partial NodeDecl) : M.Agrees (closeNode scope read) := by
  obtain ⟨decl, failure⟩ := read
  cases failure <;> unfold closeNode <;> infer_instance

instance total_closeNode (read : Partial NodeDecl) : Total (closeNode scope read) := by
  obtain ⟨decl, failure⟩ := read
  cases failure <;> unfold closeNode skipNode endNode <;> infer_instance

/-- What is reported of a node does not change it. -/
theorem meets_closeNode (read : Partial NodeDecl) (run : Run) :
    Meets (closeNode scope read) run fun decl _ => decl = read.1 := by
  obtain ⟨decl, failure⟩ := read
  cases failure with
  | none => exact .pure rfl
  | some e => exact .bind .any fun _ _ _ => .bind .any fun _ _ _ => .pure rfl

instance agrees_openNode (read : Partial NodeDecl) : M.Agrees (openNode deep scope read) := by
  obtain ⟨decl, failure⟩ := read
  cases failure with
  | some e =>
      unfold openNode
      infer_instance
  | none => exact ⟨(keeps_nodeTail decl).bind id inferInstance inferInstance meets_closeNode⟩

instance agrees_node : M.Agrees (node deep scope) := by
  unfold node
  infer_instance

instance agrees_anyDeclaration : M.Agrees (anyDeclaration deep scope) := by
  refine .look (fun run => ?_) fun _ _ _ => rfl
  dsimp only
  split <;> infer_instance

instance agrees_declaration : M.Agrees (declaration deep scope) := by
  unfold declaration
  infer_instance

/-! ## Packages and models -/

instance total_bodyStep (done : List (Located Declaration)) : Total (bodyStep deep done) := by
  refine .after fun run => .after fun stopped => .choose inferInstance (.after fun found => ?_)
  refine .choose inferInstance ?_
  dsimp only
  split
  · infer_instance
  · refine .choose inferInstance (.after fun result => ?_)
    cases result <;> infer_instance

omit [deep.Advances] in
theorem meets_bodyStep_of_end (done : List (Located Declaration)) {run : Run}
    (h : run.cursor.rest = []) :
    Meets (bodyStep deep done) run fun next _ => ∃ failure, next = .done (done, failure) := by
  have hpeek : run.cursor.peek = none := by rw [Cursor.peek, h]; rfl
  refine .get (.halted fun stopped => ?_)
  split
  · exact .pure ⟨_, rfl⟩
  · refine .ifEaten
      (fun hclose => (Option.some_ne_none _ (hclose.symm.trans hpeek)).elim) fun _ => ?_
    rw [hpeek]
    exact .pure ⟨_, rfl⟩

theorem keeps_body : M.Keeps Prod.fst (body deep) := by
  refine .after fun result => ?_
  cases result with
  | error e => exact .ofAgrees inferInstance
  | ok _ =>
      refine keeps_iterate (fun done run run' h => ?_) fun done run => meets_bodyStep_of_end done
      refine h.watching (fun run => ?_) fun _ _ _ => rfl
      refine .choose inferInstance (.after fun found => .choose inferInstance ?_)
      dsimp only
      split
      · infer_instance
      · refine .choose inferInstance (@Agrees.after _ _ _ _ _ inferInstance fun result => ?_)
        cases result <;> infer_instance

instance agrees_instantiation (name : Ident) (word : InstanceWord) :
    M.Agrees (instantiation deep name word) := by
  refine .after fun model => .after fun read => .after fun _ => ?_
  exact .look (fun run => inferInstance) fun _ _ _ => rfl

instance total_reportAny (failure : Option Diagnostic) : Total (reportAny failure) := by
  cases failure <;> unfold reportAny <;> infer_instance

instance agrees_package : M.Agrees (package deep) := by
  refine .after fun _ => .after fun name => .after fun word => ?_
  cases word with
  | some word => infer_instance
  | none =>
      refine .after fun uses => .after fun provides => ⟨?_⟩
      refine keeps_body.bind (fun decls => ⟨name, .definition uses provides decls⟩) inferInstance
        inferInstance ?_
      exact fun read run => .bind .any fun _ _ _ => .pure rfl

instance agrees_needsStep (done : List (Located StaticParam)) : M.Agrees (needsStep deep done) := by
  refine .after fun result => ?_
  cases result with
  | error e => infer_instance
  | ok param =>
      refine .after fun result => ?_
      cases result <;> infer_instance

instance agrees_requiredNeeds (name : Ident) : M.Agrees (requiredNeeds deep name) := by
  unfold requiredNeeds needs
  infer_instance

theorem keeps_modelContents (name : Ident) (uses : List Ident)
    (read : Partial (List (Located StaticParam))) :
    M.Keeps Prod.fst (modelContents deep name uses read) := by
  obtain ⟨needs, failure⟩ := read
  cases failure with
  | some e =>
      unfold modelContents
      exact .ofAgrees inferInstance
  | none =>
      refine .after fun result => ?_
      cases result with
      | error e => exact .ofAgrees inferInstance
      | ok provides =>
          refine keeps_body.bind (fun decls => ⟨name, uses, needs, provides, decls⟩) inferInstance
            inferInstance ?_
          exact fun read run => .pure rfl

theorem keeps_modelTail (name : Ident) : M.Keeps Prod.fst (modelTail deep name) := by
  refine .after fun result => ?_
  cases result with
  | error e => exact .ofAgrees inferInstance
  | ok uses => exact .after fun read => keeps_modelContents name uses read

instance agrees_closeModel (read : Partial Model) : M.Agrees (closeModel read) := by
  obtain ⟨model, failure⟩ := read
  cases failure <;> unfold closeModel <;> infer_instance

instance total_closeModel (read : Partial Model) : Total (closeModel read) := by
  obtain ⟨model, failure⟩ := read
  cases failure <;> unfold closeModel <;> infer_instance

/-- What is reported of a model does not change it. -/
theorem meets_closeModel (read : Partial Model) (run : Run) :
    Meets (closeModel read) run fun model _ => model = read.1 := by
  obtain ⟨model, failure⟩ := read
  cases failure with
  | none => exact .pure rfl
  | some e => exact .bind .any fun _ _ _ => .bind .any fun _ _ _ => .pure rfl

instance agrees_model : M.Agrees (model deep) := by
  refine .after fun _ => .after fun name => ⟨?_⟩
  exact (keeps_modelTail name).bind id inferInstance inferInstance meets_closeModel

/-! ## Programs -/

instance total_includeStep (done : List (Located String)) : Total (includeStep done) := by
  refine .after fun run => .after fun stopped => .choose inferInstance (.after fun result => ?_)
  cases result <;> infer_instance

instance agrees_includeStep (done : List (Located String)) : M.Agrees (includeStep done) := by
  have hend : ∀ run : Run, run.cursor.rest = [] →
      Meets (includeStep done) run fun next _ => next = .done done := by
    intro run hrest
    refine .get (.halted fun stopped => ?_)
    have hdirective : run.cursor.isAt .kwInclude = false := by
      simp [Cursor.isAt, Cursor.peek, hrest]
    rw [if_pos (by simp [hdirective])]
    exact .pure rfl
  refine ⟨inferInstance, fun run run' h => h.watching (fun run => ?_) fun _ _ _ => rfl,
    fun run run' h => ?_⟩
  · refine .choose inferInstance (.after fun result => ?_)
    cases result <;> infer_instance
  · refine .ofParted h (hend run h.rest) (hend run' (h.cursor ▸ h.rest)) ?_
    rintro _ _ rfl rfl
    rfl

instance agrees_item (c : Cursor) (kind : Kind) : M.Agrees (item deep c kind) := by
  unfold item
  infer_instance

instance total_itemStep (done : List (Located Item)) : Total (itemStep deep done) := by
  refine .after fun run => .after fun stopped => .choose inferInstance ?_
  split
  · infer_instance
  · refine .after fun result => ?_
    cases result <;> infer_instance

instance agrees_itemStep (done : List (Located Item)) : M.Agrees (itemStep deep done) := by
  have hend : ∀ run : Run, run.cursor.rest = [] →
      Meets (itemStep deep done) run fun next _ => next = .done done := by
    intro run hrest
    have hpeek : run.cursor.peek = none := by rw [Cursor.peek, hrest]; rfl
    refine .get (.halted fun stopped => ?_)
    rw [hpeek]
    split <;> exact .pure rfl
  refine ⟨inferInstance, fun run run' h => h.watching (fun run => ?_) fun _ _ _ => rfl,
    fun run run' h => ?_⟩
  · refine .choose inferInstance ?_
    split
    · infer_instance
    · refine .after fun result => ?_
      cases result <;> infer_instance
  · refine .ofParted h (hend run h.rest) (hend run' (h.cursor ▸ h.rest)) ?_
    rintro _ _ rfl rfl
    rfl

instance agrees_program : M.Agrees (program deep) := by
  unfold program includes items
  infer_instance

end Recover

end Lustre
