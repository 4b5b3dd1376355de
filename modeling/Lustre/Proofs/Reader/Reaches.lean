import Lustre.Proofs.Reader.Headway

/-!
# Where readers get to

`Meets` says what holds if a reader of declarations succeeds.  `Reaches` also says what
holds if it fails, of the failure and of the run in which it is noticed, for this is where
recovery starts.
-/

namespace Lustre

variable {α β : Type}

/-- What holds of a result: `Q` of a success, and `E` of a failure. -/
inductive Lands (Q : α → Run → Prop) (E : Diagnostic → Run → Prop) :
    EStateM.Result Diagnostic Run α → Prop
  | ok {a : α} {run : Run} (h : Q a run) : Lands Q E (.ok a run)
  | error {e : Diagnostic} {run : Run} (h : E e run) : Lands Q E (.error e run)

/-- What holds where a reader gets to: `Q` if it succeeds, and `E` if it fails. -/
def Reaches (read : Recover α) (run : Run) (Q : α → Run → Prop)
    (E : Diagnostic → Run → Prop) : Prop :=
  Lands Q E (read run)

namespace Reaches

variable {run : Run} {Q Q' : α → Run → Prop} {R : β → Run → Prop} {E E' : Diagnostic → Run → Prop}

theorem of_eq {read read' : Recover α} {run' : Run} (h : Reaches read' run' Q E)
    (heq : read run = read' run') : Reaches read run Q E := by
  unfold Reaches
  rw [heq]
  exact h

theorem mono {read : Recover α} (h : Reaches read run Q E) (hQ : ∀ a run', Q a run' → Q' a run')
    (hE : ∀ e run', E e run' → E' e run') : Reaches read run Q' E' := by
  unfold Reaches at h ⊢
  generalize read run = result at h ⊢
  cases h with
  | ok h => exact .ok (hQ _ _ h)
  | error h => exact .error (hE _ _ h)

theorem of_meets {read : Recover α} (h : Meets read run Q) :
    Reaches read run Q fun _ _ => True := by
  unfold Reaches
  cases hread : read run with
  | ok a run' => exact .ok (h a run' hread)
  | error e run' => exact .error trivial

theorem and_meets {read : Recover α} (h : Reaches read run Q E) (hmeets : Meets read run Q') :
    Reaches read run (fun a run' => Q a run' ∧ Q' a run') E := by
  unfold Reaches at h ⊢
  cases hread : read run with
  | ok a run' =>
      rw [hread] at h
      cases h with
      | ok h => exact .ok ⟨h, hmeets a run' hread⟩
  | error e run' =>
      rw [hread] at h
      cases h with
      | error h => exact .error h

theorem pure {a : α} (h : Q a run) : Reaches (Pure.pure a : Recover α) run Q E := .ok h

theorem throw {d : Diagnostic} (h : E d run) :
    Reaches (MonadExcept.throw d : Recover α) run Q E :=
  .error h

theorem bind {read : Recover α} {next : α → Recover β} (h : Reaches read run Q E)
    (hnext : ∀ a run', Q a run' → Reaches (next a) run' R E) :
    Reaches (read >>= next) run R E := by
  change Lands R E (EStateM.bind read next run)
  unfold Reaches at h
  rw [EStateM.bind]
  cases hread : read run with
  | ok a run' =>
      rw [hread] at h
      cases h with
      | ok h => exact hnext a run' h
  | error e run' =>
      rw [hread] at h
      cases h with
      | error h => exact .error h

theorem get {next : Run → Recover β} (h : Reaches (next run) run R E) :
    Reaches (MonadState.get >>= next) run R E :=
  h

theorem lift_error {read : Read α} {c : Cursor} {e : Diagnostic}
    (herror : read run.cursor = .error e c) (h : E e ⟨c, run.log⟩) :
    Reaches (monadLift read : Recover α) run Q E := by
  unfold Reaches
  rw [Recover.lift_run, herror]
  exact .error h

theorem ite {p : Prop} [Decidable p] {yes no : Recover α} (hyes : p → Reaches yes run Q E)
    (hno : ¬p → Reaches no run Q E) : Reaches (if p then yes else no) run Q E := by
  split
  · exact hyes ‹_›
  · exact hno ‹_›

theorem halted {next : Bool → Recover β} (h : Reaches (next run.log.halted) run R E) :
    Reaches (Recover.halted >>= next) run R E :=
  h

theorem report {d : Diagnostic} {next : Unit → Recover β}
    (h : ∀ log, Reaches (next ()) ⟨run.cursor, log⟩ R E) :
    Reaches (Recover.report d >>= next) run R E :=
  h _

/-- What follows a reader whose failure is caught. -/
theorem caught {read : Recover α} {next : Except Diagnostic α → Recover β}
    (h : Reaches read run Q E)
    (hok : ∀ a run', Q a run' → Reaches (next (.ok a)) run' R E')
    (hfail : ∀ e run', E e run' → Reaches (next (.error e)) run' R E') :
    Reaches (Recover.attempt read >>= next) run R E' := by
  change Lands R E' (EStateM.bind (Recover.attempt read) next run)
  unfold Reaches at h
  rw [EStateM.bind, Recover.attempt]
  cases hread : read run with
  | ok a run' =>
      rw [hread] at h
      cases h with
      | ok h => exact hok a run' h
  | error e run' =>
      rw [hread] at h
      cases h with
      | error h => exact hfail e run' h

theorem peek {next : Option Kind → Recover β} (h : Reaches (next run.cursor.peek) run R E) :
    Reaches ((monadLift Read.peek : Recover (Option Kind)) >>= next) run R E :=
  h

theorem here {next : Nat → Recover β} (h : ∀ place, Reaches (next place) run R E) :
    Reaches ((monadLift Read.here : Recover Nat) >>= next) run R E :=
  h _

theorem ifAt {kind : Kind} {yes no : Recover β}
    (hyes : run.cursor.peek = some kind → Reaches yes run R E)
    (hno : run.cursor.peek ≠ some kind → Reaches no run R E) :
    Reaches ((monadLift (Read.isAt kind) : Recover Bool) >>= fun found =>
      if found = true then yes else no) run R E := by
  change Reaches (if run.cursor.isAt kind = true then yes else no) run R E
  by_cases hpeek : run.cursor.peek = some kind
  · rw [if_pos (by simp [Cursor.isAt, hpeek])]
    exact hyes hpeek
  · rw [if_neg (by simp [Cursor.isAt, hpeek])]
    exact hno hpeek

theorem expect {kind : Kind} {next : Span → Recover β}
    (hyes : run.cursor.peek = some kind →
      ∀ span, Reaches (next span) ⟨run.cursor.pass, run.log⟩ R E)
    (hno : E (run.cursor.unexpected [kind]) run) :
    Reaches ((monadLift (Read.expect kind) : Recover Span) >>= next) run R E := by
  change Lands R E (EStateM.bind (monadLift (Read.expect kind) : Recover Span) next run)
  rw [EStateM.bind, Recover.lift_run]
  by_cases hpeek : run.cursor.peek = some kind
  · rw [Read.expect_of_peek hpeek]
    exact hyes hpeek _
  · rw [Read.expect_of_ne hpeek]
    exact .error hno

theorem ifEaten {kind : Kind} {yes no : Recover β}
    (hyes : run.cursor.peek = some kind → Reaches yes ⟨run.cursor.pass, run.log⟩ R E)
    (hno : run.cursor.peek ≠ some kind → Reaches no run R E) :
    Reaches ((monadLift (Read.eat kind) : Recover Bool) >>= fun found =>
      if found = true then yes else no) run R E := by
  change Lands R E (EStateM.bind (monadLift (Read.eat kind) : Recover Bool) _ run)
  rw [EStateM.bind, Recover.lift_run]
  by_cases hpeek : run.cursor.peek = some kind
  · rw [Read.eat_of_peek hpeek]
    exact hyes hpeek
  · rw [Read.eat_of_ne hpeek]
    exact hno hpeek

/-- A loop gets where its steps get, one after the other. -/
theorem iterateUpTo {step : α → Recover (ForInStep α)} {I Q : α → Run → Prop}
    {E : Diagnostic → Run → Prop}
    (hstop : ∀ a run, I a run → Q a run)
    (hstep : ∀ a run, I a run → Reaches (step a) run (StepKeeps I Q) E) (bound : Nat) (a : α)
    (run : Run) (h : I a run) : Reaches (Lustre.iterateUpTo step bound a) run Q E := by
  induction bound generalizing a run with
  | zero => exact .pure (hstop a run h)
  | succ bound ih =>
      refine .bind (hstep a run h) fun next run' hnext => ?_
      cases next with
      | done a => exact .pure hnext
      | yield a => exact ih a run' hnext

/-- A loop of which every round passes a token ends where one of its steps ends it. -/
theorem iterate_of_advancing {step : α → Recover (ForInStep α)} {I Q : α → Run → Prop}
    {E : Diagnostic → Run → Prop} (hadvancing : Recover.Advancing step)
    (hstep : ∀ a run, I a run → Reaches (step a) run (StepKeeps I Q) E) {a : α} {run : Run}
    (h : I a run) : Reaches (Recover.iterate a step) run Q E := by
  -- the loop is bounded by the tokens left, so its bound is never what ends it
  have hbounded : ∀ bound a run, run.left < bound → I a run →
      Reaches (Lustre.iterateUpTo step bound a) run Q E := by
    intro bound
    induction bound with
    | zero => exact fun a run hlt _ => absurd hlt (Nat.not_lt_zero _)
    | succ bound ih =>
        intro a run hlt h
        refine .bind ((hstep a run h).and_meets (hadvancing a run)) fun next run' hnext => ?_
        cases next with
        | done a => exact .pure hnext.1
        | yield a =>
            have hless : run'.left < run.left := hnext.2
            exact ih a run' (by omega) hnext.1
  exact .get (hbounded _ a run (Nat.lt_succ_self _) h)

end Reaches

end Lustre
