import Lustre.Proofs.Reader.Recovery
import Lustre.Proofs.Reread.Signature

/-!
# Reading printed declarations without a report

Where everything is read back, only the limit on nesting can make a reader fail, and
then the failure is reported sooner or later.  `Restores` says this of a reader that may report
and go on: from a log that is open, it answers what was printed and leaves the log alone, or it
fails by the limit, or something nested too deeply was reported (`Restored`).

Things printed one after another, with gaps between, are followed by `Listed`.
-/

namespace Lustre

open Chunk

variable {α β σ : Type}

/-! ## Logs -/

namespace Log

/-- A log that takes diagnostics as they are. -/
structure Open (log : Log) : Prop where
  going : log.halted = false
  whole : log.truncated = false

/-- Something nested too deeply was reported. -/
def Deep (log : Log) : Prop := ∃ d ∈ log.entries, d.cause = .nestedTooDeeply

theorem Deep.extended {log log' : Log} (h : log.Deep) (hlater : log.Extended log') : log'.Deep := by
  obtain ⟨d, hmem, hcause⟩ := h
  exact ⟨d, hlater.entries.subset hmem, hcause⟩

theorem Open.deep_record {log : Log} (h : log.Open) (c : Cursor) {d : Diagnostic}
    (hcause : d.cause = .nestedTooDeeply) : (log.record c d).Deep := by
  refine ⟨d, ?_, hcause⟩
  unfold record
  rw [if_neg (by simp [h.going]), if_neg (by simp [h.whole])]
  dsimp only
  split <;> simp

end Log

/-! ## What comes of a run -/

/-- A run that began with `log` answered with what `Q` asks for and no report, or it failed by the
limit on nesting, or something nested too deeply was reported. -/
inductive Restored (log : Log) (Q : α → Cursor → Prop) : EStateM.Result Diagnostic Run α → Prop
  | answered {a : α} {c : Cursor} (h : Q a c) : Restored log Q (.ok a ⟨c, log⟩)
  | failed {e : Diagnostic} {c : Cursor} (h : e.cause = .nestedTooDeeply) :
      Restored log Q (.error e ⟨c, log⟩)
  | reported {result : EStateM.Result Diagnostic Run α} (h : (finalState result).log.Deep) :
      Restored log Q result

/-- Whatever log is open, `read` answers from `c` with what `Q` asks for, up to the limit on
nesting. -/
def Restores (read : Recover α) (c : Cursor) (Q : α → Cursor → Prop) : Prop :=
  ∀ log : Log, log.Open → Restored log Q (read ⟨c, log⟩)

namespace Restores

variable {c : Cursor} {P Q : α → Cursor → Prop} {R : β → Cursor → Prop} {kind : Kind}

theorem mono {read : Recover α} (h : Restores read c P) (hPQ : ∀ a c', P a c' → Q a c') :
    Restores read c Q := by
  intro log hopen
  have hrestored := h log hopen
  generalize read ⟨c, log⟩ = result at hrestored ⊢
  cases hrestored with
  | answered h => exact .answered (hPQ _ _ h)
  | failed h => exact .failed h
  | reported h => exact .reported h

theorem pure {a : α} (h : Q a c) : Restores (Pure.pure a) c Q := fun _ _ => .answered h

theorem bindPure {a : α} {next : α → Recover β} (h : Restores (next a) c R) :
    Restores (Pure.pure a >>= next) c R :=
  h

theorem get {next : Run → Recover β} (h : ∀ log, Restores (next ⟨c, log⟩) c R) :
    Restores (MonadState.get >>= next) c R :=
  fun log hopen => h log log hopen

/-- What was reported by the first reader stays reported. -/
theorem bind {read : Recover α} {next : α → Recover β} (h : Restores read c P)
    (hnext : ∀ a c', P a c' → Restores (next a) c' R) [hregular : ∀ a, Regular (next a)] :
    Restores (read >>= next) c R := by
  intro log hopen
  have hrestored := h log hopen
  change Restored log R (EStateM.bind read next ⟨c, log⟩)
  unfold EStateM.bind
  generalize read ⟨c, log⟩ = result at hrestored ⊢
  cases hrestored with
  | answered ha => exact hnext _ _ ha log hopen
  | failed he => exact .failed he
  | reported hdeep =>
      cases result with
      | ok a run => exact .reported (hdeep.extended ((hregular a).extended run))
      | error e run => exact .reported hdeep

/-- What follows a reader that reports nothing. -/
theorem read {read : Read α} {next : α → Recover β} (h : Gives read c P)
    (hnext : ∀ a c', P a c' → Restores (next a) c' R) :
    Restores ((monadLift read : Recover α) >>= next) c R := by
  intro log hopen
  unfold Gives at h
  change Restored log R (EStateM.bind (monadLift read) next ⟨c, log⟩)
  unfold EStateM.bind
  rw [Recover.lift_run]
  cases hread : read c with
  | ok a c' =>
      rw [hread] at h
      exact hnext a c' h log hopen
  | error e c' =>
      rw [hread] at h
      exact .failed h

/-- A failure that is caught is one by the limit on nesting. -/
theorem attempt {read : Recover α} (h : Restores read c P) : Restores (Recover.attempt read) c
    fun result c' => match result with
      | .ok a => P a c'
      | .error e => e.cause = .nestedTooDeeply := by
  intro log hopen
  have hrestored := h log hopen
  unfold Recover.attempt
  generalize read ⟨c, log⟩ = result at hrestored ⊢
  cases hrestored with
  | answered ha => exact .answered ha
  | failed he => exact .answered he
  | reported hdeep => cases result <;> exact .reported hdeep

/-- What follows a reader whose failure is caught. -/
theorem caught {read : Recover α} {next : Except Diagnostic α → Recover β} (h : Restores read c P)
    (hok : ∀ a c', P a c' → Restores (next (.ok a)) c' R)
    (hfail : ∀ e c', e.cause = .nestedTooDeeply → Restores (next (.error e)) c' R)
    [hregular : ∀ a, Regular (next (.ok a))] [hregularFail : ∀ e, Regular (next (.error e))] :
    Restores (Recover.attempt read >>= next) c R := by
  have hnext : ∀ result, Regular (next result) := by
    intro result
    cases result with
    | ok a => exact hregular a
    | error e => exact hregularFail e
  refine bind h.attempt fun result c' hresult => ?_
  cases result with
  | ok a => exact hok a c' hresult
  | error e => exact hfail e c' hresult

/-- What follows a reader that reports nothing, and whose failure is caught. -/
theorem caughtRead {read : Read α} {next : Except Diagnostic α → Recover β} (h : Gives read c P)
    (hok : ∀ a c', P a c' → Restores (next (.ok a)) c' R)
    (hfail : ∀ e c', e.cause = .nestedTooDeeply → Restores (next (.error e)) c' R) :
    Restores (Recover.attempt (monadLift read) >>= next) c R := by
  intro log hopen
  unfold Gives at h
  change Restored log R (EStateM.bind (Recover.attempt (monadLift read)) next ⟨c, log⟩)
  unfold EStateM.bind
  cases hread : read c with
  | ok a c' =>
      rw [hread] at h
      rw [Recover.attempt_ok (Recover.lift_ok hread)]
      exact hok a c' h log hopen
  | error e c' =>
      rw [hread] at h
      rw [Recover.attempt_error (Recover.lift_error hread)]
      exact hfail e c' h log hopen

/-- What follows a step that is known to succeed, and whose failure would be caught. -/
theorem caughtAfter {read : Read α} {next : Except Diagnostic α → Recover β} {a : α} {c' : Cursor}
    (hread : read c = .ok a c') (h : Restores (next (.ok a)) c' R) :
    Restores (Recover.attempt (monadLift read) >>= next) c R := by
  intro log hopen
  change Restored log R (EStateM.bind (Recover.attempt (monadLift read)) next ⟨c, log⟩)
  unfold EStateM.bind
  rw [Recover.attempt_ok (Recover.lift_ok hread)]
  exact h log hopen

theorem throw {d : Diagnostic} (hcause : d.cause = .nestedTooDeeply) :
    Restores (MonadExcept.throw d) c Q :=
  fun _ _ => .failed hcause

/-- A failure by the limit on nesting that is reported. -/
theorem report {d : Diagnostic} {next : Unit → Recover β} (hcause : d.cause = .nestedTooDeeply)
    [hregular : Regular (next ())] : Restores (Recover.report d >>= next) c R := by
  intro log hopen
  have hdeep := hopen.deep_record c hcause
  exact .reported (hdeep.extended (hregular.extended ⟨c, log.record c d⟩))

theorem halted {next : Bool → Recover β} (h : Restores (next false) c R) :
    Restores (Recover.halted >>= next) c R := by
  intro log hopen
  change Restored log R (next log.halted ⟨c, log⟩)
  rw [hopen.going]
  exact h log hopen

/-! ### The next token -/

/-- A step that is known to succeed. -/
theorem after {read : Read α} {next : α → Recover β} {a : α} {c' : Cursor}
    (hread : read c = .ok a c') (h : Restores (next a) c' R) :
    Restores ((monadLift read : Recover α) >>= next) c R := by
  refine Restores.read (P := fun b c'' => b = a ∧ c'' = c') ?_ ?_
  · rw [Gives, hread]
    exact ⟨rfl, rfl⟩
  · rintro b c'' ⟨rfl, rfl⟩
    exact h

theorem here {next : Nat → Recover β} (h : ∀ start, Restores (next start) c R) :
    Restores ((monadLift Read.here : Recover Nat) >>= next) c R :=
  after rfl (h _)

theorem spanFrom {start : Nat} {next : Span → Recover β} (h : ∀ span, Restores (next span) c R) :
    Restores ((monadLift (Read.spanFrom start) : Recover Span) >>= next) c R :=
  after rfl (h _)

theorem advance {next : Unit → Recover β} (h : Restores (next ()) c.pass R) :
    Restores ((monadLift Read.advance : Recover Unit) >>= next) c R :=
  after rfl h

/-- What comes next is known. -/
theorem peekAs {next : Option Kind → Recover β} {found : Option Kind} (hpeek : c.peek = found)
    (h : Restores (next found) c R) :
    Restores ((monadLift Read.peek : Recover (Option Kind)) >>= next) c R := by
  subst hpeek
  exact after rfl h

theorem eat_yes {next : Bool → Recover β} (hpeek : c.peek = some kind)
    (h : Restores (next true) c.pass R) :
    Restores ((monadLift (Read.eat kind) : Recover Bool) >>= next) c R :=
  after (Read.eat_of_peek hpeek) h

theorem eat_no {next : Bool → Recover β} (hpeek : c.peek ≠ some kind)
    (h : Restores (next false) c R) :
    Restores ((monadLift (Read.eat kind) : Recover Bool) >>= next) c R :=
  after (Read.eat_of_ne hpeek) h

theorem expect {next : Span → Recover β} (hpeek : c.peek = some kind)
    (h : ∀ span, Restores (next span) c.pass R) :
    Restores ((monadLift (Read.expect kind) : Recover Span) >>= next) c R :=
  after (Read.expect_of_peek hpeek) (h _)

theorem located {read : Recover α} {R : Located α → Cursor → Prop} [Regular read]
    (h : Restores read c fun a c' => ∀ span, R ⟨a, span⟩ c') :
    Restores (Recover.located read) c R :=
  here fun _ => bind h fun _ _ ha => spanFrom fun span => pure (ha span)

theorem regainLocated [Rebuildable α] {read : Recover α} {a : Located α} {later : List Chunk}
    [Regular read] (h : Restores read c (Regains a.value later)) :
    Restores (Recover.located read) c (Regains a later) :=
  located (h.mono fun _ _ hread _ => ⟨congrArg Located.nowhere hread.1, hread.2⟩)

end Restores

/-- An answer that was read whole, or what there is of one that the limit on nesting broke off. -/
def Unbroken (Q : α → Cursor → Prop) : Partial α → Cursor → Prop
  | (a, none), c => Q a c
  | (_, some e), _ => e.cause = .nestedTooDeeply

/-! ## Loops -/

/-- A loop from `a` on restores what `Q` says, whatever its bound, if that exceeds the number of
tokens to come. -/
def LoopRestores (step : α → Recover (ForInStep α)) (a : α) (c : Cursor) (Q : α → Cursor → Prop) :
    Prop :=
  ∀ bound, c.rest.length < bound → Restores (iterateUpTo step bound a) c Q

namespace LoopRestores

variable {step : α → Recover (ForInStep α)} {a : α} {c : Cursor} {Q : α → Cursor → Prop}

/-- One step, after which the loop has ended or goes on with fewer tokens to come. -/
theorem next [∀ a, Regular (step a)] (h : Restores (step a) c
    (StepKeeps (fun a' c' => c'.rest.length < c.rest.length ∧ LoopRestores step a' c' Q) Q)) :
    LoopRestores step a c Q := by
  intro bound hbound
  cases bound with
  | zero => omega
  | succ bound =>
      rw [iterateUpTo_eq_bind]
      refine .bind h fun result c' hresult => ?_
      cases result with
      | done a' => exact .pure hresult
      | yield a' => exact hresult.2 bound (by have := hresult.1; omega)

theorem iterate (h : LoopRestores step a c Q) : Restores (Recover.iterate a step) c Q :=
  .get fun _ => h _ (Nat.lt_succ_self _)

end LoopRestores

/-! ## Things printed one after another -/

/-- Chunks of some things one after another, with gaps before and between them. -/
inductive Listed (print : β → List Chunk) : List β → List Chunk → Prop
  | nil : Listed print [] []
  | cons {x : β} {xs : List β} {chunks : List Chunk} (h : Listed print xs chunks) :
      Listed print (x :: xs) (print x ++ chunks)
  | gap {text : String} {xs : List β} {chunks : List Chunk} (h : Listed print xs chunks) :
      Listed print xs (.gap text :: chunks)

namespace Listed

variable {print : β → List Chunk} {xs : List β}

theorem flatMap (xs : List β) : Listed print xs (xs.flatMap print) := by
  induction xs with
  | nil => exact .nil
  | cons x xs ih => exact .cons ih

/-- Each on a line of its own that ends with a semicolon. -/
theorem flatMap_entry (xs : List β) :
    Listed (fun x => print x ++ [sign .semi]) xs (xs.flatMap fun x => entry (print x)) := by
  induction xs with
  | nil => exact .nil
  | cons x xs ih =>
      have hline : entry (print x) ++ (xs.flatMap fun x => entry (print x)) =
          .gap "    " :: ((print x ++ [sign .semi]) ++
            newline :: xs.flatMap fun x => entry (print x)) := by
        simp [entry]
      rw [List.flatMap_cons, hline]
      exact .gap (.cons (.gap ih))

/-- Each on lines of its own, with an empty line before it. -/
theorem flatMap_newline (xs : List β) :
    Listed print xs (xs.flatMap fun x => newline :: print x) := by
  induction xs with
  | nil => exact .nil
  | cons x xs ih => exact .gap (.cons ih)

variable {chunks later : List Chunk} {c : Cursor}

/-- Where nothing is listed, there are only gaps. -/
theorem shows_nil (h : Listed print [] chunks) (hshows : c.Shows (chunks ++ later)) :
    c.Shows later := by
  generalize hempty : ([] : List β) = none at h
  induction h with
  | nil => exact hshows
  | cons => cases hempty
  | gap _ ih => exact ih hshows.gap hempty

/-- What holds of what each thing begins, and of what follows all of them if there are none, holds
of the whole. -/
theorem good (h : Listed print xs chunks) (Good : List Chunk → Prop) (later : List Chunk)
    (hlater : xs = [] → Good later) (hgood : ∀ x ∈ xs, ∀ more, Good (print x ++ more))
    (hgap : ∀ text chunks, Good chunks → Good (.gap text :: chunks)) : Good (chunks ++ later) := by
  induction h with
  | nil => exact hlater rfl
  | @cons x xs chunks _ _ =>
      rw [List.append_assoc]
      exact hgood x List.mem_cons_self _
  | gap _ ih => exact hgap _ _ (ih hlater hgood)

end Listed

/-- A loop that reads one thing in each step, up to where it ends.  What follows a thing is one of
the things or what follows all of them, and so it is `Good`. -/
theorem loopRestores_listed [Rebuildable α] {step : σ → Recover (ForInStep σ)}
    [∀ s, Regular (step s)] (build : List α → σ) (Good : List Chunk → Prop) {print : α → List Chunk}
    {Q : σ → Cursor → Prop} {later : List Chunk} {all : List α}
    (hstop : ∀ read c, Regains all later read c →
      Restores (step (build read)) c (StepKeeps (fun _ _ => False) Q))
    (hlater : Good later) (hgap : ∀ text chunks, Good chunks → Good (.gap text :: chunks))
    {xs : List α} {chunks : List Chunk} (hlisted : Listed print xs chunks)
    (hgood : ∀ x ∈ xs, kinds (print x) ≠ [] ∧ ∀ more, Good (print x ++ more))
    (hstep : ∀ x ∈ xs, ∀ done c more, Good more → c.Shows (print x ++ more) →
      Restores (step (build done)) c (StepKeeps (fun s c' =>
        ∃ read, s = build (done ++ [read]) ∧ Regains x more read c') Q))
    {done : List α} {c : Cursor}
    (hdone : done.map (rebuild Expr.keep) ++ xs.map (rebuild (Expr.settle false)) =
      rebuild (Expr.settle false) all)
    (hshows : c.Shows (chunks ++ later)) : LoopRestores step (build done) c Q := by
  induction hlisted generalizing done c with
  | nil =>
      rw [List.map_nil, List.append_nil] at hdone
      refine .next ((hstop done c ⟨hdone, hshows⟩).mono fun next c' h => ?_)
      cases next with
      | done s => exact h
      | yield s => exact h.elim
  | gap _ ih => exact ih hgood hstep hdone hshows.gap
  | @cons x xs chunks hrest ih =>
      rw [List.append_assoc] at hshows
      -- what follows this entry is another one, or what follows all of them
      have hmore : Good (chunks ++ later) := hrest.good Good later (fun _ => hlater)
        (fun y hy => (hgood y (List.mem_cons_of_mem _ hy)).2) hgap
      refine .next ((hstep x List.mem_cons_self done c _ hmore hshows).mono fun next c' h => ?_)
      cases next with
      | done s => exact h
      | yield s =>
          obtain ⟨read, rfl, hread⟩ := h
          refine ⟨hshows.length_lt (hgood x List.mem_cons_self).1 hread.2, ?_⟩
          refine ih (fun y hy => hgood y (List.mem_cons_of_mem _ hy))
            (fun y hy => hstep y (List.mem_cons_of_mem _ hy)) ?_ hread.2
          rw [← hdone, List.map_append, List.map_cons, List.append_assoc, List.map_cons, hread.1]
          rfl

/-- The whole loop, from none of the things on. -/
theorem restores_listed [Rebuildable α] {step : σ → Recover (ForInStep σ)}
    [∀ s, Regular (step s)] (build : List α → σ) (Good : List Chunk → Prop) {print : α → List Chunk}
    {Q : σ → Cursor → Prop} {later : List Chunk} {xs : List α} {chunks : List Chunk}
    (hlisted : Listed print xs chunks)
    (hgood : ∀ x ∈ xs, kinds (print x) ≠ [] ∧ ∀ more, Good (print x ++ more))
    (hlater : Good later) (hgap : ∀ text chunks, Good chunks → Good (.gap text :: chunks))
    (hstep : ∀ x ∈ xs, ∀ done c more, Good more → c.Shows (print x ++ more) →
      Restores (step (build done)) c (StepKeeps (fun s c' =>
        ∃ read, s = build (done ++ [read]) ∧ Regains x more read c') Q))
    (hstop : ∀ read c, Regains xs later read c →
      Restores (step (build read)) c (StepKeeps (fun _ _ => False) Q))
    {c : Cursor} (hshows : c.Shows (chunks ++ later)) :
    Restores (Recover.iterate (build []) step) c Q :=
  (loopRestores_listed build Good hstop hlater hgap hlisted hgood hstep rfl hshows).iterate

/-- A loop that reads one thing in each step, and goes on if another comes next. -/
theorem loopRestores_going [Rebuildable α] {step : σ → Recover (ForInStep σ)}
    [∀ s, Regular (step s)] (build : List α → σ) (Goes : List Chunk → Prop) {print : α → List Chunk}
    {Q : σ → Cursor → Prop} {later : List Chunk} {all : List α}
    (hdone : ∀ read c, Regains all later read c → Q (build read) c) (hlater : ¬Goes later)
    (hgap : ∀ text chunks, Goes (.gap text :: chunks) ↔ Goes chunks)
    {xs : List α} {chunks : List Chunk} (hlisted : Listed print xs chunks) (hnil : xs ≠ [])
    (hgoes : ∀ x ∈ xs, kinds (print x) ≠ [] ∧ ∀ more, Goes (print x ++ more))
    (hstep : ∀ x ∈ xs, ∀ done c more, c.Shows (print x ++ more) →
      Restores (step (build done)) c (StepKeeps
        (fun s c' => Goes more ∧ ∃ read, s = build (done ++ [read]) ∧ Regains x more read c')
        (fun s c' => Q s c' ∨
          ¬Goes more ∧ ∃ read, s = build (done ++ [read]) ∧ Regains x more read c')))
    {done : List α} {c : Cursor}
    (hall : done.map (rebuild Expr.keep) ++ xs.map (rebuild (Expr.settle false)) =
      rebuild (Expr.settle false) all)
    (hshows : c.Shows (chunks ++ later)) : LoopRestores step (build done) c Q := by
  induction hlisted generalizing done c with
  | nil => exact absurd rfl hnil
  | gap _ ih => exact ih hnil hgoes hstep hall hshows.gap
  | @cons x xs chunks hrest ih =>
      rw [List.append_assoc] at hshows
      have hread : ∀ {read : α}, rebuild Expr.keep read = rebuild (Expr.settle false) x →
          (done ++ [read]).map (rebuild Expr.keep) ++ xs.map (rebuild (Expr.settle false)) =
            rebuild (Expr.settle false) all := by
        intro read hread
        rw [← hall]
        simp [hread]
      refine .next ((hstep x List.mem_cons_self done c _ hshows).mono fun next c' h => ?_)
      cases xs with
      | nil =>
          have hstop : ¬Goes (chunks ++ later) :=
            hrest.good _ later (fun _ => hlater) (by simp) fun text chunks =>
              mt (hgap text chunks).mp
          cases next with
          | yield s => exact absurd h.1 hstop
          | done s =>
              rcases h with h | ⟨-, read, rfl, hregains⟩
              · exact h
              · -- the last entry ends the loop, and all of them have been read
                have hlast := hread hregains.1
                rw [List.map_nil, List.append_nil] at hlast
                exact hdone _ _ ⟨hlast, hrest.shows_nil hregains.2⟩
      | cons y ys =>
          -- more entries follow, so the loop goes on
          have hmore : Goes (chunks ++ later) := hrest.good Goes later (by simp)
            (fun z hz => (hgoes z (List.mem_cons_of_mem _ hz)).2) fun _ _ => (hgap _ _).mpr
          cases next with
          | done s => exact h.resolve_right fun hstop => hstop.1 hmore
          | yield s =>
              obtain ⟨-, read, rfl, hregains⟩ := h
              refine ⟨hshows.length_lt (hgoes x List.mem_cons_self).1 hregains.2, ?_⟩
              exact ih (by simp) (fun z hz => hgoes z (List.mem_cons_of_mem _ hz))
                (fun z hz => hstep z (List.mem_cons_of_mem _ hz)) (hread hregains.1) hregains.2

end Lustre
