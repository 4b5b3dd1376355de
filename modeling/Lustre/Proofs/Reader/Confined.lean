import Lustre.Proofs.Reader.Follows

/-!
# Places lie before the end of the last token

The end of the text occurs only in diagnostics, and only in those that are reported at
the end of the tokens.  No place in a tree lies behind the last token, even if the tree
is what was kept of something broken.

For readers that report nothing this follows from what they do in front of other tokens
(`Context.Carries`): the end of the text is another one there, but the answer is the
same, and so is the failure if it is one at a token.  What recovery adds are spans that
begin at a token (`Confines`).
-/

namespace Lustre

open Movable LawfulMovable

variable {α β : Type} {stop : Nat}

/-- No offset in it lies behind byte `stop`. -/
def Confined [Movable α] (stop : Nat) (a : α) : Prop := move (min · stop) a = a

namespace Confined

theorem concat [Movable α] {items : List α} {item : α} (h : Confined stop items)
    (hitem : Confined stop item) : Confined stop (items ++ [item]) := by
  unfold Confined at h hitem ⊢
  rw [move_append, move_cons, move_nil, h, hitem]

theorem mk [Movable α] {value : α} {span : Span} (h : Confined stop value)
    (hspan : Confined stop span) : Confined stop (⟨value, span⟩ : Located α) := by
  unfold Confined at h hspan ⊢
  rw [Located.move_mk, h, hspan]

/-- What lies behind is moved in vain. -/
theorem moved [Movable α] [LawfulMovable α] {a : α} (h : Confined stop a) {place : Nat → Nat}
    (hplace : ∀ offset ≤ stop, place offset = offset) : move place a = a := by
  have hsame : place ∘ (min · stop) = (min · stop) := by
    funext offset
    exact hplace _ (Nat.min_le_right _ _)
  calc move place a
    _ = move place (move (min · stop) a) := by rw [show move (min · stop) a = a from h]
    _ = move (min · stop) a := by rw [move_move]; exact congrArg (move · a) hsame
    _ = a := h

/-- A diagnostic has no other offsets than those of its span. -/
theorem diagnostic {cause : Cause} {span : Span} (h : Confined stop span) :
    Confined stop (⟨cause, span⟩ : Diagnostic) :=
  congrArg (Diagnostic.mk cause) h

end Confined

/-- Neither the last token passed nor one to come ends behind byte `stop`. -/
structure Cursor.Within (stop : Nat) (c : Cursor) : Prop where
  rest : ∀ token ∈ c.rest, token.span.start ≤ stop ∧ token.span.stop ≤ stop
  last : c.last ≤ stop

namespace Cursor.Within

variable {c c' : Cursor}

theorem onward (hc : c.Within stop) (h : c.Onward c') : c'.Within stop :=
  ⟨fun token htoken => hc.rest token (h.suffix.subset htoken),
    h.last_le hc.last fun token htoken => (hc.rest token htoken).2⟩

/-- The tokens are not moved if only what lies behind them is. -/
theorem move_rest (hc : c.Within stop) {place : Nat → Nat}
    (hplace : ∀ offset ≤ stop, place offset = offset) : move place c.rest = c.rest := by
  rw [move_list]
  refine (List.map_congr_left fun token htoken => ?_).trans c.rest.map_id
  obtain ⟨hstart, hstop⟩ := hc.rest token htoken
  change (⟨token.kind, token.text, ⟨place token.span.start, place token.span.stop, _⟩⟩ : Token) = _
  rw [hplace _ hstart, hplace _ hstop]
  rfl

/-- A span that begins at a token to come. -/
theorem confined_spanFrom (hc : c.Within stop) {start : Nat} (hstart : start ≤ stop) :
    Confined stop (c.spanFrom start) := by
  have hlast := hc.last
  change (⟨min start stop, min (max c.last start) stop, 0⟩ : Span) = ⟨start, max c.last start, 0⟩
  congr 1 <;> omega

/-- The place of the next token. -/
theorem confined_span (hc : c.Within stop) (hrest : c.rest ≠ []) :
    Confined stop c.span ∧ c.span.start ≤ stop := by
  obtain ⟨token, rest, htokens⟩ := List.exists_cons_of_ne_nil hrest
  have hspan : c.span = token.span := by rw [Cursor.span, htokens]
  obtain ⟨hstart, hstop⟩ := hc.rest token (by rw [htokens]; exact List.mem_cons_self)
  rw [hspan]
  refine ⟨?_, hstart⟩
  change (⟨min token.span.start stop, min token.span.stop stop, _⟩ : Span) = _
  rw [Nat.min_eq_left hstart, Nat.min_eq_left hstop]

end Cursor.Within

/-! ## Readers that report nothing -/

/-- A context in which an item follows. -/
def Context.beforeItem (place : Nat → Nat) (mono : ∀ a b, a ≤ b → place a ≤ place b) : Context where
  place := place
  later := [⟨.kwNode, "node", .point 0⟩]
  mono := mono
  opens := by decide

namespace Cursor.Within

variable {c : Cursor}

/-- In front of an item, nothing is changed if only what lies behind the tokens is moved. -/
theorem beside (hc : c.Within stop) {place : Nat → Nat} (mono : ∀ a b, a ≤ b → place a ≤ place b)
    (hplace : ∀ offset ≤ stop, place offset = offset) :
    (Context.beforeItem place mono).Beside c
      { c with rest := c.rest ++ [⟨.kwNode, "node", .point 0⟩] } := by
  refine ⟨?_, fun start => ?_, nofun, fun first second hpair _ hjoined => ?_⟩
  · change _ = move place c.rest ++ _
    rw [hc.move_rest hplace]
    rfl
  · change max c.last (place start) = place (max c.last start)
    rcases Nat.le_total c.last start with hle | hle
    · have hlater := mono _ _ hle
      rw [hplace _ hc.last] at hlater
      rw [Nat.max_eq_right hle, Nat.max_eq_right hlater]
    · rw [Nat.max_eq_left hle, hplace _ hc.last, hplace _ (Nat.le_trans hle hc.last),
        Nat.max_eq_left hle]
  · change place first.span.stop = place second.span.start at hjoined
    rwa [hplace _ (hc.rest first (hpair.subset (by simp))).2,
      hplace _ (hc.rest second (hpair.subset (by simp))).1] at hjoined

theorem beside_min (hc : c.Within stop) :
    (Context.beforeItem (min · stop) fun a b h => by omega).Beside c
      { c with rest := c.rest ++ [⟨.kwNode, "node", .point 0⟩] } :=
  hc.beside _ fun _ hle => Nat.min_eq_left hle

theorem beside_id (hc : c.Within stop) :
    (Context.beforeItem id fun _ _ h => h).Beside c
      { c with rest := c.rest ++ [⟨.kwNode, "node", .point 0⟩] } :=
  hc.beside _ fun _ _ => rfl

/-- In front of an item the answer is the same, but the end of the text is another one. -/
theorem meets [Movable α] [LawfulMovable α] (hc : c.Within stop) {read : Read α}
    (h : ∀ M : Context, M.Carries read read) : Meets read c fun a _ => Confined stop a := by
  intro a last hok
  have hfirst := h _ _ _ hc.beside_min
  have hsecond := h _ _ _ hc.beside_id
  unfold Context.Reads Link.Alike at hfirst hsecond
  rw [hok] at hfirst hsecond
  obtain ⟨a₁, last₁, hok₁, rfl, -⟩ := hfirst (.inr trivial)
  obtain ⟨a₂, last₂, hok₂, rfl, -⟩ := hsecond (.inr trivial)
  rw [hok₁] at hok₂
  have hsame := (EStateM.Result.ok.inj hok₂).1
  rwa [show move (Context.beforeItem id _).place a = a from move_id a] at hsame

/-- A failure at a token is the same there, too. -/
theorem fails [Movable α] (hc : c.Within stop) {read : Read α} {good : α → Cursor → Prop}
    (h : ∀ (M : Context) c c', M.Beside c c' → M.cursors.Alike good M.Moved read read c c')
    {e : Diagnostic} {last : Cursor} (herror : read c = .error e last) (hrest : last.rest ≠ []) :
    Confined stop e := by
  have hfirst := h _ _ _ hc.beside_min
  have hsecond := h _ _ _ hc.beside_id
  unfold Link.Alike at hfirst hsecond
  rw [herror] at hfirst hsecond
  obtain ⟨last₁, herror₁, -⟩ := hfirst (.inr hrest)
  obtain ⟨last₂, herror₂, -⟩ := hsecond (.inr hrest)
  rw [herror₁] at herror₂
  exact (EStateM.Result.error.inj herror₂).1

/-- What a reader leaves of the tokens, besides what it reads. -/
theorem meets_and [Movable α] [LawfulMovable α] (hc : c.Within stop) {read : Read α}
    [hread : Forward read] (h : ∀ M : Context, M.Carries read read) :
    Meets read c fun a c' => Confined stop a ∧ c'.Within stop := by
  intro a c' hok
  have honward := hread.onward c
  rw [hok] at honward
  exact ⟨hc.meets h a c' hok, hc.onward honward⟩

/-- Unlike its items, a list that ends where no item begins may go on in front of other tokens. -/
theorem meets_terminated [Movable α] [LawfulMovable α] (hc : c.Within stop) {item : Read α}
    [Forward item] (h : ∀ M : Context, M.Carries item item) (starts : List Kind) :
    Meets (Read.terminated starts item) c fun items _ => Confined stop items := by
  refine .iterate (I := fun items c' => Confined stop items ∧ c'.Within stop) ⟨rfl, hc⟩ ?_
    fun items _ hitems => hitems.1
  rintro items c' ⟨hitems, hc'⟩
  refine .bind (hc'.meets_and h) fun item c₁ hitem => .expect fun _ _ => .peek ?_
  split
  · exact .pure ⟨hitems.concat hitem.1, hitem.2.onward Cursor.Onward.here.pass⟩
  · exact .pure (hitems.concat hitem.1)

end Cursor.Within

/-! ## Runs -/

/-- A diagnostic that lies behind byte `stop` only if the tokens have come to their end. -/
def Run.Places (stop : Nat) (run : Run) (d : Diagnostic) : Prop :=
  run.cursor.rest ≠ [] → Confined stop d

/-- Over tokens that end before byte `stop`, and if they are cut short there, nothing behind them
was reported since the log had the entries `start`, but for a report that halted the run. -/
structure Run.Within (stop : Nat) (start : List Diagnostic) (run : Run) : Prop where
  cursor : run.cursor.Within stop
  log : run.log.truncated = true → ∃ found last, run.log.entries = start ++ found ++ last ∧
    (∀ d ∈ found, Confined stop d) ∧ last.length ≤ 1 ∧ (run.log.halted = false → last = [])

theorem Run.Places.onward {run run' : Run} {d : Diagnostic} (h : run.Places stop d)
    (honward : run.cursor.Onward run'.cursor) : run'.Places stop d := by
  intro hrest
  refine h fun hend => hrest ?_
  rw [honward.eq_of_end hend, hend]

namespace Run.Within

variable {start : List Diagnostic} {run : Run}

/-- Whatever is said of the next token. -/
theorem places (h : run.Within stop start) {cause : Cause} :
    run.Places stop ⟨cause, run.cursor.span⟩ :=
  fun hrest => .diagnostic (h.cursor.confined_span hrest).1

/-- A report at the end of tokens that are cut short halts the run. -/
theorem record (h : run.Within stop start) {d : Diagnostic} (hd : run.Places stop d) :
    Run.Within stop start ⟨run.cursor, run.log.record run.cursor d⟩ := by
  refine ⟨h.cursor, fun htruncated => ?_⟩
  dsimp only at htruncated ⊢
  rw [(Log.extended_record run.log run.cursor d).truncated] at htruncated
  obtain ⟨found, last, hentries, hfound, hlength, hlast⟩ := h.log htruncated
  unfold Log.record
  split
  · exact ⟨found, last, hentries, hfound, hlength, hlast⟩
  · rename_i hrunning
    obtain rfl := hlast (Bool.not_eq_true _ ▸ hrunning)
    rw [List.append_nil] at hentries
    split
    · -- cut short here, the report is the one that halts the run
      refine ⟨found, [⟨.cutShort d.cause, d.span⟩], ?_, hfound, Nat.le_refl _,
        (fun hnot => by cases hnot)⟩
      dsimp only
      rw [hentries]
    · -- a token is left, and the report lies before the end of the text
      rename_i hmore
      have hrest : run.cursor.rest ≠ [] := by
        intro hend
        rw [htruncated, Cursor.atEnd, hend] at hmore
        exact hmore rfl
      have hfound' : ∀ other ∈ found ++ [d], Confined stop other := by
        intro other hother
        rcases List.mem_append.mp hother with hother | hother
        · exact hfound other hother
        · rw [List.mem_singleton.mp hother]
          exact hd hrest
      dsimp only
      split
      · refine ⟨found ++ [d], [⟨.tooManyErrors, run.cursor.span⟩], ?_, hfound', Nat.le_refl _,
          (fun hnot => by cases hnot)⟩
        dsimp only
        rw [hentries, List.append_assoc start found]
      · refine ⟨found ++ [d], [], ?_, hfound', Nat.zero_le _, fun _ => rfl⟩
        rw [hentries, List.append_nil, List.append_assoc]

end Run.Within

/-! ## Readers that recover -/

/-- Over tokens that end before byte `stop`, what is read satisfies `Q`, and no failure lies behind
them, unless it is one at their end; nor does a report, if the tokens are cut short. -/
def Confines (stop : Nat) (start : List Diagnostic) (read : Recover α) (run : Run)
    (Q : α → Run → Prop) : Prop :=
  run.Within stop start →
    (∀ a last, read run = .ok a last → last.Within stop start ∧ Q a last) ∧
      ∀ e last, read run = .error e last → last.Within stop start ∧ last.Places stop e

/-- A reader that goes forward and does nothing else: it reports nothing and does not fail. -/
class Skips (read : Recover α) : Prop where
  skips : ∀ run : Run, ∃ a c, read run = .ok a ⟨c, run.log⟩ ∧ run.cursor.Onward c

namespace Skips

instance (a : α) : Skips (pure a : Recover α) := ⟨fun run => ⟨a, run.cursor, rfl, .here⟩⟩

instance (read : Recover α) (next : α → Recover β) [h : Skips read] [hnext : ∀ a, Skips (next a)] :
    Skips (read >>= next) where
  skips run := by
    obtain ⟨a, c, hread, honward⟩ := h.skips run
    obtain ⟨b, c', hlast, honward'⟩ := (hnext a).skips ⟨c, run.log⟩
    refine ⟨b, c', ?_, honward.trans honward'⟩
    rw [bind_of_ok hread]
    exact hlast

instance (p : Prop) [Decidable p] (yes no : Recover α) [hyes : Skips yes] [hno : Skips no] :
    Skips (if p then yes else no) := by
  split
  · exact hyes
  · exact hno

instance : Skips Recover.remaining := ⟨fun run => ⟨_, run.cursor, rfl, .here⟩⟩

instance (kind : Kind) : Skips (monadLift (Read.isAt kind) : Recover Bool) :=
  ⟨fun run => ⟨_, run.cursor, rfl, .here⟩⟩

instance : Skips (monadLift Read.advance : Recover Unit) :=
  ⟨fun run => ⟨(), run.cursor.pass, rfl, Cursor.Onward.here.pass⟩⟩

instance (kind : Kind) : Skips (monadLift (Read.eat kind) : Recover Bool) where
  skips run := by
    by_cases hpeek : run.cursor.peek = some kind
    · refine ⟨true, run.cursor.pass, ?_, Cursor.Onward.here.pass⟩
      rw [Recover.lift_run, Read.eat_of_peek hpeek]
    · refine ⟨false, run.cursor, ?_, .here⟩
      rw [Recover.lift_run, Read.eat_of_ne hpeek]

instance (scope : Scope) (stops : List Kind) : Skips (Recover.synchronize scope stops) :=
  ⟨fun run => ⟨(), _, rfl, run.cursor.onward_skipUntil _⟩⟩

end Skips

namespace Confines

variable {start : List Diagnostic} {run : Run} {P Q : α → Run → Prop} {R : β → Run → Prop}

theorem pure {a : α} (h : Q a run) : Confines stop start (Pure.pure a : Recover α) run Q := by
  intro hrun
  refine ⟨fun b last hok => ?_, fun e last herror => (by cases herror)⟩
  cases hok
  exact ⟨hrun, h⟩

theorem throw {d : Diagnostic} (h : run.Within stop start → run.Places stop d) :
    Confines stop start (MonadExcept.throw d : Recover α) run Q := by
  intro hrun
  refine ⟨fun a last hok => (by cases hok), fun e last herror => ?_⟩
  cases herror
  exact ⟨hrun, h hrun⟩

theorem bind {read : Recover α} {next : α → Recover β} (h : Confines stop start read run P)
    (hnext : ∀ a run', P a run' → Confines stop start (next a) run' R) :
    Confines stop start (read >>= next) run R := by
  intro hrun
  obtain ⟨hanswers, hfails⟩ := h hrun
  have hbind : (read >>= next) run = EStateM.bind read next run := rfl
  rw [hbind, EStateM.bind]
  cases hread : read run with
  | ok a middle =>
      obtain ⟨hmiddle, ha⟩ := hanswers a middle hread
      exact hnext a middle ha hmiddle
  | error e middle =>
      refine ⟨fun b last hok => (by cases hok), fun e' last herror => ?_⟩
      cases herror
      exact hfails e middle hread

theorem get {next : Run → Recover β}
    (h : run.Within stop start → Confines stop start (next run) run R) :
    Confines stop start (MonadState.get >>= next) run R :=
  fun hrun => h hrun hrun

theorem ite {p : Prop} [Decidable p] {yes no : Recover α} (hyes : p → Confines stop start yes run Q)
    (hno : ¬p → Confines stop start no run Q) :
    Confines stop start (if p then yes else no) run Q := by
  split
  · exact hyes ‹_›
  · exact hno ‹_›

/-- What follows something that only goes forward. -/
theorem after {read : Recover α} {next : α → Recover β} [hskips : Skips read]
    (hnext : ∀ a run', run.cursor.Onward run'.cursor → Confines stop start (next a) run' R) :
    Confines stop start (read >>= next) run R := by
  refine bind (P := fun _ run' => run.cursor.Onward run'.cursor) (fun hrun => ?_) hnext
  obtain ⟨a, c, hread, honward⟩ := hskips.skips run
  rw [hread]
  refine ⟨fun b last hok => ?_, fun e last herror => (by cases herror)⟩
  cases hok
  exact ⟨⟨hrun.cursor.onward honward, hrun.log⟩, honward⟩

/-- A reader that reports nothing. -/
theorem lift' {read : Read α} [hforward : Forward read] {Q : α → Prop}
    (hanswers : run.cursor.Within stop → Meets read run.cursor fun a _ => Q a)
    (hfails : run.cursor.Within stop → ∀ e last, read run.cursor = .error e last → last.rest ≠ [] →
      Confined stop e) :
    Confines stop start (monadLift read : Recover α) run fun a _ => Q a := by
  intro hrun
  have honward := hforward.onward run.cursor
  rw [Recover.lift_run]
  cases hread : read run.cursor with
  | ok a c =>
      rw [hread] at honward
      refine ⟨fun b last hok => ?_, fun e last herror => (by cases herror)⟩
      cases hok
      exact ⟨⟨hrun.cursor.onward honward, hrun.log⟩, hanswers hrun.cursor a c hread⟩
  | error e c =>
      rw [hread] at honward
      refine ⟨fun b last hok => (by cases hok), fun e' last herror => ?_⟩
      cases herror
      exact ⟨⟨hrun.cursor.onward honward, hrun.log⟩, hfails hrun.cursor e c hread⟩

theorem lift [Movable α] [LawfulMovable α] {read : Read α} [Forward read]
    (h : ∀ M : Context, M.Carries read read) :
    Confines stop start (monadLift read : Recover α) run fun a _ => Confined stop a :=
  lift' (fun hc => hc.meets h) fun hc _ _ herror hrest => hc.fails h herror hrest

theorem read [Movable α] [LawfulMovable α] {read : Read α} [Forward read] {next : α → Recover β}
    (h : ∀ M : Context, M.Carries read read)
    (hnext : ∀ a run', Confined stop a → Confines stop start (next a) run' R) :
    Confines stop start ((monadLift read : Recover α) >>= next) run R :=
  bind (lift h) hnext

/-- What follows a reader whose failure is caught. -/
theorem caught {read : Recover α} {next : Except Diagnostic α → Recover β}
    (h : Confines stop start read run P)
    (hok : ∀ a run', P a run' → Confines stop start (next (.ok a)) run' R)
    (hfail : ∀ e run', run'.Places stop e → Confines stop start (next (.error e)) run' R) :
    Confines stop start (Recover.attempt read >>= next) run R := by
  refine bind (P := fun result run' => (∀ a, result = .ok a → P a run') ∧
    ∀ e, result = .error e → run'.Places stop e) (fun hrun => ?_) fun result run' hresult => ?_
  · obtain ⟨hanswers, hfails⟩ := h hrun
    unfold Recover.attempt
    split <;> rename_i hread
    · refine ⟨fun result last hsame => ?_, fun e last herror => (by cases herror)⟩
      cases hsame
      obtain ⟨hlast, ha⟩ := hanswers _ _ hread
      refine ⟨hlast, fun a heq => ?_, fun e heq => (by cases heq)⟩
      cases heq
      exact ha
    · refine ⟨fun result last hsame => ?_, fun e last herror => (by cases herror)⟩
      cases hsame
      obtain ⟨hlast, he⟩ := hfails _ _ hread
      refine ⟨hlast, fun a heq => (by cases heq), fun e heq => ?_⟩
      cases heq
      exact he
  · cases result with
    | ok a => exact hok a run' (hresult.1 a rfl)
    | error e => exact hfail e run' (hresult.2 e rfl)

theorem caughtRead [Movable α] [LawfulMovable α] {read : Read α} [Forward read]
    {next : Except Diagnostic α → Recover β} (h : ∀ M : Context, M.Carries read read)
    (hok : ∀ a run', Confined stop a → Confines stop start (next (.ok a)) run' R)
    (hfail : ∀ e run', run'.Places stop e → Confines stop start (next (.error e)) run' R) :
    Confines stop start (Recover.attempt (monadLift read) >>= next) run R :=
  caught (lift h) hok hfail

theorem halted {next : Bool → Recover β} (h : ∀ stopped, Confines stop start (next stopped) run R) :
    Confines stop start (Recover.halted >>= next) run R :=
  h _

theorem remaining {next : Nat → Recover β} (h : ∀ left, Confines stop start (next left) run R) :
    Confines stop start (Recover.remaining >>= next) run R :=
  h _

theorem report {d : Diagnostic} (hd : run.Within stop start → run.Places stop d)
    {next : Unit → Recover β} (h : ∀ run', Confines stop start (next ()) run' R) :
    Confines stop start (Recover.report d >>= next) run R :=
  fun hrun => h _ (hrun.record (hd hrun))

theorem ifEat {kind : Kind} {yes no : Recover β} (hyes : ∀ run', Confines stop start yes run' R)
    (hno : Confines stop start no run R) :
    Confines stop start ((monadLift (Read.eat kind) : Recover Bool) >>= fun found =>
      if found = true then yes else no) run R := by
  intro hrun
  have hbind : ((monadLift (Read.eat kind) : Recover Bool) >>= fun found =>
      if found = true then yes else no) run =
      EStateM.bind (monadLift (Read.eat kind) : Recover Bool)
        (fun found => if found = true then yes else no) run := rfl
  rw [hbind, EStateM.bind, Recover.lift_run]
  by_cases hpeek : run.cursor.peek = some kind
  · rw [Read.eat_of_peek hpeek]
    exact hyes _ ⟨hrun.cursor.onward Cursor.Onward.here.pass, hrun.log⟩
  · rw [Read.eat_of_ne hpeek]
    exact hno hrun

theorem peek {next : Option Kind → Recover β}
    (h : Confines stop start (next run.cursor.peek) run R) :
    Confines stop start ((monadLift Read.peek : Recover (Option Kind)) >>= next) run R :=
  h

theorem spanFrom {first : Nat} (hfirst : first ≤ stop) {next : Span → Recover β}
    (h : ∀ span, Confined stop span → Confines stop start (next span) run R) :
    Confines stop start ((monadLift (Read.spanFrom first) : Recover Span) >>= next) run R :=
  fun hrun => h _ (hrun.cursor.confined_spanFrom hfirst) hrun

/-- What is read where a token comes begins at that token. -/
theorem located [Movable α] {read : Recover α} (hrest : run.cursor.rest ≠ [])
    (h : Confines stop start read run fun a _ => Confined stop a) :
    Confines stop start (Recover.located read) run fun a _ => Confined stop a := by
  intro hrun
  have hfirst := (hrun.cursor.confined_span hrest).2
  exact (bind h fun a run' ha => spanFrom hfirst fun span hspan => pure (.mk ha hspan)) hrun

/-- A loop confines what all its steps confine. -/
theorem iterate {step : α → Recover (ForInStep α)} {a : α} (h : Q a run)
    (hstep : ∀ a run, Q a run → Confines stop start (step a) run fun next run' =>
      Q next.value run') :
    Confines stop start (Recover.iterate a step) run Q := by
  have hbounded : ∀ bound a run, Q a run →
      Confines stop start (iterateUpTo step bound a) run Q := by
    intro bound
    induction bound with
    | zero => exact fun a run h => pure h
    | succ bound ih =>
        intro a run h
        rw [iterateUpTo_eq_bind]
        refine bind (hstep a run h) fun next run' hnext => ?_
        cases next with
        | done b => exact pure hnext
        | yield b => exact ih b run' hnext
  exact get fun _ => hbounded _ a run h

end Confines

/-- What was read of something broken, and the failure that is kept beside it. -/
def KeptWithin [Movable α] (stop : Nat) (read : Partial α) (run : Run) : Prop :=
  Confined stop read.1 ∧ ∀ e, read.2 = some e → run.Places stop e

namespace KeptWithin

variable [Movable α] {run : Run} {a : α}

theorem whole (h : Confined stop a) : KeptWithin stop (a, none) run :=
  ⟨h, fun e he => by cases he⟩

theorem broken (h : Confined stop a) {e : Diagnostic} (he : run.Places stop e) :
    KeptWithin stop (a, some e) run := by
  refine ⟨h, fun e' heq => ?_⟩
  cases heq
  exact he

end KeptWithin

namespace Recover

variable {deep : Nested} [deep.Advances] (hdeep : ∀ M : Context, M.Levels deep) {scope : Scope}
  {start : List Diagnostic} {run : Run}

instance skips_leave (first : Nat) : Skips (leave first) := by
  unfold leave
  infer_instance

instance skips_skipDeclaration (first : Nat) : Skips (skipDeclaration scope first) := by
  unfold skipDeclaration
  infer_instance

instance skips_endMark : Skips endMark := by
  unfold endMark
  infer_instance

instance skips_endNode : Skips endNode := by
  unfold endNode
  infer_instance

instance skips_skipNode : Skips (skipNode scope) := by
  unfold skipNode
  infer_instance

instance skips_skipHeader : Skips (skipHeader scope) := by
  unfold skipHeader
  infer_instance

instance skips_skipStatement (first : Nat) : Skips (skipStatement scope first) := by
  unfold skipStatement
  infer_instance

instance skips_skipEntry (first : Nat) : Skips (skipEntry scope first) := by
  unfold skipEntry
  infer_instance

/-! ## Equations and blocks -/

theorem rest_ne_nil {c : Cursor} {kind : Kind} (h : c.peek = some kind) : c.rest ≠ [] := by
  intro hrest
  simp [Cursor.peek, hrest] at h

omit [deep.Advances] in
theorem confines_block [Movable α] [LawfulMovable α] {follows : List Kind} {entry : Read α}
    [Forward entry] (h : ∀ M : Context, M.Carries entry entry) :
    Confines stop start (block scope follows entry) run fun entries _ => Confined stop entries := by
  have hend : ∀ (entries : List α) run, Confined stop entries → Confines stop start (do
      let c := (← get).cursor
      if (← halted) || !(c.isAt .ident && (c.peekAt 1).any follows.contains) then
        return .done entries
      else return .yield entries : Recover (ForInStep (List α))) run
      fun next _ => Confined stop next.value := fun entries run hentries =>
    .get fun _ => .halted fun stopped => .ite (fun _ => .pure hentries) fun _ => .pure hentries
  refine .iterate rfl fun entries run hentries => .remaining fun first => ?_
  refine .caughtRead h (fun one run' hone => hend _ run' (hentries.concat hone)) fun e run' he => ?_
  refine .remaining fun left => .ite (fun _ => ?_) fun _ => ?_
  · exact .bind (P := fun _ _ => False) (.throw fun _ => he) nofun
  exact .report (fun _ => he) fun _ => .after fun _ run' _ => hend entries run' hentries

include hdeep

theorem confines_equations :
    Confines stop start (equations deep scope) run (KeptWithin stop) := by
  refine .iterate (.whole rfl) fun read run hread => .get fun hrun => .halted fun stopped => ?_
  have hdone := hread.1
  refine .ite (fun _ => .pure (.whole hdone)) fun _ => .ifEat (fun _ => .pure (.whole hdone)) ?_
  refine .ite (fun _ => .pure (.broken hdone hrun.places)) fun hmore => ?_
  have hrest : run.cursor.rest ≠ [] := by
    intro hrest
    simp [Cursor.peek, hrest] at hmore
  refine .caughtRead (fun M => M.carries_equation (hdeep M))
    (fun equation _ h => .pure (.whole (hdone.concat h)))
    fun e _ he => .report (fun _ => he) fun _ => ?_
  refine .after fun _ _ _ => .spanFrom (hrun.cursor.confined_span hrest).2 fun span hspan => ?_
  exact .pure (.whole (hdone.concat (.mk rfl hspan)))

theorem confines_typeBlock :
    Confines stop start (typeBlock deep scope) run fun entries _ => Confined stop entries :=
  confines_block fun M => M.carries_typeEntry (hdeep M)

theorem confines_constBlock :
    Confines stop start (constBlock deep scope) run fun entries _ => Confined stop entries :=
  confines_block fun M => M.carries_constEntry (hdeep M)

/-! ## Nodes -/

theorem confines_localBlock :
    Confines stop start (localBlock deep scope) run fun block _ => Confined stop block := by
  refine .after fun found _ _ => .ite (fun _ => ?_) fun _ => .after fun _ _ _ => ?_
  · exact .read (fun M => M.carries_terminated (by decide) (M.carries_varDecl (hdeep M)))
      fun vars _ h => .pure (congrArg LocalBlock.vars h)
  · exact .bind (confines_constBlock hdeep) fun consts _ h => .pure (congrArg LocalBlock.consts h)

theorem confines_localBlocks :
    Confines stop start (localBlocks deep scope) run fun blocks _ => Confined stop blocks := by
  refine .iterate rfl fun blocks run hblocks => ?_
  have hmore : run.cursor.rest ≠ [] → Confines stop start (do
      return ForInStep.yield (blocks ++ [← located (localBlock deep scope)])) run
      fun next _ => Confined stop next.value := fun hrest =>
    .bind (.located hrest (confines_localBlock hdeep)) fun block _ h => .pure (hblocks.concat h)
  refine .peek ?_
  split
  · exact hmore (rest_ne_nil ‹_›)
  · exact hmore (rest_ne_nil ‹_›)
  · exact .pure hblocks

theorem confines_nodeHeader {head : NodeHead} (hhead : Confined stop head) :
    Confines stop start (nodeHeader deep head) run (KeptWithin stop) := by
  have hdecl : ∀ (params : Option (List (Located StaticParam))) (profile : Option Profile)
      (body : NodeBody), Confined stop params → Confined stop profile → Confined stop body →
      Confined stop (⟨head, params, profile, body⟩ : NodeDecl) := by
    intro params profile body hparams hprofile hbody
    unfold Confined at *
    rw [NodeDecl.move_mk, hhead, hparams, hprofile, hbody]
  refine .caughtRead (fun M => .optionalAt (by decide) (M.carries_staticParams (hdeep M)))
    (fun params _ hparams => ?_) fun e _ he =>
      .pure (.broken (hdecl none none .missing rfl rfl rfl) he)
  refine .caughtRead (fun M => .optionalAt (by decide) (M.carries_profile (hdeep M)))
    (fun profile _ hprofile => ?_) fun e _ he =>
      .pure (.broken (hdecl params none .missing hparams rfl rfl) he)
  exact .caughtRead (fun M => M.carries_synonymTarget (hdeep M))
    (fun body _ hbody => .pure (.whole (hdecl params profile body hparams hprofile hbody)))
    fun e _ he => .pure (.broken (hdecl params profile .missing hparams hprofile rfl) he)

theorem confines_nodeDefinition {decl : NodeDecl} (h : Confined stop decl) :
    Confines stop start (nodeDefinition deep scope decl) run (KeptWithin stop) := by
  have hlocals : Confines stop start (do
      let _ ← (Read.eat .semi : Read Bool)
      let locals ← localBlocks deep scope
      let _ ← (Read.expect .kwLet : Read Span)
      return locals) run fun locals _ => Confined stop locals :=
    .after fun _ _ _ => .bind (confines_localBlocks hdeep) fun locals _ hlocals =>
      .read (fun M => M.carries_expect _) fun _ _ _ => .pure hlocals
  refine .caught hlocals (fun locals _ hlocals => ?_) fun e _ he => .pure (.broken h he)
  refine .bind (confines_equations hdeep) fun read _ hread => ?_
  have hdecl : Confined stop { decl with body := .definition ⟨locals, read.1⟩ } := by
    obtain ⟨head, params, profile, body⟩ := decl
    unfold Confined at *
    rw [NodeDecl.move_mk, NodeDecl.mk.injEq] at h
    obtain ⟨hhead, hparams, hprofile, -⟩ := h
    rw [NodeDecl.move_mk, NodeBody.move_definition, NodeDefinition.move_mk,
      hhead, hparams, hprofile, hlocals, hread.1]
  dsimp only
  refine .ite (fun _ => .after fun _ _ honward => ?_) fun _ => .pure ⟨hdecl, hread.2⟩
  exact .pure ⟨hdecl, fun e he => (hread.2 e he).onward honward⟩

theorem confines_nodeTail {decl : NodeDecl} (h : Confined stop decl) :
    Confines stop start (nodeTail deep scope decl) run (KeptWithin stop) := by
  have hname : Confined stop decl.head.name.span :=
    congrArg (fun decl : NodeDecl => decl.head.name.span) h
  refine .get fun hrun => ?_
  dsimp only
  split
  · exact .ite (fun _ => .pure (.broken h hrun.places)) fun _ => .pure (.whole h)
  · exact .ite (fun _ => .pure (.broken h fun _ => .diagnostic hname)) fun _ =>
      .pure (.broken h hrun.places)
  · exact confines_nodeDefinition hdeep h

theorem confines_node : Confines stop start (node deep scope) run fun decl _ =>
    Confined stop decl := by
  refine .read (fun M => M.carries_nodeHead) fun head _ hhead => ?_
  refine .bind (confines_nodeHeader hdeep hhead) fun read _ hread => ?_
  obtain ⟨decl, failure⟩ := read
  cases failure with
  | some e => exact .report (fun _ => hread.2 e rfl) fun _ => .after fun _ _ _ => .pure hread.1
  | none =>
      refine .bind (confines_nodeTail hdeep hread.1) fun read _ hread => ?_
      obtain ⟨decl, failure⟩ := read
      cases failure with
      | some e => exact .report (fun _ => hread.2 e rfl) fun _ => .after fun _ _ _ => .pure hread.1
      | none => exact .pure hread.1

theorem confines_declaration (hrest : run.cursor.rest ≠ []) :
    Confines stop start (declaration deep scope) run fun decl _ => Confined stop decl := by
  have hnode : Confines stop start (do return Declaration.node (← node deep scope)) run
      fun decl _ => Confined stop decl :=
    .bind (confines_node hdeep) fun decl _ h => .pure (congrArg Declaration.node h)
  have hexternal : Confines stop start (do
      return Declaration.external (← (externalNode deep : Read ExternalNode))) run
      fun decl _ => Confined stop decl :=
    .read (fun M => M.carries_externalNode (hdeep M)) fun decl _ h =>
      .pure (congrArg Declaration.external h)
  refine .located hrest (.get fun _ => ?_)
  dsimp only
  split
  · exact .ite (fun _ => hexternal) fun _ => hnode
  · exact hexternal
  · exact hnode
  · exact hnode
  · exact .after fun _ _ _ => .bind (confines_typeBlock hdeep) fun defs _ h =>
      .pure (congrArg Declaration.types h)
  · exact .after fun _ _ _ => .bind (confines_constBlock hdeep) fun defs _ h =>
      .pure (congrArg Declaration.consts h)
  · exact .throw fun hrun => hrun.places

/-! ## Packages and models -/

theorem confines_body : Confines stop start (body deep) run (KeptWithin stop) := by
  refine .caughtRead (fun M => M.carries_expect _) (fun _ _ _ => ?_) fun e _ he =>
    .pure (.broken (a := ([] : List (Located Declaration))) rfl he)
  refine .iterate (.whole rfl) fun read run hread => .get fun hrun => .halted fun stopped => ?_
  have hdone := hread.1
  refine .ite (fun _ => .pure (.whole hdone)) fun _ => .ifEat (fun _ => .pure (.whole hdone)) ?_
  split
  · exact .pure (.broken hdone hrun.places)
  · rename_i kind hpeek
    have hrest := rest_ne_nil hpeek
    refine .ite (fun _ => .pure (.broken hdone hrun.places)) fun _ =>
      .caught (P := fun decl _ => Confined stop decl) ?_ ?_ fun e _ he => ?_
    · exact .ite (fun _ => confines_declaration hdeep hrest) fun _ => .throw fun hrun => hrun.places
    · exact fun decl _ h => .pure (.whole (hdone.concat h))
    · refine .report (fun _ => he) fun _ => .after fun _ _ _ => ?_
      exact .spanFrom (hrun.cursor.confined_span hrest).2 fun span hspan =>
        .pure (.whole (hdone.concat (.mk rfl hspan)))

theorem confines_provides :
    Confines stop start (monadLift (Read.provides deep) : Recover _) run
      fun shown _ => Confined stop shown := by
  refine .lift' (fun hc => .optionalAfter (fun _ => ?_) fun _ => rfl) fun hc e last herror hrest =>
    hc.fails (fun M => M.alike_provides (hdeep M)) herror hrest
  have hitems := (hc.onward Cursor.Onward.here.pass).meets_terminated
    fun M => M.carries_provide (hdeep M)
  exact (hitems [.kwConst, .kwType, .kwNode, .kwFunction, .kwUnsafe]).mono fun items _ h =>
    congrArg some h

theorem confines_instantiation {name : Ident} (hname : Confined stop name) (word : InstanceWord) :
    Confines stop start (instantiation deep name word) run fun package _ =>
      Confined stop package := by
  refine .read (fun M => M.carries_ident) fun model _ hmodel => ?_
  refine .read (fun M => M.carries_modelArgs (hdeep M)) fun read _ hread => ?_
  obtain ⟨brackets, args⟩ := read
  have hpackage : Confined stop (⟨name, .instantiated word model brackets args⟩ : Package) := by
    have hargs : Confined stop args := congrArg Prod.snd hread
    unfold Confined at *
    rw [Package.move_mk, PackageBody.move_instantiated, hname, hmodel, hargs]
  refine .read (fun M => M.carries_expect _) fun _ _ _ => .get fun hrun => ?_
  dsimp only
  refine .ite (fun _ => .report (fun _ => hrun.places) fun _ => ?_) fun _ => .pure hpackage
  exact .after fun _ _ _ => .after fun _ _ _ => .pure hpackage

theorem confines_package :
    Confines stop start (package deep) run fun package _ => Confined stop package := by
  refine .read (fun M => M.carries_expect _) fun _ _ _ => ?_
  refine .read (fun M => M.carries_ident) fun name _ hname => ?_
  refine .read (fun M => M.carries_instanceWord) fun word _ _ => ?_
  cases word with
  | some word => exact confines_instantiation hdeep hname word
  | none =>
      refine .read (fun M => M.carries_uses) fun uses _ huses => ?_
      refine .bind (confines_provides hdeep) fun provides _ hprovides => ?_
      refine .bind (confines_body hdeep) fun read _ hread => ?_
      have hpackage : Confined stop (⟨name, .definition uses provides read.1⟩ : Package) := by
        have hdecls := hread.1
        unfold Confined at *
        rw [Package.move_mk, PackageBody.move_definition, hname, huses, hprovides, hdecls]
      obtain ⟨decls, failure⟩ := read
      cases failure with
      | some e => exact .report (fun _ => hread.2 e rfl) fun _ => .pure hpackage
      | none => exact .pure hpackage

theorem confines_requiredNeeds {name : Ident} (hname : Confined stop name) :
    Confines stop start (requiredNeeds deep name) run (KeptWithin stop) := by
  have hspan : Confined stop name.span := congrArg Ident.span hname
  refine .ifEat (fun _ => ?_) (.report (fun _ _ => .diagnostic hspan) fun _ => .pure (.whole rfl))
  refine .iterate (.whole rfl) fun read run hread => ?_
  refine .caughtRead (fun M => M.carries_staticParam (hdeep M))
    (fun param _ hparam => ?_) fun e _ he =>
    .pure (.broken hread.1 he)
  have hmore := hread.1.concat hparam
  refine .caughtRead (fun M => M.carries_expect _) (fun _ _ _ => .peek ?_) fun e _ he =>
    .pure (.broken hmore he)
  exact .ite (fun _ => .pure (.whole hmore)) fun _ => .pure (.whole hmore)

theorem confines_modelTail {name : Ident} (hname : Confined stop name) :
    Confines stop start (modelTail deep name) run (KeptWithin stop) := by
  have hmodel : ∀ (uses : List Ident) (needs : List (Located StaticParam))
      (provides : Option (List (Located Provide))) (decls : List (Located Declaration)),
      Confined stop uses → Confined stop needs → Confined stop provides → Confined stop decls →
      Confined stop (⟨name, uses, needs, provides, decls⟩ : Model) := by
    intro uses needs provides decls huses hneeds hprovides hdecls
    unfold Confined at *
    rw [Model.move_mk, hname, huses, hneeds, hprovides, hdecls]
  refine .caughtRead (fun M => M.carries_uses) (fun uses _ huses => ?_) fun e _ he =>
    .pure (.broken (hmodel [] [] none [] rfl rfl rfl rfl) he)
  refine .bind (confines_requiredNeeds hdeep hname) fun read _ hread => ?_
  obtain ⟨needs, failure⟩ := read
  cases failure with
  | some e =>
      exact .pure (.broken (hmodel uses needs none [] huses hread.1 rfl rfl) (hread.2 e rfl))
  | none =>
      refine .caught (confines_provides hdeep) (fun provides _ hprovides => ?_) fun e _ he =>
        .pure (.broken (hmodel uses needs none [] huses hread.1 rfl rfl) he)
      exact .bind (confines_body hdeep) fun read _ hbody =>
        .pure ⟨hmodel uses needs provides read.1 huses hread.1 hprovides hbody.1, hbody.2⟩

theorem confines_model : Confines stop start (model deep) run fun model _ =>
    Confined stop model := by
  refine .read (fun M => M.carries_expect _) fun _ _ _ => ?_
  refine .read (fun M => M.carries_ident) fun name _ hname => ?_
  refine .bind (confines_modelTail hdeep hname) fun read _ hread => ?_
  obtain ⟨model, failure⟩ := read
  cases failure with
  | some e => exact .report (fun _ => hread.2 e rfl) fun _ => .after fun _ _ _ => .pure hread.1
  | none => exact .pure hread.1

/-! ## Programs -/

omit [deep.Advances] hdeep in
theorem confines_includes :
    Confines stop start includes run fun files _ => Confined stop files := by
  refine .iterate rfl fun done run hdone => .get fun hrun => .halted fun stopped => ?_
  refine .ite (fun _ => .pure hdone) fun _ => ?_
  exact .caughtRead (fun M => M.carries_includeDirective) (fun file _ h => .pure (hdone.concat h))
    fun e _ he => .report (fun _ => he) fun _ => .after fun _ _ _ => .pure hdone

theorem confines_item {kind : Kind} (hrest : run.cursor.rest ≠ []) :
    Confines stop start (item deep run.cursor kind) run fun item _ => Confined stop item := by
  refine .ite (fun _ => ?_) fun _ => .ite (fun _ => ?_) fun _ =>
    .ite (fun _ => .throw fun hrun => hrun.places) fun _ =>
      .ite (fun _ => ?_) fun _ => .throw fun hrun => hrun.places
  · exact .bind (confines_package hdeep) fun one _ h => .pure (congrArg Item.package h)
  · exact .bind (confines_model hdeep) fun one _ h => .pure (congrArg Item.model h)
  · exact .bind (confines_declaration hdeep hrest) fun one _ h => .pure (congrArg Item.decl h)

/-- No place in a program lies behind its last token, nor does anything that is reported before the
end of the tokens. -/
theorem confines_program :
    Confines stop start (program deep) run fun program _ => Confined stop program := by
  refine .bind confines_includes fun files _ hfiles =>
    .bind (P := fun items _ => Confined stop items) ?_ fun found _ hfound => .pure ?_
  · refine .iterate rfl fun done run hdone => .get fun hrun => .halted fun stopped => ?_
    refine .ite (fun _ => .pure hdone) fun _ => ?_
    split
    · exact .pure hdone
    · rename_i kind hpeek
      have hrest := rest_ne_nil hpeek
      have hfirst := (hrun.cursor.confined_span hrest).2
      refine .caught (confines_item hdeep hrest) (fun one _ hone => ?_) fun e _ he =>
        .report (fun _ => he) fun _ => .after fun _ _ _ => ?_
      · exact .spanFrom hfirst fun span hspan => .pure (hdone.concat (.mk hone hspan))
      · exact .spanFrom hfirst fun span hspan => .pure (hdone.concat (.mk rfl hspan))
  · unfold Confined at *
    rw [Program.move_mk, hfiles, hfound]

end Recover

end Lustre
