import Lustre.Proofs.Reader.Program

/-!
# What readers report, and what they keep

A reader of declarations that goes on after a failure reports it, and keeps what it had
read.  `Yields` says both: whatever the state of the run, only failures to do with the
grammar are reported or passed on, and the answer satisfies some property.  The property
of a tree is that it is `Sound`; a failure that is kept beside a tree (`Partial`) is
again one to do with the grammar.

Nothing is assumed of the run, which may have halted long ago.
-/

namespace Lustre

variable {α β : Type}

/-! ## Logs that got reports -/

/-- The states of a log after reports of what is wrong with the grammar. -/
inductive Log.Reported (log : Log) : Log → Prop
  | none : log.Reported log
  | more {log' : Log} (h : log.Reported log') (c : Cursor) {d : Diagnostic}
      (hd : d.cause.isGrammatical = true) : log.Reported (log'.record c d)

theorem Log.Reported.trans {log log₁ log₂ : Log} (h₁ : log.Reported log₁)
    (h₂ : log₁.Reported log₂) :
    log.Reported log₂ := by
  induction h₂ with
  | none => exact h₁
  | more _ c hd ih => exact ih.more c hd

/-- Whatever the run, what a reader reports or fails with has to do with the grammar, and what it
answers satisfies `Q`. -/
structure Yields (read : Recover α) (Q : α → Prop) : Prop where
  reported : ∀ run : Run, run.log.Reported (finalState (read run)).log
  fails : ∀ run e last, read run = .error e last → e.cause.isGrammatical = true
  answers : ∀ run a last, read run = .ok a last → Q a

namespace Yields

variable {P Q : α → Prop} {R : β → Prop} {passed : Cursor → α → Cursor → Prop}

theorem mono {read : Recover α} (h : Yields read P) (hPQ : ∀ a, P a → Q a) : Yields read Q :=
  ⟨h.reported, h.fails, fun run a last hok => hPQ a (h.answers run a last hok)⟩

theorem pure {a : α} (h : Q a) : Yields (Pure.pure a : Recover α) Q where
  reported _ := .none
  fails run e last herror := by cases herror
  answers run b last hok := by
    cases hok
    exact h

theorem throw {d : Diagnostic} (h : d.cause.isGrammatical = true) :
    Yields (MonadExcept.throw d : Recover α) Q where
  reported _ := .none
  fails run e last herror := by
    cases herror
    exact h
  answers run a last hok := by cases hok

theorem bind {read : Recover α} {next : α → Recover β} (h : Yields read P)
    (hnext : ∀ a, P a → Yields (next a) R) : Yields (read >>= next) R := by
  have hrun : ∀ run, (read >>= next) run = EStateM.bind read next run := fun _ => rfl
  refine ⟨fun run => ?_, fun run e last herror => ?_, fun run b last hok => ?_⟩
  · have hread := h.reported run
    rw [hrun, EStateM.bind]
    cases hfirst : read run with
    | ok a middle =>
        rw [hfirst] at hread
        exact hread.trans ((hnext a (h.answers run a middle hfirst)).reported middle)
    | error e middle => rwa [hfirst] at hread
  · rw [hrun, EStateM.bind] at herror
    cases hfirst : read run with
    | ok a middle =>
        rw [hfirst] at herror
        exact (hnext a (h.answers run a middle hfirst)).fails middle e last herror
    | error e' middle =>
        rw [hfirst] at herror
        cases herror
        exact h.fails run _ _ hfirst
  · rw [hrun, EStateM.bind] at hok
    cases hfirst : read run with
    | ok a middle =>
        rw [hfirst] at hok
        exact (hnext a (h.answers run a middle hfirst)).answers middle b last hok
    | error e' middle =>
        rw [hfirst] at hok
        cases hok

theorem get {next : Run → Recover β} (h : ∀ run, Yields (next run) R) :
    Yields (MonadState.get >>= next) R :=
  ⟨fun run => (h run).reported run, fun run => (h run).fails run, fun run => (h run).answers run⟩

theorem ite {p : Prop} [Decidable p] {yes no : Recover α} (hyes : Yields yes Q)
    (hno : Yields no Q) :
    Yields (if p then yes else no) Q := by
  split
  · exact hyes
  · exact hno

/-- A reader that reports nothing.  What it has passed does not matter here. -/
theorem lift {read : Read α} [hforward : Forward read]
    (h : ∀ c, Meets read c fun a c' => passed c a c' ∧ Q a) :
    Yields (monadLift read : Recover α) Q := by
  refine ⟨fun run => ?_, fun run e last herror => ?_, fun run a last hok => ?_⟩
  · rw [Recover.lift_run]
    split <;> exact .none
  · rw [Recover.lift_run] at herror
    split at herror
    · cases herror
    · rename_i hread
      cases herror
      exact (hforward.proceeds run.cursor).grammatical _ _ hread
  · rw [Recover.lift_run] at hok
    split at hok
    · rename_i hread
      cases hok
      exact (h run.cursor _ _ hread).2
    · cases hok

/-- What follows a reader that reports nothing. -/
theorem read {read : Read α} {next : α → Recover β} [Forward read]
    (h : ∀ c, Meets read c fun a c' => passed c a c' ∧ P a)
    (hnext : ∀ a, P a → Yields (next a) R) :
    Yields ((monadLift read : Recover α) >>= next) R :=
  bind (lift h) hnext

/-- A failure that is caught is one to do with the grammar. -/
theorem caught {read : Recover α} {next : Except Diagnostic α → Recover β} (h : Yields read P)
    (hok : ∀ a, P a → Yields (next (.ok a)) R)
    (hfail : ∀ e : Diagnostic, e.cause.isGrammatical = true → Yields (next (.error e)) R) :
    Yields (Recover.attempt read >>= next) R := by
  have hattempt : Yields (Recover.attempt read) fun result =>
      (∀ a, result = .ok a → P a) ∧
        ∀ e, result = .error e → e.cause.isGrammatical = true := by
    refine ⟨fun run => ?_, fun run e last herror => ?_, fun run result last hresult => ?_⟩
    · have hread := h.reported run
      unfold Recover.attempt
      split <;> rename_i hfirst <;> rwa [hfirst] at hread
    · unfold Recover.attempt at herror
      split at herror <;> cases herror
    · unfold Recover.attempt at hresult
      split at hresult <;> rename_i hfirst <;> cases hresult
      · refine ⟨fun a ha => ?_, (fun e he => by cases he)⟩
        cases ha
        exact h.answers run _ _ hfirst
      · refine ⟨(fun a ha => by cases ha), fun e he => ?_⟩
        cases he
        exact h.fails run _ _ hfirst
  refine hattempt.bind fun result hresult => ?_
  cases result with
  | ok a => exact hok a (hresult.1 a rfl)
  | error e => exact hfail e (hresult.2 e rfl)

theorem caughtRead {read : Read α} {next : Except Diagnostic α → Recover β} [Forward read]
    (h : ∀ c, Meets read c fun a c' => passed c a c' ∧ P a)
    (hok : ∀ a, P a → Yields (next (.ok a)) R)
    (hfail : ∀ e : Diagnostic, e.cause.isGrammatical = true → Yields (next (.error e)) R) :
    Yields (Recover.attempt (monadLift read) >>= next) R :=
  caught (lift h) hok hfail

theorem halted {next : Bool → Recover β} (h : ∀ stopped, Yields (next stopped) R) :
    Yields (Recover.halted >>= next) R :=
  get fun run => h run.log.halted

theorem remaining {next : Nat → Recover β} (h : ∀ left, Yields (next left) R) :
    Yields (Recover.remaining >>= next) R :=
  get fun run => h run.cursor.rest.length

theorem report {d : Diagnostic} (hd : d.cause.isGrammatical = true) {next : Unit → Recover β}
    (h : Yields (next ()) R) : Yields (Recover.report d >>= next) R := by
  refine bind (P := fun _ => True) ⟨fun run => ?_, fun run e last herror => ?_,
    fun _ _ _ _ => trivial⟩
    fun _ _ => h
  · exact .more .none run.cursor hd
  · cases herror

/-- A loop answers what all its steps answer. -/
theorem iterate {step : α → Recover (ForInStep α)} {a : α} (h : Q a)
    (hstep : ∀ a, Q a → Yields (step a) fun next => Q next.value) :
    Yields (Recover.iterate a step) Q := by
  have hbounded : ∀ bound a, Q a → Yields (iterateUpTo step bound a) Q := by
    intro bound
    induction bound with
    | zero => exact fun a h => .pure h
    | succ bound ih =>
        intro a h
        refine .bind (hstep a h) fun next hnext => ?_
        cases next with
        | done b => exact .pure hnext
        | yield b => exact ih b hnext
  exact .get fun run => hbounded _ a h

end Yields

/-! ## Recovery -/

/-- A reader of which nothing is kept. -/
class Quiet (read : Recover α) : Prop where
  yields : Yields read fun _ => True

namespace Quiet

instance (a : α) : Quiet (pure a : Recover α) := ⟨.pure trivial⟩

instance (read : Recover α) (next : α → Recover β) [h : Quiet read] [hnext : ∀ a, Quiet (next a)] :
    Quiet (read >>= next) :=
  ⟨h.yields.bind fun a _ => (hnext a).yields⟩

instance (p : Prop) [Decidable p] (yes no : Recover α) [hyes : Quiet yes] [hno : Quiet no] :
    Quiet (if p then yes else no) :=
  ⟨.ite hyes.yields hno.yields⟩

instance instLift (read : Read α) [Forward read] : Quiet (monadLift read : Recover α) :=
  ⟨.lift fun _ => Meets.any.mono fun _ _ h => ⟨h, h⟩⟩

instance : Quiet Recover.remaining := ⟨.get fun _ => .pure trivial⟩

instance (scope : Scope) (stops : List Kind) : Quiet (Recover.synchronize scope stops) where
  yields := by
    refine ⟨fun run => .none, fun run e last herror => ?_, fun _ _ _ _ => trivial⟩
    cases herror

end Quiet

/-- The same if nothing has to be known of the answer. -/
theorem Yields.caughtAny {read : Read α} {next : Except Diagnostic α → Recover β} {R : β → Prop}
    [Forward read] (hok : ∀ a, Yields (next (.ok a)) R)
    (hfail : ∀ e : Diagnostic, e.cause.isGrammatical = true → Yields (next (.error e)) R) :
    Yields (Recover.attempt (monadLift read) >>= next) R :=
  caught (Quiet.instLift read).yields (fun a _ => hok a) hfail

/-- What follows a part of recovery. -/
theorem Yields.quietly {read : Recover α} {next : α → Recover β} {R : β → Prop} [h : Quiet read]
    (hnext : ∀ a, Yields (next a) R) : Yields (read >>= next) R :=
  h.yields.bind fun a _ => hnext a

theorem Yields.located {read : Recover α} {R : Located α → Prop}
    (h : Yields read fun a => ∀ span, R ⟨a, span⟩) : Yields (Recover.located read) R :=
  .quietly fun _ => .bind h fun _ ha => .quietly fun span => .pure (ha span)

namespace Recover

variable {deep : Nested} [hdeep : deep.Advances] {scope : Scope}

instance quiet_leave (start : Nat) : Quiet (leave start) := by
  unfold leave
  infer_instance

instance quiet_skipDeclaration (start : Nat) : Quiet (skipDeclaration scope start) := by
  unfold skipDeclaration
  infer_instance

instance quiet_endMark : Quiet endMark := by
  unfold endMark
  infer_instance

instance quiet_endNode : Quiet endNode := by
  unfold endNode
  infer_instance

instance quiet_skipNode : Quiet (skipNode scope) := by
  unfold skipNode
  infer_instance

instance quiet_skipHeader : Quiet (skipHeader scope) := by
  unfold skipHeader
  infer_instance

instance quiet_skipStatement (start : Nat) : Quiet (skipStatement scope start) := by
  unfold skipStatement
  infer_instance

instance quiet_skipEntry (start : Nat) : Quiet (skipEntry scope start) := by
  unfold skipEntry
  infer_instance

/-! ## Equations and blocks -/

/-- What a reader keeps satisfies `Q`, and the failure beside it has to do with the grammar. -/
def Kept (Q : α → Prop) (read : Partial α) : Prop :=
  Q read.1 ∧ ∀ e, read.2 = some e → e.cause.isGrammatical = true

theorem Kept.whole {Q : α → Prop} {a : α} (h : Q a) : Kept Q (a, none) :=
  ⟨h, fun _ he => by cases he⟩

theorem Kept.broken {Q : α → Prop} {a : α} (h : Q a) {e : Diagnostic}
    (he : e.cause.isGrammatical = true) : Kept Q (a, some e) := by
  refine ⟨h, fun e' heq => ?_⟩
  cases heq
  exact he

/-- One more that satisfies what all so far satisfy. -/
theorem forall_mem_concat {Q : α → Prop} {items : List α} {item : α} (h : ∀ a ∈ items, Q a)
    (hitem : Q item) : ∀ a ∈ items ++ [item], Q a := by
  intro a ha
  rcases List.mem_append.mp ha with ha | ha
  · exact h a ha
  · rwa [List.mem_singleton.mp ha]

theorem yields_equations : Yields (equations deep scope)
    (Kept fun equations => ∀ equation ∈ equations, equation.value.Sound) := by
  refine .iterate (.whole (by simp)) fun read hread => ?_
  refine .get fun run => .halted fun stopped => .ite (.pure (.whole hread.1)) ?_
  refine .quietly fun found => .ite (.pure (.whole hread.1)) (.ite (.pure (.broken hread.1 rfl)) ?_)
  refine .caughtRead (Read.meets_equation hdeep.faithful) (fun equation h => ?_) fun e he => ?_
  · exact .pure (.whole (forall_mem_concat hread.1 fun _ => h))
  · refine .report he (.quietly fun _ => .quietly fun span => .pure (.whole ?_))
    exact forall_mem_concat hread.1 fun h => absurd rfl h

omit hdeep in
theorem yields_block {Q : α → Prop} {follows : List Kind} {entry : Read α} [Forward entry]
    {passed : Cursor → α → Cursor → Prop}
    (hentry : ∀ c, Meets entry c fun a c' => passed c a c' ∧ Q a) :
    Yields (block scope follows entry) fun entries => ∀ a ∈ entries, Q a := by
  refine .iterate (by simp) fun entries hentries => ?_
  have hend : ∀ entries : List α, (∀ a ∈ entries, Q a) → Yields (do
      let c := (← get).cursor
      if (← halted) || !(c.isAt .ident && (c.peekAt 1).any follows.contains) then
        return .done entries
      else return .yield entries : Recover (ForInStep (List α)))
      fun next => ∀ a ∈ next.value, Q a := fun entries h =>
    .get fun run => .halted fun stopped => .ite (.pure h) (.pure h)
  refine .remaining fun start => .caughtRead hentry (fun one hone => ?_) fun e he => ?_
  · exact hend _ (forall_mem_concat hentries hone)
  · refine .remaining fun left => .ite (.bind (P := fun _ => False) (.throw he) nofun) ?_
    exact .report he (.quietly fun _ => hend entries hentries)

theorem yields_typeBlock : Yields (typeBlock deep scope) fun entries =>
    ∀ entry ∈ entries, entry.value.Shaped :=
  yields_block (Read.meets_typeEntry hdeep.faithful)

theorem yields_constBlock : Yields (constBlock deep scope) fun entries =>
    ∀ entry ∈ entries, entry.value.Shaped :=
  yields_block (Read.meets_constEntry hdeep.faithful)

/-! ## Nodes -/

theorem yields_localBlocks : Yields (localBlocks deep scope) fun blocks =>
    ∀ block ∈ blocks, block.value.Sound := by
  have hblock : Yields (located (localBlock deep scope)) fun block => block.value.Sound := by
    refine .located (.quietly fun found => .ite ?_ (.quietly fun _ => ?_))
    · exact .read (Read.meets_terminated (Read.meets_varDecl hdeep.faithful)) fun vars h =>
        .pure fun _ => h.2
    · exact yields_constBlock.bind fun consts h => .pure fun _ => h
  refine .iterate (by simp) fun blocks hblocks => .quietly fun next => ?_
  have hmore : Yields (do
      return ForInStep.yield (blocks ++ [← located (localBlock deep scope)]))
      fun next => ∀ block ∈ next.value, block.value.Sound :=
    hblock.bind fun block h => .pure (forall_mem_concat hblocks h)
  split
  · exact hmore
  · exact hmore
  · exact .pure hblocks

theorem yields_nodeHeader (head : NodeHead) :
    Yields (nodeHeader deep head) (Kept NodeDecl.Sound) := by
  refine .caughtRead (Read.meets_optionalParams hdeep.faithful)
    (fun params hparams => ?_) fun e he =>
    .pure (.broken ⟨nofun, nofun, trivial⟩ he)
  refine .caughtRead (Read.meets_optionalProfile hdeep.faithful) (fun profile hprofile => ?_)
    fun e he => .pure (.broken ⟨hparams, nofun, trivial⟩ he)
  refine .caughtRead (meets_synonymTarget hdeep.faithful) (fun body hbody => ?_) fun e he =>
    .pure (.broken ⟨hparams, hprofile, trivial⟩ he)
  refine .pure (.whole ⟨hparams, hprofile, ?_⟩)
  rcases hbody with rfl | ⟨target, rfl, htarget⟩
  · trivial
  · exact htarget

theorem yields_nodeDefinition {decl : NodeDecl} (h : decl.Sound) :
    Yields (nodeDefinition deep scope decl) (Kept NodeDecl.Sound) := by
  have hlocals : Yields (do
      let _ ← (Read.eat .semi : Read Bool)
      let locals ← localBlocks deep scope
      let _ ← (Read.expect .kwLet : Read Span)
      return locals) fun locals => ∀ block ∈ locals, block.value.Sound :=
    .quietly fun _ => yields_localBlocks.bind fun locals hlocals => .quietly fun _ => .pure hlocals
  refine .caught hlocals (fun locals hlocals => ?_) fun e he => .pure (.broken h he)
  refine yields_equations.bind fun read hread => ?_
  have hdecl : NodeDecl.Sound { decl with body := .definition ⟨locals, read.1⟩ } :=
    ⟨h.1, h.2.1, hlocals, hread.1⟩
  dsimp only
  split
  · exact .quietly fun _ => .pure ⟨hdecl, hread.2⟩
  · exact .pure ⟨hdecl, hread.2⟩

theorem yields_nodeTail {decl : NodeDecl} (h : decl.Sound) :
    Yields (nodeTail deep scope decl) (Kept NodeDecl.Sound) := by
  refine .get fun run => ?_
  dsimp only
  split
  · exact .ite (.pure (.broken h rfl)) (.pure (.whole h))
  · exact .ite (.pure (.broken h rfl)) (.pure (.broken h rfl))
  · exact yields_nodeDefinition h

/-- A node is kept with whatever of it was read. -/
theorem yields_node : Yields (node deep scope) NodeDecl.Sound := by
  refine .quietly fun head => (yields_nodeHeader head).bind fun read hread => ?_
  obtain ⟨decl, failure⟩ := read
  cases failure with
  | some e => exact .report (hread.2 e rfl) (.quietly fun _ => .pure hread.1)
  | none =>
      refine (yields_nodeTail hread.1).bind fun read hread => ?_
      obtain ⟨decl, failure⟩ := read
      cases failure with
      | some e => exact .report (hread.2 e rfl) (.quietly fun _ => .pure hread.1)
      | none => exact .pure hread.1

theorem yields_declaration : Yields (declaration deep scope) fun decl => decl.value.Sound := by
  have hnode : Yields (do return Declaration.node (← node deep scope))
      fun decl => ∀ _ : Span, decl.Sound := yields_node.bind fun decl h => .pure fun _ => h
  have hexternal : Yields
      (do return Declaration.external (← (externalNode deep : Read ExternalNode)))
      fun decl => ∀ _ : Span, decl.Sound :=
    .read (meets_externalNode hdeep.faithful) fun decl h => .pure fun _ => h
  refine .located (.get fun run => ?_)
  dsimp only
  split
  · exact .ite hexternal hnode
  · exact hexternal
  · exact hnode
  · exact hnode
  · exact .quietly fun _ => yields_typeBlock.bind fun defs h => .pure fun _ => h
  · exact .quietly fun _ => yields_constBlock.bind fun defs h => .pure fun _ => h
  · exact .throw rfl

/-! ## Packages and models -/

theorem yields_body : Yields (body deep)
    (Kept fun decls => ∀ decl ∈ decls, decl.value.Sound) := by
  refine .caughtAny (fun _ => ?_) fun e he =>
    .pure (.broken (by simp) he)
  refine .iterate (.whole (by simp)) fun read hread => ?_
  refine .get fun run => .halted fun stopped => .ite (.pure (.whole hread.1)) ?_
  refine .quietly fun found => .ite (.pure (.whole hread.1)) ?_
  split
  · exact .pure (.broken hread.1 rfl)
  · refine .ite (.pure (.broken hread.1 rfl)) (.caught (.ite yields_declaration (.throw rfl)) ?_ ?_)
    · exact fun decl h => .pure (.whole (forall_mem_concat hread.1 h))
    · refine fun e he => .report he (.quietly fun _ => .quietly fun span => .pure (.whole ?_))
      exact forall_mem_concat hread.1 trivial

theorem yields_package : Yields (package deep) fun whole => whole.body.Sound := by
  refine .quietly fun _ => .quietly fun name => .quietly fun word => ?_
  cases word with
  | some word =>
      refine .quietly fun model => .read (Read.meets_modelArgs hdeep.faithful) fun read hargs => ?_
      refine .quietly fun _ => .get fun run => ?_
      dsimp only
      split
      · exact .report rfl (.quietly fun _ => .quietly fun _ => .pure hargs)
      · exact .pure hargs
  | none =>
      refine .quietly fun uses => .read (Read.meets_provides hdeep.faithful)
        fun provides hprovides => ?_
      refine yields_body.bind fun read hread => ?_
      obtain ⟨decls, failure⟩ := read
      cases failure with
      | some e => exact .report (hread.2 e rfl) (.pure ⟨hprovides, hread.1⟩)
      | none => exact .pure ⟨hprovides, hread.1⟩

theorem yields_requiredNeeds (name : Ident) : Yields (requiredNeeds deep name)
    (Kept fun params => ∀ param ∈ params, param.value.Shaped) := by
  refine .quietly fun found => .ite ?_ (.report rfl (.pure (.whole (by simp))))
  refine .iterate (.whole (by simp)) fun read hread => ?_
  refine .caughtRead (Read.meets_staticParam hdeep.faithful) (fun param hparam => ?_) fun e he =>
    .pure (.broken hread.1 he)
  have hmore := forall_mem_concat hread.1 hparam
  refine .caughtAny (fun _ => ?_) fun e he =>
    .pure (.broken hmore he)
  exact .quietly fun next => .ite (.pure (.whole hmore)) (.pure (.whole hmore))

/-- A model is kept with whatever of it was read. -/
theorem yields_model : Yields (model deep) Model.Sound := by
  have htail : ∀ name, Yields (modelTail deep name) (Kept Model.Sound) := by
    intro name
    refine .caughtAny (fun uses => ?_) fun e he =>
      .pure (.broken ⟨by simp, nofun, by simp⟩ he)
    refine (yields_requiredNeeds name).bind fun read hread => ?_
    obtain ⟨needs, failure⟩ := read
    cases failure with
    | some e => exact .pure (.broken ⟨hread.1, nofun, by simp⟩ (hread.2 e rfl))
    | none =>
        refine .caughtRead (Read.meets_provides hdeep.faithful)
          (fun provides hprovides => ?_) fun e he =>
          .pure (.broken ⟨hread.1, nofun, by simp⟩ he)
        exact yields_body.bind fun read hbody => .pure ⟨⟨hread.1, hprovides, hbody.1⟩, hbody.2⟩
  refine .quietly fun _ => .quietly fun name => (htail name).bind fun read hread => ?_
  obtain ⟨model, failure⟩ := read
  cases failure with
  | some e => exact .report (hread.2 e rfl) (.quietly fun _ => .pure hread.1)
  | none => exact .pure hread.1

/-! ## Programs -/

theorem yields_includes : Yields includes fun _ => True := by
  refine .iterate trivial fun done _ => .get fun run => .halted fun stopped =>
    .ite (.pure trivial) ?_
  refine .caughtAny (fun _ => .pure trivial) fun e he => ?_
  exact .report he (.quietly fun _ => .pure trivial)

theorem yields_program : Yields (program deep) Program.Sound := by
  refine yields_includes.bind fun includes _ => ?_
  refine .bind (P := fun items : List (Located Item) => ∀ item ∈ items, item.value.Sound) ?_
    fun items h => .pure h
  refine .iterate (by simp) fun done hdone => .get fun run => .halted fun stopped =>
    .ite (.pure hdone) ?_
  split
  · exact .pure hdone
  · refine .caught (P := Item.Sound) ?_ (fun one hone => ?_) fun e he => ?_
    · refine .ite (yields_package.bind fun whole h => .pure h) ?_
      refine .ite (yields_model.bind fun whole h => .pure h)
        (.ite (.throw rfl) (.ite ?_ (.throw rfl)))
      exact yields_declaration.bind fun decl h => .pure h
    · exact .quietly fun span => .pure (forall_mem_concat hdone hone)
    · refine .report he (.quietly fun _ => .quietly fun span => .pure ?_)
      exact forall_mem_concat hdone trivial

instance forward_wholeExpr : Forward (wholeExpr deep) := by
  unfold wholeExpr
  infer_instance

theorem yields_standaloneExpr :
    Yields (standaloneExpr deep) fun answer => ∀ expr, answer = some expr → expr.Shaped false := by
  have hwhole : ∀ c, Meets (wholeExpr deep) c fun expr _ => True ∧ expr.Shaped false := by
    intro c
    refine .bind (Read.meets_expr hdeep.faithful c) fun expr c' h => .get ?_
    split
    · exact .pure ⟨trivial, h.2⟩
    · exact .missing
  refine .caughtRead hwhole (fun expr h => .pure fun other heq => ?_) fun e he => ?_
  · cases heq
    exact h
  · exact .report he (.pure fun _ heq => by cases heq)

end Recover

/-! ## The trees of a text -/

/-- Every tree that is read is sound, whatever is wrong with the text.  If nothing is wrong with it,
all its tokens were read, and nothing is missing. -/
theorem parsed_trees_are_shaped (text : String) (options : ParseOptions) :
    (parse text options).program.Sound ∧
      (∀ expr, (parseExpr text).1 = some expr → expr.Shaped false) ∧
      ((parse text options).diagnostics = [] →
        ((Run.reading text options).program maxNesting).2.cursor.atEnd = true ∧
          (parse text options).program.Shaped) := by
  refine ⟨?_, fun expr hexpr => ?_, fun h => ⟨(parse_spec h).2.2, (parse_spec h).2.1⟩⟩
  · obtain ⟨program, run', hread, hprogram, -⟩ := parse_eq_run text options
    rw [hprogram]
    exact Recover.yields_program.answers _ _ _ hread
  · -- the answer of the reader is given away only if there are no diagnostics
    simp only [parseExpr] at hexpr
    split at hexpr
    · rw [Run.expr] at hexpr
      split at hexpr
      · rename_i hread
        exact Recover.yields_standaloneExpr.answers _ _ _ hread expr hexpr
      · cases hexpr
    · cases hexpr


end Lustre
