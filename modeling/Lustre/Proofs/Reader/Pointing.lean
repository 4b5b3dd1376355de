import Lustre.Proofs.Reader.Reaches
import Lustre.Proofs.Reader.Discipline

/-!
# Diagnostics point into the text, in order

A failure points at the token where it was noticed, at a name read before, or at all that
was read since some token.  Between that place and the failure nothing is reported, and
what was reported before does not begin farther to the right.  So the diagnostics of
readers come in the order of the text.

`Run.Trails` says how far the reports of a run go; a run is `Tidy` if they do not go
beyond the cursor, and it `Admits` a diagnostic that points no farther back than they go.
A reader that starts in a tidy run ends in one, or fails with a diagnostic that is
admitted where it fails.
-/

namespace Lustre

variable {α β : Type}

/-! ## How far the reports go -/

/-- Reports that point at places between edges of what `c` has before it, one not to the left of
the other and none to the right of `place`. -/
structure Trail (c : Cursor) (place : Nat) (reports : List Diagnostic) : Prop where
  wide : ∀ d ∈ reports, d.span.start ≤ d.span.stop
  edges : ∀ d ∈ reports, c.Edge d.span.start ∧ c.Edge d.span.stop
  upTo : ∀ d ∈ reports, d.span.start ≤ place
  sorted : reports.Pairwise fun d later => d.span.start ≤ later.span.start

namespace Trail

variable {c : Cursor} {place : Nat} {reports : List Diagnostic}

theorem mono {farther : Nat} (h : Trail c place reports) (hle : place ≤ farther) :
    Trail c farther reports :=
  ⟨h.wide, h.edges, fun d hd => Nat.le_trans (h.upTo d hd) hle, h.sorted⟩

/-- One more report, from where the others end on. -/
theorem concat {d : Diagnostic} (h : Trail c d.span.start reports)
    (hwide : d.span.start ≤ d.span.stop) (hedges : c.Edge d.span.start ∧ c.Edge d.span.stop) :
    Trail c d.span.start (reports ++ [d]) where
  wide := List.forall_mem_append.mpr ⟨h.wide, by simpa using hwide⟩
  edges := List.forall_mem_append.mpr ⟨h.edges, by simpa using hedges⟩
  upTo := List.forall_mem_append.mpr ⟨h.upTo, by simp⟩
  sorted := List.pairwise_append.mpr ⟨h.sorted, List.pairwise_singleton _ _, by simpa using h.upTo⟩

end Trail

namespace Run

/-- What was reported since `start` goes up to `place`, which the cursor has reached. -/
structure Trails (start : Run) (place : Nat) (run : Run) : Prop where
  inOrder : run.cursor.InOrder
  onward : start.cursor.Onward run.cursor
  reached : place ≤ run.cursor.span.start
  reports : ∃ reports, run.log.entries = start.log.entries ++ reports ∧
    Trail start.cursor place reports

/-- What was reported since `start` does not go beyond the cursor. -/
def Tidy (start run : Run) : Prop := start.Trails run.cursor.span.start run

/-- The diagnostic points into the text, and not to the left of what was reported since `start`. -/
structure Admits (start : Run) (d : Diagnostic) (run : Run) : Prop where
  trails : start.Trails d.span.start run
  wide : d.span.start ≤ d.span.stop
  edges : start.cursor.Edge d.span.start ∧ start.cursor.Edge d.span.stop

variable {start run : Run} {d : Diagnostic} {c : Cursor}

theorem Trails.tidy {place : Nat} (h : start.Trails place run) : start.Tidy run := by
  obtain ⟨reports, hentries, htrail⟩ := h.reports
  exact ⟨h.inOrder, h.onward, Nat.le_refl _, reports, hentries, htrail.mono h.reached⟩

/-- Reading goes on without a report. -/
theorem Trails.later {place : Nat} (h : start.Trails place run) (honward : run.cursor.Onward c) :
    start.Trails place ⟨c, run.log⟩ where
  inOrder := h.inOrder.onward honward
  onward := h.onward.trans honward
  reached := Nat.le_trans h.reached (honward.start_mono h.inOrder)
  reports := h.reports

/-- At the beginning nothing has been reported. -/
theorem tidy_refl (h : start.cursor.InOrder) : start.Tidy start :=
  ⟨h, .here, Nat.le_refl _, [], by simp, ⟨by simp, by simp, by simp, .nil⟩⟩

theorem Tidy.later (h : start.Tidy run) (honward : run.cursor.Onward c) :
    start.Tidy ⟨c, run.log⟩ :=
  (Trails.later h honward).tidy

theorem Admits.tidy (h : start.Admits d run) : start.Tidy run := h.trails.tidy

theorem Admits.later (h : start.Admits d run) (honward : run.cursor.Onward c) :
    start.Admits d ⟨c, run.log⟩ :=
  ⟨h.trails.later honward, h.wide, h.edges⟩

/-- What a reader may point at is admitted where it gives up. -/
theorem Tidy.admits (h : start.Tidy run) (honward : run.cursor.Onward c)
    (hmarks : run.cursor.Marks d.span c) : start.Admits d ⟨c, run.log⟩ := by
  have hlater : start.Trails run.cursor.span.start ⟨c, run.log⟩ := Trails.later h honward
  obtain ⟨reports, hentries, htrail⟩ := hlater.reports
  refine ⟨⟨hlater.inOrder, hlater.onward, hmarks.before, reports, hentries,
    htrail.mono hmarks.behind⟩, hmarks.wide, ?_, ?_⟩
  · exact hmarks.start.earlier h.onward
  · exact hmarks.stop.earlier h.onward

/-- A token on the way to the cursor may be pointed at. -/
theorem Tidy.admits_between {c₁ : Cursor} (h : start.Tidy run) (h₁ : run.cursor.Onward c₁)
    (h₂ : c₁.Onward c) (cause : Cause) : start.Admits ⟨cause, c₁.span⟩ ⟨c, run.log⟩ :=
  h.admits (d := ⟨cause, c₁.span⟩) (h₁.trans h₂) (.between h.inOrder h₁ h₂)

/-- The next token may be pointed at. -/
theorem Tidy.admits_here (h : start.Tidy run) (cause : Cause) :
    start.Admits ⟨cause, run.cursor.span⟩ run :=
  h.admits_between .here .here cause

/-- A diagnostic that is admitted can be reported. -/
theorem Admits.record (h : start.Admits d run) :
    start.Tidy ⟨run.cursor, run.log.record run.cursor d⟩ := by
  obtain ⟨⟨horder, honward, hreached, reports, hentries, htrail⟩, hwide, hedges⟩ := h
  have hsame : ∀ log : Log, (∃ reports, log.entries = start.log.entries ++ reports ∧
      Trail start.cursor run.cursor.span.start reports) → start.Tidy ⟨run.cursor, log⟩ :=
    fun log h => ⟨horder, honward, Nat.le_refl _, h⟩
  -- with a longer or shorter cause, the report stands in the same place
  have hmore : ∀ cause : Cause, Trail start.cursor d.span.start (reports ++ [⟨cause, d.span⟩]) :=
    fun cause => htrail.concat (d := ⟨cause, d.span⟩) hwide hedges
  unfold Log.record
  split
  · exact hsame _ ⟨reports, hentries, htrail.mono hreached⟩
  · split
    · exact hsame _ ⟨reports ++ [⟨.cutShort d.cause, d.span⟩], by simp [hentries],
        (hmore _).mono hreached⟩
    · dsimp only
      split
      · -- the last entry, that there were too many, points at the cursor
        refine hsame _ ⟨reports ++ [d] ++ [⟨.tooManyErrors, run.cursor.span⟩], by
          simp [hentries], ?_⟩
        exact ((hmore d.cause).mono hreached).concat (d := ⟨.tooManyErrors, run.cursor.span⟩)
          horder.bounds.2.1
          ⟨run.cursor.edge_start.earlier honward, run.cursor.edge_stop.earlier honward⟩
      · exact hsame _ ⟨reports ++ [d], by simp [hentries], (hmore d.cause).mono hreached⟩

/-- Beside what could be read stands no failure, or one that is admitted. -/
def Settles (start : Run) (read : Partial α) (run : Run) : Prop :=
  match read.2 with
  | some d => start.Admits d run
  | none => start.Tidy run

theorem Settles.tidy {read : Partial α} (h : start.Settles read run) : start.Tidy run := by
  unfold Settles at h
  split at h
  · exact h.tidy
  · exact h

end Run

/-! ## Readers that keep a run tidy -/

/-- A reader that starts in a tidy run ends in one, or fails with what is admitted there. -/
class Orderly (read : Recover α) : Prop where
  reaches : ∀ {start run : Run}, start.Tidy run →
    Reaches read run (fun _ run' => start.Tidy run') start.Admits

namespace Orderly

variable {start run : Run} {R : β → Run → Prop}

instance instPure (a : α) : Orderly (pure a : Recover α) := ⟨fun h => .pure h⟩

instance instGet : Orderly (get : Recover Run) := ⟨fun h => .ok h⟩

instance instHalted : Orderly Recover.halted := ⟨fun h => .ok h⟩

instance instRemaining : Orderly Recover.remaining := ⟨fun h => .ok h⟩

instance instSynchronize (scope : Scope) (stops : List Kind) :
    Orderly (Recover.synchronize scope stops) :=
  ⟨fun {_ run} h => .ok (h.later (run.cursor.onward_skipUntil _))⟩

/-- What a reader that reports nothing comes to. -/
theorem lifted (read : Read α) [hforward : Forward read] (h : start.Tidy run) :
    Reaches (monadLift read : Recover α) run
      (fun a run' => ∃ c, read run.cursor = .ok a c ∧ run' = ⟨c, run.log⟩ ∧
        run.cursor.Onward c ∧ start.Tidy ⟨c, run.log⟩)
      (fun e run' => ∃ c, run' = ⟨c, run.log⟩ ∧ run.cursor.Onward c ∧
        start.Admits e ⟨c, run.log⟩) := by
  have hproceeds := hforward.proceeds run.cursor
  unfold Reaches
  rw [Recover.lift_run]
  cases hread : read run.cursor with
  | ok a c =>
      have honward : run.cursor.Onward c := by simpa [hread, finalState] using hproceeds.onward
      exact .ok ⟨c, rfl, rfl, honward, h.later honward⟩
  | error e c =>
      have honward : run.cursor.Onward c := by simpa [hread, finalState] using hproceeds.onward
      exact .error ⟨c, rfl, honward, h.admits honward (hproceeds.marks h.inOrder e c hread)⟩

/-- What follows a reader that reports nothing. -/
theorem read {read : Read α} {next : α → Recover β} {P : α → Cursor → Prop} [Forward read]
    (h : start.Tidy run) (hread : Meets read run.cursor P)
    (hnext : ∀ a c, P a c → run.cursor.Onward c → start.Tidy ⟨c, run.log⟩ →
      Reaches (next a) ⟨c, run.log⟩ R start.Admits) :
    Reaches ((monadLift read : Recover α) >>= next) run R start.Admits := by
  refine ((lifted read h).mono (fun _ _ h => h) ?_).bind ?_
  · rintro e run' ⟨c, rfl, -, hadmits⟩
    exact hadmits
  · rintro a run' ⟨c, hok, rfl, honward, htidy⟩
    exact hnext a c (hread a c hok) honward htidy

instance instLift (read : Read α) [Forward read] : Orderly (monadLift read : Recover α) where
  reaches h := by
    refine (lifted read h).mono ?_ ?_
    · rintro a run' ⟨c, -, rfl, -, htidy⟩
      exact htidy
    · rintro e run' ⟨c, rfl, -, hadmits⟩
      exact hadmits

/-- What follows a reader that keeps the run tidy. -/
theorem next {read : Recover α} {next : α → Recover β} [hread : Orderly read] (h : start.Tidy run)
    (hnext : ∀ a run', start.Tidy run' → Reaches (next a) run' R start.Admits) :
    Reaches (read >>= next) run R start.Admits :=
  (hread.reaches h).bind hnext

instance instBind (read : Recover α) (next : α → Recover β) [Orderly read]
    [hnext : ∀ a, Orderly (next a)] : Orderly (read >>= next) :=
  ⟨fun h => Orderly.next h fun a _ h => (hnext a).reaches h⟩

instance instIte (p : Prop) [Decidable p] (yes no : Recover α) [hyes : Orderly yes]
    [hno : Orderly no] : Orderly (if p then yes else no) := by
  split
  · exact hyes
  · exact hno

theorem after {read : Recover α} {next : α → Recover β} [Orderly read]
    (hnext : ∀ a, Orderly (next a)) : Orderly (read >>= next) :=
  instBind read next

/-- A loop keeps the run as its steps do. -/
theorem iterate {step : α → Recover (ForInStep α)} {I : α → Run → Prop} {a : α} (h : I a run)
    (hstep : ∀ a run, I a run → Reaches (step a) run (StepKeeps I I) start.Admits) :
    Reaches (Recover.iterate a step) run I start.Admits :=
  .get (Reaches.iterateUpTo (fun _ _ h => h) hstep _ a run h)

instance instIterate (a : α) (step : α → Recover (ForInStep α)) [hstep : ∀ a, Orderly (step a)] :
    Orderly (Recover.iterate a step) where
  reaches {start run} h := by
    refine iterate (I := fun _ run => start.Tidy run) h fun a run' h => ?_
    refine ((hstep a).reaches h).mono (fun next run'' hnext => ?_) fun _ _ h => h
    cases next <;> exact hnext

instance instLocated (read : Recover α) [Orderly read] : Orderly (Recover.located read) := by
  unfold Recover.located
  infer_instance

instance instLeave (start : Nat) : Orderly (Recover.leave start) := by
  unfold Recover.leave
  infer_instance

/-- What is admitted is reported. -/
theorem report {d : Diagnostic} {next : Unit → Recover β} (h : start.Admits d run)
    (hnext : ∀ run', start.Tidy run' → Reaches (next ()) run' R start.Admits) :
    Reaches (Recover.report d >>= next) run R start.Admits :=
  hnext _ h.record

/-- What follows a reader whose failure is caught. -/
theorem caught {read : Recover α} {next : Except Diagnostic α → Recover β} [hread : Orderly read]
    (h : start.Tidy run)
    (hok : ∀ a run', start.Tidy run' → Reaches (next (.ok a)) run' R start.Admits)
    (hfail : ∀ e run', start.Admits e run' → Reaches (next (.error e)) run' R start.Admits) :
    Reaches (Recover.attempt read >>= next) run R start.Admits :=
  (hread.reaches h).caught hok hfail

/-- The same for a reader that reports nothing: what was admitted before it is admitted behind
it. -/
theorem caughtRead {read : Read α} {next : Except Diagnostic α → Recover β} [Forward read]
    (h : start.Tidy run)
    (hok : ∀ a c, run.cursor.Onward c → start.Tidy ⟨c, run.log⟩ →
      Reaches (next (.ok a)) ⟨c, run.log⟩ R start.Admits)
    (hfail : ∀ e c, run.cursor.Onward c → start.Admits e ⟨c, run.log⟩ →
      Reaches (next (.error e)) ⟨c, run.log⟩ R start.Admits) :
    Reaches (Recover.attempt (monadLift read) >>= next) run R start.Admits := by
  refine (lifted read h).caught ?_ ?_
  · rintro a run' ⟨c, -, rfl, honward, htidy⟩
    exact hok a c honward htidy
  · rintro e run' ⟨c, rfl, honward, hadmits⟩
    exact hfail e c honward hadmits

end Orderly

namespace Read

/-- A bound name is the next token. -/
theorem meets_ident_span (c : Cursor) : Meets ident c fun name _ => name.span = c.span := by
  refine .take? (fun token rest hrest _ => ?_) fun _ => .missing
  have hspan : token.span = c.span := by rw [Cursor.span, hrest]
  exact .bind .any fun pragmas c' _ => .pure hspan

/-- The name of a node is a token of its head. -/
theorem meets_nodeHead_name (c : Cursor) : Meets nodeHead c fun head c' =>
    ∃ c₁, c.Onward c₁ ∧ c₁.Onward c' ∧ head.name.span = c₁.span := by
  refine .bind (Forward.meets_onward (eat _) c) fun isUnsafe c₁ h₁ => ?_
  refine .bind (Forward.meets_onward nodeKind c₁) fun kind c₂ h₂ => ?_
  refine .bind ((meets_ident_span c₂).and (Forward.meets_onward ident c₂)) fun name c₃ hname => ?_
  exact .pure ⟨c₂, h₁.trans h₂, hname.2, hname.1⟩

end Read

namespace Recover

variable {deep : Nested} [hdeep : deep.Advances] {scope : Scope} {start run : Run}

/-! ## Recovery -/

instance orderly_skipDeclaration (left : Nat) : Orderly (skipDeclaration scope left) := by
  unfold skipDeclaration
  infer_instance

instance orderly_endMark : Orderly endMark := by
  unfold endMark
  infer_instance

instance orderly_endNode : Orderly endNode := by
  unfold endNode
  infer_instance

instance orderly_skipNode : Orderly (skipNode scope) := by
  unfold skipNode
  infer_instance

instance orderly_skipHeader : Orderly (skipHeader scope) := by
  unfold skipHeader
  infer_instance

instance orderly_skipStatement (left : Nat) : Orderly (skipStatement scope left) := by
  unfold skipStatement
  infer_instance

instance orderly_skipEntry (left : Nat) : Orderly (skipEntry scope left) := by
  unfold skipEntry
  infer_instance

/-! ## Equations and blocks -/

theorem settles_equations (h : start.Tidy run) :
    Reaches (equations deep scope) run start.Settles start.Admits := by
  refine Orderly.iterate (I := start.Settles) h fun read run₁ hread => ?_
  have htidy := hread.tidy
  refine .get (.halted (.ite (fun _ => .pure htidy) fun _ => ?_))
  refine .ifEaten (fun _ => .pure (htidy.later (.pass .here))) fun _ => ?_
  refine .ite (fun _ => .pure (htidy.admits_here _)) fun _ => ?_
  refine Orderly.caught htidy (fun equation run₂ h => .pure h) fun e run₂ hadmits => ?_
  exact Orderly.report hadmits fun run₃ h => Orderly.next h fun _ run₄ h =>
    Orderly.next h fun span run₅ h => .pure h

instance orderly_blockStep {follows : List Kind} {entry : Read α} [Forward entry]
    (entries : List α) : Orderly (blockStep scope follows entry entries) where
  reaches {start run} h := by
    have hend : ∀ (entries : List α) (run' : Run), start.Tidy run' → Reaches (do
        let c := (← get).cursor
        if (← halted) || !(c.isAt .ident && (c.peekAt 1).any follows.contains) then
          return .done entries
        else return .yield entries : Recover (ForInStep (List α))) run'
        (fun _ run' => start.Tidy run') start.Admits := fun entries run' h =>
      .get (.halted (.ite (fun _ => .pure h) fun _ => .pure h))
    refine Orderly.next h fun left run₁ h => Orderly.caught h (fun one run₂ h => hend _ _ h) ?_
    refine fun e run₂ hadmits => .get (.ite (fun _ => .throw hadmits) fun _ => ?_)
    exact Orderly.report hadmits fun run₃ h => Orderly.next h fun _ run₄ h => hend entries run₄ h

instance orderly_block {follows : List Kind} {entry : Read α} [Forward entry] :
    Orderly (block scope follows entry) := by
  unfold block
  infer_instance

instance orderly_typeBlock : Orderly (typeBlock deep scope) := by
  unfold typeBlock
  infer_instance

instance orderly_constBlock : Orderly (constBlock deep scope) := by
  unfold constBlock
  infer_instance

/-! ## Nodes -/

instance orderly_localBlock : Orderly (localBlock deep scope) := by
  unfold localBlock
  infer_instance

instance orderly_localStep (blocks : List (Located LocalBlock)) :
    Orderly (localStep deep scope blocks) := by
  refine .after fun next => ?_
  split <;> infer_instance

instance orderly_localBlocks : Orderly (localBlocks deep scope) := by
  unfold localBlocks
  infer_instance

/-- Nothing is reported between the name of a node and its body. -/
theorem settles_nodeHeader (h : start.Tidy run) (head : NodeHead) :
    Reaches (nodeHeader deep head) run (fun read run' => start.Settles read run' ∧
      read.1.head = head ∧ ∀ d, start.Admits d run → start.Admits d run') start.Admits := by
  refine Orderly.caughtRead h (fun params c₁ h₁ htidy₁ => ?_) fun e c₁ h₁ hadmits =>
    .pure ⟨hadmits, rfl, fun d hd => hd.later h₁⟩
  refine Orderly.caughtRead htidy₁ (fun profile c₂ h₂ htidy₂ => ?_) fun e c₂ h₂ hadmits =>
    .pure ⟨hadmits, rfl, fun d hd => hd.later (h₁.trans h₂)⟩
  refine Orderly.caughtRead htidy₂ (fun body c₃ h₃ htidy₃ => ?_) fun e c₃ h₃ hadmits =>
    .pure ⟨hadmits, rfl, fun d hd => hd.later ((h₁.trans h₂).trans h₃)⟩
  exact .pure ⟨htidy₃, rfl, fun d hd => hd.later ((h₁.trans h₂).trans h₃)⟩

theorem settles_nodeDefinition (h : start.Tidy run) (decl : NodeDecl) :
    Reaches (nodeDefinition deep scope decl) run start.Settles start.Admits := by
  refine Orderly.caught h (fun locals run₁ h => ?_) fun e run₁ hadmits => .pure hadmits
  refine (settles_equations h).bind fun read run₂ hread => ?_
  obtain ⟨equations, failure⟩ := read
  cases failure with
  | none => exact Orderly.next hread fun _ run₃ h => .pure h
  | some e => exact .pure hread

/-- A body without a profile is a failure that points back at the name of its node. -/
theorem settles_nodeTail (h : start.Tidy run) {decl : NodeDecl}
    (hname : ∀ cause, start.Admits ⟨cause, decl.head.name.span⟩ run) :
    Reaches (nodeTail deep scope decl) run start.Settles start.Admits := by
  refine .get ?_
  dsimp only
  split
  · exact .ite (fun _ => .pure (h.admits_here _)) fun _ => .pure h
  · exact .ite (fun _ => .pure (hname _)) fun _ => .pure (h.admits_here _)
  · exact settles_nodeDefinition h decl

theorem settles_closeNode {read : Partial NodeDecl} (h : start.Settles read run) :
    Reaches (closeNode scope read) run (fun _ run' => start.Tidy run') start.Admits := by
  obtain ⟨decl, failure⟩ := read
  cases failure with
  | none => exact .pure h
  | some e => exact Orderly.report h fun run₁ h => Orderly.next h fun _ run₂ h => .pure h

instance orderly_node : Orderly (node deep scope) where
  reaches {start run} h := by
    refine Orderly.read h (Read.meets_nodeHead_name run.cursor) fun head c hname _ htidy => ?_
    obtain ⟨c₁, h₁, h₂, hspan⟩ := hname
    -- the name has been passed, but until something is reported it may still be pointed at
    have hname : ∀ cause, start.Admits ⟨cause, head.name.span⟩ ⟨c, run.log⟩ :=
      fun cause => hspan ▸ h.admits_between h₁ h₂ cause
    refine (settles_nodeHeader htidy head).bind fun read run₂ hread => ?_
    obtain ⟨hsettles, hhead, hkeeps⟩ := hread
    obtain ⟨decl, failure⟩ := read
    cases failure with
    | none =>
        have hdecl : ∀ cause, start.Admits ⟨cause, decl.head.name.span⟩ run₂ := fun cause =>
          hhead ▸ hkeeps _ (hname cause)
        exact (settles_nodeTail hsettles hdecl).bind fun read run₃ hread => settles_closeNode hread
    | some e => exact Orderly.report hsettles fun run₃ h => Orderly.next h fun _ run₄ h => .pure h

instance orderly_anyDeclaration : Orderly (anyDeclaration deep scope) where
  reaches {start run} h := by
    refine .get ?_
    dsimp only
    split
    · exact .ite (fun _ => Orderly.reaches h) fun _ => Orderly.reaches h
    · exact Orderly.reaches h
    · exact Orderly.reaches h
    · exact Orderly.reaches h
    · exact Orderly.reaches h
    · exact Orderly.reaches h
    · exact .throw (h.admits_here _)

instance orderly_declaration : Orderly (declaration deep scope) := by
  unfold declaration
  infer_instance

/-! ## Packages and models -/

theorem settles_body (h : start.Tidy run) :
    Reaches (body deep) run start.Settles start.Admits := by
  refine Orderly.caught h (fun _ run₁ h => ?_) fun e run₁ hadmits => .pure hadmits
  refine Orderly.iterate (I := start.Settles) h fun read run₂ hread => ?_
  have htidy := hread.tidy
  refine .get (.halted (.ite (fun _ => .pure htidy) fun _ => ?_))
  refine .ifEaten (fun _ => .pure (htidy.later (.pass .here))) fun _ => ?_
  split
  · exact .pure (htidy.admits_here _)
  · refine .ite (fun _ => .pure (htidy.admits_here _)) fun _ => ?_
    refine Reaches.caught (.ite (fun _ => Orderly.reaches htidy) fun _ =>
      .throw (htidy.admits_here _))
      (fun decl run₃ h => .pure h) fun e run₃ hadmits => ?_
    exact Orderly.report hadmits fun run₄ h => Orderly.next h fun _ run₅ h =>
      Orderly.next h fun span run₆ h => .pure h

instance orderly_package : Orderly (package deep) where
  reaches {start run} h := by
    refine Orderly.next h fun _ run₁ h => Orderly.next h fun name run₂ h => ?_
    refine Orderly.next h fun word run₃ h => ?_
    cases word with
    | some word =>
        refine Orderly.next h fun model run₄ h => Orderly.next h fun args run₅ h => ?_
        refine Orderly.next h fun _ run₆ h => .get ?_
        refine .ite (fun _ => ?_) fun _ => .pure h
        exact Orderly.report (h.admits_here _) fun run₇ h => Orderly.next h fun _ run₈ h =>
          Orderly.next h fun _ run₉ h => .pure h
    | none =>
        refine Orderly.next h fun uses run₄ h => Orderly.next h fun provides run₅ h => ?_
        refine (settles_body h).bind fun read run₆ hread => ?_
        obtain ⟨decls, failure⟩ := read
        cases failure with
        | none => exact .pure hread
        | some e => exact Orderly.report hread fun run₇ h => .pure h

/-- The missing parameters of a model are reported at its name. -/
theorem settles_requiredNeeds (h : start.Tidy run) {name : Ident}
    (hname : ∀ cause, start.Admits ⟨cause, name.span⟩ run) :
    Reaches (requiredNeeds deep name) run start.Settles start.Admits := by
  refine .ifEaten (fun _ => ?_) fun _ => Orderly.report (hname _) fun run₁ h => .pure h
  refine Orderly.iterate (I := start.Settles) (h.later (.pass .here)) fun read run₁ hread => ?_
  refine Orderly.caught hread.tidy (fun param run₂ h => ?_) fun e run₂ hadmits => .pure hadmits
  refine Orderly.caught h (fun _ run₃ h => ?_) fun e run₃ hadmits => .pure hadmits
  exact Orderly.next h fun next run₄ h => .ite (fun _ => .pure h) fun _ => .pure h

theorem settles_modelTail (h : start.Tidy run) {name : Ident}
    (hname : ∀ cause, start.Admits ⟨cause, name.span⟩ run) :
    Reaches (modelTail deep name) run start.Settles start.Admits := by
  refine Orderly.caughtRead h (fun uses c honward htidy => ?_) fun e c _ hadmits => .pure hadmits
  refine (settles_requiredNeeds htidy fun cause => (hname cause).later honward).bind
    fun read run₁ hread => ?_
  obtain ⟨needs, failure⟩ := read
  cases failure with
  | some e => exact .pure hread
  | none =>
      refine Orderly.caught hread (fun provides run₂ h => ?_) fun e run₂ hadmits => .pure hadmits
      exact (settles_body h).bind fun read run₃ hread => .pure hread

instance orderly_model : Orderly (model deep) where
  reaches {start run} h := by
    refine Orderly.next h fun _ run₁ h => ?_
    refine Orderly.read h (Read.meets_ident_span run₁.cursor) fun name c hspan honward htidy => ?_
    have hname : ∀ cause, start.Admits ⟨cause, name.span⟩ ⟨c, run₁.log⟩ :=
      fun cause => hspan ▸ h.admits_between .here honward cause
    refine (settles_modelTail htidy hname).bind fun read run₂ hread => ?_
    obtain ⟨model, failure⟩ := read
    cases failure with
    | none => exact .pure hread
    | some e => exact Orderly.report hread fun run₃ h => Orderly.next h fun _ run₄ h => .pure h

/-! ## Programs -/

instance orderly_includes : Orderly includes where
  reaches {start run} h := by
    refine Orderly.iterate (I := fun _ run => start.Tidy run) h fun done run₁ h => ?_
    refine .get (.halted (.ite (fun _ => .pure h) fun _ => ?_))
    refine Orderly.caught h (fun file run₂ h => .pure h) fun e run₂ hadmits => ?_
    exact Orderly.report hadmits fun run₃ h => Orderly.next h fun _ run₄ h => .pure h

theorem reaches_item (h : start.Tidy run) (kind : Kind) :
    Reaches (item deep run.cursor kind) run (fun _ run' => start.Tidy run') start.Admits := by
  refine .ite (fun _ => Orderly.reaches h) fun _ => .ite (fun _ => Orderly.reaches h) fun _ => ?_
  refine .ite (fun _ => .throw (h.admits_here _)) fun _ => ?_
  exact .ite (fun _ => Orderly.reaches h) fun _ => .throw (h.admits_here _)

instance orderly_items : Orderly (items deep) where
  reaches {start run} h := by
    refine Orderly.iterate (I := fun _ run => start.Tidy run) h fun done run₁ h => ?_
    refine .get (.halted (.ite (fun _ => .pure h) fun _ => ?_))
    split
    · exact .pure h
    · refine Reaches.caught (reaches_item h _) (fun one run₂ h => ?_) fun e run₂ hadmits => ?_
      · exact Orderly.next h fun span run₃ h => .pure h
      · exact Orderly.report hadmits fun run₃ h => Orderly.next h fun _ run₄ h =>
          Orderly.next h fun span run₅ h => .pure h

instance orderly_program : Orderly (program deep) := by
  unfold program
  infer_instance

instance orderly_standaloneExpr : Orderly (standaloneExpr deep) where
  reaches {start run} h := by
    refine Orderly.caught h (fun expr run₁ h => .pure h) fun e run₁ hadmits => ?_
    exact Orderly.report hadmits fun run₂ h => .pure h

end Recover

/-! ## The diagnostics of a text -/

/-- Diagnostics that stand on characters of a text.  Behind those on its words come those of
readers, which stand on whole tokens or at the end of the text, in the order of the text. -/
structure PointInOrder (text : String) (diagnostics : List Diagnostic) : Prop where
  within : ∀ d ∈ diagnostics, d.span.start ≤ d.span.stop ∧ d.span.stop ≤ text.utf8ByteSize
  onCharacters : ∀ d ∈ diagnostics,
    IsBoundary text d.span.start ∧ IsBoundary text d.span.stop
  inOrder : ∃ reports, diagnostics = (Lexed.ofText text).diagnostics ++ reports ∧
    (∀ d ∈ reports, ∀ place, place = d.span.start ∨ place = d.span.stop →
      place = text.utf8ByteSize ∨
        ∃ token ∈ (Lexed.ofText text).tokens, place = token.span.start ∨ place = token.span.stop) ∧
    reports.Pairwise fun d later => d.span.start ≤ later.span.start

/-- The log of a run that began with the words of a text and is tidy. -/
theorem Run.Tidy.pointInOrder {text : String} {start run : Run}
    (hcursor : start.cursor = .start (Lexed.ofText text).tokens text.utf8ByteSize)
    (hentries : start.log.entries = (Lexed.ofText text).diagnostics) (h : start.Tidy run) :
    PointInOrder text run.log.entries := by
  obtain ⟨reports, hreports, htrail⟩ := h.reports
  rw [hentries] at hreports
  rw [hreports]
  -- the cursor had all tokens of the text before it
  have hedge : ∀ place, start.cursor.Edge place ↔ place = text.utf8ByteSize ∨
      ∃ token ∈ (Lexed.ofText text).tokens, place = token.span.start ∨ place = token.span.stop := by
    intro place
    rw [hcursor]
    rfl
  have hboundary : ∀ place, start.cursor.Edge place → IsBoundary text place := by
    intro place h
    rcases (hedge place).mp h with rfl | ⟨token, htoken, rfl | rfl⟩
    · exact isBoundary_size text
    · exact (Token.boundaries text token htoken).1
    · exact (Token.boundaries text token htoken).2
  have hall : ∀ d ∈ (Lexed.ofText text).diagnostics ++ reports, d.span.start ≤ d.span.stop ∧
      IsBoundary text d.span.start ∧ IsBoundary text d.span.stop := by
    refine List.forall_mem_append.mpr ⟨fun d hd => Lexed.boundaries_of_mem_diagnostics hd, ?_⟩
    intro d hd
    obtain ⟨hstart, hstop⟩ := htrail.edges d hd
    exact ⟨htrail.wide d hd, hboundary _ hstart, hboundary _ hstop⟩
  refine ⟨fun d hd => ⟨(hall d hd).1, (hall d hd).2.2.le_size⟩, fun d hd => (hall d hd).2,
    reports, rfl, ?_, htrail.sorted⟩
  rintro d hd place (rfl | rfl)
  · exact (hedge _).mp (htrail.edges d hd).1
  · exact (hedge _).mp (htrail.edges d hd).2

/-- Every diagnostic on a text stands on characters of the text, and those of the readers stand on
whole tokens or at the end, in the order in which they begin.  This holds for programs, whatever
the options, and for single expressions. -/
theorem diagnostics_point_in_order :
    (∀ (text : String) (options : ParseOptions),
      PointInOrder text (parse text options).diagnostics) ∧
    ∀ text : String, PointInOrder text (parseExpr text).2 := by
  refine ⟨fun text options => ?_, fun text => ?_⟩
  · obtain ⟨program, run', hread, -, hdiagnostics⟩ := parse_eq_run text options
    have hordered : (Run.reading text options).cursor.InOrder := Token.ordered_tokens text
    have horderly : Orderly (Recover.program (.upTo maxNesting)) := inferInstance
    have hreaches := horderly.reaches (Run.tidy_refl hordered)
    unfold Reaches at hreaches
    rw [hread] at hreaches
    cases hreaches with
    | ok h =>
        rw [hdiagnostics]
        exact h.pointInOrder rfl rfl
  · have hordered : (Run.ofText text (Lexed.ofText text)).cursor.InOrder :=
      Token.ordered_tokens text
    have horderly : Orderly (Recover.standaloneExpr (.upTo maxNesting)) := inferInstance
    have hreaches := horderly.reaches (Run.tidy_refl hordered)
    change PointInOrder text ((Run.ofText text (Lexed.ofText text)).expr maxNesting).2.log.entries
    rw [Run.expr_snd]
    unfold Reaches at hreaches
    generalize Recover.standaloneExpr (.upTo maxNesting) (Run.ofText text (Lexed.ofText text)) =
      result at hreaches ⊢
    cases hreaches with
    | ok h => exact h.pointInOrder rfl rfl
    | error h => exact h.tidy.pointInOrder rfl rfl

end Lustre
