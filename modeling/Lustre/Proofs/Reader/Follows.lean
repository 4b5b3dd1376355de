import Lustre.Proofs.Reader.Alongside

/-!
# Declarations, packages and programs in another text

Every reader of a file follows along in another text (`Follows`).  Three things make
the first run's answer unsound if more tokens come behind: a failure that was kept as
a value, blocks before a `let` and lists of parameters that ended only because no token
was left.  Each of them is followed by something that must be there, so a run without a
report shows that they did not happen.

The items of a file are the exception.  Where the first run ends, the second goes on
with the items that follow, so their loop is compared step by step
(`runs_itemStep`).
-/

namespace Lustre

open Movable

/-! ## Recovery -/

/-- Skipping passes the next token or stops in front of it. -/
theorem Cursor.skipUntil_eq (c : Cursor) (stop : Kind → Bool) :
    c.skipUntil stop = if c.peek.all stop then c else c.pass.skipUntil stop := by
  have hgo : ∀ (rest : List Token) (c₁ c₂ : Cursor) (last : Nat), c₁.size = c₂.size →
      Cursor.skipUntil.go c₁ stop last rest = Cursor.skipUntil.go c₂ stop last rest := by
    intro rest
    induction rest with
    | nil => exact fun c₁ c₂ last hsize => by simp only [Cursor.skipUntil.go, hsize]
    | cons token rest ih =>
        exact fun c₁ c₂ last hsize => by simp only [Cursor.skipUntil.go, hsize, ih c₁ c₂ _ hsize]
  rcases c with ⟨_ | ⟨token, rest⟩, last, size⟩
  · rfl
  · change Cursor.skipUntil.go ⟨token :: rest, last, size⟩ stop last (token :: rest) =
      if stop token.kind then _ else Cursor.skipUntil.go ⟨rest, token.span.stop, size⟩ stop _ rest
    rw [Cursor.skipUntil.go]
    split
    · rfl
    · exact hgo rest _ _ _ rfl

namespace Context.Beside

variable {M : Context} {c c' : Cursor}

/-- Recovery skips the same tokens. -/
theorem skipUntil (hc : M.Beside c c') (hlater : M.later = []) (stop : Kind → Bool) :
    M.Beside (c.skipUntil stop) (c'.skipUntil stop) := by
  have hbounded : ∀ (bound : Nat) (c c' : Cursor), c.rest.length ≤ bound → M.Beside c c' →
      M.Beside (c.skipUntil stop) (c'.skipUntil stop) := by
    intro bound
    induction bound with
    | zero =>
        intro c c' hbound hc
        have hrest : c.rest = [] := List.length_eq_zero_iff.mp (by omega)
        have hnone : c.peek.all stop = true := by simp [Cursor.peek, hrest]
        rw [c.skipUntil_eq, c'.skipUntil_eq, hc.peek (.inr hlater), if_pos hnone, if_pos hnone]
        exact hc
    | succ bound ih =>
        intro c c' hbound hc
        rw [c.skipUntil_eq, c'.skipUntil_eq, hc.peek (.inr hlater)]
        split
        · exact hc
        · refine ih _ _ ?_ (hc.pass (.inr hlater))
          rw [Cursor.rest_pass, List.length_tail]
          omega
  exact hbounded _ c c' (Nat.le_refl _) hc

theorem length_eq (hc : M.Beside c c') (hlater : M.later = []) :
    c'.rest.length = c.rest.length := by
  rw [hc.rest, hlater, List.append_nil, length_move]

end Context.Beside

namespace RunContext

variable {M : RunContext} {scope : Scope}

section

variable (hlater : M.later = [])
include hlater

theorem follows_synchronize (stops : List Kind) :
    M.Follows (fun _ _ => True) (Recover.synchronize scope stops) := by
  intro run run' hrun
  exact fun _ => ⟨(), _, rfl, rfl, hrun.cursor.skipUntil hlater _, hrun.log⟩

theorem follows_leave (start : Nat) : M.Follows (fun _ _ => True) (Recover.leave start) := by
  intro run run' hrun
  change M.Runs (fun _ _ => True) M.Moved
    (if run.cursor.rest.length = start then monadLift Read.advance else pure () : Recover Unit)
    (if run'.cursor.rest.length = start then monadLift Read.advance else pure () : Recover Unit)
    run run'
  rw [hrun.cursor.length_eq hlater]
  split
  · exact .advance hrun (.inr hlater) fun run₁ run₁' hrun₁ => .pure hrun₁ rfl
  · exact .pure hrun rfl

theorem follows_skipDeclaration (start : Nat) :
    M.Follows (fun _ _ => True) (Recover.skipDeclaration scope start) := fun _ _ hrun =>
  .skipped hlater (follows_leave hlater start) hrun (follows_synchronize hlater _)

omit hlater in
theorem follows_endMark : M.Follows (fun _ _ => True) Recover.endMark := by
  intro run run' hrun
  refine .ifEat hrun (by decide) (fun _ _ hrun₁ => .pure hrun₁ rfl) fun _ => ?_
  exact .eat hrun (by decide) (fun _ _ hrun₁ => .pure hrun₁ rfl) fun _ => .pure hrun rfl

omit hlater in
theorem follows_endNode : M.Follows (fun _ _ => True) Recover.endNode := fun _ _ hrun =>
  .ifEat hrun (by decide) follows_endMark fun _ => .pure hrun rfl

theorem follows_skipNode : M.Follows (fun _ _ => True) (Recover.skipNode scope) := fun _ _ hrun =>
  .skipped hlater (follows_synchronize hlater _) hrun follows_endNode

theorem follows_skipHeader : M.Follows (fun _ _ => True) (Recover.skipHeader scope) :=
  fun _ _ hrun => .skipped hlater (follows_synchronize hlater _) hrun fun run₁ run₁' hrun₁ =>
    .ifAt hrun₁ (by decide) (fun _ => follows_skipNode hlater run₁ run₁' hrun₁)
      (follows_endNode run₁ run₁' hrun₁)

/-- The way on after a broken statement or entry, up to its semicolon. -/
theorem follows_skipPast (stops : List Kind) : M.Follows (fun _ _ => True) (do
    Recover.synchronize scope stops
    let _ ← (Read.eat .semi : Read Bool) : Recover Unit) := fun _ _ hrun =>
  .skipped hlater (follows_synchronize hlater _) hrun fun _ _ hrun₁ =>
    .eat hrun₁ (by decide) (fun _ _ hrun₂ => .pure hrun₂ rfl) fun _ => .pure hrun₁ rfl

theorem follows_skipStatement (start : Nat) :
    M.Follows (fun _ _ => True) (Recover.skipStatement scope start) := fun run run' hrun =>
  .ifAt hrun (by decide) (fun _ => follows_skipPast hlater _ run run' hrun)
    (.skipped hlater (follows_leave hlater start) hrun (follows_skipPast hlater _))

theorem follows_skipEntry (start : Nat) :
    M.Follows (fun _ _ => True) (Recover.skipEntry scope start) := fun _ _ hrun =>
  .skipped hlater (follows_leave hlater start) hrun (follows_skipPast hlater _)

end

/-! ## Equations and blocks -/

variable {deep : Nested} [deep.Advances] {α : Type}

section

variable (hdeep : M.Levels deep)
include hdeep

theorem runs_equationStep (done : List (Located Equation)) (run run' : Run)
    (hrun : M.BesideRun run run') :
    M.Runs (Link.StepGood (fun read _ => read.2 = none) fun _ => True)
      (Link.StepAlike M.Moved) (Recover.equationStep deep scope done)
      (Recover.equationStep deep scope (move M.place done)) run run' := by
  refine .aligned hrun (fun hrest => ?_) fun haligned => .get (.halted hrun fun stopped => ?_)
  · refine .get (.unlessHalted (.ifEat (fun htel => ?_) fun _ => ?_))
    · simp [Cursor.peek, hrest] at htel
    · simp only [Cursor.peek, hrest, List.head?_nil, Option.map_none, Option.all_none, if_true]
      exact .pure (Option.some_ne_none _)
  · split
    · exact .pure hrun (.done rfl)
    refine .ifEat hrun (by decide) (fun _ _ hrun₁ => .pure hrun₁ (.done rfl)) fun _ => ?_
    rw [hrun.cursor.peek haligned, hrun.cursor.unexpected haligned, hrun.cursor.span haligned]
    split
    · exact .pure hrun (.done rfl)
    refine .caughtRead (Context.carries_equation hdeep) hrun (fun e run₁ => .report) ?_ ?_
    · exact fun equation _ _ hrun₁ => .pure hrun₁ (.yield (by simp [Context.Moved]))
    · intro hlater e run₁ run₁' hrun₁
      refine .report hrun₁ (fun _ => rfl) fun _ run₂ run₂' hrun₂ => ?_
      rw [hrun.cursor.length_eq hlater]
      refine .skipped hlater (follows_skipStatement hlater _) hrun₂ fun run₃ run₃' hrun₃ => ?_
      exact .spanFrom hrun₃ fun span => .pure hrun₃ (.yield (by simp [Context.Moved]))

theorem follows_equations :
    M.Follows (fun read _ => read.2 = none) (Recover.equations deep scope) :=
    fun run run' hrun => by
  refine .iterate Recover.advancing_equationStep hrun rfl fun read read' run run' hread hrun => ?_
  cases hread
  exact runs_equationStep hdeep read.1 run run' hrun

omit hdeep [deep.Advances] in
/-- Whether a block goes on is the same for both. -/
theorem Beside.goesOn {M : Context} {c c' : Cursor} (hc : M.Beside c c') {follows : List Kind}
    (hfollows : ∀ kind ∈ follows, kind ∉ itemHeads) :
    (c'.isAt .ident && (c'.peekAt 1).any follows.contains) =
      (c.isAt .ident && (c.peekAt 1).any follows.contains) := by
  rw [hc.isAt (by decide), Bool.eq_iff_iff]
  simp only [Bool.and_eq_true, Option.any_eq_true, List.contains_iff_mem]
  refine and_congr_right fun hat => ?_
  have hone : 1 ≤ c.rest.length :=
    Cursor.lt_of_peekAt ((Cursor.peekAt_zero c).trans (beq_iff_eq.mp hat))
  refine exists_congr fun kind => and_congr_left fun hkind => ?_
  exact hc.peekAt_iff (.inl hone) (hfollows kind hkind)

omit hdeep [deep.Advances] in
theorem runs_blockStep [Movable α]
    {follows : List Kind} (hfollows : ∀ kind ∈ follows, kind ∉ itemHeads)
    {entry : Read α} [Forward entry] (hentry : M.Carries entry entry) (entries : List α)
    (run run' : Run) (hrun : M.BesideRun run run') :
    M.Runs (Link.StepGood (fun _ _ => True) fun _ => True) (Link.StepAlike M.Moved)
      (Recover.blockStep scope follows entry entries)
      (Recover.blockStep scope follows entry (move M.place entries)) run run' := by
  -- whether the block goes on is seen from two tokens, which both runs see alike
  have hend : ∀ (entries : List α) (run run' : Run), M.BesideRun run run' →
      M.Runs (Link.StepGood (fun _ _ => True) fun _ => True) (Link.StepAlike M.Moved) (do
        let c := (← get).cursor
        if (← Recover.halted) || !(c.isAt .ident && (c.peekAt 1).any follows.contains) then
          return .done entries
        else return .yield entries : Recover (ForInStep (List α))) (do
        let c := (← get).cursor
        if (← Recover.halted) || !(c.isAt .ident && (c.peekAt 1).any follows.contains) then
          return .done (move M.place entries)
        else return .yield (move M.place entries) : Recover (ForInStep (List α))) run run' := by
    intro entries run run' hrun
    refine .get (.halted hrun fun stopped => ?_)
    rw [Beside.goesOn hrun.cursor hfollows]
    split
    · exact .pure hrun (.done rfl)
    · exact .pure hrun (.yield rfl)
  have hregular : ∀ entries : List α, Regular _ := Recover.regular_blockEnd follows
  refine .get (.caughtRead hentry hrun (fun e run₁ => ?_) (fun one run₁ run₁' hrun₁ => ?_) ?_)
  · refine .get ?_
    split
    · exact .throw
    · exact .report
  · have hone := hend (entries ++ [one]) run₁ run₁' hrun₁
    rw [move_append] at hone
    exact hone
  · intro hlater e run₁ run₁' hrun₁
    refine .get ?_
    -- nothing was passed in one run exactly if nothing was passed in the other
    rw [hrun₁.cursor.length_eq hlater, hrun.cursor.length_eq hlater, isEmpty_move]
    split
    · exact .throw hrun₁ fun _ => rfl
    · refine .report hrun₁ (fun _ => rfl) fun _ run₂ run₂' hrun₂ => ?_
      exact .skipped hlater (follows_skipEntry hlater _) hrun₂ (hend entries)

theorem follows_typeBlock : M.Follows (fun _ _ => True) (Recover.typeBlock deep scope) :=
  fun run run' hrun => by
    refine .iterate (Recover.advancing_blockStep Recover.meets_typeEntry_shorter) hrun rfl
      fun entries entries' run run' hentries hrun => ?_
    cases hentries
    exact runs_blockStep (by decide) (Context.carries_typeEntry hdeep) entries run run' hrun

theorem follows_constBlock : M.Follows (fun _ _ => True) (Recover.constBlock deep scope) :=
  fun run run' hrun => by
    refine .iterate (Recover.advancing_blockStep Recover.meets_constEntry_shorter) hrun rfl
      fun entries entries' run run' hentries hrun => ?_
    cases hentries
    exact runs_blockStep (by decide) (Context.carries_constEntry hdeep) entries run run' hrun

/-! ## Nodes -/

theorem runs_localBlock (run run' : Run) (hrun : M.BesideRun run run')
    (hpeek : run.cursor.peek = some .kwVar ∨ run.cursor.peek = some .kwConst) :
    M.Runs (fun _ _ => True) M.Moved (Recover.localBlock deep scope) (Recover.localBlock deep scope)
      run run' := by
  refine .ifEat hrun (by decide) (fun _ _ hrun₁ => ?_) fun hvar => ?_
  · refine .carried (Context.carries_terminated (by decide) (Context.carries_varDecl hdeep)) hrun₁
      fun vars _ _ hrun₂ => ?_
    exact .pure hrun₂ rfl
  · have hconst := hpeek.resolve_left hvar
    refine .advance hrun (Context.aligned_of_peek hconst) fun run₁ run₁' hrun₁ => ?_
    refine .bind hrun₁ (follows_constBlock hdeep run₁ run₁' hrun₁) (fun _ _ _ _ _ _ _ _ => trivial)
      fun consts consts' _ _ hconsts hrun₂ => ?_
    cases hconsts
    exact .pure hrun₂ rfl

theorem runs_localStep (blocks : List (Located LocalBlock)) (run run' : Run)
    (hrun : M.BesideRun run run') :
    M.Runs (Link.StepGood (fun _ c => c.rest ≠ []) fun _ => True) (Link.StepAlike M.Moved)
      (Recover.localStep deep scope blocks) (Recover.localStep deep scope (move M.place blocks))
      run run' := by
  have hblock : run.cursor.peek = some .kwVar ∨ run.cursor.peek = some .kwConst →
      M.Runs (Link.StepGood (fun _ c => c.rest ≠ []) fun _ => True) (Link.StepAlike M.Moved)
        (do return ForInStep.yield (blocks ++ [← Recover.located (Recover.localBlock deep scope)]))
        (do return ForInStep.yield (move M.place blocks ++
          [← Recover.located (Recover.localBlock deep scope)])) run run' := by
    intro hpeek
    have haligned : M.Aligned run.cursor :=
      hpeek.elim Context.aligned_of_peek Context.aligned_of_peek
    refine .bind hrun (.located hrun haligned (runs_localBlock hdeep run run' hrun hpeek))
      (fun _ _ _ _ _ _ _ _ => trivial) fun block block' _ _ hblock hrun₁ => ?_
    cases hblock
    exact .pure hrun₁ (.yield (Context.moved_concat blocks block))
  refine .aligned hrun (fun hrest => ?_) fun haligned => ?_
  · refine .peek ?_
    rw [Cursor.peek, hrest]
    exact .pure fun hsome => hsome hrest
  · refine .peek hrun haligned ?_
    split
    · exact hblock (.inl ‹_›)
    · exact hblock (.inr ‹_›)
    · exact .pure hrun (.done rfl)

theorem follows_localBlocks :
    M.Follows (fun _ c => c.rest ≠ []) (Recover.localBlocks deep scope) := fun run run' hrun => by
  refine .iterate Recover.advancing_localStep hrun rfl fun blocks blocks' run
    run' hblocks hrun => ?_
  cases hblocks
  exact runs_localStep hdeep blocks run run' hrun

/-- The parts of the head of a node, of which the first that fails ends the head. -/
theorem follows_nodeHeader (head head' : NodeHead) (hhead : M.Moved head head') (run run' : Run)
    (hrun : M.BesideRun run run') :
    M.Runs (fun read _ => read.2 = none) M.Moved (Recover.nodeHeader deep head)
      (Recover.nodeHeader deep head') run run' := by
  cases hhead
  have hparams := Context.Carries.optionalAt (by decide : Kind.ltLt ∉ itemHeads)
    (Context.carries_staticParams hdeep)
  have hprofile := Context.Carries.optionalAt (by decide : Kind.lParen ∉ itemHeads)
    (Context.carries_profile hdeep)
  refine .caughtRead hparams hrun (fun _ _ => .pure nofun) (fun params run₁ run₁' hrun₁ => ?_)
    fun _ e _ _ hrun₁ => .pure hrun₁ rfl
  refine .caughtRead hprofile hrun₁ (fun _ _ => .pure nofun) (fun profile run₂ run₂' hrun₂ => ?_)
    fun _ e _ _ hrun₂ => .pure hrun₂ rfl
  exact .caughtRead (Context.carries_synonymTarget hdeep) hrun₂ (fun _ _ => .pure nofun)
    (fun body _ _ hrun₃ => .pure hrun₃ rfl) fun _ e _ _ hrun₃ => .pure hrun₃ rfl

/-- The blocks of a node end before its `let`, and not where the tokens end. -/
theorem follows_locals : M.Follows (fun _ _ => True) (do
    let _ ← (Read.eat .semi : Read Bool)
    let locals ← Recover.localBlocks deep scope
    let _ ← (Read.expect .kwLet : Read Span)
    return locals) := by
  intro run run' hrun
  refine .carried (Context.carries_eat (by decide)) hrun fun _ run₁ run₁' hrun₁ => ?_
  refine .bind hrun₁ (follows_localBlocks hdeep run₁ run₁' hrun₁) (fun locals run₂ => ?_)
    fun locals locals' run₂ run₂' hlocals hrun₂ => ?_
  · refine .expect fun hlet _ => .pure fun _ hrest => ?_
    simp [Cursor.peek, hrest] at hlet
  · cases hlocals
    exact .expect hrun₂ fun _ _ _ hrun₃ => .pure hrun₃ rfl

theorem follows_nodeDefinition (decl : NodeDecl) (run run' : Run) (hrun : M.BesideRun run run') :
    M.Runs (fun read _ => read.2 = none) M.Moved (Recover.nodeDefinition deep scope decl)
      (Recover.nodeDefinition deep scope (move M.place decl)) run run' := by
  refine .caught hrun (follows_locals hdeep run run' hrun) (fun _ _ _ _ _ _ _ _ => trivial)
    (fun _ _ => .pure nofun) (fun locals locals' run₁ run₁' hlocals hrun₁ => ?_)
    fun _ e _ _ hrun₁ => .pure hrun₁ rfl
  cases hlocals
  refine .bind hrun₁ (follows_equations hdeep run₁ run₁' hrun₁) (fun read run₂ => ?_)
    fun read read' run₂ run₂' hread hrun₂ => ?_
  · rcases read with ⟨equations, _ | e⟩
    · exact fun _ _ _ _ _ _ => rfl
    · exact .bindPure (.pure nofun)
  · cases hread
    rcases read with ⟨equations, _ | e⟩
    · refine .bind hrun₂ (follows_endMark run₂ run₂' hrun₂) (fun _ _ _ _ _ _ _ _ => trivial)
        fun _ _ _ _ _ hrun₃ => .pure hrun₃ rfl
    · exact .pure hrun₂ rfl

theorem follows_nodeTail (decl : NodeDecl) (run run' : Run) (hrun : M.BesideRun run run') :
    M.Runs (fun read _ => read.2 = none) M.Moved (Recover.nodeTail deep scope decl)
      (Recover.nodeTail deep scope (move M.place decl)) run run' := by
  rcases decl with ⟨head, params, profile, body⟩
  have hbody : ∀ profile body, M.Runs (fun read _ => read.2 = none) M.Moved
      (Recover.nodeDefinition deep scope ⟨head, params, profile, body⟩)
      (Recover.nodeDefinition deep scope (move M.place ⟨head, params, profile, body⟩)) run run' :=
    fun profile body => follows_nodeDefinition hdeep _ run run' hrun
  -- without a profile there is a failure, whatever comes next
  have hnone : ∀ body, M.Runs (fun read _ => read.2 = none) M.Moved (do
      let c := (← get).cursor
      if c.isAt .kwVar ∨ c.isAt .kwConst ∨ c.isAt .kwLet then
        return (⟨head, params, none, body⟩,
          some ⟨.bodyWithoutProfile head.name.name, head.name.span⟩)
      else return (⟨head, params, none, body⟩, some (c.unexpected [.lParen, .eq])) :
        Recover (Partial NodeDecl)) (do
      let c := (← get).cursor
      if c.isAt .kwVar ∨ c.isAt .kwConst ∨ c.isAt .kwLet then
        return (move M.place ⟨head, params, none, body⟩,
          some ⟨.bodyWithoutProfile head.name.name, move M.place head.name.span⟩)
      else return (move M.place ⟨head, params, none, body⟩, some (c.unexpected [.lParen, .eq])) :
        Recover (Partial NodeDecl)) run run' := by
    intro body
    refine .aligned hrun (fun hrest => .get ?_) fun haligned => .get ?_
    · dsimp only
      split <;> exact .pure nofun
    · dsimp only
      have hisAt : ∀ kind, run'.cursor.isAt kind = run.cursor.isAt kind := fun kind => by
        rw [Cursor.isAt, hrun.cursor.peek haligned]
        rfl
      rw [hrun.cursor.unexpected haligned, hisAt, hisAt, hisAt]
      split
      · exact .pure hrun rfl
      · exact .pure hrun rfl
  cases body with
  | synonym target =>
      refine .get ?_
      change M.Runs _ _ (if run.cursor.isAt .kwVar ∨ run.cursor.isAt .kwLet then _ else _)
        (if run'.cursor.isAt .kwVar ∨ run'.cursor.isAt .kwLet then _ else _) run run'
      -- whether a body follows can be seen in both runs
      rw [hrun.cursor.isAt (by decide), hrun.cursor.isAt (by decide)]
      split
      · rename_i hat
        have haligned : M.Aligned run.cursor := by
          simp only [Cursor.isAt, beq_iff_eq] at hat
          exact hat.elim Context.aligned_of_peek Context.aligned_of_peek
        rw [hrun.cursor.span haligned]
        exact .pure hrun rfl
      · exact .pure hrun rfl
  | missing =>
      cases profile with
      | none => exact hnone _
      | some profile => exact hbody _ _
  | definition content =>
      cases profile with
      | none => exact hnone _
      | some profile => exact hbody _ _

omit hdeep [deep.Advances] in
theorem follows_closeNode
    (read read' : Partial NodeDecl) (hread : M.Moved read read') (run run' : Run)
    (hrun : M.BesideRun run run') :
    M.Runs (fun _ _ => True) M.Moved (Recover.closeNode scope read) (Recover.closeNode scope read')
      run run' := by
  cases hread
  rcases read with ⟨decl, _ | e⟩
  · exact .pure hrun rfl
  · refine .report hrun (fun _ => rfl) fun hlater run₁ run₁' hrun₁ => ?_
    exact .skipped hlater (follows_skipNode hlater) hrun₁ fun _ _ hrun₂ => .pure hrun₂ rfl

theorem follows_openNode (read read' : Partial NodeDecl)
    (hread : M.Moved read read') (run run' : Run)
    (hrun : M.BesideRun run run') :
    M.Runs (fun _ _ => True) M.Moved (Recover.openNode deep scope read)
      (Recover.openNode deep scope read') run run' := by
  cases hread
  rcases read with ⟨decl, _ | e⟩
  · refine .bind hrun (follows_nodeTail hdeep decl run run' hrun) (fun read run₁ => ?_)
      fun read read' run₁ run₁' hread hrun₁ => follows_closeNode read read' hread run₁ run₁' hrun₁
    rcases read with ⟨decl, _ | e⟩
    · exact fun _ _ _ _ _ _ => rfl
    · exact .report
  · refine .report hrun (fun _ => rfl) fun hlater run₁ run₁' hrun₁ => ?_
    exact .skipped hlater (follows_skipHeader hlater) hrun₁ fun _ _ hrun₂ => .pure hrun₂ rfl

theorem follows_node : M.Follows (fun _ _ => True) (Recover.node deep scope) := by
  intro run run' hrun
  refine .carried Context.carries_nodeHead hrun fun head run₁ run₁' hrun₁ => ?_
  refine .bind hrun₁ (follows_nodeHeader hdeep head _ rfl run₁ run₁' hrun₁) (fun read run₂ => ?_)
    fun read read' run₂ run₂' hread hrun₂ =>
      follows_openNode hdeep read read' hread run₂ run₂' hrun₂
  rcases read with ⟨decl, _ | e⟩
  · exact fun _ _ _ _ _ _ => rfl
  · exact .report

/-! ## Declarations -/

omit hdeep [deep.Advances] in
/-- With `unsafe` alone left there is no node. -/
theorem cleanly_unsafe_node {run : Run} (hdanger : run.cursor.peek = some .kwUnsafe)
    (hlast : ¬1 < run.cursor.rest.length) :
    Cleanly (Recover.node deep scope) run fun _ _ => False := by
  have hrest : run.cursor.pass.rest = [] := by
    rw [Cursor.rest_pass]
    exact List.length_eq_zero_iff.mp (by rw [List.length_tail]; omega)
  have hstarved : Starved Read.nodeKind := .of_end fun _ _ => ⟨_, _, rfl, rfl⟩
  refine .read (P := fun _ _ => False) ?_ fun _ _ => False.elim
  exact .eat (fun _ => .bind (Starved.meets hrest) fun _ _ => False.elim)
    fun hnot => absurd hdanger hnot

theorem follows_anyDeclaration :
    M.Follows (fun _ _ => True) (Recover.anyDeclaration deep scope) := by
  intro run run' hrun
  have hnode : M.Runs (fun _ _ => True) M.Moved
      (do return .node (← Recover.node deep scope) : Recover Declaration)
      (do return .node (← Recover.node deep scope) : Recover Declaration) run run' := by
    refine .bind hrun (follows_node hdeep run run' hrun) (fun _ _ _ _ _ _ _ _ => trivial)
      fun decl decl' _ _ hdecl hrun₁ => ?_
    cases hdecl
    exact .pure hrun₁ rfl
  have hexternal : M.Runs (fun _ _ => True) M.Moved
      (do return .external (← (Recover.externalNode deep : Read ExternalNode)) :
        Recover Declaration)
      (do return .external (← (Recover.externalNode deep : Read ExternalNode)) :
        Recover Declaration)
      run run' :=
    .carried (Context.carries_externalNode hdeep) hrun fun decl _ _ hrun₁ => .pure hrun₁ rfl
  -- without a token nothing begins, and otherwise both runs see the same one
  refine .aligned hrun (fun hrest => .get ?_) fun haligned => .get ?_
  · simp only [Cursor.peek, hrest, List.head?_nil, Option.map_none]
    exact .throw
  · dsimp only
    rw [hrun.cursor.peek haligned, hrun.cursor.missing haligned]
    split
    · rename_i hdanger
      by_cases hsees : 1 < run.cursor.rest.length ∨ M.later = []
      · rw [hrun.cursor.peekAt_eq hsees]
        split
        · exact hexternal
        · exact hnode
      · -- the second run may see what is no longer part of the first
        rw [not_or] at hsees
        have hnone : run.cursor.peekAt 1 ≠ some .kwExtern := fun hsome =>
          hsees.1 (Cursor.lt_of_peekAt hsome)
        rw [if_neg hnone]
        refine .unsound hrun hsees.2 ?_
        exact .bind (cleanly_unsafe_node hdanger hsees.1) fun _ _ => False.elim
    · exact hexternal
    · exact hnode
    · exact hnode
    · refine .advance hrun haligned fun run₁ run₁' hrun₁ => ?_
      refine .bind hrun₁ (follows_typeBlock hdeep run₁ run₁' hrun₁) (fun _ _ _ _ _ _ _ _ => trivial)
        fun types types' _ _ htypes hrun₂ => ?_
      cases htypes
      exact .pure hrun₂ rfl
    · refine .advance hrun haligned fun run₁ run₁' hrun₁ => ?_
      refine .bind hrun₁ (follows_constBlock hdeep run₁ run₁' hrun₁)
        (fun _ _ _ _ _ _ _ _ => trivial)
        fun consts consts' _ _ hconsts hrun₂ => ?_
      cases hconsts
      exact .pure hrun₂ rfl
    · exact .throw hrun fun _ => rfl

theorem runs_declaration {run run' : Run} (hrun : M.BesideRun run run')
    (haligned : M.Aligned run.cursor) :
    M.Runs (fun _ _ => True) M.Moved (Recover.declaration deep scope)
      (Recover.declaration deep scope) run run' :=
  .located hrun haligned (follows_anyDeclaration hdeep run run' hrun)

/-! ## Packages and models -/

theorem runs_bodyStep (done : List (Located Declaration)) (run run' : Run)
    (hrun : M.BesideRun run run') :
    M.Runs (Link.StepGood (fun read _ => read.2 = none) fun _ => True)
      (Link.StepAlike M.Moved) (Recover.bodyStep deep done)
      (Recover.bodyStep deep (move M.place done)) run run' := by
  refine .aligned hrun (fun hrest => ?_) fun haligned => .get (.halted hrun fun stopped => ?_)
  · refine .get (.unlessHalted (.ifEat (fun hend => ?_) fun _ => ?_))
    · simp [Cursor.peek, hrest] at hend
    · simp only [Cursor.peek, hrest, List.head?_nil, Option.map_none]
      exact .pure (Option.some_ne_none _)
  · split
    · exact .pure hrun (.done rfl)
    refine .ifEat hrun (by decide) (fun _ _ hrun₁ => .pure hrun₁ (.done rfl)) fun _ => ?_
    rw [hrun.cursor.peek haligned, hrun.cursor.unexpected haligned, hrun.cursor.missing haligned,
      hrun.cursor.span haligned]
    split
    · exact .pure hrun (.done rfl)
    split
    · exact .pure hrun (.done rfl)
    rename_i kind hpeek _
    -- a declaration begins here, or an error does
    have hread : M.Runs (fun _ _ => True) M.Moved
        (if Recover.declarationStarts.contains kind then Recover.declaration deep .body
          else throw (run.cursor.missing .declarationOrEnd))
        (if Recover.declarationStarts.contains kind then Recover.declaration deep .body
          else throw (move M.place (run.cursor.missing .declarationOrEnd))) run run' := by
      split
      · exact runs_declaration hdeep hrun haligned
      · exact .throw hrun fun _ => rfl
    refine .caught hrun hread (fun _ _ _ _ _ _ _ _ => trivial) (fun e run₁ => .report) ?_ ?_
    · rintro decl decl' run₁ run₁' hdecl hrun₁
      cases hdecl
      exact .pure hrun₁ (.yield (by simp [Context.Moved]))
    · intro hlater e run₁ run₁' hrun₁
      refine .report hrun₁ (fun _ => rfl) fun _ run₂ run₂' hrun₂ => ?_
      rw [hrun.cursor.length_eq hlater]
      refine .skipped hlater (follows_skipDeclaration hlater _) hrun₂ fun run₃ run₃' hrun₃ => ?_
      exact .spanFrom hrun₃ fun span => .pure hrun₃ (.yield (by simp [Context.Moved]))

theorem follows_bodyDeclarations :
    M.Follows (fun read _ => read.2 = none) (Recover.bodyDeclarations deep) :=
    fun run run' hrun => by
  refine .iterate Recover.advancing_bodyStep hrun rfl fun read read' run run' hread hrun => ?_
  cases hread
  exact runs_bodyStep hdeep read.1 run run' hrun

theorem follows_body : M.Follows (fun read _ => read.2 = none) (Recover.body deep) :=
    fun _ _ hrun =>
  .caughtRead (Context.carries_expect _) hrun (fun _ _ => .pure nofun)
    (fun _ run₁ run₁' hrun₁ => follows_bodyDeclarations hdeep run₁ run₁' hrun₁)
    fun _ _ _ _ hrun₁ => .pure hrun₁ rfl

omit hdeep [deep.Advances] in
/-- A body that is not there is a failure. -/
theorem cleanly_body_of_end {run : Run} :
    Cleanly (Recover.body deep) run fun read _ => read.2 = none → run.cursor.rest ≠ [] := by
  refine .caughtRead (P := fun _ _ => run.cursor.rest ≠ []) ?_ (fun _ _ hsome => ?_)
    fun _ _ => .pure nofun
  · by_cases hrest : run.cursor.rest = []
    · exact Starved.meets hrest
    · exact fun _ _ _ => hrest
  · exact fun _ _ _ _ _ _ => hsome

theorem follows_instantiation (name : Ident) (word : InstanceWord) (run run' : Run)
    (hrun : M.BesideRun run run') :
    M.Runs (fun _ _ => True) M.Moved (Recover.instantiation deep name word)
      (Recover.instantiation deep (move M.place name) word) run run' := by
  refine .carried Context.carries_ident hrun fun model _ _ hrun₁ => ?_
  refine .carried (Context.carries_modelArgs hdeep) hrun₁ fun args _ _ hrun₂ => ?_
  refine .expect hrun₂ fun _ run₃ run₃' hrun₃ => .get ?_
  dsimp only
  rw [hrun₃.cursor.isAt (by decide)]
  split
  · refine .report hrun₃ (fun hlater => ?_) fun hlater run₄ run₄' hrun₄ => ?_
    · rw [hrun₃.cursor.span (.inr hlater)]
      rfl
    · refine .skipped hlater (follows_synchronize hlater _) hrun₄ fun _ _ hrun₅ => ?_
      exact .carried (Context.carries_eat (by decide)) hrun₅ fun _ _ _ hrun₆ => .pure hrun₆ rfl
  · exact .pure hrun₃ rfl

theorem follows_package : M.Follows (fun _ _ => True) (Recover.package deep) := by
  intro run run' hrun
  refine .expect hrun fun _ _ _ hrun₁ => .carried Context.carries_ident hrun₁
    fun name _ _ hrun₂ => ?_
  refine .carried Context.carries_instanceWord hrun₂ fun word run₃ run₃' hrun₃ => ?_
  cases word with
  | some word => exact follows_instantiation hdeep name word run₃ run₃' hrun₃
  | none =>
      refine .carried Context.carries_uses hrun₃ fun uses run₄ run₄' hrun₄ => ?_
      refine .bind hrun₄ (.lift hrun₄ (Context.alike_provides hdeep _ _ hrun₄.cursor))
        (fun provides run₅ => ?_) fun provides provides' run₅ run₅' hprovides hrun₅ => ?_
      · refine .bind cleanly_body_of_end fun read c hread => ?_
        rcases read with ⟨body, _ | e⟩
        · exact .bindPure (.pure fun _ => hread rfl)
        · exact .report
      · cases hprovides
        refine .bind hrun₅ (follows_body hdeep run₅ run₅' hrun₅) (fun read run₆ => ?_)
          fun read read' run₆ run₆' hread hrun₆ => ?_
        · rcases read with ⟨body, _ | e⟩
          · exact fun _ _ _ _ _ _ => rfl
          · exact .report
        · cases hread
          rcases read with ⟨body, _ | e⟩
          · exact .pure hrun₆ rfl
          · exact .report hrun₆ (fun _ => rfl) fun _ _ _ hrun₇ => .pure hrun₇ rfl

theorem runs_needsStep (done : List (Located StaticParam)) (run run' : Run)
    (hrun : M.BesideRun run run') :
    M.Runs (Link.StepGood (fun read c => read.2 = none ∧ c.rest ≠ []) fun _ => True)
      (Link.StepAlike M.Moved) (Recover.needsStep deep done)
      (Recover.needsStep deep (move M.place done)) run run' := by
  have hmoved : ∀ (param : Located StaticParam) (failure : Option Diagnostic),
      M.Moved (done ++ [param], failure)
      (move M.place done ++ [move M.place param], move M.place failure) := by
    intro param failure
    simp [Context.Moved]
  refine .caughtRead (Context.carries_staticParam hdeep) hrun (fun _ _ => .pure fun h =>
    Option.some_ne_none _ h.1)
    (fun param run₁ run₁' hrun₁ => ?_) fun _ _ _ _ hrun₁ => .pure hrun₁ (.done rfl)
  refine .caughtRead (Context.carries_expect _) hrun₁ (fun _ _ => .pure fun h =>
    Option.some_ne_none _ h.1)
    (fun _ run₂ run₂' hrun₂ => ?_) fun _ e _ _ hrun₂ => .pure hrun₂ (.done (hmoved param (some e)))
  refine .aligned hrun₂ (fun hrest => .peek ?_) fun haligned => .peek hrun₂ haligned ?_
  · rw [Cursor.peek, hrest]
    exact .pure fun hsound => hsound.2 hrest
  · split
    · exact .pure hrun₂ (.yield (hmoved param none))
    · exact .pure hrun₂ (.done (hmoved param none))

theorem follows_needs :
    M.Follows (fun read c => read.2 = none ∧ c.rest ≠ []) (Recover.needs deep) :=
    fun run run' hrun => by
  refine .iterate Recover.advancing_needsStep hrun rfl fun read read' run run' hread hrun => ?_
  cases hread
  exact runs_needsStep hdeep read.1 run run' hrun

theorem follows_requiredNeeds (name : Ident) (run run' : Run) (hrun : M.BesideRun run run') :
    M.Runs (fun read c => read.2 = none ∧ c.rest ≠ []) M.Moved (Recover.requiredNeeds deep name)
      (Recover.requiredNeeds deep (move M.place name)) run run' :=
  .ifEat hrun (by decide) (follows_needs hdeep) fun _ =>
    .report hrun (fun _ => rfl) fun _ _ _ hrun₁ => .pure hrun₁ rfl

omit hdeep in
/-- After parameters that ended where the tokens end, or that failed, no model is complete. -/
theorem cleanly_modelContents_of_end (name : Ident) (uses : List Ident)
    (read : Partial (List (Located StaticParam))) {run : Run} :
    Cleanly (Recover.modelContents deep name uses read) run fun model _ => model.2 = none →
      read.2 = none ∧ run.cursor.rest ≠ [] := by
  rcases read with ⟨needs, _ | e⟩
  · refine .caughtRead (P := fun _ c => c.rest <:+ run.cursor.rest) ?_
      (fun provides c hsuffix => ?_)
      fun _ _ => .pure nofun
    · exact fun provides c hok => by
        have hforward := Forward.suffix (Read.provides deep) run.cursor
        rwa [hok] at hforward
    · refine .bind cleanly_body_of_end fun read c' hbody => .pure fun hnone =>
        ⟨rfl, fun hrest => ?_⟩
      rw [hrest, List.suffix_nil] at hsuffix
      exact hbody hnone hsuffix
  · exact .pure nofun

theorem follows_modelContents (name : Ident) (uses : List Ident)
    (read read' : Partial (List (Located StaticParam)))
    (hread : M.Moved read read') (run run' : Run)
    (hrun : M.BesideRun run run') :
    M.Runs (fun read _ => read.2 = none) M.Moved (Recover.modelContents deep name uses read)
      (Recover.modelContents deep (move M.place name) (move M.place uses) read') run run' := by
  cases hread
  rcases read with ⟨needs, _ | e⟩
  · refine .caught hrun (.lift hrun (Context.alike_provides hdeep _ _ hrun.cursor))
      (fun provides run₁ => ?_) (fun _ _ => .pure nofun)
      (fun provides provides' run₁ run₁' hprovides hrun₁ => ?_) fun _ _ _ _ hrun₁ => .pure hrun₁ rfl
    · exact .bind cleanly_body_of_end fun read c hbody => .pure hbody
    · cases hprovides
      refine .bind hrun₁ (follows_body hdeep run₁ run₁' hrun₁) (fun read run₂ => .pure id)
        fun read read' _ _ hread hrun₂ => ?_
      cases hread
      exact .pure hrun₂ rfl
  · exact .pure hrun rfl

theorem follows_modelTail (name : Ident) (run run' : Run) (hrun : M.BesideRun run run') :
    M.Runs (fun read _ => read.2 = none) M.Moved (Recover.modelTail deep name)
      (Recover.modelTail deep (move M.place name)) run run' := by
  refine .caughtRead Context.carries_uses hrun (fun _ _ => .pure nofun)
    (fun uses run₁ run₁' hrun₁ => ?_) fun _ _ _ _ hrun₁ => .pure hrun₁ rfl
  exact .bind hrun₁ (follows_requiredNeeds hdeep name run₁ run₁' hrun₁)
    (fun read run₂ => cleanly_modelContents_of_end name uses read)
    fun read read' run₂ run₂' hread hrun₂ =>
      follows_modelContents hdeep name uses read read' hread run₂ run₂' hrun₂

omit hdeep [deep.Advances] in
theorem follows_closeModel
    (read read' : Partial Model) (hread : M.Moved read read') (run run' : Run)
    (hrun : M.BesideRun run run') :
    M.Runs (fun _ _ => True) M.Moved (Recover.closeModel read)
      (Recover.closeModel read') run run' := by
  cases hread
  rcases read with ⟨model, _ | e⟩
  · exact .pure hrun rfl
  · refine .report hrun (fun _ => rfl) fun hlater run₁ run₁' hrun₁ => ?_
    exact .skipped hlater (follows_synchronize hlater _) hrun₁ fun _ _ hrun₂ => .pure hrun₂ rfl

theorem follows_model : M.Follows (fun _ _ => True) (Recover.model deep) := by
  intro run run' hrun
  refine .expect hrun fun _ _ _ hrun₁ => .carried Context.carries_ident hrun₁
    fun name run₂ run₂' hrun₂ => ?_
  refine .bind hrun₂ (follows_modelTail hdeep name run₂ run₂' hrun₂) (fun read run₃ => ?_)
    fun read read' run₃ run₃' hread hrun₃ => follows_closeModel read read' hread run₃ run₃' hrun₃
  rcases read with ⟨model, _ | e⟩
  · exact fun _ _ _ _ _ _ => rfl
  · exact .report

/-! ## Programs -/

omit hdeep [deep.Advances] in
theorem runs_includeStep (done : List (Located String)) (run run' : Run)
    (hrun : M.BesideRun run run') :
    M.Runs (Link.StepGood (fun _ _ => True) fun _ => True) (Link.StepAlike M.Moved)
      (Recover.includeStep done) (Recover.includeStep (move M.place done)) run run' := by
  refine .get (.halted hrun fun stopped => ?_)
  rw [hrun.cursor.isAt (by decide)]
  split
  · exact .pure hrun (.done rfl)
  · refine .caughtRead Context.carries_includeDirective hrun (fun _ _ => .report)
      (fun file _ _ hrun₁ => .pure hrun₁ (.yield (Context.moved_concat done file))) ?_
    intro hlater e run₁ run₁' hrun₁
    refine .report hrun₁ (fun _ => rfl) fun _ run₂ run₂' hrun₂ => ?_
    rw [hrun.cursor.length_eq hlater]
    exact .skipped hlater (follows_skipDeclaration hlater _) hrun₂ fun _ _ hrun₃ =>
      .pure hrun₃ (.yield rfl)

omit hdeep [deep.Advances] in
theorem follows_includes : M.Follows (fun _ _ => True) Recover.includes := fun run run' hrun => by
  refine .iterate Recover.advancing_includeStep hrun rfl fun done done' run run' hdone hrun => ?_
  cases hdone
  exact runs_includeStep done run run' hrun

theorem runs_item {kind : Kind} {run run' : Run} (hrun : M.BesideRun run run')
    (haligned : M.Aligned run.cursor) :
    M.Runs (fun _ _ => True) M.Moved (Recover.item deep run.cursor kind)
      (Recover.item deep run'.cursor kind) run run' := by
  unfold Recover.item
  rw [hrun.cursor.missing haligned, hrun.cursor.span haligned]
  split
  · refine .bind hrun (follows_package hdeep run run' hrun) (fun _ _ _ _ _ _ _ _ => trivial)
      fun package package' _ _ hpackage hrun₁ => ?_
    cases hpackage
    exact .pure hrun₁ rfl
  split
  · refine .bind hrun (follows_model hdeep run run' hrun) (fun _ _ _ _ _ _ _ _ => trivial)
      fun model model' _ _ hmodel hrun₁ => ?_
    cases hmodel
    exact .pure hrun₁ rfl
  split
  · exact .throw hrun fun _ => rfl
  split
  · refine .bind hrun (runs_declaration hdeep hrun haligned) (fun _ _ _ _ _ _ _ _ => trivial)
      fun decl decl' _ _ hdecl hrun₁ => ?_
    cases hdecl
    exact .pure hrun₁ rfl
  · exact .throw hrun fun _ => rfl

/-- The second run may have read `before` already. -/
theorem runs_itemStep (before done : List (Located Item)) (run run' : Run)
    (hrun : M.BesideRun run run') (haligned : M.Aligned run.cursor) :
    M.Runs (fun _ _ => True)
      (Link.StepAlike fun items items' => items' = before ++ move M.place items)
      (Recover.itemStep deep done)
      (Recover.itemStep deep (before ++ move M.place done)) run run' := by
  have hone : ∀ one, before ++ move M.place done ++ [move M.place one] =
      before ++ move M.place (done ++ [one]) := by
    intro one
    simp
  refine .get (.halted hrun fun stopped => ?_)
  split
  · exact .pure hrun (.done rfl)
  rw [hrun.cursor.peek haligned, hrun.cursor.span haligned]
  split
  · exact .pure hrun (.done rfl)
  refine .caught hrun (runs_item hdeep hrun haligned) (fun _ _ _ _ _ _ _ _ => trivial)
    (fun e run₁ => .report) (fun one one' run₁ run₁' hitem hrun₁ => ?_)
    fun hlater e run₁ run₁' hrun₁ => ?_
  · cases hitem
    exact .spanFrom hrun₁ fun span => .pure hrun₁ (.yield (hone ⟨one, span⟩))
  · refine .report hrun₁ (fun _ => rfl) fun _ run₂ run₂' hrun₂ => ?_
    rw [hrun.cursor.length_eq hlater]
    refine .skipped hlater (follows_skipDeclaration hlater _) hrun₂ fun run₃ run₃' hrun₃ => ?_
    exact .spanFrom hrun₃ fun span => .pure hrun₃ (.yield (hone ⟨.error, span⟩))

/-- Items that are all there is. -/
theorem runs_items (hlater : M.later = []) (before : List (Located Item)) {run run' : Run}
    (hrun : M.BesideRun run run') :
    M.Runs (fun _ _ => True) (fun items items' => items' = before ++ move M.place items)
      (Recover.items deep) (Recover.iterate before (Recover.itemStep deep)) run run' := by
  refine .iterate Recover.advancing_itemStep hrun (by simp) fun done done' run run' hdone hrun => ?_
  cases hdone
  exact (runs_itemStep hdeep before done run run' hrun (.inr hlater)).mono
    (fun _ _ h => ⟨h.1, trivial⟩) fun _ _ h => h

/-- A whole file in another place. -/
theorem follows_program (hlater : M.later = []) :
    M.Follows (fun _ _ => True) (Recover.program deep) := fun run run' hrun => by
  refine .strictly hlater (follows_includes run run' hrun) fun files files' run₁
    run₁' hfiles hrun₁ => ?_
  refine .strictly hlater (runs_items hdeep hlater [] hrun₁) fun items items' _ _ hitems hrun₂ => ?_
  cases hfiles
  cases hitems
  exact .pure hrun₂ rfl

end

end RunContext

end Lustre
