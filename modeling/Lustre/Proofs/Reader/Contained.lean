import Lustre.Proofs.Reader.Ending
import Lustre.Proofs.Reader.ErrorCap
import Lustre.Proofs.Reader.Statements

/-!
# A broken equation costs only itself

A node of a file whose header is fine is kept with one equation for each of its statements, each of
which is what the statement gives alone, or an error.  Each broken statement costs one diagnostic,
and what stands behind the node is read as if nothing had been wrong with it.

## Strategy

The body is `Statement.moreEquations_at`.  For what follows the node, two runs are compared at the
same place, one of which has reported more.  The diagnostics in a log matter only because they are
counted: a regular reader does the same in front of a longer log as long as there is equally much
room in it (`Regular.behind`), and with less room it does the same up to the cap
(`Regular.marches`).
-/

namespace Lustre

open Movable

variable {α : Type}

/-! ## Readers in front of other diagnostics -/

/-- The same log and as much room, behind other diagnostics. -/
def Log.behind (before : List Diagnostic) (log : Log) : Log :=
  { log with entries := before ++ log.entries, cap := before.length + log.cap }

theorem Log.record_behind (before : List Diagnostic) (log : Log) (c : Cursor) (d : Diagnostic) :
    (log.behind before).record c d = (log.record c d).behind before := by
  have hroom : (before ++ log.entries ++ [d]).length ≥ before.length + log.cap ↔
      (log.entries ++ [d]).length ≥ log.cap := by
    rw [List.append_assoc, List.length_append]
    omega
  unfold record behind
  dsimp only
  split
  · rfl
  split
  · simp
  split
  · rename_i hfull
    rw [if_pos (hroom.mp hfull)]
    simp
  · rename_i hfull
    rw [if_neg (mt hroom.mpr hfull)]
    simp

def Run.behind (before : List Diagnostic) (run : Run) : Run := ⟨run.cursor, run.log.behind before⟩

/-- A result of a run behind other diagnostics. -/
def resultBehind (before : List Diagnostic) :
    EStateM.Result Diagnostic Run α → EStateM.Result Diagnostic Run α
  | .ok a run => .ok a (run.behind before)
  | .error e run => .error e (run.behind before)

/-- What was reported before a reader makes no difference to it, as long as there is as much
room. -/
theorem Regular.behind {read : Recover α} (h : Regular read)
    (before : List Diagnostic) (run : Run) :
    read (run.behind before) = resultBehind before (read run) := by
  induction h generalizing run with
  | pure | throw | halted | synchronize => rfl
  | bind _ _ ih ihnext =>
      rename_i read next _ _
      cases hread : read run with
      | ok a middle =>
          rw [bind_of_ok hread, bind_of_ok (by rw [ih, hread]; rfl)]
          exact ihnext a middle
      | error e middle => rw [bind_of_error hread, bind_of_error (by rw [ih, hread]; rfl)]; rfl
  | look _ hcursor ih =>
      rename_i next _
      -- a regular reader looks at the cursor and not at the log
      change next (run.behind before) (run.behind before) = resultBehind before (next run run)
      rw [← ih run run, hcursor run.cursor run.log (run.log.behind before)]
      rfl
  | lift read _ =>
      have hcursor : (run.behind before).cursor = run.cursor := rfl
      cases hread : read run.cursor with
      | ok a c => rw [Recover.lift_ok hread, Recover.lift_ok (hcursor ▸ hread)]; rfl
      | error e c => rw [Recover.lift_error hread, Recover.lift_error (hcursor ▸ hread)]; rfl
  | attempt _ ih =>
      rename_i read _
      cases hread : read run with
      | ok a middle =>
          rw [Recover.attempt_ok hread, Recover.attempt_ok (by rw [ih, hread]; rfl)]; rfl
      | error e middle =>
          rw [Recover.attempt_error hread, Recover.attempt_error (by rw [ih, hread]; rfl)]
          rfl
  | report d =>
      rw [Recover.report_run, Recover.report_run]
      change EStateM.Result.ok ()
        (⟨run.cursor, (run.log.behind before).record run.cursor d⟩ : Run) = _
      rw [Log.record_behind]
      rfl

theorem Log.Full.kept {read : Recover α} {run : Run} (h : run.log.Full) (hregular : Regular read) :
    (finalState (read run)).log.Full := by
  rwa [(hregular.extended run).frozen h.1]

/-! ## What stands behind -/

/-- A log is one with nothing in it, behind its diagnostics. -/
theorem Log.eq_behind {log : Log} (hlive : log.halted = false)
    (hroom : log.entries.length ≤ log.cap) :
    log = Log.behind log.entries ⟨[], log.cap - log.entries.length, log.truncated, false⟩ := by
  obtain ⟨entries, cap, truncated, halted⟩ := log
  obtain rfl : halted = false := hlive
  change _ = (⟨entries ++ [], entries.length + (cap - entries.length), truncated, false⟩ : Log)
  rw [List.append_nil, Nat.add_sub_of_le hroom]

namespace Recover

/-- With more room the same items are read and the same is reported, unless the cap is met. -/
theorem items_of_less_room
    {deep : Nested} [deep.Advances] {done items : List (Located Item)} {c : Cursor}
    {low high : Log} {last : Run} (hsame : Run.SameButCap ⟨c, low⟩ ⟨c, high⟩)
    (hread : iterate done (itemStep deep) ⟨c, low⟩ = .ok items last) :
    (∃ last', iterate done (itemStep deep) ⟨c, high⟩ = .ok items last' ∧
        last'.log.entries = last.log.entries) ∨
      last.log.halted = true ∧ ∃ before span, last.log.entries = before ++
      [⟨.tooManyErrors, span⟩] := by
  rcases (collects_itemStep deep).marches (c.rest.length + 1) done hsame with
    hstep | ⟨_, _, _, _, hcutRead, -, hcut, -⟩
  · left
    change InStep (iterate done (itemStep deep) ⟨c, low⟩)
      (iterate done (itemStep deep) ⟨c, high⟩) at hstep
    rw [hread] at hstep
    cases hsecond : iterate done (itemStep deep) ⟨c, high⟩ with
    | error e last' => rw [hsecond] at hstep; cases hstep
    | ok found last' =>
        rw [hsecond] at hstep
        cases hstep with
        | ok _ hlast => exact ⟨last', rfl, hlast.log.entries⟩
  · right
    cases hcutRead.symm.trans hread
    obtain ⟨before, span, hentries, -⟩ := hcut.entries
    exact ⟨hcut.halted, before, span, hentries⟩

/-- Some diagnostics more make no difference to the items that follow, nor to what is reported of
them, unless the cap is met. -/
theorem items_unaffected {deep : Nested} [deep.Advances]
    {done items : List (Located Item)} {last : Run}
    {log more : Log} {count : Nat} (hlive : log.halted = false)
    (hmore : log.Gains count more) (c : Cursor)
    (hread : iterate done (itemStep deep) ⟨c, more⟩ = .ok items last) (hfull : ¬last.log.Full) :
    ∃ last' found, iterate done (itemStep deep) ⟨c, log⟩ = .ok items last' ∧
      last.log.entries = more.entries ++ found ∧ last'.log.entries = log.entries ++ found := by
  have hregular : Regular (iterate done (itemStep deep)) := inferInstance
  by_cases hcount : count = 0
  · obtain rfl := hmore.unchanged hcount
    have hlog := (hregular.extended ⟨c, more⟩).entries
    rw [hread] at hlog
    obtain ⟨found, hfound⟩ := hlog
    exact ⟨last, found, hread, hfound.symm, hfound.symm⟩
  · obtain ⟨reported, -, hentries⟩ := hmore.entries
    have hroom := hmore.room hcount
    have hcap := hmore.cap
    have hlength : log.entries.length ≤ more.entries.length := by
      rw [hentries, List.length_append]
      omega
    -- both logs without their entries differ in the room that is left
    let low : Log := ⟨[], more.cap - more.entries.length, more.truncated, false⟩
    let high : Log := ⟨[], log.cap - log.entries.length, log.truncated, false⟩
    have hlow : (⟨c, more⟩ : Run) = Run.behind more.entries ⟨c, low⟩ :=
      congrArg (Run.mk c) (Log.eq_behind hmore.halted (Nat.le_of_lt hroom))
    have hhigh : (⟨c, log⟩ : Run) = Run.behind log.entries ⟨c, high⟩ :=
      congrArg (Run.mk c) (Log.eq_behind hlive (by omega))
    have hsame : Run.SameButCap ⟨c, low⟩ ⟨c, high⟩ :=
      ⟨rfl, rfl, hmore.truncated.symm, rfl, by change more.cap - _ ≤ log.cap - _; omega⟩
    rw [hlow, hregular.behind] at hread
    rw [hhigh, hregular.behind]
    cases hfirst : iterate done (itemStep deep) ⟨c, low⟩ with
    | error e last₁ => rw [hfirst] at hread; cases hread
    | ok found₁ last₁ =>
        rw [hfirst] at hread
        cases hread
        rcases items_of_less_room hsame hfirst with
          ⟨last₂, hsecond, hequal⟩ | ⟨hhalted, before, span, hcut⟩
        · rw [hsecond]
          exact ⟨last₂.behind log.entries, last₁.log.entries, rfl, rfl,
            congrArg (log.entries ++ ·) hequal⟩
        · -- the run with less room met its cap, which was ruled out
          refine absurd ⟨hhalted, span, ?_⟩ hfull
          change (more.entries ++ last₁.log.entries).getLast? = _
          rw [hcut, ← List.append_assoc, List.getLast?_concat]

/-- The items that were read before are kept, and those that follow are the same without them. -/
theorem items_behind (levels : Nat) (done : List (Located Item)) (run : Run)
    (hlive : run.log.halted = false) :
    ∃ more last last', items (.upTo levels) run = .ok more last ∧
      iterate done (itemStep (.upTo levels)) run = .ok (done ++ more) last' ∧
      last'.log = last.log := by
  obtain ⟨more, last, hread⟩ := (Total.items (.upTo levels)).total run
  let M : RunContext := .alone id (fun _ _ h => h) run.log run.log rfl rfl rfl
  have hrun : M.BesideRun run run := by
    refine ⟨⟨?_, fun _ => rfl, fun _ => rfl, fun _ _ _ _ h => h⟩, .start hlive hlive⟩
    rw [show move M.place run.cursor.rest = run.cursor.rest from LawfulMovable.move_id _]
    exact (List.append_nil _).symm
  have halike := RunContext.runs_items (Context.levels_upTo (M := M.toContext) levels) rfl done hrun
  unfold RunContext.Runs Link.Alike at halike
  rw [hread] at halike
  obtain ⟨_, last', hread', rfl, -, found, stopped, hlog, hlog', -⟩ := halike (.inl rfl)
  refine ⟨more, last, last', hread, ?_, ?_⟩
  · rw [hread', show move M.place more = more from LawfulMovable.move_id _]
  · rw [hlog, hlog', show move M.place found = found from LawfulMovable.move_id _]
    rfl

end Recover

/-! ## A node with statements -/

/-- Behind the mark that may stand after `tel`. -/
def Cursor.behindMark (c : Cursor) : Cursor :=
  if c.isAt .semi || c.isAt .dot then c.pass else c

namespace Recover

variable {deep : Nested} {scope : Scope} {run : Run}

theorem endMark_run (run : Run) : endMark run = .ok () ⟨run.cursor.behindMark, run.log⟩ := by
  unfold Cursor.behindMark
  by_cases hsemi : run.cursor.peek = some .semi
  · have hat : run.cursor.isAt .semi = true := by simp [Cursor.isAt, hsemi]
    rw [hat]
    exact (bind_of_ok (lift_ok (Read.eat_of_peek hsemi))).trans rfl
  have hnot : run.cursor.isAt .semi = false := by simp [Cursor.isAt, hsemi]
  rw [hnot, Bool.false_or]
  refine (bind_of_ok (lift_ok (Read.eat_of_ne hsemi))).trans ?_
  by_cases hdot : run.cursor.peek = some .dot
  · have hat : run.cursor.isAt .dot = true := by simp [Cursor.isAt, hdot]
    rw [hat]
    exact (bind_of_ok (lift_ok (Read.eat_of_peek hdot))).trans rfl
  · have hat : run.cursor.isAt .dot = false := by simp [Cursor.isAt, hdot]
    rw [hat]
    exact (bind_of_ok (lift_ok (Read.eat_of_ne hdot))).trans rfl

variable (deep scope) in
/-- A node up to and including its `let`: what is read of the node itself, and its local
variables and constants. -/
def nodeOpening : Recover (Partial NodeDecl × List (Located LocalBlock)) := do
  let head ← Read.nodeHead
  let header ← nodeHeader deep head
  let _ ← Read.eat .semi
  let locals ← localBlocks deep scope
  let _ ← Read.expect .kwLet
  return (header, locals)

instance regular_nodeOpening [deep.Advances] : Regular (nodeOpening deep scope) := by
  unfold nodeOpening
  infer_instance

variable (scope) in
/-- What follows the equations of a node. -/
def nodeEnd (decl : NodeDecl) (locals : List (Located LocalBlock)) :
    Partial (List (Located Equation)) → Recover NodeDecl
  | (equations, failure) => do
      if failure.isNone then endMark else pure ()
      closeNode scope ({ decl with body := .definition ⟨locals, equations⟩ }, failure)

instance regular_nodeEnd (decl : NodeDecl) (locals : List (Located LocalBlock))
    (read : Partial (List (Located Equation))) : Regular (nodeEnd scope decl locals read) := by
  unfold nodeEnd
  infer_instance

instance total_nodeEnd (decl : NodeDecl) (locals : List (Located LocalBlock))
    (read : Partial (List (Located Equation))) : Total (nodeEnd scope decl locals read) := by
  unfold nodeEnd
  infer_instance

theorem nodeEnd_of_tel (decl : NodeDecl) (locals : List (Located LocalBlock))
    (equations : List (Located Equation)) (run : Run) :
    nodeEnd scope decl locals (equations, none) run =
      .ok { decl with body := .definition ⟨locals, equations⟩ } ⟨run.cursor.behindMark, run.log⟩ :=
  (bind_of_ok (endMark_run run)).trans rfl

/-- A node is its opening, its equations and its end. -/
theorem node_of_opening {head : NodeHead} {params : Option (List (Located StaticParam))}
    {profile : Profile} {locals : List (Located LocalBlock)}
    {read : Partial (List (Located Equation))}
    {body last : Run}
    (hopening : nodeOpening deep scope run =
      .ok ((⟨head, params, some profile, .missing⟩, none), locals) body)
    (hequations : equations deep scope body = .ok read last) :
    node deep scope run = nodeEnd scope ⟨head, params, some profile, .missing⟩
      locals read last := by
  -- the steps of the opening are those that the node takes first
  obtain ⟨_, run₁, hhead, hopening⟩ := bind_eq_ok.mp hopening
  obtain ⟨_, run₂, hheader, hopening⟩ := bind_eq_ok.mp hopening
  obtain ⟨mark, run₃, hmark, hopening⟩ := bind_eq_ok.mp hopening
  obtain ⟨_, run₄, hlocals, hopening⟩ := bind_eq_ok.mp hopening
  obtain ⟨_, run₅, hlet, hopening⟩ := bind_eq_ok.mp hopening
  cases hopening
  have hopened : attempt (do
      let _ ← (Read.eat .semi : Read Bool)
      let locals ← localBlocks deep scope
      let _ ← (Read.expect .kwLet : Read Span)
      return locals) run₂ = .ok (.ok locals) body :=
    attempt_ok (bind_eq_ok.mpr ⟨mark, run₃, hmark, bind_eq_ok.mpr ⟨locals, run₄, hlocals,
      bind_eq_ok.mpr ⟨_, body, hlet, rfl⟩⟩⟩)
  refine ((bind_of_ok hhead).trans (bind_of_ok hheader)).trans ?_
  obtain ⟨equations, failure⟩ := read
  cases failure with
  | none =>
      have hdefinition : nodeDefinition deep scope ⟨head, params, some profile, .missing⟩ run₂ =
          .ok (⟨head, params, some profile, .definition ⟨locals, equations⟩⟩, none)
            ⟨last.cursor.behindMark, last.log⟩ :=
        bind_eq_ok.mpr ⟨_, body, hopened, bind_eq_ok.mpr ⟨_, last, hequations,
          bind_eq_ok.mpr ⟨(), _, endMark_run last, rfl⟩⟩⟩
      exact (bind_of_ok hdefinition).trans
        (nodeEnd_of_tel ⟨head, params, some profile, .missing⟩ locals equations last).symm
  | some e =>
      have hdefinition : nodeDefinition deep scope ⟨head, params, some profile, .missing⟩ run₂ =
          .ok (⟨head, params, some profile, .definition ⟨locals, equations⟩⟩, some e) last :=
        bind_eq_ok.mpr ⟨_, body, hopened, bind_eq_ok.mpr ⟨_, last, hequations, rfl⟩⟩
      exact bind_of_ok hdefinition

end Recover

/-- Whether a node begins here, and not one that is implemented elsewhere. -/
def Cursor.BeginsNode (c : Cursor) : Prop :=
  c.peek = some .kwNode ∨ c.peek = some .kwFunction ∨
    (c.peek = some .kwUnsafe ∧ c.peekAt 1 ≠ some .kwExtern)

namespace Read

theorem meets_nodeKind_peek (c : Cursor) :
    Meets nodeKind c fun _ _ => c.peek = some .kwNode ∨ c.peek = some .kwFunction :=
  .ifEat (fun hnode => .pure (.inl hnode)) fun _ =>
    .ifEat (fun hfunction => .pure (.inr hfunction)) fun _ => .unexpected

theorem meets_nodeHead_begins (c : Cursor) : Meets nodeHead c fun _ _ => c.BeginsNode := by
  intro head c' hread
  obtain ⟨isUnsafe, c₁, heat, hread⟩ := bind_eq_ok.mp hread
  obtain ⟨kind, c₂, hkind, -⟩ := bind_eq_ok.mp hread
  have hnode := meets_nodeKind_peek c₁ kind c₂ hkind
  by_cases hdanger : c.peek = some .kwUnsafe
  · rw [eat_of_peek hdanger] at heat
    cases heat
    have hnext : c.peekAt 1 = c.pass.peek := by
      rw [Cursor.peekAt, Cursor.peek, Cursor.rest_pass, List.head?_tail]
    refine .inr (.inr ⟨hdanger, ?_⟩)
    rw [hnext]
    rcases hnode with h | h <;> rw [h] <;> exact fun heq => by cases heq
  · rw [eat_of_ne hdanger] at heat
    cases heat
    exact hnode.imp id .inl

end Read

namespace Recover

variable {deep : Nested} {scope : Scope} {run last : Run}

theorem anyDeclaration_of_begins (h : run.cursor.BeginsNode) {decl : NodeDecl}
    (hnode : node deep scope run = .ok decl last) :
    anyDeclaration deep scope run = .ok (.node decl) last := by
  unfold anyDeclaration
  refine (bind_of_ok (show (get : Recover Run) run = .ok run run from rfl)).trans ?_
  rcases h with h | h | ⟨h, hextern⟩
  · rw [h]
    exact (bind_of_ok hnode).trans rfl
  · rw [h]
    exact (bind_of_ok hnode).trans rfl
  · rw [h]
    dsimp only
    rw [if_neg hextern]
    exact (bind_of_ok hnode).trans rfl

/-- A node of a file is one of its items, with the places of its first and its last token. -/
theorem itemStep_of_begins (hlive : run.log.halted = false) (h : run.cursor.BeginsNode)
    (done : List (Located Item)) {decl : NodeDecl} (hnode : node deep .file run = .ok decl last) :
    itemStep deep done run =
      .ok (.yield (done ++ [⟨.decl ⟨.node decl, last.cursor.spanFrom run.cursor.span.start⟩,
        last.cursor.spanFrom run.cursor.span.start⟩])) last := by
  have hdeclaration : declaration deep .file run =
      .ok ⟨.node decl, last.cursor.spanFrom run.cursor.span.start⟩ last :=
    bind_eq_ok.mpr ⟨_, run, rfl, bind_eq_ok.mpr ⟨_, last, anyDeclaration_of_begins h hnode, rfl⟩⟩
  obtain ⟨kind, hpeek, hkind⟩ : ∃ kind, run.cursor.peek = some kind ∧
      (kind = .kwNode ∨ kind = .kwFunction ∨ kind = .kwUnsafe) := by
    rcases h with h | h | ⟨h, -⟩
    · exact ⟨_, h, .inl rfl⟩
    · exact ⟨_, h, .inr (.inl rfl)⟩
    · exact ⟨_, h, .inr (.inr rfl)⟩
  have hitem : item deep run.cursor kind run =
      .ok (.decl ⟨.node decl, last.cursor.spanFrom run.cursor.span.start⟩) last := by
    unfold item
    rcases hkind with rfl | rfl | rfl <;> exact bind_eq_ok.mpr ⟨_, last, hdeclaration, rfl⟩
  change (if run.log.halted = true then _ else _ : Recover _) run = _
  rw [if_neg (by simp [hlive]), hpeek]
  exact bind_eq_ok.mpr ⟨_, last, attempt_ok hitem, rfl⟩

end Recover

/-! ## A node in a file -/

namespace Recover

/-- A loop comes from one answer and run to others by rounds that go on. -/
inductive Rounds (step : α → Recover (ForInStep α)) (a : α) (run : Run) : α → Run → Prop
  | start : Rounds step a run a run
  | next {b c : α} {run₁ run₂ : Run} (h : Rounds step a run b run₁)
      (hstep : step b run₁ = .ok (.yield c) run₂) : Rounds step a run c run₂

namespace Rounds

variable {step : α → Recover (ForInStep α)} {a b : α} {run last : Run}

theorem iterate_eq (hadvancing : Advancing step) (h : Rounds step a run b last) :
    iterate a step run = iterate b step last := by
  induction h with
  | start => rfl
  | next _ hstep ih => exact ih.trans (iterate_yield hadvancing hstep)

theorem onward [hregular : ∀ a, Regular (step a)] (h : Rounds step a run b last) :
    run.cursor.Onward last.cursor := by
  induction h with
  | start => exact .here
  | @next b c run₁ run₂ _ hstep ih =>
      have honward := (hregular b).onward run₁
      rw [hstep] at honward
      exact ih.trans honward

end Rounds

end Recover

/-- A node of a file up to its `tel`: nothing is wrong with its header, which is that of a
definition, and its body is a list of statements. -/
structure FileNode (text : String) (options : ParseOptions) where
  includes : List (Located String)
  first : Run
  /-- The items before the node. -/
  done : List (Located Item)
  /-- Where the node begins. -/
  start : Run
  head : NodeHead
  params : Option (List (Located StaticParam))
  profile : Profile
  locals : List (Located LocalBlock)
  /-- Behind the `let`. -/
  body : Run
  statements : List Statement
  tel : Token
  later : List Token
  begins : Recover.includes (.reading text options) = .ok includes first
  reached : Recover.Rounds (Recover.itemStep (.upTo maxNesting)) [] first done start
  /-- No limit was met before. -/
  live : start.log.halted = false
  opened : Recover.nodeOpening (.upTo maxNesting) .file start =
    .ok ((⟨head, params, some profile, .missing⟩, none), locals) body
  /-- Nothing is reported of the header. -/
  quiet : body.log = start.log
  rest : body.cursor.rest = statements.flatMap Statement.tokens ++ tel :: later
  closed : tel.kind = .kwTel

namespace FileNode

variable {text : String} {options : ParseOptions} (N : FileNode text options)

/-- The node with one equation for each statement. -/
def decl : NodeDecl :=
  ⟨N.head, N.params, some N.profile, .definition ⟨N.locals, N.statements.map Statement.equation⟩⟩

/-- Behind the node and its mark. -/
def behind : Cursor := Cursor.behindMark ⟨N.later, N.tel.span.stop, N.body.cursor.size⟩

variable {N}

theorem begins_node : N.start.cursor.BeginsNode := by
  obtain ⟨_, _, hhead, -⟩ := bind_eq_ok.mp N.opened
  cases hread : Read.nodeHead N.start.cursor with
  | ok head c => exact Read.meets_nodeHead_begins _ head c hread
  | error e c => cases (Recover.lift_error hread).symm.trans hhead

theorem body_inOrder : N.body.cursor.InOrder := by
  have hincludes := (inferInstance : Regular Recover.includes).onward (.reading text options)
  rw [N.begins] at hincludes
  have hopening := (inferInstance : Regular (Recover.nodeOpening (.upTo maxNesting) .file)).onward
    N.start
  rw [N.opened] at hopening
  have hstart : (Run.reading text options).cursor.InOrder := Token.ordered_tokens text
  exact hstart.onward ((hincludes.trans N.reached.onward).trans hopening)

/-- The items of the file go on behind the node. -/
theorem items_of_node {decl : NodeDecl} {last : Run}
    (hnode : Recover.node (.upTo maxNesting) .file N.start = .ok decl last) :
    ∃ span, Recover.items (.upTo maxNesting) N.first =
      Recover.iterate (N.done ++ [⟨.decl ⟨.node decl, span⟩, span⟩])
        (Recover.itemStep (.upTo maxNesting)) last := by
  have hstep := Recover.itemStep_of_begins N.live begins_node N.done hnode
  exact ⟨_, (N.reached.iterate_eq Recover.advancing_itemStep).trans
    (Recover.iterate_yield Recover.advancing_itemStep hstep)⟩

theorem items_of_equations {log : Log}
    (hequations : Recover.equations (.upTo maxNesting) .file N.body =
      .ok (N.statements.map Statement.equation, none)
        ⟨⟨N.later, N.tel.span.stop, N.body.cursor.size⟩, log⟩) :
    ∃ span, Recover.items (.upTo maxNesting) N.first =
      Recover.iterate (N.done ++ [⟨.decl ⟨.node N.decl, span⟩, span⟩])
        (Recover.itemStep (.upTo maxNesting)) ⟨N.behind, log⟩ :=
  items_of_node ((Recover.node_of_opening N.opened hequations).trans
    (Recover.nodeEnd_of_tel _ _ _ _))

/-- Once the cap is met in the equations of the node, it stays so. -/
theorem full_of_equations {read : Partial (List (Located Equation))} {last : Run}
    (hequations : Recover.equations (.upTo maxNesting) .file N.body = .ok read last)
    (hfull : last.log.Full) :
    (finalState (Recover.items (.upTo maxNesting) N.first)).log.Full := by
  let decl : NodeDecl := ⟨N.head, N.params, some N.profile, .missing⟩
  have hregular : Regular (Recover.nodeEnd .file decl N.locals read) := inferInstance
  have htotal : Recover.Total (Recover.nodeEnd .file decl N.locals read) := inferInstance
  obtain ⟨whole, run, hend⟩ := htotal.total last
  have hendFull := hfull.kept hregular
  rw [hend] at hendFull
  obtain ⟨span, hitems⟩ := items_of_node ((Recover.node_of_opening N.opened hequations).trans hend)
  rw [hitems]
  exact hendFull.kept inferInstance

end FileNode

/-- A broken equation costs only itself.  A node of a file whose header is fine and whose body is a
list of statements is kept with exactly one equation for each: what the statement gives as the only
one of its body, wherever that stands, if it is accepted there, and an error otherwise.  There is
one diagnostic for each statement that is not accepted, and the items behind the node and what is
reported of them are as if nothing had been reported of its equations, as long as the cap is not
met. -/
theorem broken_equation_costs_itself (text : String) (options : ParseOptions)
    (N : FileNode text options)
    (hcap : ∀ span, (parse text options).diagnostics.getLast? ≠ some ⟨.tooManyErrors, span⟩) :
    ∃ span reported items found last,
      (parse text options).program.items =
        N.done ++ ⟨.decl ⟨.node N.decl, span⟩, span⟩ :: items ∧
      (parse text options).diagnostics = N.start.log.entries ++ reported ++ found ∧
      reported.length = N.statements.countP Statement.isBroken ∧
      Recover.items (.upTo maxNesting) ⟨N.behind, N.start.log⟩ = .ok items last ∧
      last.log.entries = N.start.log.entries ++ found ∧
      ∀ s ∈ N.statements, ∀ offset, (move (· + offset) s).alone = move (· + offset) s.alone := by
  -- the whole run reads the directives, which are none, and then the items
  obtain ⟨program, final, hread, hprogram, hdiagnostics⟩ := parse_eq_run text options
  obtain ⟨first, hincludes, hitems⟩ := Recover.program_eq_ok.mp hread
  obtain ⟨-, hfirst⟩ := EStateM.Result.ok.inj (N.begins.symm.trans hincludes)
  rw [← hfirst] at hitems
  -- the last diagnostic of a run that met its cap would say so
  have hnotFull : ¬final.log.Full := by
    rintro ⟨-, span, hlast⟩
    exact hcap span (hdiagnostics ▸ hlast)
  have hlive : N.body.log.halted = false := N.quiet ▸ N.live
  -- all statements of the body, one after the other
  rcases Statement.moreEquations_at N.statements N.closed N.body
    [] hlive FileNode.body_inOrder N.rest with
    ⟨log, hequations, hgains⟩ | ⟨read, last, hequations, hfull⟩
  · rw [N.quiet] at hgains
    obtain ⟨span, hrest⟩ := FileNode.items_of_equations hequations
    -- the items behind the node do not see what its equations have reported
    obtain ⟨last, found, hunaffected, hentries, hentries'⟩ :=
      Recover.items_unaffected N.live hgains N.behind (hrest.symm.trans hitems) hnotFull
    obtain ⟨items, last', last'', hbehind, hall, hlog⟩ := Recover.items_behind maxNesting
      (N.done ++ [⟨.decl ⟨.node N.decl, span⟩, span⟩]) ⟨N.behind, N.start.log⟩ N.live
    obtain ⟨reported, hreported, hadded⟩ := hgains.entries
    obtain ⟨hsame, rfl⟩ := EStateM.Result.ok.inj (hunaffected.symm.trans hall)
    refine ⟨span, reported, items, found, last', ?_, ?_, hreported, hbehind, ?_,
      fun s _ => s.alone_move⟩
    · rw [hprogram, hsame, List.append_assoc]
      rfl
    · rw [hdiagnostics, hentries, hadded]
    · rw [← hlog, hentries']
  · -- the cap was met in the equations, and so in the end
    have hfinal := FileNode.full_of_equations hequations hfull
    rw [hitems] at hfinal
    exact absurd hfinal hnotFull

/-- Whether the opening of a node is that of a definition. -/
def Recover.isDefinition :
    EStateM.Result Diagnostic Run (Partial NodeDecl × List (Located LocalBlock)) → Bool
  | .ok ((⟨_, _, some _, .missing⟩, none), _) _ => true
  | _ => false

theorem Recover.eq_ok_of_isDefinition
    {result : EStateM.Result Diagnostic Run (Partial NodeDecl × List (Located LocalBlock))}
    (h : isDefinition result = true) : ∃ head params profile locals,
      result = .ok ((⟨head, params, some profile, .missing⟩, none), locals)
        (finalState result) := by
  unfold isDefinition at h
  split at h
  · exact ⟨_, _, _, _, rfl⟩
  · cases h

/-- The equation for `y` is broken and that for `z` is not, and a constant follows the node. -/
theorem broken_equation_keeps_neighbour :
    let text := "node f(x: int) returns (y, z: int); let y = = x; z = x; tel const c = 1;"
    ∃ N : FileNode text {}, N.statements.map Statement.isBroken = [true, false] ∧
      (parse text).diagnostics.length = 1 ∧ (parse text).program.items.length = 2 ∧
      ∃ span reported items found last,
        (parse text).program.items = N.done ++ ⟨.decl ⟨.node N.decl, span⟩, span⟩ :: items ∧
        (parse text).diagnostics = N.start.log.entries ++ reported ++ found ∧
        reported.length = N.statements.countP Statement.isBroken ∧
        Recover.items (.upTo maxNesting) ⟨N.behind, N.start.log⟩ = .ok items last ∧
        last.log.entries = N.start.log.entries ++ found ∧
        ∀ s ∈ N.statements, ∀ offset, (move (· + offset) s).alone = move (· + offset) s.alone := by
  intro text
  let start : Run := .reading text {}
  let opening := Recover.nodeOpening (.upTo maxNesting) .file start
  -- `y = = x;` is broken, and `z = x;` is not
  let first : Statement :=
    ⟨[⟨.ident, "y", 40, 41, 0⟩, ⟨.eq, "=", 42, 43, 0⟩, ⟨.eq, "=", 44, 45, 0⟩,
      ⟨.ident, "x", 46, 47, 0⟩], ⟨.semi, ";", 47, 48, 0⟩, by decide, by decide, rfl⟩
  let second : Statement :=
    ⟨[⟨.ident, "z", 49, 50, 0⟩, ⟨.eq, "=", 51, 52, 0⟩, ⟨.ident, "x", 53, 54, 0⟩],
      ⟨.semi, ";", 54, 55, 0⟩, by decide, by decide, rfl⟩
  obtain ⟨head, params, profile, locals, hopened⟩ := Recover.eq_ok_of_isDefinition
    (show Recover.isDefinition opening = true by decide +kernel)
  let N : FileNode text {} :=
    { includes := [], first := start, done := [], start := start, head := head, params := params
      profile := profile, locals := locals, body := finalState opening,
      statements := [first, second]
      tel := ⟨.kwTel, "tel", 56, 59, 0⟩, later := start.cursor.rest.drop 27
      begins := Recover.includes_none (by decide +kernel)
      reached := .start
      live := rfl
      opened := hopened
      quiet := by decide +kernel
      rest := by decide +kernel
      closed := rfl }
  -- one diagnostic does not meet the cap
  have hcap : ∀ span, (parse text).diagnostics.getLast? ≠ some ⟨.tooManyErrors, span⟩ := by
    have hcause : (parse text).diagnostics.getLast?.map Diagnostic.cause ≠ some .tooManyErrors := by
      decide +kernel
    intro span hlast
    rw [hlast] at hcause
    exact hcause rfl
  refine ⟨N, ?_, by decide +kernel, by decide +kernel, broken_equation_costs_itself text {} N hcap⟩
  change [first, second].map Statement.isBroken = [true, false]
  decide +kernel

end Lustre
