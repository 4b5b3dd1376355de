import Lustre.Proofs.Parser.Keeping
import Lustre.Proofs.Reader.Joined

/-!
# Reading comes to an end

The loops of a run are bounded by the number of tokens to come.  `Loops` is what such a
loop does without the bound: it goes on until a round leaves it or fails, and there is no
answer at all if that never happens.

Every loop under `Recover.program` is a `Read.Loop` or a `Recover.Loop`.  A round of any of them
that does not leave its loop has passed a token, so without a bound the loop ends, and answers what
the bounded one does (`LoopEnds`).  That no loop is left out is seen from the parser that has no
bounds at all: it ends on every list of tokens, with the program that is read.

The same count of tokens bounds the answers: what a round adds to the answer of its loop is
one entry, and it has taken a token.
-/

namespace Lustre

variable {α β σ : Type}

/-! ## Loops without a bound -/

/-- Repeated from `a` on as long as it asks for more, `step` ends with a result. -/
inductive Loops (step : α → EStateM Diagnostic σ (ForInStep α)) :
    α → σ → EStateM.Result Diagnostic σ α → Prop
  | leaves {a b : α} {s t : σ} (h : step a s = .ok (.done b) t) : Loops step a s (.ok b t)
  | fails {a : α} {s t : σ} {e : Diagnostic} (h : step a s = .error e t) :
      Loops step a s (.error e t)
  | again {a b : α} {s t : σ} {result : EStateM.Result Diagnostic σ α}
      (h : step a s = .ok (.yield b) t) (hrest : Loops step b t result) : Loops step a s result

/-- A loop over the tokens that `rest` finds in a state, which ends without its bound. -/
structure LoopEnds (rest : σ → List Token) (step : α → EStateM Diagnostic σ (ForInStep α)) :
    Prop where
  /-- A round that does not leave the loop passes tokens. -/
  advances : ∀ a s b t, step a s = .ok (.yield b) t →
    ∃ passed, passed ≠ [] ∧ rest s = passed ++ rest t
  /-- Without a bound the loop ends, and its result is that of the bounded loop. -/
  ends : ∀ a s result,
    Loops step a s result ↔ result = iterateUpTo step ((rest s).length + 1) a s

section

variable {rest : σ → List Token} {step : α → EStateM Diagnostic σ (ForInStep α)}

/-- A loop does not end in two ways. -/
theorem Loops.unique {a : α} {s : σ} {first second : EStateM.Result Diagnostic σ α}
    (hfirst : Loops step a s first) (hsecond : Loops step a s second) : first = second := by
  induction hfirst with
  | leaves h =>
      cases hsecond with
      | leaves h' =>
          cases h.symm.trans h'
          rfl
      | fails h' => cases h.symm.trans h'
      | again h' _ => cases h.symm.trans h'
  | fails h =>
      cases hsecond with
      | leaves h' => cases h.symm.trans h'
      | fails h' =>
          cases h.symm.trans h'
          rfl
      | again h' _ => cases h.symm.trans h'
  | again h _ ih =>
      cases hsecond with
      | leaves h' => cases h.symm.trans h'
      | fails h' => cases h.symm.trans h'
      | again h' hrest' =>
          cases h.symm.trans h'
          exact ih hrest'

/-- The induction is on the bound, which stays above the number of tokens to come since each further
round lowers that number. -/
theorem loops_iterateUpTo
    (hadvancing : ∀ a s b t, step a s = .ok (.yield b) t → (rest t).length < (rest s).length)
    (bound : Nat) (a : α) (s : σ) (hbound : (rest s).length < bound) :
    Loops step a s (iterateUpTo step bound a s) := by
  induction bound generalizing a s with
  | zero => exact absurd hbound (Nat.not_lt_zero _)
  | succ bound ih =>
      change Loops step a s (EStateM.bind (step a) _ s)
      unfold EStateM.bind
      cases hstep : step a s with
      | error e t => exact .fails hstep
      | ok next t =>
          cases next with
          | done b => exact .leaves hstep
          | yield b =>
              have hlt := hadvancing a s b t hstep
              exact .again hstep (ih b t (by omega))

theorem LoopEnds.of_advancing
    (hadvancing : ∀ a s b t, step a s = .ok (.yield b) t → (rest t).length < (rest s).length)
    (hsuffix : ∀ a s b t, step a s = .ok (.yield b) t → rest t <:+ rest s) :
    LoopEnds rest step where
  advances a s b t hstep := by
    have hlt := hadvancing a s b t hstep
    obtain ⟨passed, hpassed⟩ := hsuffix a s b t hstep
    refine ⟨passed, ?_, hpassed.symm⟩
    rintro rfl
    have hsame : (rest t).length = (rest s).length := congrArg List.length hpassed
    omega
  ends a s result := by
    have hloops := loops_iterateUpTo hadvancing ((rest s).length + 1) a s (Nat.lt_succ_self _)
    constructor
    · intro hends
      exact hends.unique hloops
    · rintro rfl
      exact hloops

end

/-! ## The loops of readers that report nothing -/

namespace Read

/-- The loops that report nothing. -/
inductive Loop (deep : Nested) : {α : Type} → (α → Read (ForInStep α)) → Prop
  | pragmas : Loop deep pragmaStep
  | names : Loop deep (commaStep ident)
  | exprs : Loop deep (commaStep deep.expr)
  | leftExprs : Loop deep (commaStep (leftExpr deep))
  | fieldInits : Loop deep (separatedStep .rBrace [.comma, .semi] (fieldInit deep))
  | staticArgs : Loop deep (separatedStep .gtGt [.comma, .semi] (staticArg deep .gtGt))
  | staticParams : Loop deep (separatedStep .gtGt [.semi] (staticParam deep))
  | varDecls : Loop deep (separatedStep .rParen [.semi] (varDecl deep))
  | fieldDecls : Loop deep (separatedStep .rBrace [.semi] (fieldDecl deep))
  | namedArgs (close : Kind) : Loop deep (separatedStep close [.comma, .semi] (namedArg deep close))
  | locals : Loop deep (terminatedStep [.ident, .lParen] (varDecl deep))
  | provides : Loop deep
      (terminatedStep [.kwConst, .kwType, .kwNode, .kwFunction, .kwUnsafe] (provide deep))
  | varGroups : Loop deep (groupStep deep)
  | postfixes : Loop deep (postfixStep deep)
  | mergeArms : Loop deep (mergeStep deep)
  | inner (least : Nat) : Loop deep (innerStep deep least)
  | top (least : Nat) : Loop deep (topStep deep least)
  | lengths : Loop deep (lengthStep deep)
  | leftParts : Loop deep (partStep deep)

theorem ends_of_advancing {step : α → Read (ForInStep α)} [∀ a, Forward (step a)]
    (h : Advancing step) : LoopEnds Cursor.rest step := by
  refine .of_advancing (fun a c b c' hstep => ?_) fun a c b c' hstep => ?_
  · have hless := h a c _ _ hstep
    rwa [stepKeeps_yield] at hless
  · exact (Forward.meets_onward (step a) c _ _ hstep).suffix

variable {deep : Nested} [deep.Advances]

theorem Loop.ends {step : α → Read (ForInStep α)} (h : Loop deep step) :
    LoopEnds Cursor.rest step := by
  cases h with
  | pragmas => exact ends_of_advancing advancing_pragmaStep
  | names => exact ends_of_advancing (advancing_commaStep _)
  | exprs => exact ends_of_advancing (advancing_commaStep _)
  | leftExprs => exact ends_of_advancing (advancing_commaStep _)
  | fieldInits => exact ends_of_advancing (advancing_separatedStep _ _ _)
  | staticArgs => exact ends_of_advancing (advancing_separatedStep _ _ _)
  | staticParams => exact ends_of_advancing (advancing_separatedStep _ _ _)
  | varDecls => exact ends_of_advancing (advancing_separatedStep _ _ _)
  | fieldDecls => exact ends_of_advancing (advancing_separatedStep _ _ _)
  | namedArgs => exact ends_of_advancing (advancing_separatedStep _ _ _)
  | locals => exact ends_of_advancing (advancing_terminatedStep _ _)
  | provides => exact ends_of_advancing (advancing_terminatedStep _ _)
  | varGroups => exact ends_of_advancing (advancing_groupStep deep)
  | postfixes => exact ends_of_advancing (advancing_postfixStep deep)
  | mergeArms => exact ends_of_advancing (advancing_mergeStep deep)
  | inner least => exact ends_of_advancing (advancing_innerStep deep least)
  | top least => exact ends_of_advancing (advancing_topStep deep least)
  | lengths => exact ends_of_advancing (advancing_lengthStep deep)
  | leftParts => exact ends_of_advancing (advancing_partStep deep)

end Read

namespace Recover

variable {step : α → Recover (ForInStep α)} {count : α → Nat}

theorem ends_of_advancing [∀ a, Regular (step a)] (h : Advancing step) :
    LoopEnds (fun run : Run => run.cursor.rest) step := by
  refine .of_advancing (fun a run b run' hstep => ?_) fun a run b run' hstep => ?_
  · have hless := h a run _ _ hstep
    rwa [stepKeeps_yield] at hless
  · exact (Meets.onward (step a) run _ _ hstep).suffix

/-! ## What a loop costs -/

/-- What a loop does whose answers have `count` entries. -/
structure Terminates (step : α → Recover (ForInStep α)) (count : α → Nat) : Prop
    extends LoopEnds (fun run : Run => run.cursor.rest) step where
  /-- Each entry that is added to an answer has taken a token. -/
  counts : ∀ a run b run', iterate a step run = .ok b run' →
    count b + run'.left ≤ count a + run.left

/-- A step after which there are no more entries and tokens together than before. -/
def Pays (step : α → Recover (ForInStep α)) (count : α → Nat) : Prop :=
  ∀ a run, Meets (step a) run
    (StepKeeps (fun b run' => count b + run'.left ≤ count a + run.left)
      fun b run' => count b + run'.left ≤ count a + run.left)

/-- A step that adds at most one entry, and none if it leaves the loop. -/
def Grows (step : α → Recover (ForInStep α)) (count : α → Nat) : Prop :=
  ∀ a run, Meets (step a) run
    (StepKeeps (fun b _ => count b ≤ count a + 1) fun b _ => count b ≤ count a)

theorem Grows.pays (hgrows : Grows step count) (hadvancing : Advancing step)
    [∀ a, Regular (step a)] : Pays step count := by
  intro a run next run' hstep
  have hgrown := hgrows a run next run' hstep
  have hpassed := hadvancing a run next run' hstep
  have hleft : run'.left ≤ run.left := Meets.left_le (step a) run next run' hstep
  cases next with
  | done b =>
      rw [stepKeeps_done] at hgrown ⊢
      omega
  | yield b =>
      rw [stepKeeps_yield] at hgrown hpassed ⊢
      omega

theorem Pays.terminates (hpays : Pays step count) (hadvancing : Advancing step)
    [hregular : ∀ a, Regular (step a)] : Terminates step count where
  toLoopEnds := ends_of_advancing hadvancing
  counts a run := by
    have hbounded := meets_iterateUpTo
      (I := fun b run' => count b + run'.left ≤ count a + run.left)
      (Q := fun b run' => count b + run'.left ≤ count a + run.left)
      (fun b run' hle => (hpays b run').mono fun next run'' hnext => ?_) fun _ _ hle => hle
    · exact hbounded _ a run (Nat.le_refl _)
    · cases next <;> exact Nat.le_trans hnext hle

/-! ## The loops -/

variable {deep : Nested} {scope : Scope}

theorem grows_includeStep : Grows includeStep List.length := by
  intro done run
  refine .get (.halted fun stopped => ?_)
  split
  · exact .pure (Nat.le_refl _)
  refine .bind .any fun result run₁ _ => ?_
  cases result with
  | ok file => exact .pure (Nat.le_of_eq List.length_append)
  | error e => exact .report fun log => .bind .any fun _ run₂ _ => .pure (Nat.le_succ _)

theorem grows_itemStep : Grows (itemStep deep) List.length := by
  intro done run
  refine .get (.halted fun stopped => ?_)
  split
  · exact .pure (Nat.le_refl _)
  split
  · exact .pure (Nat.le_refl _)
  refine .bind .any fun result run₁ _ => ?_
  cases result with
  | ok item => exact .bind .any fun span run₂ _ => .pure (Nat.le_of_eq List.length_append)
  | error e =>
      -- an item that was not read leaves an entry all the same
      refine .report fun log => .bind .any fun _ run₂ _ => ?_
      exact .bind .any fun span run₃ _ => .pure (Nat.le_of_eq List.length_append)

theorem grows_bodyStep : Grows (fun read : Partial (List (Located Declaration)) =>
    bodyStep deep read.1) fun read => read.1.length := by
  rintro ⟨done, failure⟩ run
  refine .get (.halted fun stopped => ?_)
  split
  · exact .pure (Nat.le_refl _)
  refine .ifEaten (fun _ => .pure (Nat.le_refl _)) fun _ => ?_
  split
  · exact .pure (Nat.le_refl _)
  split
  · exact .pure (Nat.le_refl _)
  refine .bind .any fun result run₁ _ => ?_
  cases result with
  | ok decl => exact .pure (Nat.le_of_eq List.length_append)
  | error e =>
      refine .report fun log => .bind .any fun _ run₂ _ => ?_
      exact .bind .any fun span run₃ _ => .pure (Nat.le_of_eq List.length_append)

theorem grows_equationStep : Grows (fun read : Partial (List (Located Equation)) =>
    equationStep deep scope read.1) fun read => read.1.length := by
  rintro ⟨done, failure⟩ run
  refine .get (.halted fun stopped => ?_)
  split
  · exact .pure (Nat.le_refl _)
  refine .ifEaten (fun _ => .pure (Nat.le_refl _)) fun _ => ?_
  split
  · exact .pure (Nat.le_refl _)
  refine .bind .any fun result run₁ _ => ?_
  cases result with
  | ok equation => exact .pure (Nat.le_of_eq List.length_append)
  | error e =>
      refine .report fun log => .bind .any fun _ run₂ _ => ?_
      exact .bind .any fun span run₃ _ => .pure (Nat.le_of_eq List.length_append)

/-- The last entry of a block is added by a round that leaves the loop, so the tokens of the
entry are counted here. -/
theorem pays_blockStep {follows : List Kind} {entry : Read α} [Forward entry]
    (hentry : ∀ c, Meets entry c fun _ c' => c'.rest.length < c.rest.length) :
    Pays (blockStep scope follows entry) List.length := by
  intro entries run
  have hend : ∀ (read : List α) (run' : Run), read.length + run'.left ≤ entries.length + run.left →
      Meets (do
        let c := (← get).cursor
        if (← halted) || !(c.isAt .ident && (c.peekAt 1).any follows.contains) then
          return .done read
        else return .yield read : Recover (ForInStep (List α))) run'
        (StepKeeps (fun b last => b.length + last.left ≤ entries.length + run.left)
          fun b last => b.length + last.left ≤ entries.length + run.left) := by
    intro read run' hle
    refine .get (.halted fun stopped => ?_)
    split
    · exact .pure hle
    · exact .pure hle
  refine .get (.caught (.lift (hentry _)) (fun one run₁ hlt => hend _ run₁ ?_)
    fun e run₁ honward => .get ?_)
  · have hless : run₁.left < run.left := hlt
    rw [List.length_append, List.length_singleton]
    omega
  · split
    · exact .throw
    · refine .report fun log => .bind (.onward _ _) fun _ run₂ hlater => hend _ run₂ ?_
      have hless : run₂.left ≤ run.left := (honward.trans hlater).suffix.length_le
      omega

variable [hdeep : deep.Advances]

theorem terminates_includeStep : Terminates includeStep List.length :=
  (grows_includeStep.pays advancing_includeStep).terminates advancing_includeStep

theorem terminates_itemStep : Terminates (itemStep deep) List.length :=
  (grows_itemStep.pays advancing_itemStep).terminates advancing_itemStep

theorem terminates_bodyStep : Terminates (fun read : Partial (List (Located Declaration)) =>
    bodyStep deep read.1) fun read => read.1.length :=
  (grows_bodyStep.pays advancing_bodyStep).terminates advancing_bodyStep

theorem terminates_equationStep : Terminates (fun read : Partial (List (Located Equation)) =>
    equationStep deep scope read.1) fun read => read.1.length :=
  (grows_equationStep.pays advancing_equationStep).terminates advancing_equationStep

theorem terminates_blockStep {follows : List Kind} {entry : Read α} [Forward entry]
    (hentry : ∀ c, Meets entry c fun _ c' => c'.rest.length < c.rest.length) :
    Terminates (blockStep scope follows entry) List.length :=
  (pays_blockStep hentry).terminates (advancing_blockStep hentry)

/-- The loops that go on after a failure. -/
inductive Loop (deep : Nested) (scope : Scope) : {α : Type} → (α → Recover (ForInStep α)) → Prop
  | includes : Loop deep scope includeStep
  | items : Loop deep scope (itemStep deep)
  | bodyDeclarations : Loop deep scope fun read : Partial (List (Located Declaration)) =>
      bodyStep deep read.1
  | equations : Loop deep scope fun read : Partial (List (Located Equation)) =>
      equationStep deep scope read.1
  | typeEntries : Loop deep scope (blockStep scope [.eq, .semi, .pragma] (Read.typeEntry deep))
  | constEntries :
      Loop deep scope (blockStep scope [.comma, .colon, .eq, .pragma] (Read.constEntry deep))
  | localBlocks : Loop deep scope (localStep deep scope)
  | needs : Loop deep scope fun read : Partial (List (Located StaticParam)) =>
      needsStep deep read.1

theorem Loop.ends {step : α → Recover (ForInStep α)} (h : Loop deep scope step) :
    LoopEnds (fun run : Run => run.cursor.rest) step := by
  cases h with
  | includes => exact terminates_includeStep.toLoopEnds
  | items => exact terminates_itemStep.toLoopEnds
  | bodyDeclarations => exact terminates_bodyStep.toLoopEnds
  | equations => exact terminates_equationStep.toLoopEnds
  | typeEntries => exact (terminates_blockStep meets_typeEntry_shorter).toLoopEnds
  | constEntries => exact (terminates_blockStep meets_constEntry_shorter).toLoopEnds
  | localBlocks => exact ends_of_advancing advancing_localStep
  | needs => exact ends_of_advancing advancing_needsStep

end Recover

/-! ## Nodes, packages, models and programs -/

/-- The equations in the body of a node. -/
def NodeDecl.equations (decl : NodeDecl) : List (Located Equation) :=
  match decl.body with
  | .definition definition => definition.equations
  | .synonym _ | .missing => []

namespace Recover

/-- An answer without entries takes no tokens. -/
theorem length_add_le_of_nil {items : List α} {left bound : Nat} (hnone : items = [])
    (hle : left ≤ bound) : items.length + left ≤ bound := by
  rw [hnone, List.length_nil, Nat.zero_add]
  exact hle

variable {deep : Nested} [hdeep : deep.Advances] {scope : Scope}

theorem meets_equations_length (run : Run) :
    Meets (equations deep scope) run fun read run' => read.1.length + run'.left ≤ run.left := by
  intro read run' hread
  have hcounts := terminates_equationStep.counts ([], none) run read run' hread
  rwa [List.length_nil, Nat.zero_add] at hcounts

theorem meets_bodyDeclarations_length (run : Run) :
    Meets (bodyDeclarations deep) run fun read run' => read.1.length + run'.left ≤ run.left := by
  intro read run' hread
  have hcounts := terminates_bodyStep.counts ([], none) run read run' hread
  rwa [List.length_nil, Nat.zero_add] at hcounts

/-- The header of a node has no equations. -/
theorem meets_nodeHeader_equations (head : NodeHead) (run : Run) :
    Meets (nodeHeader deep head) run fun read _ => read.1.equations = [] := by
  have htarget : ∀ c, Meets (synonymTarget deep) c fun body _ =>
      ∀ params profile, (⟨head, params, profile, body⟩ : NodeDecl).equations = [] := by
    intro c
    refine .bind .any fun target c₁ _ => ?_
    cases target with
    | some target => exact .bind .any fun _ _ _ => .pure fun _ _ => rfl
    | none => exact .pure fun _ _ => rfl
  refine .bind .any fun params run₁ _ => ?_
  cases params with
  | error e => exact .pure rfl
  | ok params =>
      refine .bind .any fun profile run₂ _ => ?_
      cases profile with
      | error e => exact .pure rfl
      | ok profile =>
          exact .caught (.lift (htarget _)) (fun body run₃ hbody => .pure (hbody _ _))
            fun _ _ _ => .pure rfl

theorem meets_nodeDefinition_length (decl : NodeDecl) (hnone : decl.equations = []) (run : Run) :
    Meets (nodeDefinition deep scope decl) run fun read run' =>
      read.1.equations.length + run'.left ≤ run.left := by
  have hlocals : Meets (attempt do
      let _ ← (Read.eat .semi : Read Bool)
      let locals ← localBlocks deep scope
      let _ ← (Read.expect .kwLet : Read Span)
      return locals) run fun _ run₁ => run₁.left ≤ run.left := .left_le _ run
  refine .bind hlocals fun locals run₁ hlocals => ?_
  cases locals with
  | error e => exact .pure (length_add_le_of_nil hnone hlocals)
  | ok locals =>
      refine .bind (meets_equations_length run₁) fun read run₂ hequations => ?_
      obtain ⟨equations, failure⟩ := read
      dsimp only
      split
      · refine .bind (.left_le _ run₂) fun _ run₃ hmark => .pure ?_
        exact Nat.le_trans (Nat.add_le_add_left hmark _) (Nat.le_trans hequations hlocals)
      · exact .pure (Nat.le_trans hequations hlocals)

theorem meets_nodeTail_length (decl : NodeDecl) (hnone : decl.equations = []) (run : Run) :
    Meets (nodeTail deep scope decl) run fun read run' =>
      read.1.equations.length + run'.left ≤ run.left := by
  have hsame : decl.equations.length + run.left ≤ run.left :=
    length_add_le_of_nil hnone (Nat.le_refl _)
  refine .get ?_
  dsimp only
  split
  · split
    · exact .pure hsame
    · exact .pure hsame
  · split
    · exact .pure hsame
    · exact .pure hsame
  · exact meets_nodeDefinition_length decl hnone run

theorem meets_closeNode_length (read : Partial NodeDecl) (run : Run) :
    Meets (closeNode scope read) run fun decl run' => decl = read.1 ∧ run'.left ≤ run.left := by
  obtain ⟨decl, failure⟩ := read
  cases failure with
  | none => exact .pure ⟨rfl, Nat.le_refl _⟩
  | some e =>
      exact .report fun log => .bind (.left_le _ _) fun _ run₁ hless => .pure ⟨rfl, hless⟩

theorem meets_openNode_length (read : Partial NodeDecl) (hnone : read.1.equations = [])
    (run : Run) :
    Meets (openNode deep scope read) run fun decl run' =>
      decl.equations.length + run'.left ≤ run.left := by
  obtain ⟨decl, failure⟩ := read
  cases failure with
  | some e =>
      refine .report fun log => .bind (.left_le _ _) fun _ run₁ hless => .pure ?_
      exact length_add_le_of_nil hnone hless
  | none =>
      refine .bind (meets_nodeTail_length decl hnone run) fun read run₁ htail => ?_
      refine (meets_closeNode_length read run₁).mono fun last run₂ hclose => ?_
      rw [hclose.1]
      exact Nat.le_trans (Nat.add_le_add_left hclose.2 _) htail

theorem meets_node_length (run : Run) :
    Meets (node deep scope) run fun decl run' => decl.equations.length + run'.left ≤ run.left := by
  refine .bind (.left_le _ run) fun head run₁ hhead => ?_
  refine .bind (.and (.left_le _ run₁) (meets_nodeHeader_equations head run₁))
    fun read run₂ hheader => ?_
  refine (meets_openNode_length read hheader.2 run₂).mono fun decl run₃ hopen => ?_
  exact Nat.le_trans hopen (Nat.le_trans hheader.1 hhead)

theorem meets_body_length (run : Run) :
    Meets (body deep) run fun read run' => read.1.length + run'.left ≤ run.left := by
  refine .bind (.left_le _ run) fun word run₁ hword => ?_
  cases word with
  | error e => exact .pure (length_add_le_of_nil rfl hword)
  | ok word =>
      refine (meets_bodyDeclarations_length run₁).mono fun read run₂ hle => ?_
      exact Nat.le_trans hle hword

omit hdeep in
/-- A package that instantiates a model has no declarations of its own. -/
theorem meets_instantiation_declarations (name : Ident) (word : InstanceWord) (run : Run) :
    Meets (instantiation deep name word) run fun package _ =>
      (Item.package package).declarations = [] := by
  refine .bind .any fun model run₁ _ => .bind .any fun args run₂ _ => ?_
  refine .bind .any fun _ run₃ _ => .get ?_
  dsimp only
  split
  · exact .report fun log => .bind .any fun _ run₄ _ => .bind .any fun _ run₅ _ => .pure rfl
  · exact .pure rfl

theorem meets_package_length (run : Run) :
    Meets (package deep) run fun package run' =>
      (Item.package package).declarations.length + run'.left ≤ run.left := by
  refine .bind (.left_le _ run) fun _ run₁ hkeyword => ?_
  refine .bind (.left_le _ run₁) fun name run₂ hname => ?_
  refine .bind (.left_le _ run₂) fun word run₃ hword => ?_
  cases word with
  | some word =>
      refine (Meets.and (.left_le _ run₃)
        (meets_instantiation_declarations name word run₃)).mono fun package run₄ hread => ?_
      apply length_add_le_of_nil hread.2
      calc run₄.left ≤ run₃.left := hread.1
        _ ≤ run₂.left := hword
        _ ≤ run₁.left := hname
        _ ≤ run.left := hkeyword
  | none =>
      refine .bind (.left_le _ run₃) fun uses run₄ huses => ?_
      refine .bind (.left_le _ run₄) fun provides run₅ hprovides => ?_
      refine .bind (meets_body_length run₅) fun read run₆ hbody => ?_
      refine .bind (.left_le _ run₆) fun _ run₇ hreport => .pure ?_
      change read.1.length + run₇.left ≤ run.left
      omega

theorem meets_modelContents_length (name : Ident) (uses : List Ident)
    (needs : Partial (List (Located StaticParam))) (run : Run) :
    Meets (modelContents deep name uses needs) run fun read run' =>
      read.1.decls.length + run'.left ≤ run.left := by
  have hnone : ([] : List (Located Declaration)).length + run.left ≤ run.left :=
    length_add_le_of_nil rfl (Nat.le_refl _)
  obtain ⟨needs, failure⟩ := needs
  cases failure with
  | some e => exact .pure hnone
  | none =>
      refine .bind (.left_le _ run) fun provides run₁ hprovides => ?_
      cases provides with
      | error e => exact .pure (Nat.le_trans (Nat.add_le_add_left hprovides _) hnone)
      | ok provides =>
          refine .bind (meets_body_length run₁) fun read run₂ hbody => .pure ?_
          exact Nat.le_trans hbody hprovides

theorem meets_modelTail_length (name : Ident) (run : Run) :
    Meets (modelTail deep name) run fun read run' =>
      read.1.decls.length + run'.left ≤ run.left := by
  refine .bind (.left_le _ run) fun uses run₁ huses => ?_
  cases uses with
  | error e => exact .pure (length_add_le_of_nil rfl huses)
  | ok uses =>
      refine .bind (.left_le _ run₁) fun needs run₂ hneeds => ?_
      refine (meets_modelContents_length name uses needs run₂).mono fun read run₃ hle => ?_
      exact Nat.le_trans hle (Nat.le_trans hneeds huses)

theorem meets_closeModel_length (read : Partial Model) (run : Run) :
    Meets (closeModel read) run fun model run' => model = read.1 ∧ run'.left ≤ run.left := by
  obtain ⟨model, failure⟩ := read
  cases failure with
  | none => exact .pure ⟨rfl, Nat.le_refl _⟩
  | some e =>
      exact .report fun log => .bind (.left_le _ _) fun _ run₁ hless => .pure ⟨rfl, hless⟩

theorem meets_model_length (run : Run) :
    Meets (model deep) run fun model run' => model.decls.length + run'.left ≤ run.left := by
  refine .bind (.left_le _ run) fun _ run₁ hkeyword => ?_
  refine .bind (.left_le _ run₁) fun name run₂ hname => ?_
  refine .bind (meets_modelTail_length name run₂) fun read run₃ htail => ?_
  refine (meets_closeModel_length read run₃).mono fun model run₄ hclose => ?_
  rw [hclose.1]
  have hless : run₄.left ≤ run₃.left := hclose.2
  omega

/-! ## Termination -/

/-- The parser without bounds ends on a program as the reader does. -/
theorem parser_program_ends (beyond : Calls) (tokens : List Token) (size : Nat) (log : Log) :
    ∃ program last, Parser.program (.upTo beyond maxNesting) (.start tokens size log) =
        .some (.ok program last) ∧
      Recover.program (.upTo maxNesting) ⟨.start tokens size, log⟩ = .ok program last.run := by
  obtain ⟨result, h⟩ := Twins.program.endsAs beyond (Machine.inRange_start tokens size log)
  have hread : Recover.program (.upTo maxNesting) ⟨.start tokens size, log⟩ =
      viewed (fun t => t.run) result := program_eq_programIn (.upTo maxNesting) ▸ h.alike
  obtain ⟨program, run', hok⟩ := (Total.program (.upTo maxNesting)).total ⟨.start tokens size, log⟩
  cases result with
  | error e t => cases hok.symm.trans hread
  | ok program t => exact ⟨program, t, h.ends, hread⟩

/-- Over any tokens and with any limits reading ends.  Every loop under `Recover.program` passes
tokens in each round that does not leave it, so it ends without its bound, and so does the parser in
which no loop has a bound.  An answer has no more entries than tokens were passed for it. -/
theorem reading_terminates (levels : Nat) (scope : Scope) :
    Terminates includeStep List.length ∧
    Terminates (itemStep (.upTo levels)) List.length ∧
    Terminates (fun read : Partial (List (Located Declaration)) => bodyStep (.upTo levels) read.1)
      (fun read => read.1.length) ∧
    Terminates (fun read : Partial (List (Located Equation)) =>
      equationStep (.upTo levels) scope read.1) (fun read => read.1.length) ∧
    Terminates (blockStep scope [.eq, .semi, .pragma] (Read.typeEntry (.upTo levels)))
      List.length ∧
    Terminates (blockStep scope [.comma, .colon, .eq, .pragma] (Read.constEntry (.upTo levels)))
      List.length ∧
    (∀ (α : Type) (step : α → Read (ForInStep α)), Read.Loop (.upTo levels) step →
      LoopEnds Cursor.rest step) ∧
    (∀ (α : Type) (step : α → Recover (ForInStep α)), Recover.Loop (.upTo levels) scope step →
      LoopEnds (fun run : Run => run.cursor.rest) step) ∧
    (∀ (beyond : Calls) (tokens : List Token) (size : Nat) (log : Log), ∃ program last,
      Parser.program (.upTo beyond maxNesting) (.start tokens size log) =
          .some (.ok program last) ∧
        Recover.program (.upTo maxNesting) ⟨.start tokens size, log⟩ = .ok program last.run) ∧
    ∀ run : Run,
      (∃ program run', Recover.program (.upTo levels) run = .ok program run' ∧
        program.includes.length + program.items.length + run'.left ≤ run.left) ∧
      (∀ package run', Recover.package (.upTo levels) run = .ok package run' →
        (Item.package package).declarations.length + run'.left ≤ run.left) ∧
      (∀ model run', Recover.model (.upTo levels) run = .ok model run' →
        model.decls.length + run'.left ≤ run.left) ∧
      ∀ decl run', Recover.node (.upTo levels) scope run = .ok decl run' →
        decl.equations.length + run'.left ≤ run.left := by
  refine ⟨terminates_includeStep, terminates_itemStep, terminates_bodyStep,
    terminates_equationStep, terminates_blockStep meets_typeEntry_shorter,
    terminates_blockStep meets_constEntry_shorter, fun _ _ hloop => hloop.ends,
    fun _ _ hloop => hloop.ends, parser_program_ends, fun run =>
      ⟨?_, meets_package_length run, meets_model_length run, meets_node_length run⟩⟩
  -- each directive and each item has passed a token, so there are no more than tokens
  obtain ⟨program, run', hread⟩ := (Total.program (.upTo levels)).total run
  obtain ⟨run₁, hincludes, hitems⟩ := program_eq_ok.mp hread
  have hfiles := terminates_includeStep.counts [] run program.includes run₁ hincludes
  have hrest := terminates_itemStep.counts [] run₁ program.items run' hitems
  rw [List.length_nil, Nat.zero_add] at hfiles hrest
  exact ⟨program, run', hread, by omega⟩

end Recover

end Lustre
