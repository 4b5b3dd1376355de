import Lustre.Proofs.Reader.Scoped

/-!
# Every round of a loop makes headway

The loops of a file, of the bodies in it, of its blocks and of its equations ask for
another round only after they have passed a token: what could be read takes up tokens,
and recovery from what could not leaves the token where it began.  This holds in every
run, broken or not, so the bound of a loop is never what ends it.
-/

namespace Lustre

variable {α β : Type}

/-- The number of tokens to come. -/
def Run.left (run : Run) : Nat := run.cursor.rest.length

/-! ## What lies ahead of a run -/

namespace Meets

variable {run : Run} {P : α → Run → Prop} {R : β → Run → Prop}

/-- A reader that reports nothing moves the cursor. -/
theorem lift {read : Read α} {Q : α → Cursor → Prop} (h : Meets read run.cursor Q) :
    Meets (monadLift read : Recover α) run fun a run' => Q a run'.cursor := by
  intro a run' hok
  rw [Recover.lift_run] at hok
  split at hok
  · rename_i a' c hread
    cases hok
    exact h _ _ hread
  · cases hok

/-- No reader goes back. -/
theorem onward (read : Recover α) [h : Regular read] (run : Run) :
    Meets read run fun _ run' => run.cursor.Onward run'.cursor := by
  intro a run' hok
  have honward := h.onward run
  rwa [hok] at honward

theorem left_le (read : Recover α) [Regular read] (run : Run) :
    Meets read run fun _ run' => run'.left ≤ run.left :=
  (Meets.onward read run).mono fun _ _ h => h.suffix.length_le

/-- What follows a reader whose failure is caught. -/
theorem caught {read : Recover α} {next : Except Diagnostic α → Recover β} [hregular : Regular read]
    (h : Meets read run P) (hok : ∀ a run', P a run' → Meets (next (.ok a)) run' R)
    (hfail : ∀ e run', run.cursor.Onward run'.cursor → Meets (next (.error e)) run' R) :
    Meets (Recover.attempt read >>= next) run R := by
  refine .bind (P := fun result run' => (∀ a, result = .ok a → P a run') ∧
    ∀ e, result = .error e → run.cursor.Onward run'.cursor) ?_ fun result run' hresult => ?_
  · intro result run' hdone
    have honward := hregular.onward run
    unfold Recover.attempt at hdone
    split at hdone <;> rename_i hread <;> cases hdone
    · refine ⟨?_, fun e heq => by cases heq⟩
      rintro a ⟨⟩
      exact h _ _ hread
    · rw [hread] at honward
      exact ⟨fun a heq => (by cases heq), fun _ _ => honward⟩
  · cases result with
    | ok a => exact hok a run' (hresult.1 a rfl)
    | error e => exact hfail e run' (hresult.2 e rfl)

theorem lifted {read : Read α} {Q : α → Cursor → Prop} {next : α → Recover β}
    (h : Meets read run.cursor Q) (hnext : ∀ a c, Q a c → Meets (next a) ⟨c, run.log⟩ R) :
    Meets ((monadLift read : Recover α) >>= next) run R := by
  intro b run' hok
  change EStateM.bind _ next run = _ at hok
  rw [EStateM.bind, Recover.lift_run] at hok
  cases hread : read run.cursor with
  | ok a c =>
      rw [hread] at hok
      exact hnext a c (h a c hread) b run' hok
  | error e c =>
      rw [hread] at hok
      cases hok

theorem ifEaten {kind : Kind} {yes no : Recover β}
    (hyes : run.cursor.peek = some kind → Meets yes ⟨run.cursor.pass, run.log⟩ R)
    (hno : run.cursor.peek ≠ some kind → Meets no run R) :
    Meets ((monadLift (Read.eat kind) : Recover Bool) >>= fun found =>
      if found = true then yes else no) run R := by
  refine .lifted (Q := fun found c => found = true ∧ run.cursor.peek = some kind ∧
    c = run.cursor.pass ∨ found = false ∧ run.cursor.peek ≠ some kind ∧ c = run.cursor) ?_ ?_
  · exact .ifAt (fun h => .advance (.pure (.inl ⟨rfl, h, rfl⟩))) fun h => .pure (.inr ⟨rfl, h, rfl⟩)
  · rintro found c (⟨rfl, h, rfl⟩ | ⟨rfl, h, rfl⟩)
    · exact hyes h
    · exact hno h

theorem halted {next : Bool → Recover β} (h : ∀ stopped, Meets (next stopped) run R) :
    Meets (Recover.halted >>= next) run R :=
  h _

theorem report {d : Diagnostic} {next : Unit → Recover β}
    (h : ∀ log, Meets (next ()) ⟨run.cursor, log⟩ R) : Meets (Recover.report d >>= next) run R :=
  h _

end Meets

namespace Recover

/-! ## Readers that do not fail -/

instance total_isAt (kind : Kind) : Total (monadLift (Read.isAt kind) : Recover Bool) :=
  ⟨fun _ => ⟨_, _, rfl⟩⟩

instance total_eat (kind : Kind) : Total (monadLift (Read.eat kind) : Recover Bool) where
  total run := by
    by_cases hpeek : run.cursor.peek = some kind
    · exact ⟨_, _, by rw [lift_run, Read.eat_of_peek hpeek]⟩
    · exact ⟨_, _, by rw [lift_run, Read.eat_of_ne hpeek]⟩

instance total_equationStep (deep : Nested) (scope : Scope) (done : List (Located Equation)) :
    Total (equationStep deep scope done) := by
  refine .after fun run => .after fun stopped => .choose inferInstance (.after fun found => ?_)
  refine .choose inferInstance (.choose inferInstance (.after fun result => ?_))
  unfold skipStatement leave
  cases result <;> infer_instance

/-! ## Rounds of a loop -/

/-- A step of a loop that passes a token before it asks for another step. -/
def Advancing (step : α → Recover (ForInStep α)) : Prop :=
  ∀ a run, Meets (step a) run (StepKeeps (fun _ run' => run'.left < run.left) fun _ _ => True)

variable {deep : Nested} [hdeep : deep.Advances] {scope : Scope}

/-! ## Recovery leaves the token where it began -/

theorem meets_leave {start : Nat} {run : Run} (hpos : 0 < start) (hle : run.left ≤ start) :
    Meets (leave start) run fun _ run' => run'.left < start := by
  refine .get ?_
  change Meets (if run.left = start then (monadLift Read.advance : Recover Unit) else pure ()) run _
  split
  · rename_i hstart
    intro _ run' hok
    cases hok
    change run.cursor.pass.rest.length < start
    rw [Cursor.rest_pass, List.length_tail]
    unfold Run.left at hstart
    omega
  · exact .pure (by omega)

theorem meets_skipDeclaration {start : Nat} {run : Run} (hpos : 0 < start)
    (hle : run.left ≤ start) :
    Meets (skipDeclaration scope start) run fun _ run' => run'.left < start := by
  refine .bind (meets_leave hpos hle) fun _ run' hlt => ?_
  exact (Meets.left_le _ run').mono fun _ _ hle => Nat.lt_of_le_of_lt hle hlt

/-- A statement that did not begin with `tel` is left even if recovery begins at a `tel`. -/
theorem meets_skipStatement {c : Cursor} {run : Run} (hsuffix : run.cursor.rest <:+ c.rest)
    (hsome : c.rest ≠ []) (htel : c.peek ≠ some .kwTel) :
    Meets (skipStatement scope c.rest.length) run fun _ run' => run'.left < c.rest.length := by
  have hpos : 0 < c.rest.length := List.length_pos_iff.mpr hsome
  have hskip : ∀ run' : Run, run'.left < c.rest.length →
      Meets (do
        synchronize scope (.kwTel :: .semi :: nodeStops)
        let _ ← (Read.eat .semi : Read Bool) : Recover Unit) run' fun _ last =>
          last.left < c.rest.length := fun run' hlt =>
    (Meets.left_le _ run').mono fun _ _ hle => Nat.lt_of_le_of_lt hle hlt
  refine .lifted (Q := fun found c' => found = run.cursor.isAt .kwTel ∧ c' = run.cursor)
    (.get (.pure ⟨rfl, rfl⟩)) ?_
  rintro _ _ ⟨rfl, rfl⟩
  split
  · rename_i hat
    refine hskip _ ?_
    refine Nat.lt_of_le_of_ne hsuffix.length_le fun heq => htel ?_
    -- nothing was passed, so the statement did begin with `tel`
    rw [Cursor.peek, ← hsuffix.eq_of_length heq]
    simpa [Cursor.isAt, Cursor.peek] using hat
  · exact .bind (meets_leave hpos hsuffix.length_le) fun _ run' hlt => hskip run' hlt

theorem meets_skipEntry {start : Nat} {run : Run} (hpos : 0 < start) (hle : run.left ≤ start) :
    Meets (skipEntry scope start) run fun _ run' => run'.left < start := by
  refine .bind (meets_leave hpos hle) fun _ run' hlt => ?_
  exact (Meets.left_le _ run').mono fun _ _ hle => Nat.lt_of_le_of_lt hle hlt

/-! ## The loops -/

theorem meets_equation_shorter (c : Cursor) :
    Meets (Read.equation deep) c fun _ c' => c'.rest.length < c.rest.length := by
  refine .bind (Forward.meets _ c) fun equation c₁ hle => .expect fun hsemi _ => .pure ?_
  exact Nat.lt_of_lt_of_le (Cursor.length_pass hsemi) hle

theorem advancing_equationStep : Advancing fun read : Partial (List (Located Equation)) =>
    equationStep deep scope read.1 := by
  rintro ⟨done, _⟩ run
  refine .get (.halted fun stopped => ?_)
  split
  · exact .pure trivial
  refine .ifEaten (fun _ => .pure trivial) fun htel => ?_
  split
  · exact .pure trivial
  rename_i hstop
  have hsome : run.cursor.rest ≠ [] := by
    intro hrest
    simp [Cursor.peek, hrest] at hstop
  refine .caught (.lift (meets_equation_shorter _)) (fun equation run₁ hlt => .pure hlt)
    fun e run₁ honward => .report fun log => ?_
  refine .bind (meets_skipStatement honward.suffix hsome htel) fun _ run₂ hlt => ?_
  exact .lifted (Forward.meets _ _) fun span c hle => .pure (Nat.lt_of_le_of_lt hle hlt)

/-- A block asks for another entry only before a name. -/
theorem advancing_blockStep {follows : List Kind} {entry : Read α} [Forward entry]
    (hentry : ∀ c, Meets entry c fun _ c' => c'.rest.length < c.rest.length) :
    Advancing (blockStep scope follows entry) := by
  intro entries run
  have hend : ∀ (entries : List α) (run' : Run), (run'.cursor.rest ≠ [] → run'.left < run.left) →
      Meets (do
        let c := (← get).cursor
        if (← halted) || !(c.isAt .ident && (c.peekAt 1).any follows.contains) then
          return .done entries
        else return .yield entries : Recover (ForInStep (List α))) run'
        (StepKeeps (fun _ last => last.left < run.left) fun _ _ => True) := by
    intro entries run' hlt
    refine .get (.halted fun stopped => ?_)
    split
    · exact .pure trivial
    · rename_i hgoes
      refine .pure (hlt fun hrest => hgoes ?_)
      simp [Cursor.isAt, Cursor.peek, hrest]
  refine .get (.caught (.lift (hentry _)) (fun one run₁ hlt => hend _ run₁ fun _ => hlt)
    fun e run₁ honward => .get ?_)
  split
  · exact .throw
  · refine .report fun log => ?_
    by_cases hnone : run.cursor.rest = []
    · -- no token is left, so no other entry is asked for
      refine .bind (.onward _ _) fun _ run₂ hlater => hend _ run₂ fun hsome => absurd ?_ hsome
      exact List.suffix_nil.mp (hnone ▸ (honward.trans hlater).suffix)
    · have hpos : 0 < run.left := List.length_pos_iff.mpr hnone
      exact .bind (meets_skipEntry hpos honward.suffix.length_le) fun _ run₂ hlt =>
        hend _ run₂ fun _ => hlt

theorem meets_typeEntry_shorter (c : Cursor) :
    Meets (Read.typeEntry deep) c fun _ c' => c'.rest.length < c.rest.length := by
  refine .bind (Forward.meets _ c) fun entry c₁ hle => .expect fun hsemi _ => .pure ?_
  exact Nat.lt_of_lt_of_le (Cursor.length_pass hsemi) hle

theorem meets_constEntry_shorter (c : Cursor) :
    Meets (Read.constEntry deep) c fun _ c' => c'.rest.length < c.rest.length := by
  refine .bind (Forward.meets _ c) fun entry c₁ hle => .expect fun hsemi _ => .pure ?_
  exact Nat.lt_of_lt_of_le (Cursor.length_pass hsemi) hle

/-- What comes after a token that is passed. -/
theorem meets_after_advance {kind : Kind} {next : Unit → Recover α} {run : Run}
    (h : run.cursor.peek = some kind) [Regular (next ())] :
    Meets ((monadLift Read.advance : Recover Unit) >>= next) run fun _ run' =>
      run'.left < run.left := by
  have hlt : (⟨run.cursor.pass, run.log⟩ : Run).left < run.left := Cursor.length_pass h
  change Meets (next ()) ⟨run.cursor.pass, run.log⟩ _
  exact (Meets.left_le _ _).mono fun _ _ hle => Nat.lt_of_le_of_lt hle hlt

theorem meets_localBlock_shorter {run : Run}
    (h : run.cursor.peek = some .kwVar ∨ run.cursor.peek = some .kwConst) :
    Meets (localBlock deep scope) run fun _ run' => run'.left < run.left := by
  refine .ifEaten (fun hvar => ?_) fun hvar => meets_after_advance (h.resolve_left hvar)
  have hlt : (⟨run.cursor.pass, run.log⟩ : Run).left < run.left := Cursor.length_pass hvar
  exact .lifted (Forward.meets _ _) fun vars c hle => .pure (Nat.lt_of_le_of_lt hle hlt)

/-- What is read together with its place takes up as many tokens. -/
theorem meets_located {read : Recover α} {run : Run} {bound : Nat}
    (h : Meets read run fun _ run' => run'.left < bound) :
    Meets (located read) run fun _ run' => run'.left < bound :=
  .lifted (Q := fun _ c => c = run.cursor) (.get (.pure rfl)) fun start c hc => by
    subst hc
    exact .bind h fun a run' hlt => .lifted (Forward.meets _ _) fun span c hle =>
      .pure (Nat.lt_of_le_of_lt hle hlt)

theorem advancing_localStep : Advancing (localStep deep scope) := by
  intro blocks run
  have hblock : run.cursor.peek = some .kwVar ∨ run.cursor.peek = some .kwConst →
      Meets (do return ForInStep.yield (blocks ++ [← located (localBlock deep scope)])) run
        (StepKeeps (fun _ run' => run'.left < run.left) fun _ _ => True) := fun h =>
    .bind (meets_located (meets_localBlock_shorter h)) fun block run' hlt => .pure hlt
  have hpeek : Meets (monadLift Read.peek : Recover (Option Kind)) run fun kind run' =>
      run.cursor.peek = kind ∧ run' = run := by
    rintro kind run' ⟨⟩
    exact ⟨rfl, rfl⟩
  refine .bind hpeek fun kind run' hread => ?_
  obtain ⟨hkind, rfl⟩ := hread
  split
  · exact hblock (.inl hkind)
  · exact hblock (.inr hkind)
  · exact .pure trivial

theorem meets_nodeHead_shorter (c : Cursor) :
    Meets Read.nodeHead c fun _ c' => c'.rest.length < c.rest.length := by
  have hkind : ∀ c, Meets Read.nodeKind c fun _ c' => c'.rest.length < c.rest.length := fun c =>
    .ifEat (fun h => .pure (Cursor.length_pass h)) fun _ =>
      .ifEat (fun h => .pure (Cursor.length_pass h)) fun _ => .unexpected
  refine .bind (Forward.meets _ c) fun isUnsafe c₁ hle₁ => .bind (hkind c₁) fun kind c₂ hlt => ?_
  refine .bind (Forward.meets _ c₂) fun name c₃ hle₃ => .pure ?_
  omega

theorem meets_node_shorter (run : Run) :
    Meets (node deep scope) run fun _ run' => run'.left < run.left :=
  .lifted (meets_nodeHead_shorter _) fun _ _ hlt =>
    (Meets.left_le _ _).mono fun _ _ hle => Nat.lt_of_le_of_lt hle hlt

theorem meets_externalNode_shorter (c : Cursor) :
    Meets (externalNode deep) c fun _ c' => c'.rest.length < c.rest.length := by
  refine .bind (Forward.meets _ c) fun isUnsafe c₁ hle => .expect fun hexternal _ => ?_
  have hlt := Nat.lt_of_lt_of_le (Cursor.length_pass hexternal) hle
  exact (Forward.meets _ _).mono fun _ _ hle => Nat.lt_of_le_of_lt hle hlt

theorem meets_declaration_shorter (run : Run) :
    Meets (declaration deep scope) run fun _ run' => run'.left < run.left := by
  have hnode : Meets (do return Declaration.node (← node deep scope)) run
      fun _ run' => run'.left < run.left :=
    .bind (meets_node_shorter run) fun decl run' hlt => .pure hlt
  have hexternal : Meets (do return .external (← (externalNode deep : Read ExternalNode)) :
      Recover Declaration) run fun _ run' => run'.left < run.left :=
    .lifted (meets_externalNode_shorter _) fun decl run' hlt => .pure hlt
  refine meets_located (.get ?_)
  dsimp only
  split
  · split
    · exact hexternal
    · exact hnode
  · exact hexternal
  · exact hnode
  · exact hnode
  · exact meets_after_advance ‹_›
  · exact meets_after_advance ‹_›
  · exact .throw

theorem advancing_bodyStepIn : Advancing fun read : Partial (List (Located Declaration)) =>
    bodyStepIn deep scope read.1 := by
  rintro ⟨done, _⟩ run
  refine .get (.halted fun stopped => ?_)
  split
  · exact .pure trivial
  refine .ifEaten (fun _ => .pure trivial) fun _ => ?_
  split
  · exact .pure trivial
  rename_i kind hpeek
  split
  · exact .pure trivial
  have hpos : 0 < run.left := Nat.zero_lt_of_lt (Cursor.length_pass hpeek)
  refine .caught (P := fun _ run' => run'.left < run.left) ?_ (fun decl run₁ hlt => .pure hlt)
    fun e run₁ honward => .report fun log => ?_
  · split
    · exact meets_declaration_shorter run
    · exact .throw
  · refine .bind (meets_skipDeclaration hpos honward.suffix.length_le) fun _ run₂ hlt => ?_
    exact .lifted (Forward.meets _ _) fun span c hle => .pure (Nat.lt_of_le_of_lt hle hlt)

theorem advancing_bodyStep : Advancing fun read : Partial (List (Located Declaration)) =>
    bodyStep deep read.1 :=
  bodyStep_eq_bodyStepIn deep ▸ advancing_bodyStepIn

theorem advancing_needsStep : Advancing fun read : Partial (List (Located StaticParam)) =>
    needsStep deep read.1 := by
  rintro ⟨done, _⟩ run
  refine .caught (.lift (Forward.meets _ _)) (fun param run₁ hle => ?_) fun _ _ _ => .pure trivial
  refine .caught (P := fun _ run₂ => run₂.left < run₁.left) ?_ (fun _ run₂ hlt => ?_)
    fun _ _ _ => .pure trivial
  · refine .lift (Q := fun _ c => c.rest.length < run₁.left) ?_
    exact .ifAt (fun hsemi => .get (.advance (.pure (Cursor.length_pass hsemi))))
      fun _ => .unexpected
  · refine .lifted (Forward.meets _ _) fun next c hle' => ?_
    split
    · exact .pure (Nat.lt_of_le_of_lt hle' (Nat.lt_of_lt_of_le hlt hle))
    · exact .pure trivial

theorem meets_includeDirective_shorter (c : Cursor) :
    Meets includeDirective c fun _ c' => c'.rest.length < c.rest.length := by
  refine .located (.expect fun hinclude _ => ?_)
  refine .take? (fun token rest _ _ => ?_) fun _ => .missing
  have hlt := Cursor.length_pass hinclude
  refine .bind (Forward.meets _ _) fun _ c₁ hle => .pure fun span => ?_
  have hpass : c.pass.pass.rest.length ≤ c.pass.rest.length :=
    (Forward.suffix Read.advance c.pass).length_le
  omega

theorem advancing_includeStepIn : Advancing (includeStepIn scope) := by
  intro done run
  refine .get (.halted fun stopped => ?_)
  split
  · exact .pure trivial
  rename_i hat
  have hpos : 0 < run.left := by
    have hpeek : run.cursor.peek = some .kwInclude := by
      rw [Bool.or_eq_true, not_or, Bool.not_eq_true', Bool.not_eq_false] at hat
      exact beq_iff_eq.mp hat.1
    exact Nat.zero_lt_of_lt (Cursor.length_pass hpeek)
  refine .caught (.lift (meets_includeDirective_shorter _)) (fun file run₁ hlt => .pure hlt)
    fun e run₁ honward => .report fun log => ?_
  exact .bind (meets_skipDeclaration hpos honward.suffix.length_le) fun _ run₂ hlt => .pure hlt

theorem advancing_includeStep : Advancing includeStep :=
  includeStep_eq_includeStepIn ▸ advancing_includeStepIn

/-- What comes after a token that must be there. -/
theorem meets_after_expect {kind : Kind} {next : Span → Recover α} {run : Run}
    (hnext : ∀ span, Regular (next span)) :
    Meets ((monadLift (Read.expect kind) : Recover Span) >>= next) run
      fun _ run' => run'.left < run.left := by
  refine .lifted (Q := fun _ c => c.rest.length < run.left) ?_ fun span c hlt => ?_
  · exact .ifAt (fun h => .get (.advance (.pure (Cursor.length_pass h)))) fun _ => .unexpected
  · exact (Meets.left_le _ _).mono fun _ _ hle => Nat.lt_of_le_of_lt hle hlt

theorem meets_itemIn_shorter (c : Cursor) (kind : Kind) (run : Run) :
    Meets (itemIn deep scope c kind) run fun _ run' => run'.left < run.left := by
  have hpackage : Meets (package deep) run fun _ run' => run'.left < run.left := by
    refine meets_after_expect fun _ => .after fun name => .after fun word => ?_
    cases word <;> infer_instance
  unfold itemIn
  split
  · exact .bind hpackage fun package run' hlt => .pure hlt
  split
  · exact .bind (meets_after_expect fun _ => inferInstance) fun model run' hlt => .pure hlt
  split
  · exact .throw
  split
  · exact .bind (meets_declaration_shorter run) fun decl run' hlt => .pure hlt
  · exact .throw

theorem meets_item_shorter (c : Cursor) (kind : Kind) (run : Run) :
    Meets (item deep c kind) run fun _ run' => run'.left < run.left :=
  item_eq_itemIn deep ▸ meets_itemIn_shorter c kind run

theorem advancing_itemStepIn : Advancing (itemStepIn deep scope) := by
  intro done run
  refine .get (.halted fun stopped => ?_)
  split
  · exact .pure trivial
  split
  · exact .pure trivial
  rename_i kind hpeek
  have hpos : 0 < run.left := Nat.zero_lt_of_lt (Cursor.length_pass hpeek)
  refine .caught (meets_itemIn_shorter _ kind run) (fun one run₁ hlt => ?_)
    fun e run₁ honward => .report fun log => ?_
  · exact .lifted (Forward.meets _ _) fun span c hle => .pure (Nat.lt_of_le_of_lt hle hlt)
  · refine .bind (meets_skipDeclaration hpos honward.suffix.length_le) fun _ run₂ hlt => ?_
    exact .lifted (Forward.meets _ _) fun span c hle => .pure (Nat.lt_of_le_of_lt hle hlt)

theorem advancing_itemStep : Advancing (itemStep deep) :=
  itemStep_eq_itemStepIn deep ▸ advancing_itemStepIn

end Recover

end Lustre
