import Lustre.Proofs.Reader.Continuing
import Lustre.Proofs.Reader.Reaches
import Lustre.Parse

/-!
# Who passes the `end` of a body

In the body of a package or a model only the body itself should pass the `end`
that closes it.  The skipping after a failure stops there.  The forced first step
of a skip is harmless too, since what begins a declaration or an entry of a block
is no `end`; but a statement may begin with anything, so where nothing ends the
equations of a node, they take the `end` of the body for a broken statement.

So the `end`s that a declaration passes are those that stand in open equations,
after a `let` and before the `tel` or the head that ends them (`EndsOpen`).  An `end`
before which the equations behind every `let` have ended closes the body, whatever
else is wrong before it.
-/

namespace Lustre

variable {α β : Type}

/-! ## Tokens that may be passed -/

/-- Each `end` stands in open equations: after a `let` behind which they have not ended. -/
def EndsOpen (tokens : List Token) : Prop :=
  ∀ before word later, tokens = before ++ word :: later → word.kind = .kwEnd →
    ∃ outer opening inner, before = outer ++ opening :: inner ∧ opening.kind = .kwLet ∧
      endsEquations 0 inner = false

/-- The equations do not end before the last of some tokens. -/
def UpToTel (tokens : List Token) : Prop :=
  ∃ inner closing, tokens = inner ++ closing ∧ GoesOn 0 inner ∧ NoneOf .kwEnd closing

/-- Where no `end` is, none is out of place. -/
theorem NoneOf.endsOpen {tokens : List Token} (h : NoneOf .kwEnd tokens) : EndsOpen tokens := by
  rintro before word later rfl hword
  exact absurd hword (h word (by simp))

theorem EndsOpen.append {first last : List Token} (hfirst : EndsOpen first)
    (hlast : EndsOpen last) :
    EndsOpen (first ++ last) := by
  intro before word later heq hword
  obtain ⟨rest, hbefore, hrest⟩ | ⟨rest, hbefore, hrest⟩ := List.append_eq_append_iff.mp heq
  · -- the word is one of the last tokens
    obtain ⟨outer, opening, inner, rfl, hopening, hinner⟩ := hlast rest word later hrest hword
    exact ⟨first ++ outer, opening, inner, by rw [hbefore, List.append_assoc], hopening, hinner⟩
  · cases rest with
    | nil =>
        obtain ⟨outer, opening, inner, houter, -⟩ :=
          hlast [] word later (by simpa using hrest.symm) hword
        simp at houter
    | cons head rest =>
        obtain ⟨rfl, -⟩ := List.cons.inj hrest
        exact hfirst before word rest hbefore hword

/-- Where equations have not ended, they have not ended before. -/
theorem endsEquations_left {lists : Nat} {first last : List Token}
    (h : endsEquations lists (first ++ last) = false) : endsEquations lists first = false := by
  induction first generalizing lists with
  | nil => rfl
  | cons token first ih =>
      rw [List.cons_append, endsEquations, Bool.or_eq_false_iff] at h
      rw [endsEquations, h.1, ih h.2]
      rfl

/-- The equations of a node with their `let` hold only open `end`s. -/
theorem UpToTel.endsOpen {opening : Token} {tokens : List Token} (hopening : opening.kind = .kwLet)
    (h : UpToTel tokens) : EndsOpen (opening :: tokens) := by
  obtain ⟨inner, closing, rfl, hinner, hclosing⟩ := h
  have hequations : EndsOpen (opening :: inner) := by
    intro before word later heq hword
    cases before with
    | nil =>
        obtain ⟨rfl, -⟩ := List.cons.inj heq
        rw [hopening] at hword
        cases hword
    | cons head before =>
        obtain ⟨rfl, rfl⟩ := List.cons.inj heq
        exact ⟨[], opening, before, rfl, hopening, endsEquations_left hinner.endsEquations_eq⟩
  exact hequations.append hclosing.endsOpen

instance : Tolerant EndsOpen where
  nil := NoneOf.nil.endsOpen
  append hfirst hlast := hfirst.append hlast
  single h := (NoneOf.of_not_closing rfl h).endsOpen

theorem UpToTel.of_goesOn {tokens : List Token} (h : GoesOn 0 tokens) : UpToTel tokens :=
  ⟨tokens, [], by simp, h, fun _ hmem => absurd hmem List.not_mem_nil⟩

theorem UpToTel.after {first last : List Token} (hfirst : GoesOn 0 first) (h : UpToTel last) :
    UpToTel (first ++ last) := by
  obtain ⟨inner, closing, rfl, hinner, hclosing⟩ := h
  exact ⟨first ++ inner, closing, by rw [List.append_assoc], hfirst.append hinner, hclosing⟩

namespace Cursor.Past

variable {c : Cursor}

/-- A token that is not of some kind. -/
theorem pass_of_ne {kind : Kind} (h : c.peek ≠ some kind) : c.Past (NoneOf kind) c.pass := by
  cases hrest : c.rest with
  | nil =>
      refine ⟨[], ?_, fun _ hmem => absurd hmem List.not_mem_nil⟩
      rw [Cursor.rest_pass, hrest]
      rfl
  | cons token rest =>
      have hkind : c.peek = some token.kind := by rw [Cursor.peek, hrest]; rfl
      refine of_pass hkind fun other hother one hmem heq => h ?_
      rw [hkind, ← hother, ← heq, List.mem_singleton.mp hmem]

/-- Skipping stops where it should. -/
theorem skipUntil (c : Cursor) (stop : Kind → Bool) :
    c.Past (fun passed => ∀ token ∈ passed, stop token.kind = false) (c.skipUntil stop) := by
  have hgo : ∀ (rest : List Token) (last : Nat), ∃ passed,
      rest = passed ++ (Cursor.skipUntil.go c stop last rest).rest ∧
        ∀ token ∈ passed, stop token.kind = false := by
    intro rest
    induction rest with
    | nil => exact fun last => ⟨[], rfl, fun _ h => absurd h List.not_mem_nil⟩
    | cons token rest ih =>
        intro last
        unfold Cursor.skipUntil.go
        by_cases hstop : stop token.kind = true
        · rw [if_pos hstop]
          exact ⟨[], rfl, fun _ h => absurd h List.not_mem_nil⟩
        · rw [if_neg hstop]
          obtain ⟨passed, hrest, hpassed⟩ := ih token.span.stop
          refine ⟨token :: passed, congrArg (token :: ·) hrest, fun other hmem => ?_⟩
          rcases List.mem_cons.mp hmem with rfl | hmem
          · simpa using hstop
          · exact hpassed other hmem
  exact hgo c.rest c.last

end Cursor.Past

/-- From one run to another, the tokens passed are as `P` says. -/
def Run.Past (P : List Token → Prop) (run run' : Run) : Prop := run.cursor.Past P run'.cursor

namespace Run.Past

variable {P Q : List Token → Prop} {run run₁ run₂ : Run}

theorem mono (h : run.Past P run₁) (hPQ : ∀ passed, P passed → Q passed) : run.Past Q run₁ :=
  Cursor.Past.mono h hPQ

theorem append (h₁ : run.Past P run₁) (h₂ : run₁.Past Q run₂) :
    run.Past (fun passed => ∃ first last, passed = first ++ last ∧ P first ∧ Q last) run₂ :=
  Cursor.Past.append h₁ h₂

variable [Lenient P]

theorem refl (run : Run) : run.Past P run := Cursor.Past.refl run.cursor

theorem trans (h₁ : run.Past P run₁) (h₂ : run₁.Past P run₂) : run.Past P run₂ :=
  Cursor.Past.trans h₁ h₂

end Run.Past

/-- The readers of what is nested deeper keep to whatever tolerates all but closing words, and what
they pass does not end equations. -/
class Nested.SparesClosing (deep : Nested) : Prop where
  sparing : ∀ (P : List Token → Prop) [Tolerant P], deep.Sparing (.passing P)
  goesOn : deep.Sparing (.passing (GoesOn 0))

instance {deep : Nested} [hdeep : deep.SparesClosing] {P : List Token → Prop} [Tolerant P] :
    deep.Sparing (.passing P) := hdeep.sparing P

instance {deep : Nested} [hdeep : deep.SparesClosing] : deep.Sparing (.passing (GoesOn 0)) :=
  hdeep.goesOn

instance Nested.sparesClosing_upTo (levels : Nat) : (upTo levels).SparesClosing :=
  ⟨fun _ _ => sparing_upTo levels, goesOn_upTo levels 0⟩

namespace Recover

/-! ## Readers that keep within what may be passed -/

/-- Whatever a reader does, the tokens it passes are as `P` says. -/
class Keeps (P : List Token → Prop) (read : Recover α) : Prop where
  reaches : ∀ run : Run, Reaches read run (fun _ => run.Past P) (fun _ => run.Past P)

namespace Keeps

variable {P : List Token → Prop} [hP : Lenient P]

instance instPure (a : α) : Keeps P (pure a : Recover α) := ⟨fun run => .pure (.refl run)⟩

instance instThrow (d : Diagnostic) : Keeps P (throw d : Recover α) :=
  ⟨fun run => .throw (.refl run)⟩

instance instGet : Keeps P (get : Recover Run) := ⟨fun run => .ok (.refl run)⟩

instance instHalted : Keeps P halted := ⟨fun run => .ok (.refl run)⟩

instance instReport (d : Diagnostic) : Keeps P (report d) := ⟨fun run => .ok (.refl run)⟩

/-- A reader from farther on. -/
theorem later {start : Run} {read : Recover α} [h : Keeps P read] {run : Run}
    (hstart : start.Past P run) :
    Reaches read run (fun _ => start.Past P) (fun _ => start.Past P) :=
  (h.reaches run).mono (fun _ _ hpast => hstart.trans hpast) fun _ _ hpast => hstart.trans hpast

instance instBind (read : Recover α) (next : α → Recover β) [h : Keeps P read]
    [hnext : ∀ a, Keeps P (next a)] : Keeps P (read >>= next) where
  reaches run := (h.reaches run).bind fun _ _ hpast => later hpast

instance instIte (p : Prop) [Decidable p] (yes no : Recover α) [hyes : Keeps P yes]
    [hno : Keeps P no] : Keeps P (if p then yes else no) := by
  split
  · exact hyes
  · exact hno

instance instLift (read : Read α) [h : Sparing (.passing P) read] :
    Keeps P (monadLift read : Recover α) where
  reaches run := by
    have hspares := h.spares run.cursor
    unfold Spares at hspares
    unfold Reaches
    rw [lift_run]
    cases hread : read run.cursor <;> rw [hread] at hspares
    · exact .ok hspares
    · exact .error hspares

instance instAttempt (read : Recover α) [h : Keeps P read] : Keeps P (attempt read) where
  reaches run := by
    have hread := h.reaches run
    unfold Reaches at hread ⊢
    unfold attempt
    cases hresult : read run <;> rw [hresult] at hread <;> cases hread with
    | _ h => exact .ok h

instance instIterate (a : α) (step : α → Recover (ForInStep α)) [h : ∀ a, Keeps P (step a)] :
    Keeps P (iterate a step) where
  reaches run := by
    refine .get (Reaches.iterateUpTo (I := fun _ => run.Past P) (fun _ _ hpast => hpast)
      (fun a run' hpast => ?_) _ a run (.refl run))
    refine (later hpast).mono (fun next c hnext => ?_) fun _ _ hfail => hfail
    cases next with
    | done a => exact hnext
    | yield a => exact hnext

theorem after {read : Recover α} {next : α → Recover β} [Keeps P read]
    (hnext : ∀ a, Keeps P (next a)) : Keeps P (read >>= next) :=
  instBind read next

end Keeps

variable {deep : Nested} [hdeep : deep.SparesClosing]

/-! ## Recovery -/

theorem past_synchronize {scope : Scope} {stops : List Kind} {kind : Kind} (run : Run)
    (h : (stops.contains kind || (scope == .body && kind == .kwEnd)) = true) :
    Reaches (synchronize scope stops) run (fun _ => run.Past (NoneOf kind))
      (fun _ => run.Past (NoneOf kind)) := by
  refine .ok ((Cursor.Past.skipUntil run.cursor _).mono fun passed hpassed token hmem heq => ?_)
  have hstop := hpassed token hmem
  rw [heq, h] at hstop
  cases hstop

/-- In a body, skipping stops before an `end`. -/
instance keeps_synchronize (stops : List Kind) : Keeps EndsOpen (synchronize .body stops) where
  reaches run := (past_synchronize run (by simp)).mono
    (fun _ _ hpast => hpast.mono fun _ hnone => hnone.endsOpen)
    fun _ _ hpast => hpast.mono fun _ hnone => hnone.endsOpen

/-- A first step that is forced passes a token that may be passed. -/
theorem reaches_leave {P : List Token → Prop} [hP : Lenient P] {start : Nat} {run : Run}
    (h : run.cursor.rest.length = start → run.cursor.Past P run.cursor.pass) :
    Reaches (leave start) run (fun _ => run.Past P) (fun _ => run.Past P) := by
  change Reaches (if run.cursor.rest.length = start then (monadLift Read.advance : Recover Unit)
    else pure ()) run _ _
  by_cases hstart : run.cursor.rest.length = start
  · rw [if_pos hstart]
    exact .ok (h hstart)
  · rw [if_neg hstart]
    exact .pure (.refl run)

instance keeps_endMark {P : List Token → Prop} [Tolerant P] : Keeps P endMark := by
  unfold endMark
  infer_instance

instance keeps_endNode : Keeps EndsOpen endNode where
  reaches run := by
    refine .ifEaten (fun htel => ?_) fun _ => .pure (.refl run)
    refine Keeps.later (.of_pass htel fun token htoken => NoneOf.endsOpen fun other hmem => ?_)
    rw [List.mem_singleton.mp hmem, htoken]
    decide

instance keeps_skipNode : Keeps EndsOpen (skipNode .body) := by
  unfold skipNode
  infer_instance

instance keeps_skipHeader : Keeps EndsOpen (skipHeader .body) := by
  unfold skipHeader
  infer_instance

/-- A skip after a broken entry leaves the entry if that did not begin with an `end`. -/
theorem reaches_skipEntry {start : Nat} {run : Run}
    (h : run.cursor.rest.length = start → run.cursor.Past EndsOpen run.cursor.pass) :
    Reaches (skipEntry .body start) run (fun _ => run.Past EndsOpen)
      (fun _ => run.Past EndsOpen) :=
  .bind (reaches_leave h) fun _ _ hpast => Keeps.later hpast

/-- A token that does not end equations is passed without ending them. -/
theorem past_pass_of_goesOn {c : Cursor}
    (h : ∀ kind, c.peek = some kind → kind.endsEquations 0 = false) : c.Past (GoesOn 0) c.pass := by
  cases hpeek : c.peek with
  | none =>
      have hrest : c.rest = [] := by
        rw [Cursor.peek, Option.map_eq_none_iff, List.head?_eq_none_iff] at hpeek
        exact hpeek
      exact ⟨[], by rw [Cursor.rest_pass, hrest]; rfl, .nil⟩
  | some kind => exact .of_pass hpeek fun token htoken => .outside (htoken ▸ h kind hpeek)

/-- A skip after a broken statement does not end the equations, if the statement did not begin where
they end. -/
theorem reaches_skipStatement {scope : Scope} {start : Nat} (run : Run)
    (h : run.cursor.rest.length = start → run.cursor.Past (GoesOn 0) run.cursor.pass) :
    Reaches (skipStatement scope start) run (fun _ => run.Past (GoesOn 0))
      (fun _ => run.Past (GoesOn 0)) := by
  have hskip : ∀ run' : Run, run.Past (GoesOn 0) run' → Reaches (do
      synchronize scope (.kwTel :: .semi :: nodeStops)
      let _ ← (Read.eat .semi : Read Bool) : Recover Unit) run'
      (fun _ => run.Past (GoesOn 0)) (fun _ => run.Past (GoesOn 0)) := by
    intro run' hpast
    have hsync : Reaches (synchronize scope (.kwTel :: .semi :: nodeStops)) run'
        (fun _ => run'.Past (GoesOn 0)) (fun _ => run'.Past (GoesOn 0)) := by
      refine .ok ((Cursor.Past.skipUntil run'.cursor _).mono fun passed hpassed => ?_)
      -- all that ends equations outside of lists is among the stops
      refine .outside_all fun token hmem => ?_
      have hstop := (Bool.or_eq_false_iff.mp (hpassed token hmem)).1
      rw [List.contains_cons, List.contains_cons, Bool.or_eq_false_iff,
        Bool.or_eq_false_iff] at hstop
      rw [Kind.endsEquations, hstop.1, hstop.2.2]
      rfl
    refine (hsync.mono (fun _ _ h => hpast.trans h) fun _ _ h => hpast.trans h).bind
      fun _ _ hpast' => Keeps.later hpast'
  refine .ifAt (fun _ => hskip run (.refl run)) fun _ => ?_
  exact .bind (reaches_leave h) fun _ run' hpast => hskip run' hpast

/-! ## Equations -/

theorem reaches_equationStep {scope : Scope} (done : List (Located Equation)) (run : Run) :
    Reaches (equationStep deep scope done) run
      (StepKeeps (fun _ => run.Past (GoesOn 0)) fun _ => run.Past UpToTel)
      (fun _ => run.Past UpToTel) := by
  have hrefl : run.Past UpToTel run :=
    (Run.Past.refl (P := GoesOn 0) run).mono fun _ => .of_goesOn
  refine .get (.halted (.ite (fun _ => .pure hrefl) fun _ => ?_))
  refine .ifEaten (fun htel => .pure ?_) fun htel => .ite (fun _ => .pure hrefl) fun hstop => ?_
  · -- the equations end with their `tel`
    refine .of_pass htel fun token htoken => ⟨[], [token], rfl, .nil, ?_⟩
    intro other hmem
    rw [List.mem_singleton.mp hmem, htoken]
    decide
  · refine .caught (Keeps.reaches (P := GoesOn 0) run) (fun equation run₁ hpast => .pure hpast)
      fun e run₁ hpast => .report fun log => ?_
    have hskip : Reaches (skipStatement scope run.cursor.rest.length) ⟨run₁.cursor, log⟩
        (fun _ => run.Past (GoesOn 0)) (fun _ => run.Past UpToTel) := by
      refine (reaches_skipStatement ⟨run₁.cursor, log⟩ fun hleft => ?_).mono
        (fun _ _ h => hpast.trans h) fun _ _ h => (hpast.trans h).mono fun _ => .of_goesOn
      -- nothing was passed, so the statement began with a word that does not end the equations
      have hsame : run₁.cursor.rest = run.cursor.rest := hpast.suffix.eq_of_length hleft
      refine past_pass_of_goesOn fun kind hpeek => ?_
      have hfirst : run.cursor.peek = some kind := by rwa [Cursor.peek, ← hsame]
      have hne : kind ≠ .kwTel := fun heq => htel (heq ▸ hfirst)
      rw [hfirst, Option.all_some, Bool.not_eq_true] at hstop
      rw [Kind.endsEquations, beq_false_of_ne hne, hstop]
      rfl
    refine hskip.bind fun _ run₂ hpast₂ => ?_
    exact .bind (Keeps.later hpast₂ |>.mono (fun _ _ h => h) fun _ _ h =>
      h.mono fun _ => .of_goesOn)
      fun span run₃ hpast₃ => .pure hpast₃

theorem reaches_equations {scope : Scope} (run : Run) :
    Reaches (equations deep scope) run (fun _ => run.Past UpToTel) (fun _ => run.Past UpToTel) := by
  refine .get (Reaches.iterateUpTo (I := fun _ => run.Past (GoesOn 0))
    (fun _ _ h => h.mono fun _ => .of_goesOn) (fun read run' hpast => ?_) _ _ run (.refl run))
  have hlater : ∀ c, run'.Past UpToTel c → run.Past UpToTel c := by
    intro c hpast'
    refine (hpast.append hpast').mono fun passed h => ?_
    obtain ⟨first, last, rfl, hfirst, hlast⟩ := h
    exact hlast.after hfirst
  refine (reaches_equationStep read.1 run').mono (fun next c hnext => ?_) fun _ => hlater
  cases next with
  | done read => exact hlater c hnext
  | yield read => exact hpast.trans hnext

omit hdeep in
/-- A statement begins with `assert`, a name or a parenthesis. -/
theorem equation_of_ne {c : Cursor} {kind : Kind} (hpeek : c.peek = some kind)
    (hassert : kind ≠ .kwAssert) (hident : kind ≠ .ident) (hparen : kind ≠ .lParen) :
    ∃ e, Read.equation deep c = .error e c := by
  have hne : ∀ other, kind ≠ other → c.peek ≠ some other := by
    intro other hkind heq
    exact hkind (Option.some.inj (hpeek.symm.trans heq))
  have hident : Read.ident c = .error (c.missing .identifier) c :=
    bind_of_ok (Read.take?_of_ne (hne .ident hident))
  have hlist : Read.leftList deep c = .error (c.missing .identifier) c :=
    (bind_of_ok (Read.eat_of_ne (hne .lParen hparen))).trans
      (bind_of_error (bind_of_error (bind_of_error hident)))
  have hstatement : Read.statement deep c = .error (c.missing .identifier) c :=
    (bind_of_ok (Read.eat_of_ne (hne .kwAssert hassert))).trans (bind_of_error hlist)
  have hlocated : Read.located (Read.statement deep) c = .error (c.missing .identifier) c := by
    change (Read.statement deep >>= _) c = _
    exact bind_of_error hstatement
  exact ⟨_, bind_of_error hlocated⟩

omit hdeep in
/-- Where the equations of a node come to an `end`, they take it for a broken statement and leave it
behind them, also in a body. -/
theorem equationStep_passes_end (scope : Scope) (done : List (Located Equation)) {run : Run}
    (hpeek : run.cursor.peek = some .kwEnd) (hlive : run.log.halted = false) :
    ∃ equations run', equationStep deep scope done run = .ok (.yield (equations, none)) run' ∧
      run'.cursor.rest <:+ run.cursor.rest.tail := by
  -- what is left behind the `end` can only get shorter
  have hforward : ∀ {γ : Type} (read : Recover γ) [Regular read] (run' : Run),
      run'.cursor.rest <:+ run.cursor.rest.tail →
      Reaches read run' (fun _ run₁ => run₁.cursor.rest <:+ run.cursor.rest.tail) fun _ _ => True :=
    fun read _ run' hsuffix => .of_meets ((Meets.onward read run').mono fun _ _ h =>
      h.suffix.trans hsuffix)
  have hreaches : Reaches (equationStep deep scope done) run (fun next run' =>
      (∃ equations, next = .yield (equations, none)) ∧ run'.cursor.rest <:+ run.cursor.rest.tail)
      fun _ _ => True := by
    -- no equation begins with `end`, so its reader fails without passing anything
    obtain ⟨e, hequation⟩ : ∃ e, Read.equation deep run.cursor = .error e run.cursor :=
      equation_of_ne hpeek (by decide) (by decide) (by decide)
    refine .get (.halted (.ite (fun hhalted => absurd hhalted (by simp [hlive])) fun _ => ?_))
    refine .ifEaten (fun htel => ?_) fun _ => .ite (fun hstop => ?_) fun _ => ?_
    · cases hpeek.symm.trans htel
    · rw [hpeek] at hstop
      cases hstop
    refine .caught (Q := fun _ _ => False) (E := fun _ run' => run' = run) ?_
      (fun _ _ h => absurd h not_false) fun e' run' hsame => .report fun log => ?_
    · exact .lift_error hequation rfl
    · subst hsame
      -- where nothing was passed, recovery leaves the token, which is the `end`
      have hleave : Reaches (leave run'.cursor.rest.length) ⟨run'.cursor, log⟩
          (fun _ run₁ => run₁.cursor.rest <:+ run'.cursor.rest.tail) fun _ _ => True := by
        change Reaches (if run'.cursor.rest.length = run'.cursor.rest.length then
          (monadLift Read.advance : Recover Unit) else pure ()) ⟨run'.cursor, log⟩ _ _
        rw [if_pos rfl]
        exact .ok ⟨[], Cursor.rest_pass _⟩
      have hskip : Reaches (skipStatement scope run'.cursor.rest.length) ⟨run'.cursor, log⟩
          (fun _ run₁ => run₁.cursor.rest <:+ run'.cursor.rest.tail) fun _ _ => True := by
        refine .ifAt (fun htel => ?_) fun _ => hleave.bind fun _ run₁ hsuffix =>
          hforward _ run₁ hsuffix
        cases hpeek.symm.trans htel
      refine hskip.bind fun _ run₂ hsuffix => ?_
      exact (hforward _ run₂ hsuffix).bind fun span run₃ hsuffix₃ => .pure ⟨⟨_, rfl⟩, hsuffix₃⟩
  obtain ⟨next, run', hok⟩ := (total_equationStep deep scope done).total run
  unfold Reaches at hreaches
  rw [hok] at hreaches
  cases hreaches with
  | ok h =>
      obtain ⟨⟨equations, rfl⟩, hsuffix⟩ := h
      exact ⟨equations, run', hok, hsuffix⟩

/-! ## Blocks -/

/-- A block goes on only before a name, so no skip is forced past an `end`. -/
theorem reaches_blockStep {follows : List Kind} {entry : Read α} [Sparing (.passing EndsOpen) entry]
    (entries : List α) (run : Run) (hnext : entries = [] ∨ run.cursor.peek ≠ some .kwEnd) :
    Reaches (blockStep .body follows entry entries) run
      (StepKeeps (fun entries run' => run.Past EndsOpen run' ∧
        (entries = [] ∨ run'.cursor.peek ≠ some .kwEnd))
        fun _ => run.Past EndsOpen)
      (fun _ => run.Past EndsOpen) := by
  have hend : ∀ (entries : List α) (run' : Run), run.Past EndsOpen run' → Reaches (do
      let c := (← get).cursor
      if (← halted) || !(c.isAt .ident && (c.peekAt 1).any follows.contains) then
        return .done entries
      else return .yield entries : Recover (ForInStep (List α))) run'
      (StepKeeps (fun entries run' => run.Past EndsOpen run' ∧
        (entries = [] ∨ run'.cursor.peek ≠ some .kwEnd))
        fun _ => run.Past EndsOpen) (fun _ => run.Past EndsOpen) := by
    intro entries run' hpast
    refine .get (.halted (.ite (fun _ => .pure hpast) fun hgoes => .pure ⟨hpast, .inr ?_⟩))
    have hat : run'.cursor.peek = some .ident := by
      rw [Bool.or_eq_true, not_or, Bool.not_eq_true', Bool.not_eq_false, Bool.and_eq_true] at hgoes
      exact beq_iff_eq.mp hgoes.2.1
    rw [hat]
    decide
  refine .get (.caught (Keeps.reaches (P := EndsOpen) run) (fun one run₁ hpast => hend _ run₁ hpast)
    fun e run₁ hpast => .get (.ite (fun _ => .throw hpast) fun hmoved => .report fun log => ?_))
  refine .bind ((reaches_skipEntry fun hleft => ?_).mono (fun _ _ h => hpast.trans h)
    fun _ _ h => hpast.trans h) fun _ run₂ hpast₂ => hend entries run₂ hpast₂
  -- nothing was passed, so this is not the first entry and the cursor is still before a name
  have hsame : run₁.cursor.rest = run.cursor.rest := hpast.suffix.eq_of_length hleft
  have hsome : entries ≠ [] := by
    rintro rfl
    exact hmoved ⟨hleft, rfl⟩
  have hne : run₁.cursor.peek ≠ some .kwEnd := by
    rw [Cursor.peek, hsame]
    exact hnext.resolve_left hsome
  exact (Cursor.Past.pass_of_ne hne).mono fun _ => NoneOf.endsOpen

instance keeps_block {follows : List Kind} {entry : Read α} [Sparing (.passing EndsOpen) entry] :
    Keeps EndsOpen (block .body follows entry) where
  reaches run := by
    refine .get (Reaches.iterateUpTo (I := fun entries run' => run.Past EndsOpen run' ∧
      (entries = [] ∨ run'.cursor.peek ≠ some .kwEnd)) (fun _ _ h => h.1)
        (fun entries run' h => ?_) _ _ run
      ⟨.refl run, .inl rfl⟩)
    refine (reaches_blockStep entries run' h.2).mono (fun next c hnext => ?_) fun _ _ hfail =>
      h.1.trans hfail
    cases next with
    | done entries => exact h.1.trans hnext
    | yield entries => exact ⟨h.1.trans hnext.1, hnext.2⟩

instance keeps_typeBlock : Keeps EndsOpen (typeBlock deep .body) := by
  unfold typeBlock
  infer_instance

instance keeps_constBlock : Keeps EndsOpen (constBlock deep .body) := by
  unfold constBlock
  infer_instance

/-! ## Nodes -/

/-- After a token whose kind is known to be harmless. -/
theorem reaches_after_advance {P : List Token → Prop} [hP : Tolerant P] {next : Unit → Recover α}
    [Keeps P (next ())] {run : Run} {kind : Kind} (hpeek : run.cursor.peek = some kind)
    (hkind : kind.isClosing = false) :
    Reaches ((monadLift Read.advance : Recover Unit) >>= next) run (fun _ => run.Past P)
      (fun _ => run.Past P) := by
  have hpass : run.Past P ⟨run.cursor.pass, run.log⟩ :=
    .of_pass hpeek fun _ htoken => hP.single (htoken ▸ hkind)
  change Reaches (next ()) ⟨run.cursor.pass, run.log⟩ _ _
  exact Keeps.later hpass

theorem reaches_localBlock {run : Run}
    (h : run.cursor.peek = some .kwVar ∨ run.cursor.peek = some .kwConst) :
    Reaches (localBlock deep .body) run (fun _ => run.Past EndsOpen)
      (fun _ => run.Past EndsOpen) := by
  refine .ifEaten (fun hvar => ?_) fun hvar => reaches_after_advance (h.resolve_left hvar) rfl
  exact Keeps.later (.of_pass hvar fun _ htoken =>
    (NoneOf.of_not_closing rfl (htoken ▸ rfl)).endsOpen)

/-- What is read together with its place gets as far. -/
theorem reaches_located {P : List Token → Prop} [Tolerant P] {read : Recover α} {run : Run}
    (h : Reaches read run (fun _ => run.Past P) (fun _ => run.Past P)) :
    Reaches (located read) run (fun _ => run.Past P) (fun _ => run.Past P) :=
  .here fun _ => h.bind fun _ _ hpast => Keeps.later hpast

instance keeps_localStep (blocks : List (Located LocalBlock)) :
    Keeps EndsOpen (localStep deep .body blocks) where
  reaches run := by
    have hblock : run.cursor.peek = some .kwVar ∨ run.cursor.peek = some .kwConst →
        Reaches (do return ForInStep.yield (blocks ++ [← located (localBlock deep .body)])) run
          (fun _ => run.Past EndsOpen) (fun _ => run.Past EndsOpen) := fun h =>
      (reaches_located (reaches_localBlock h)).bind fun block run' hpast => .pure hpast
    refine .peek ?_
    split
    · exact hblock (.inl ‹_›)
    · exact hblock (.inr ‹_›)
    · exact .pure (.refl run)

instance keeps_localBlocks : Keeps EndsOpen (localBlocks deep .body) := by
  unfold localBlocks
  infer_instance

instance sparing_synonymTarget {J : Course} [J.Tolerant] [deep.Sparing J] :
    Sparing J (synonymTarget deep) := by
  refine .after fun target => ?_
  cases target <;> infer_instance

instance keeps_nodeHeader (head : NodeHead) : Keeps EndsOpen (nodeHeader deep head) := by
  refine .after fun params => ?_
  cases params with
  | error e => infer_instance
  | ok params =>
      refine .after fun profile => ?_
      cases profile with
      | error e => infer_instance
      | ok profile =>
          refine .after fun body => ?_
          cases body <;> infer_instance

/-- The equations of a node are the only place where an `end` is passed. -/
instance keepsEnds_nodeDefinition (decl : NodeDecl) :
    Keeps EndsOpen (nodeDefinition deep .body decl) where
  reaches run := by
    -- up to the `let`, where the equations begin
    have hopen : Reaches (do
        let _ ← (Read.eat .semi : Read Bool)
        let locals ← localBlocks deep .body
        let _ ← (Read.expect .kwLet : Read Span)
        return locals : Recover (List (Located LocalBlock))) run
        (fun _ => run.Past fun passed => ∃ before opening, passed = before ++ [opening] ∧
          EndsOpen before ∧ opening.kind = .kwLet)
        (fun _ => run.Past EndsOpen) := by
      refine (Keeps.reaches run).bind fun _ run₁ hpast₁ => ?_
      refine (Keeps.later hpast₁).bind fun locals run₂ hpast₂ => ?_
      refine .expect (fun hlet span => .pure ?_) hpast₂
      have hopening : run₂.Past (fun last => ∃ opening, last = [opening] ∧ opening.kind = .kwLet)
          ⟨run₂.cursor.pass, run₂.log⟩ := .of_pass hlet fun opening hkind => ⟨opening, rfl, hkind⟩
      refine (hpast₂.append hopening).mono ?_
      rintro passed ⟨before, last, rfl, hbefore, opening, rfl, hopening⟩
      exact ⟨before, opening, rfl, hbefore, hopening⟩
    refine hopen.caught (fun locals run₁ hlet => ?_) fun e run₁ hpast => .pure hpast
    have hequations : Reaches (equations deep .body) run₁ (fun _ => run.Past EndsOpen)
        (fun _ => run.Past EndsOpen) := by
      have hlater : ∀ c, run₁.Past UpToTel c → run.Past EndsOpen c := by
        intro c hpast
        refine (hlet.append hpast).mono ?_
        rintro passed ⟨first, last, rfl, ⟨before, opening, rfl, hbefore, hopening⟩, hlast⟩
        rw [List.append_assoc]
        exact hbefore.append (hlast.endsOpen hopening)
      exact (reaches_equations run₁).mono (fun _ => hlater) fun _ => hlater
    exact hequations.bind fun read run₂ hpast₂ => Keeps.later hpast₂

instance keepsEnds_nodeTail (decl : NodeDecl) : Keeps EndsOpen (nodeTail deep .body decl) := by
  refine .after fun run => ?_
  dsimp only
  split <;> infer_instance

instance keeps_closeNode (read : Partial NodeDecl) : Keeps EndsOpen (closeNode .body read) := by
  obtain ⟨decl, failure⟩ := read
  cases failure <;> unfold closeNode <;> infer_instance

instance keeps_openNode (read : Partial NodeDecl) : Keeps EndsOpen (openNode deep .body read) := by
  obtain ⟨decl, failure⟩ := read
  cases failure <;> unfold openNode <;> infer_instance

instance keeps_node : Keeps EndsOpen (node deep .body) := by
  unfold node
  infer_instance

instance sparing_externalNode {J : Course} [J.Tolerant] [deep.Sparing J] :
    Sparing J (externalNode deep) := by
  unfold externalNode
  infer_instance

/-! ## Declarations -/

instance keeps_declaration : Keeps EndsOpen (declaration deep .body) where
  reaches run := by
    refine reaches_located (.get ?_)
    dsimp only
    split
    · exact .ite (fun _ => Keeps.reaches run) fun _ => Keeps.reaches run
    · exact Keeps.reaches run
    · exact Keeps.reaches run
    · exact Keeps.reaches run
    · exact reaches_after_advance ‹_› rfl
    · exact reaches_after_advance ‹_› rfl
    · exact .throw (.refl run)

end Recover

/-! ## Bodies -/

/-- Behind every `let` among some tokens the equations end: there is a `tel`, or outside all lists
of static arguments the head of a declaration. -/
def LetsClosed : List Token → Prop
  | [] => True
  | token :: tokens =>
      (token.kind = .kwLet → endsEquations 0 tokens = true) ∧ LetsClosed tokens

namespace LetsClosed

instance decidable : (tokens : List Token) → Decidable (LetsClosed tokens)
  | [] => .isTrue trivial
  | token :: tokens =>
      have := decidable tokens
      inferInstanceAs (Decidable
        ((token.kind = .kwLet → endsEquations 0 tokens = true) ∧ LetsClosed tokens))

theorem suffix {first last : List Token} (h : LetsClosed (first ++ last)) : LetsClosed last := by
  induction first with
  | nil => exact h
  | cons token first ih => exact ih h.2

/-- The equations behind a `let` end. -/
theorem ends {outer inner : List Token} {opening : Token}
    (h : LetsClosed (outer ++ opening :: inner)) (hopening : opening.kind = .kwLet) :
    endsEquations 0 inner = true :=
  h.suffix.1 hopening

end LetsClosed

/-- The `end` at the front of `tail` is the next one to come, and no `let` before it is open. -/
def Run.Awaits (tail : List Token) (run : Run) : Prop :=
  ∃ before, run.cursor.rest = before ++ tail ∧ NoneOf .kwEnd before ∧ LetsClosed before

namespace Run.Awaits

variable {run run' : Run} {close : Token} {after : List Token}

/-- It is not passed as an `end` in open equations, for there are none. -/
theorem past (h : run.Awaits (close :: after)) (hclose : close.kind = .kwEnd)
    (hpast : run.Past EndsOpen run') : run'.Awaits (close :: after) := by
  obtain ⟨before, hrest, hnone, hlets⟩ := h
  obtain ⟨passed, hpassed, hopen⟩ := hpast
  have hsplit : passed ++ run'.cursor.rest = before ++ close :: after := hpassed.symm.trans hrest
  have hlater : ∀ first last, before = first ++ last → run'.cursor.rest = last ++ close :: after →
      run'.Awaits (close :: after) := by
    rintro first last rfl heq
    exact ⟨last, heq, fun token hmem => hnone token (List.mem_append_right _ hmem), hlets.suffix⟩
  obtain ⟨rest, hbefore, hrest⟩ | ⟨rest, hbefore, hrest⟩ := List.append_eq_append_iff.mp hsplit
  · exact hlater passed rest hbefore hrest
  · cases rest with
    | nil => exact hlater before [] (by simp) (by simpa using hrest.symm)
    | cons head rest =>
        -- the `end` would have been passed, in equations that a `let` before it opens
        obtain ⟨rfl, -⟩ := List.cons.inj hrest
        obtain ⟨outer, opening, inner, rfl, hopening, hinner⟩ :=
          hopen before close rest hbefore hclose
        rw [hlets.ends hopening] at hinner
        cases hinner

theorem rest_of_peek (h : run.Awaits (close :: after)) (hpeek : run.cursor.peek = some .kwEnd) :
    run.cursor.rest = close :: after := by
  obtain ⟨before, hrest, hnone, -⟩ := h
  cases before with
  | nil => exact hrest
  | cons token before =>
      refine absurd ?_ (hnone token List.mem_cons_self)
      rw [Cursor.peek, hrest] at hpeek
      exact Option.some.inj hpeek

theorem peek_ne_none (h : run.Awaits (close :: after)) : run.cursor.peek ≠ none := by
  obtain ⟨before, hrest, -⟩ := h
  rw [Cursor.peek, hrest]
  cases before <;> simp

end Run.Awaits

/-- How a body ends that awaits an `end` with `after` behind it: there, or before it, where the run
is halted or another package begins. -/
def Recover.BodyEnds (close : Token) (after : List Token)
    (read : Partial (List (Located Declaration))) (run : Run) : Prop :=
  (read.2 = none ∧ run.cursor.rest = after) ∨
    (run.Awaits (close :: after) ∧
      (run.log.halted = true ∨ ∃ e, read.2 = some e ∧ e.cause = .nestedPackage))

namespace Recover

variable {deep : Nested} [hdeep : deep.SparesClosing] {close : Token} {after : List Token}

theorem reaches_bodyStep (hclose : close.kind = .kwEnd) (done : List (Located Declaration))
    {run : Run} (h : run.Awaits (close :: after)) :
    Reaches (bodyStep deep done) run
      (StepKeeps (fun _ => Run.Awaits (close :: after)) (BodyEnds close after))
      (fun _ => Run.Awaits (close :: after)) := by
  refine .get (.halted (.ite (fun hhalted => .pure (.inr ⟨h, .inl hhalted⟩)) fun _ => ?_))
  refine .ifEaten (fun hpeek => .pure (.inl ⟨rfl, ?_⟩)) fun hne => ?_
  · change run.cursor.pass.rest = after
    rw [Cursor.rest_pass, h.rest_of_peek hpeek]
    rfl
  split
  · exact absurd ‹_› h.peek_ne_none
  rename_i kind hkind
  refine .ite (fun _ => .pure (.inr ⟨h, .inr ⟨_, rfl, rfl⟩⟩)) fun _ => ?_
  have hdeclaration : Keeps EndsOpen (if declarationStarts.contains kind = true then
      declaration deep .body else throw (run.cursor.missing .declarationOrEnd)) := inferInstance
  refine .caught (hdeclaration.reaches run) (fun decl run₁ hpast => .pure (h.past hclose hpast))
    fun e run₁ hpast => .report fun log => ?_
  -- the skip begins at a token that is no `end`, or behind the one where the declaration began
  have hleave : Reaches (leave run.cursor.rest.length) ⟨run₁.cursor, log⟩
      (fun _ => run.Past EndsOpen) (fun _ => run.Past EndsOpen) := by
    refine (reaches_leave fun hleft => ?_).mono (fun _ _ h => hpast.trans h)
      fun _ _ h => hpast.trans h
    have hsame : run₁.cursor.rest = run.cursor.rest :=
      (Cursor.Past.suffix hpast).eq_of_length hleft
    have hpeek : run₁.cursor.peek ≠ some .kwEnd := by rwa [Cursor.peek, hsame]
    exact (Cursor.Past.pass_of_ne hpeek).mono fun _ => NoneOf.endsOpen
  have hskip : Reaches (skipDeclaration .body run.cursor.rest.length) ⟨run₁.cursor, log⟩
      (fun _ => run.Past EndsOpen) (fun _ => run.Past EndsOpen) :=
    hleave.bind fun _ _ => Keeps.later
  refine (hskip.mono (fun _ _ h => h) fun _ _ => h.past hclose).bind fun _ run₂ hpast₂ => ?_
  refine Reaches.bind ((Keeps.later hpast₂).mono (fun _ _ h => h) fun _ _ => h.past hclose) ?_
  exact fun span run₃ hpast₃ => .pure (h.past hclose hpast₃)

instance total_bodyDeclarations (deep : Nested) : Total (bodyDeclarations deep) := by
  refine Total.iterate fun read => .after fun run => .after fun stopped => .choose inferInstance ?_
  refine .after fun found => .choose inferInstance ?_
  split
  · infer_instance
  · refine .choose inferInstance (.after fun result => ?_)
    cases result <;> infer_instance

end Recover

/-- A body ends with the first `end` to come if before that the equations behind every `let` have
ended, with a `tel` or with the head of another declaration, whatever else is wrong with the
declarations: no recovery passes this `end`.  Only where the run is halted or another package begins
does the body break off before it. -/
theorem body_ends_at_closed_end
    (levels : Nat) (run : Run) (before after : List Token) (close : Token)
    (hrest : run.cursor.rest = before ++ close :: after) (hclose : close.kind = .kwEnd)
    (hnone : ∀ token ∈ before, token.kind ≠ .kwEnd) (hlets : LetsClosed before) :
    ∃ read run', Recover.bodyDeclarations (.upTo levels) run = .ok read run' ∧
      ((read.2 = none ∧ run'.cursor.rest = after) ∨
        ((close :: after) <:+ run'.cursor.rest ∧
          (run'.log.halted = true ∨ ∃ e, read.2 = some e ∧ e.cause = .nestedPackage))) := by
  have hbody : Reaches (Recover.bodyDeclarations (.upTo levels)) run (Recover.BodyEnds close after)
      (fun _ => Run.Awaits (close :: after)) :=
    .iterate_of_advancing Recover.advancing_bodyStep
      (fun read run' h => Recover.reaches_bodyStep hclose read.1 h) ⟨before, hrest, hnone, hlets⟩
  obtain ⟨read, run', hok⟩ := (Recover.total_bodyDeclarations (.upTo levels)).total run
  refine ⟨read, run', hok, ?_⟩
  unfold Reaches at hbody
  rw [hok] at hbody
  cases hbody with
  | ok hends =>
      refine hends.imp_right fun hbefore => ⟨?_, hbefore.2⟩
      obtain ⟨later, hlater, -⟩ := hbefore.1
      exact ⟨later, hlater.symm⟩

/-- A broken head, a broken equation and a `type` without a name do not keep the body from its
`end`, nor does a missing `tel` where the next node ends the equations. -/
theorem broken_declarations_keep_end :
    let text :=
      "node f; let y = ; tel type node g() let b = h<<type int>>(a); node k; end const c = 1;"
    let tokens := (Lexed.ofText text).tokens
    ∃ read run', Recover.bodyDeclarations (.upTo maxNesting) (Run.start tokens 86) = .ok read run' ∧
      read.2 = none ∧ run'.cursor.rest = tokens.drop 29 := by
  intro text tokens
  obtain ⟨read, run', hok, hends⟩ := body_ends_at_closed_end maxNesting (Run.start tokens 86)
    (tokens.take 28) (tokens.drop 29) ⟨.kwEnd, "end", ⟨70, 73, 0⟩⟩ (by decide +kernel) rfl
    (by decide +kernel) (by decide +kernel)
  have hleft : (finalState (Recover.bodyDeclarations (.upTo maxNesting)
      (Run.start tokens 86))).cursor.rest.length = 5 := by decide +kernel
  rw [hok] at hleft
  obtain hends | ⟨hsuffix, -⟩ := hends
  · exact ⟨read, run', hok, hends⟩
  · have hbehind : (tokens.drop 29).length = 5 := by decide +kernel
    have hlength : (tokens.drop 29).length + 1 ≤ run'.cursor.rest.length := hsuffix.length_le
    exact absurd (hbehind ▸ hleft ▸ hlength) (by decide)

/-- Without the `tel`, the equations take the `end`: the package takes up the constant behind it,
and its own `end` is found missing at the end of the text. -/
theorem missing_tel_loses_end :
    let parsed := parse
      "package p body node f(x: int) returns (y: int); let y = x; end const c = 1;"
    parsed.program.items.length = 1 ∧
      parsed.diagnostics.getLast?.map Diagnostic.cause = some (.unexpected [.kwEnd] none) := by
  decide +kernel

end Lustre
