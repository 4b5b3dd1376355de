import Lustre.Proofs.Reader.Ends
import Lustre.Proofs.Reader.Terminating

/-!
# Where the equations go on

An equation that fails is reported, and what is left of its statement is skipped: up to and
including the next semicolon, or up to a word where no equation goes on.  The skip has to pass a
token where the equation failed without passing any, or the equations would not get on.  So what
was skipped is all that was left of one statement (`EndsSkip`) unless this first token ends a
statement itself.  A word where no equation goes on is not passed, but a semicolon is: behind it
the skip takes up the next statement.
-/

namespace Lustre

/-! ## What is skipped -/

/-- Whether what is left of a broken statement ends with a token of this kind, or before it. -/
def Kind.endsStatement (kind : Kind) : Bool :=
  (Kind.kwTel :: .semi :: Recover.nodeStops).contains kind

namespace Cursor

variable (scope : Scope)

/-- The place behind what is skipped of a statement from `c` on. -/
def behindStatement (c : Cursor) : Cursor :=
  let stop := c.skipUntil fun kind => kind.endsStatement || (scope == .body && kind == .kwEnd)
  if stop.isAt .semi then stop.pass else stop

/-- The place where the equations go on if `c` is where one of them failed that began with `start`
tokens to come. -/
def resumed (c : Cursor) (start : Nat) : Cursor :=
  if c.isAt .kwTel = true then c.behindStatement scope
  else if c.rest.length = start then c.pass.behindStatement scope
  else c.behindStatement scope

/-- What was skipped on the way to `c` is all that was left of a statement: its semicolon was the
first to come and is the last token, or there was none before a token where no equation goes on. -/
def EndsSkip (skipped : List Token) (c : Cursor) : Prop :=
  (∃ inner close, skipped = inner ++ [close] ∧ close.kind = .semi ∧
    ∀ token ∈ inner, token.kind.endsStatement = false) ∨
  ((∀ token ∈ skipped, token.kind.endsStatement = false) ∧ ∀ kind, c.peek = some kind →
    kind = .kwTel ∨ kind ∈ Recover.nodeStops ∨ (scope = .body ∧ kind = .kwEnd))

/-- Skipping stops only where it should. -/
theorem stop_of_peek_skipUntil {c : Cursor} {stop : Kind → Bool} {kind : Kind}
    (h : (c.skipUntil stop).peek = some kind) : stop kind = true := by
  have hgo : ∀ (rest : List Token) (last : Nat),
      (skipUntil.go c stop last rest).peek = some kind → stop kind = true := by
    intro rest
    induction rest with
    | nil =>
        intro last h
        cases h
    | cons token rest ih =>
        intro last h
        unfold skipUntil.go at h
        split at h
        · rename_i hstop
          cases h
          exact hstop
        · exact ih _ h
  exact hgo c.rest c.last h

variable {scope} {c : Cursor}

theorem endsSkip_behindStatement :
    ∃ skipped, c.rest = skipped ++ (c.behindStatement scope).rest ∧
      EndsSkip scope skipped (c.behindStatement scope) := by
  obtain ⟨inner, hrest, hinner⟩ :=
    Past.skipUntil c fun kind => kind.endsStatement || (scope == .body && kind == .kwEnd)
  have hbare : ∀ token ∈ inner, token.kind.endsStatement = false := fun token hmem =>
    (Bool.or_eq_false_iff.mp (hinner token hmem)).1
  unfold behindStatement
  dsimp only
  split
  · rename_i hsemi
    have hpeek : (c.skipUntil fun kind =>
        kind.endsStatement || (scope == .body && kind == .kwEnd)).peek = some .semi := by
      simpa [isAt] using hsemi
    obtain ⟨passed, hpassed, close, rfl, hclose⟩ := Past.of_pass
      (P := fun passed => ∃ close, passed = [close] ∧ close.kind = .semi) hpeek
      fun close hclose => ⟨close, rfl, hclose⟩
    refine ⟨inner ++ [close], ?_, .inl ⟨inner, close, rfl, hclose, hbare⟩⟩
    rw [hrest, hpassed, List.append_assoc]
  · rename_i hsemi
    refine ⟨inner, hrest, .inr ⟨hbare, fun kind hpeek => ?_⟩⟩
    have hne : kind ≠ .semi := by
      rintro rfl
      exact hsemi (by simp [isAt, hpeek])
    have hstop := stop_of_peek_skipUntil hpeek
    simpa [Kind.endsStatement, hne, or_assoc] using hstop

/-- What is skipped from behind a token that ends no statement is skipped from that token on. -/
theorem EndsSkip.cons {token : Token} (htoken : token.kind.endsStatement = false)
    {skipped : List Token} (h : EndsSkip scope skipped c) :
    EndsSkip scope (token :: skipped) c := by
  have hcons : ∀ {tokens : List Token}, (∀ other ∈ tokens, other.kind.endsStatement = false) →
      ∀ other ∈ token :: tokens, other.kind.endsStatement = false := fun h =>
    List.forall_mem_cons.mpr ⟨htoken, h⟩
  rcases h with ⟨inner, close, rfl, hclose, hinner⟩ | ⟨hskipped, hstop⟩
  · exact .inl ⟨token :: inner, close, rfl, hclose, hcons hinner⟩
  · exact .inr ⟨hcons hskipped, hstop⟩

/-- The forced first step does not lead past the end of a statement unless it passes it. -/
theorem endsSkip_resumed {start : Nat}
    (hfirst : c.rest.length = start → ∃ kind, c.peek = some kind ∧ kind.endsStatement = false) :
    ∃ skipped, c.rest = skipped ++ (c.resumed scope start).rest ∧
      EndsSkip scope skipped (c.resumed scope start) := by
  unfold resumed
  split
  · exact endsSkip_behindStatement
  split
  · obtain ⟨kind, hpeek, hkind⟩ := hfirst ‹_›
    obtain ⟨passed, hpassed, token, rfl, htoken⟩ := Past.of_pass
      (P := fun passed => ∃ token, passed = [token] ∧ token.kind = kind) hpeek
      fun token htoken => ⟨token, rfl, htoken⟩
    obtain ⟨skipped, hrest, hends⟩ := @endsSkip_behindStatement scope c.pass
    exact ⟨token :: skipped, by rw [hpassed, hrest]; rfl, hends.cons (htoken ▸ hkind)⟩
  · exact endsSkip_behindStatement

end Cursor

/-! ## Rounds over equations -/

namespace Recover

variable {deep : Nested} {scope : Scope} {done : List (Located Equation)} {run : Run}

theorem leave_of_eq {start : Nat} (h : run.cursor.rest.length = start) :
    leave start run = .ok () ⟨run.cursor.pass, run.log⟩ := by
  change (if run.cursor.rest.length = start then (monadLift Read.advance : Recover Unit)
    else pure ()) run = _
  rw [if_pos h]
  rfl

theorem leave_of_ne {start : Nat} (h : run.cursor.rest.length ≠ start) :
    leave start run = .ok () run := by
  change (if run.cursor.rest.length = start then (monadLift Read.advance : Recover Unit)
    else pure ()) run = _
  rw [if_neg h]
  rfl

theorem skipStatement_run (start : Nat) (run : Run) :
    skipStatement scope start run = .ok () ⟨run.cursor.resumed scope start, run.log⟩ := by
  have hskip : ∀ c : Cursor, (do
      synchronize scope (.kwTel :: .semi :: nodeStops)
      let _ ← (Read.eat .semi : Read Bool) : Recover Unit) ⟨c, run.log⟩ =
        .ok () ⟨c.behindStatement scope, run.log⟩ := by
    intro c
    let stop := c.skipUntil fun kind => kind.endsStatement || (scope == .body && kind == .kwEnd)
    change ((monadLift (Read.eat .semi) : Recover Bool) >>= fun _ => pure ()) ⟨stop, run.log⟩ = _
    unfold Cursor.behindStatement
    by_cases hsemi : stop.peek = some .semi
    · have hat : stop.isAt .semi = true := by simp [Cursor.isAt, hsemi]
      rw [bind_of_ok (by rw [lift_run, Read.eat_of_peek hsemi])]
      dsimp only
      rw [if_pos hat]
      rfl
    · have hat : ¬stop.isAt .semi = true := by simp [Cursor.isAt, hsemi]
      rw [bind_of_ok (by rw [lift_run, Read.eat_of_ne hsemi])]
      dsimp only
      rw [if_neg hat]
      rfl
  change (if run.cursor.isAt .kwTel = true then _ else _ : Recover Unit) run = _
  unfold Cursor.resumed
  by_cases htel : run.cursor.isAt .kwTel = true
  · rw [if_pos htel, if_pos htel]
    exact hskip run.cursor
  · rw [if_neg htel, if_neg htel]
    by_cases hstart : run.cursor.rest.length = start
    · rw [if_pos hstart]
      exact (bind_of_ok (leave_of_eq hstart)).trans (hskip run.cursor.pass)
    · rw [if_neg hstart]
      exact (bind_of_ok (leave_of_ne hstart)).trans (hskip run.cursor)

/-- The equations end with their `tel`. -/
theorem equationStep_of_tel
    (hlive : run.log.halted = false) (hpeek : run.cursor.peek = some .kwTel) :
    equationStep deep scope done run = .ok (.done (done, none)) ⟨run.cursor.pass, run.log⟩ := by
  change (if run.log.halted = true then _ else _ : Recover _) run = _
  rw [if_neg (by simp [hlive])]
  exact (bind_of_ok (lift_ok (Read.eat_of_peek hpeek))).trans rfl

/-- An equation that is read is kept. -/
theorem equationStep_of_ok {kind : Kind} {equation : Located Equation} {c : Cursor}
    (hlive : run.log.halted = false) (hpeek : run.cursor.peek = some kind) (htel : kind ≠ .kwTel)
    (hstop : kind ∉ nodeStops) (hequation : Read.equation deep run.cursor = .ok equation c) :
    equationStep deep scope done run = .ok (.yield (done ++ [equation], none)) ⟨c, run.log⟩ := by
  have hne : run.cursor.peek ≠ some .kwTel := by simp [hpeek, htel]
  have hon : ¬run.cursor.peek.all nodeStops.contains = true := by simpa [hpeek] using hstop
  change (if run.log.halted = true then _ else _ : Recover _) run = _
  rw [if_neg (by simp [hlive])]
  refine (bind_of_ok (lift_ok (Read.eat_of_ne hne))).trans ?_
  rw [if_neg Bool.false_ne_true, if_neg hon]
  exact (bind_of_ok (attempt_ok (lift_ok hequation))).trans rfl

/-- An equation that fails is an error in its place, and the equations go on behind it. -/
theorem equationStep_of_error {kind : Kind} {e : Diagnostic} {c : Cursor}
    (hlive : run.log.halted = false) (hpeek : run.cursor.peek = some kind) (htel : kind ≠ .kwTel)
    (hstop : kind ∉ nodeStops) (hequation : Read.equation deep run.cursor = .error e c) :
    equationStep deep scope done run =
      .ok (.yield (done ++ [⟨.error,
          (c.resumed scope run.cursor.rest.length).spanFrom run.cursor.span.start⟩], none))
        ⟨c.resumed scope run.cursor.rest.length, run.log.record c e⟩ := by
  have hne : run.cursor.peek ≠ some .kwTel := by simp [hpeek, htel]
  have hon : ¬run.cursor.peek.all nodeStops.contains = true := by simpa [hpeek] using hstop
  change (if run.log.halted = true then _ else _ : Recover _) run = _
  rw [if_neg (by simp [hlive])]
  refine (bind_of_ok (lift_ok (Read.eat_of_ne hne))).trans ?_
  rw [if_neg Bool.false_ne_true, if_neg hon]
  refine (bind_of_ok (attempt_error (lift_error hequation))).trans ?_
  refine (bind_of_ok (report_run e ⟨c, run.log⟩)).trans ?_
  refine (bind_of_ok (skipStatement_run _ _)).trans ?_
  rfl

end Recover

/-! ## Where a broken equation leaves the others -/

/-- What is skipped after a failed equation is the rest of its own statement, wherever it failed, if
it did not begin with a semicolon: no equation behind the next semicolon is lost. -/
theorem recovery_ends_behind_semicolon (levels : Nat) (scope : Scope)
    (done : List (Located Equation)) (run : Run) (kind : Kind) (e : Diagnostic) (c : Cursor)
    (hlive : run.log.halted = false) (hpeek : run.cursor.peek = some kind) (htel : kind ≠ .kwTel)
    (hstop : kind ∉ Recover.nodeStops) (hsemi : kind ≠ .semi)
    (hequation : Read.equation (.upTo levels) run.cursor = .error e c) :
    ∃ skipped span next, Recover.equationStep (.upTo levels) scope done run =
        .ok (.yield (done ++ [⟨.error, span⟩], none)) next ∧
      next.log = run.log.record c e ∧ c.rest = skipped ++ next.cursor.rest ∧
      Cursor.EndsSkip scope skipped next.cursor := by
  obtain ⟨skipped, hrest, hends⟩ : ∃ skipped,
      c.rest = skipped ++ (c.resumed scope run.cursor.rest.length).rest ∧
        Cursor.EndsSkip scope skipped (c.resumed scope run.cursor.rest.length) := by
    refine Cursor.endsSkip_resumed fun hleft => ⟨kind, ?_, ?_⟩
    · -- nothing was passed, so the first token is the one where the equation began
      have hsuffix : c.rest <:+ run.cursor.rest := by
        have hfinal := Forward.suffix (Read.equation (.upTo levels)) run.cursor
        rwa [hequation] at hfinal
      rw [Cursor.peek, hsuffix.eq_of_length hleft]
      exact hpeek
    · simpa [Kind.endsStatement, htel, hsemi] using hstop
  exact ⟨skipped, _, _, Recover.equationStep_of_error hlive hpeek htel hstop hequation, rfl, hrest,
    hends⟩

/-- The equation for `y` fails at the `end`, with two brackets open, and that for `z` is next. -/
theorem broken_equation_keeps_next :
    let tokens := (Lexed.ofText "y = f(x[2 end + y; z = x; tel").tokens
    ∃ skipped span next, Recover.equationStep (.upTo maxNesting) .file [] (Run.start tokens 29) =
        .ok (.yield ([⟨.error, span⟩], none)) next ∧
      next.log.entries.length = 1 ∧ tokens.drop 7 = skipped ++ next.cursor.rest ∧
      Cursor.EndsSkip .file skipped next.cursor := by
  intro tokens
  obtain ⟨e, c, hequation⟩ : ∃ e c,
      Read.equation (.upTo maxNesting) (Run.start tokens 29).cursor = .error e c := by
    have hfails : (failure (Read.equation (.upTo maxNesting) (Run.start tokens 29).cursor)).isSome =
        true := by
      decide +kernel
    cases hread : Read.equation (.upTo maxNesting) (Run.start tokens 29).cursor with
    | ok equation c => rw [hread] at hfails; cases hfails
    | error e c => exact ⟨e, c, rfl⟩
  have hrest : (finalState (Read.equation (.upTo maxNesting) (Run.start tokens 29).cursor)).rest =
      tokens.drop 7 := by decide +kernel
  rw [hequation] at hrest
  have hlog : ((Run.start tokens 29).log.record c e).entries.length = 1 := rfl
  obtain ⟨skipped, span, next, hstep, hnext, hskipped, hends⟩ := recovery_ends_behind_semicolon
    maxNesting .file [] (Run.start tokens 29) .ident e c rfl (by decide +kernel) (by decide)
    (by decide) (by decide) hequation
  exact ⟨skipped, span, next, hstep, by rw [hnext, hlog], hrest.symm.trans hskipped, hends⟩

/-- A semicolon at which a statement begins is passed for its own sake, and the next statement is
skipped with it up to the next semicolon. -/
theorem equationStep_at_semicolon (levels : Nat) (scope : Scope) (done : List (Located Equation))
    (run : Run) (hlive : run.log.halted = false) (hpeek : run.cursor.peek = some .semi) :
    ∃ skipped span next, Recover.equationStep (.upTo levels) scope done run =
        .ok (.yield (done ++ [⟨.error, span⟩], none)) next ∧
      run.cursor.pass.rest = skipped ++ next.cursor.rest ∧
      Cursor.EndsSkip scope skipped next.cursor := by
  obtain ⟨e, hequation⟩ : ∃ e, Read.equation (.upTo levels) run.cursor = .error e run.cursor :=
    Recover.equation_of_ne hpeek (by decide) (by decide) (by decide)
  obtain ⟨skipped, hrest, hends⟩ :=
    @Cursor.endsSkip_behindStatement scope run.cursor.pass
  have hresumed : run.cursor.resumed scope run.cursor.rest.length =
      run.cursor.pass.behindStatement scope := by
    unfold Cursor.resumed
    rw [if_neg (by simp [Cursor.isAt, hpeek]), if_pos rfl]
  refine ⟨skipped, _, _, Recover.equationStep_of_error hlive hpeek (by decide)
    (by decide) hequation, ?_, ?_⟩
  · rw [hresumed]; exact hrest
  · rw [hresumed]; exact hends

/-- The statement for `y` is skipped too, up to a second semicolon, and the node has no equation for
it. -/
theorem lone_semicolon_loses_equation :
    let tokens := (Lexed.ofText "; y = x; tel").tokens
    let next := finalState (Recover.equationStep (.upTo maxNesting) .file [] (Run.start tokens 12))
    let parsed := parse "node f(x: int) returns (y: int); let ; y = x; tel"
    next.cursor.rest = tokens.drop 5 ∧
      ((tokens.take 5).map Token.kind).count .semi = 2 ∧
      parsed.program.nodes.map (fun decl => decl.equations.length) = [1] := by
  decide +kernel

end Lustre
