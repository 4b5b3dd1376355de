import Lustre.Proofs.Reader.Fenced
import Lustre.Proofs.Reader.Resuming

/-!
# Statements one by one

The body of a node is a list of statements, each with its semicolon.  As long as nothing in a
statement can end one or enclose a semicolon, each of them is read as if it were the only one
(`Statement.alone`): if it is accepted then, the body has this equation in its place, and if not,
an error and one more diagnostic, and the next statement is read from its first word.

## Strategy

A statement alone stands at the beginning of its body, and in another body behind other words.  What
comes behind its semicolon does not matter by `Read.equation_before_fence`, and what comes before
its first word does not by `Read.equation_behind`: the reader is compared with itself at a third
place, from which both cursors are moved alike.  If the equation fails, then it fails before its own
semicolon, and recovery passes just that.
-/

namespace Lustre

open Movable LawfulMovable

/-! ## Statements -/

/-- Whether a word neither ends a statement nor opens anything in which a semicolon can stand. -/
def Kind.isBare (kind : Kind) : Bool := kind.isPlain && !kind.endsStatement

/-- Some words and the semicolon behind them. -/
structure Statement where
  words : List Token
  close : Token
  nonempty : words ≠ []
  bare : ∀ token ∈ words, token.kind.isBare = true
  closed : close.kind = .semi

namespace Statement

variable (s : Statement)

def tokens : List Token := s.words ++ [s.close]

/-- From the first word up to and including the semicolon. -/
def span : Span := ⟨(s.words.head s.nonempty).span.start, s.close.span.stop, 0⟩

/-- A body in which there is nothing else. -/
def body : List Token := s.tokens ++ [⟨.kwTel, "tel", .point s.close.span.stop⟩]

/-- The equation of a body with only one, if nothing is wrong with the body. -/
def only : Partial (List (Located Equation)) → List Diagnostic → Option (Located Equation)
  | ([equation], none), [] => some equation
  | _, _ => none

/-- The equation in a body of which this is the only statement, if it is accepted there. -/
def alone : Option (Located Equation) :=
  match Recover.equations (.upTo maxNesting) .file (.start s.body s.close.span.stop) with
  | .ok read run => only read run.log.entries
  | .error _ _ => none

/-- Whether the statement is refused even there. -/
def isBroken : Bool := s.alone.isNone

/-- What a body has in place of the statement. -/
def equation : Located Equation := s.alone.getD ⟨.error, s.span⟩

instance : Movable Statement where
  move f s :=
    { words := move f s.words
      close := move f s.close
      nonempty := by
        have hnonempty := s.nonempty
        simpa [move_list] using hnonempty
      bare := by
        intro token hmem
        obtain ⟨original, horiginal, rfl⟩ := List.mem_map.mp hmem
        exact s.bare original horiginal
      closed := s.closed }

variable {s}

theorem isPlain_of_mem {token : Token} (h : token ∈ s.words) : token.kind.isPlain = true :=
  (Bool.and_eq_true_iff.mp (s.bare token h)).1

theorem not_endsStatement_of_mem {token : Token} (h : token ∈ s.words) :
    token.kind.endsStatement = false := by
  simpa using (Bool.and_eq_true_iff.mp (s.bare token h)).2

end Statement

/-! ## Where recovery goes on -/

namespace Cursor

variable {c : Cursor} {words later : List Token} {close : Token}

/-- Skipping passes all that does not stop it. -/
theorem skipUntil_of_rest (stop : Kind → Bool) (hrest : c.rest = words ++ close :: later)
    (hwords : ∀ token ∈ words, stop token.kind = false) (hclose : stop close.kind = true) :
    ∃ last, c.skipUntil stop = ⟨close :: later, last, c.size⟩ := by
  have hgo : ∀ last, ∃ last', skipUntil.go c stop last (words ++ close :: later) =
      ⟨close :: later, last', c.size⟩ := by
    clear hrest
    induction words with
    | nil => exact fun last => ⟨last, if_pos hclose⟩
    | cons token words ih =>
        intro last
        obtain ⟨last', hlast⟩ := ih (fun other hmem => hwords other (List.mem_cons_of_mem _ hmem)) _
        exact ⟨last', (if_neg (by simp [hwords token List.mem_cons_self])).trans hlast⟩
  rw [skipUntil, hrest]
  exact hgo c.last

variable (hwords : ∀ token ∈ words, token.kind.endsStatement = false) (hclose : close.kind = .semi)
include hwords hclose

/-- What is left of a statement is skipped with its semicolon. -/
theorem behindStatement_of_rest (hrest : c.rest = words ++ close :: later) :
    c.behindStatement .file = ⟨later, close.span.stop, c.size⟩ := by
  obtain ⟨last, hstop⟩ := skipUntil_of_rest
    (fun kind => kind.endsStatement || (Scope.file == .body && kind == .kwEnd)) hrest
    (fun token hmem => by simpa using hwords token hmem) (by rw [hclose]; rfl)
  unfold behindStatement
  dsimp only
  rw [hstop, if_pos (by simp [isAt, peek, hclose])]
  rfl

/-- Also where the skip has to pass a token, as long as it is not the semicolon. -/
theorem resumed_of_rest {start : Nat} (hrest : c.rest = words ++ close :: later)
    (hfirst : c.rest.length = start → words ≠ []) :
    c.resumed .file start = ⟨later, close.span.stop, c.size⟩ := by
  unfold resumed
  split
  · exact behindStatement_of_rest hwords hclose hrest
  split
  · obtain ⟨token, words, rfl⟩ := List.exists_cons_of_ne_nil (hfirst ‹_›)
    have hpass : c.pass = ⟨words ++ close :: later, token.span.stop, c.size⟩ := by
      rw [pass, hrest]
      rfl
    rw [hpass]
    exact behindStatement_of_rest (fun other hmem => hwords other (List.mem_cons_of_mem _ hmem))
      hclose rfl
  · exact behindStatement_of_rest hwords hclose hrest

end Cursor

/-! ## What comes before a statement -/

namespace Token.Ordered

variable {start stop : Nat} {first later : List Token} {close : Token}

theorem behind (h : Ordered start stop (first ++ close :: later)) :
    Ordered close.span.stop stop later := by
  induction first generalizing start with
  | nil => exact h.2.2.2
  | cons token first ih => exact ih h.2.2.2

/-- What stands behind a token may be other tokens in order. -/
theorem replace (h : Ordered start stop (first ++ close :: later)) {stop' : Nat}
    {later' : List Token}
    (hlater : Ordered close.span.stop stop' later') :
    Ordered start stop' (first ++ close :: later') := by
  induction first generalizing start with
  | nil => exact ⟨h.1, h.2.1, h.2.2.1, hlater⟩
  | cons token first ih => exact ⟨h.1, h.2.1, h.2.2.1, ih h.2.2.2⟩

end Token.Ordered

/-- Tokens behind an offset can be moved back by it and there again. -/
theorem Token.Ordered.move_back {start stop : Nat} {tokens : List Token}
    (h : Token.Ordered start stop tokens) :
    move (· + start) (move (· - start) tokens) = tokens := by
  have hsame : ∀ token ∈ tokens, move (· + start) (move (· - start) token) = token := by
    intro token hmem
    obtain ⟨hstart, hstop⟩ := h.start_le token hmem
    obtain ⟨kind, text, first, last, file⟩ := token
    change (⟨kind, text, first - start + start, last - start + start, file⟩ : Token) = _
    rw [Nat.sub_add_cancel hstart, Nat.sub_add_cancel (Nat.le_trans hstart hstop)]
  rw [move_list, move_list, List.map_map]
  exact (List.map_congr_left hsame).trans (List.map_id _)

/-- The same tokens farther on, and nothing behind them. -/
def RunContext.farther (offset : Nat) : RunContext :=
  .alone (· + offset) (fun _ _ h => Nat.add_le_add_right h _) (Run.start [] 0).log
    (Run.start [] 0).log rfl rfl rfl

namespace Read

/-- Two readings of the same tokens, from cursors with different tokens before them. -/
inductive Alike {α : Type} :
    EStateM.Result Diagnostic Cursor α → EStateM.Result Diagnostic Cursor α → Prop
  | ok (a : α) {c d : Cursor} (hrest : d.rest = c.rest) : Alike (.ok a c) (.ok a d)
  | error (e : Diagnostic) {c d : Cursor} : Alike (.error e c) (.error e d)

/-- An equation is read alike whatever comes before it. -/
theorem equation_behind (levels : Nat) {tokens : List Token} {last size : Nat}
    (h : Token.Ordered last size tokens) :
    Alike (equation (.upTo levels) ⟨tokens, last, size⟩)
      (equation (.upTo levels) ⟨tokens, 0, size⟩) := by
  let M := (RunContext.farther last).toContext
  -- a third place, from which the tokens are moved to both of the others
  let origin : Cursor := ⟨move (· - last) tokens, 0, size - last⟩
  have hbeside : ∀ before ≤ last, M.Beside origin ⟨tokens, before, size⟩ := by
    intro before hbefore
    refine ⟨?_, fun start => ?_, fun _ => ?_, fun _ _ _ _ hsame => Nat.add_right_cancel hsame⟩
    · exact (h.move_back.symm.trans (List.append_nil _).symm)
    · change max before (start + last) = max 0 start + last
      omega
    · exact (Nat.sub_add_cancel h.le).symm
  have hthere := Context.carries_equation (Context.levels_upTo levels) origin _
    (hbeside last (Nat.le_refl _))
  have hstart := Context.carries_equation (Context.levels_upTo levels) origin _
    (hbeside 0 (Nat.zero_le _))
  unfold Context.Reads Link.Alike at hthere hstart
  cases hread : equation (.upTo levels) origin with
  | ok found c =>
      rw [hread] at hthere hstart
      obtain ⟨found₁, c₁, hread₁, hfound₁, hc₁⟩ := hthere (.inl rfl)
      obtain ⟨found₂, c₂, hread₂, hfound₂, hc₂⟩ := hstart (.inl rfl)
      cases hfound₁
      cases hfound₂
      rw [hread₁, hread₂]
      exact .ok _ (hc₂.rest.trans hc₁.rest.symm)
  | error e c =>
      rw [hread] at hthere hstart
      obtain ⟨c₁, hread₁, -⟩ := hthere (.inl rfl)
      obtain ⟨c₂, hread₂, -⟩ := hstart (.inl rfl)
      rw [hread₁, hread₂]
      exact .error _

end Read

/-! ## The loop over equations -/

namespace Recover

variable {deep : Nested} [deep.Advances] {scope : Scope} {done more : List (Located Equation)}
  {run run' : Run} {read : Partial (List (Located Equation))}

variable (deep scope done) in
omit [deep.Advances] in
/-- The equations behind those that are `done`. -/
def moreEquations : Recover (Partial (List (Located Equation))) :=
  iterate (done, none) fun read => equationStep deep scope read.1

instance regular_moreEquations : Regular (moreEquations deep scope done) := by
  unfold moreEquations
  infer_instance

omit [deep.Advances] in
theorem moreEquations_of_done (h : equationStep deep scope done run = .ok (.done read) run') :
    moreEquations deep scope done run = .ok read run' :=
  iterate_done h

omit [deep.Advances] in
theorem equationStep_of_halted (h : run.log.halted = true) :
    equationStep deep scope done run = .ok (.done (done, none)) run := by
  change (if run.log.halted = true then _ else _ : Recover _) run = _
  rw [if_pos h]
  rfl

theorem moreEquations_of_yield
    (h : equationStep deep scope done run = .ok (.yield (more, none)) run') :
    moreEquations deep scope done run = moreEquations deep scope more run' :=
  iterate_yield advancing_equationStep h

end Recover

/-! ## A statement alone -/

namespace Statement

variable {s : Statement}

/-- The next word begins an equation, or what should be one. -/
theorem peek_of_rest {c : Cursor} {later : List Token} (hrest : c.rest = s.tokens ++ later) :
    ∃ kind, c.peek = some kind ∧ c.span.start = s.span.start ∧ kind ≠ .kwTel ∧
      kind ∉ Recover.nodeStops := by
  obtain ⟨words, close, hnonempty, hbare, hclosed⟩ := s
  obtain ⟨token, words, rfl⟩ := List.exists_cons_of_ne_nil hnonempty
  have hends : token.kind.endsStatement = false := by
    simpa using (Bool.and_eq_true_iff.mp (hbare token List.mem_cons_self)).2
  have hstop : token.kind ≠ .kwTel ∧ token.kind ≠ .semi ∧ token.kind ∉ Recover.nodeStops := by
    simpa [Kind.endsStatement] using hends
  refine ⟨token.kind, ?_, ?_, hstop.1, hstop.2.2⟩
  · rw [Cursor.peek, hrest]
    rfl
  · rw [Cursor.span, hrest]
    rfl

theorem only_of_reported {read : Partial (List (Located Equation))} {reported : List Diagnostic}
    (h : reported ≠ []) : only read reported = none := by
  unfold only
  split
  · exact absurd rfl h
  · rfl

theorem only_move (f : Nat → Nat) (read : Partial (List (Located Equation)))
    (reported : List Diagnostic) :
    only (move f read) (move f reported) = move f (only read reported) := by
  obtain ⟨equations, failure⟩ := read
  rcases equations with _ | ⟨equation, _ | ⟨other, equations⟩⟩ <;> cases failure <;>
    cases reported <;> rfl

theorem alone_of_start_ok {found : Located Equation} {c : Cursor}
    (hread : Read.equation (.upTo maxNesting) ⟨s.body, 0, s.close.span.stop⟩ = .ok found c)
    (htel : c.peek = some .kwTel) : s.alone = some found := by
  obtain ⟨kind, hpeek, -, hkind, hstop⟩ :=
    peek_of_rest (s := s) (c := ⟨s.body, 0, s.close.span.stop⟩) rfl
  have hfirst : Recover.equationStep (.upTo maxNesting) .file [] (.start s.body s.close.span.stop) =
      .ok (.yield ([found], none)) ⟨c, (Run.start s.body s.close.span.stop).log⟩ :=
    Recover.equationStep_of_ok rfl hpeek hkind hstop hread
  have hlast : Recover.equationStep (.upTo maxNesting) .file [found]
      ⟨c, (Run.start s.body s.close.span.stop).log⟩ =
        .ok (.done ([found], none)) ⟨c.pass, (Run.start s.body s.close.span.stop).log⟩ :=
    Recover.equationStep_of_tel rfl htel
  have hbody : Recover.equations (.upTo maxNesting) .file (.start s.body s.close.span.stop) =
      .ok ([found], none) ⟨c.pass, (Run.start s.body s.close.span.stop).log⟩ :=
    (Recover.moreEquations_of_yield hfirst).trans (Recover.moreEquations_of_done hlast)
  rw [alone, hbody]
  rfl

theorem alone_of_start_error {e : Diagnostic} {c : Cursor}
    (hread : Read.equation (.upTo maxNesting) ⟨s.body, 0, s.close.span.stop⟩ = .error e c) :
    s.alone = none := by
  obtain ⟨kind, hpeek, -, hkind, hstop⟩ :=
    peek_of_rest (s := s) (c := ⟨s.body, 0, s.close.span.stop⟩) rfl
  have hbody : Recover.equations (.upTo maxNesting) .file (.start s.body s.close.span.stop) = _ :=
    Recover.moreEquations_of_yield (Recover.equationStep_of_error rfl hpeek hkind hstop hread)
  -- what was reported stays in the log
  have hreported : (finalState (Recover.equations (.upTo maxNesting) .file
      (.start s.body s.close.span.stop))).log.entries ≠ [] := by
    rw [hbody]
    intro hempty
    exact Log.record_ne_nil rfl _ _ ((Regular.extended inferInstance _).entries_eq_nil hempty)
  unfold alone
  split
  · rename_i read run hread
    rw [hread] at hreported
    exact only_of_reported hreported
  · rfl

/-- It does not matter what comes before a body. -/
theorem alone_of_ok {last : Nat} (hordered : Token.Ordered last s.close.span.stop s.body)
    {found : Located Equation} {c : Cursor}
    (hread : Read.equation (.upTo maxNesting) ⟨s.body, last, s.close.span.stop⟩ = .ok found c)
    (htel : c.peek = some .kwTel) : s.alone = some found := by
  have halike := Read.equation_behind maxNesting hordered
  rw [hread] at halike
  cases hstart : Read.equation (.upTo maxNesting) ⟨s.body, 0, s.close.span.stop⟩ with
  | ok found' d =>
      rw [hstart] at halike
      cases halike with
      | ok _ hsame =>
          apply alone_of_start_ok hstart
          rw [Cursor.peek, hsame]
          exact htel
  | error e d =>
      rw [hstart] at halike
      cases halike

theorem alone_of_error {last : Nat} (hordered : Token.Ordered last s.close.span.stop s.body)
    {e : Diagnostic} {c : Cursor}
    (hread : Read.equation (.upTo maxNesting) ⟨s.body, last, s.close.span.stop⟩ = .error e c) :
    s.alone = none := by
  have halike := Read.equation_behind maxNesting hordered
  rw [hread] at halike
  cases hstart : Read.equation (.upTo maxNesting) ⟨s.body, 0, s.close.span.stop⟩ with
  | ok found d =>
      rw [hstart] at halike
      cases halike
  | error e' d => exact alone_of_start_error hstart

/-- A statement that stands farther on is read alike. -/
theorem alone_move (s : Statement) (offset : Nat) :
    (move (· + offset) s).alone = move (· + offset) s.alone := by
  let M := RunContext.farther offset
  have hbody : (move (· + offset) s).body = move (· + offset) s.body := by
    change (move (· + offset) s.words ++ [move (· + offset) s.close]) ++ _ =
      move _ ((s.words ++ [s.close]) ++ _)
    rw [move_append, move_append]
    rfl
  -- nothing stands behind the statement, so all places are moved alike
  have hrun : M.BesideRun (.start s.body s.close.span.stop)
      (.start (move (· + offset) s).body (move (· + offset) s).close.span.stop) := by
    refine ⟨⟨?_, fun start => ?_, fun _ => rfl, fun _ _ _ _ hsame => Nat.add_right_cancel hsame⟩,
      .start rfl rfl⟩
    · exact hbody.trans (List.append_nil _).symm
    · change max 0 (start + offset) = max 0 start + offset
      omega
  have hfollows : M.Runs (fun read _ => read.2 = none) M.Moved
      (Recover.equations (.upTo maxNesting) .file)
      (Recover.equations (.upTo maxNesting) .file) _ _ :=
    RunContext.follows_equations (Context.levels_upTo (M := M.toContext) maxNesting) _ _ hrun
  unfold RunContext.Runs Link.Alike at hfollows
  rw [alone, alone]
  cases hread : Recover.equations (.upTo maxNesting) .file (.start s.body s.close.span.stop) with
  | error e run =>
      rw [hread] at hfollows
      obtain ⟨run', hread', -⟩ := hfollows (.inl rfl)
      rw [hread']
      rfl
  | ok read run =>
      rw [hread] at hfollows
      obtain ⟨_, run', hread', rfl, -, found, stopped, hlog, hlog', -⟩ := hfollows (.inl rfl)
      rw [hread']
      dsimp only
      rw [hlog, hlog']
      exact only_move _ read found

/-! ## A statement among others -/

theorem rest_words {c : Cursor} {later : List Token} (hrest : c.rest = s.tokens ++ later) :
    c.rest = s.words ++ s.close :: later := by
  rw [hrest, tokens, List.append_assoc]
  rfl

theorem body_eq (s : Statement) :
    s.body = s.words ++ s.close :: [⟨.kwTel, "tel", .point s.close.span.stop⟩] := by
  rw [body, tokens, List.append_assoc]
  rfl

theorem ordered_body {c : Cursor} {later : List Token} (hrest : c.rest = s.tokens ++ later)
    (hc : c.InOrder) : Token.Ordered c.last s.close.span.stop s.body := by
  have hinOrder : Token.Ordered c.last c.size (s.words ++ s.close :: later) := rest_words hrest ▸ hc
  rw [body_eq]
  exact hinOrder.replace ⟨Nat.le_refl _, Nat.le_refl _, rfl, Nat.le_refl _⟩

/-- A statement ends behind its beginning. -/
theorem start_le {c : Cursor} {later : List Token} (hrest : c.rest = s.tokens ++ later)
    (hc : c.InOrder) : s.span.start ≤ s.close.span.stop := by
  have hordered := ordered_body hrest hc
  have hmem : s.words.head s.nonempty ∈ s.body :=
    List.mem_append_left _ (List.mem_append_left _ (List.head_mem _))
  exact Nat.le_trans (hordered.start_le _ hmem).2 (hordered.stop_le _ hmem)

/-- Before other words, and behind others, a statement is read as if it were alone: with its
semicolon if it is accepted, and if not, then it fails before its semicolon. -/
theorem equation_at {c : Cursor} {later : List Token} (hrest : c.rest = s.tokens ++ later)
    (hc : c.InOrder) :
    (∃ found, s.alone = some found ∧ Read.equation (.upTo maxNesting) c =
      .ok found ⟨later, s.close.span.stop, c.size⟩) ∨
    s.alone = none ∧ ∃ e c' words, Read.equation (.upTo maxNesting) c = .error e c' ∧
      c'.rest = words ++ s.close :: later ∧ words <:+ s.words ∧ c'.size = c.size := by
  let F : Fence := ⟨s.close, s.closed, later, [⟨.kwTel, "tel", .point s.close.span.stop⟩]⟩
  have hwords := rest_words hrest
  have hordered := ordered_body hrest hc
  have hbeside : F.Beside c ⟨s.body, c.last, s.close.span.stop⟩ :=
    ⟨⟨s.words, hwords, s.body_eq, fun _ => isPlain_of_mem⟩, rfl⟩
  -- behind the same words, what follows the semicolon is exchanged for a `tel`
  rcases Read.equation_before_fence (.upTo maxNesting) hbeside with
    ⟨found, hread, hread'⟩ | ⟨e, c', d', hread, hread', h'⟩
  · exact .inl ⟨found, alone_of_ok hordered hread' rfl, hread⟩
  · obtain ⟨⟨words, hrest', -, -⟩, -⟩ := h'
    have honward : c.Onward c' := by
      have hforward : Forward (Read.equation (.upTo maxNesting)) := inferInstance
      have hfinal := hforward.onward c
      rwa [hread] at hfinal
    have hsuffix := honward.suffix
    rw [hrest', hwords] at hsuffix
    exact .inr ⟨alone_of_error hordered hread', e, c', words, hread, hrest',
      List.suffix_append_self_iff.mp hsuffix, honward.size⟩

end Statement

/-! ## The log -/

namespace Log

/-- So many diagnostics more, and nothing else. -/
structure Gains (log : Log) (count : Nat) (log' : Log) : Prop where
  entries : ∃ reported, reported.length = count ∧ log'.entries = log.entries ++ reported
  unchanged : count = 0 → log' = log
  room : count ≠ 0 → log'.entries.length < log'.cap
  cap : log'.cap = log.cap
  truncated : log'.truncated = log.truncated
  halted : log'.halted = false

/-- The cap was met, and the log says so. -/
def Full (log : Log) : Prop :=
  log.halted = true ∧ ∃ span, log.entries.getLast? = some ⟨.tooManyErrors, span⟩

variable {log log₁ log₂ : Log}

theorem Gains.none (h : log.halted = false) : log.Gains 0 log :=
  ⟨⟨[], rfl, (List.append_nil _).symm⟩, fun _ => rfl, fun hne => absurd rfl hne, rfl, rfl, h⟩

theorem Gains.trans {m n : Nat} (h₁ : log.Gains m log₁) (h₂ : log₁.Gains n log₂) :
    log.Gains (m + n) log₂ := by
  obtain ⟨⟨first, hfirst, hentries₁⟩, hunchanged₁, hroom₁, hcap₁, htruncated₁, -⟩ := h₁
  obtain ⟨⟨second, hsecond, hentries₂⟩, hunchanged₂, hroom₂, hcap₂, htruncated₂, hhalted₂⟩ := h₂
  refine ⟨⟨first ++ second, by simp [hfirst, hsecond], by rw [hentries₂, hentries₁,
    List.append_assoc]⟩,
    fun hzero => ?_, fun hne => ?_, hcap₂.trans hcap₁, htruncated₂.trans htruncated₁, hhalted₂⟩
  · rw [hunchanged₂ (by omega), hunchanged₁ (by omega)]
  · by_cases hn : n = 0
    · rw [hunchanged₂ hn]
      exact hroom₁ (by omega)
    · exact hroom₂ hn

/-- A report in front of a token is kept as it is, unless it is one too many. -/
theorem gains_record (hlive : log.halted = false) {c : Cursor} (hc : c.rest ≠ []) (d : Diagnostic) :
    log.Gains 1 (log.record c d) ∨ (log.record c d).Full := by
  have hend : c.atEnd = false := by simpa [Cursor.atEnd] using hc
  unfold record
  rw [if_neg (by simp [hlive]), if_neg (by simp [hend])]
  dsimp only
  split
  · exact .inr ⟨rfl, c.span, by rw [List.getLast?_concat]⟩
  · rename_i hroom
    exact .inl ⟨⟨[d], rfl, rfl⟩, fun hne => absurd hne Nat.one_ne_zero, fun _ =>
      Nat.lt_of_not_le hroom, rfl, rfl, hlive⟩

end Log

/-! ## All statements -/

namespace Statement

variable {s : Statement}

/-- One round of the loop over equations reads a statement, or meets the cap in it. -/
theorem equationStep_at {run : Run} {later : List Token} (done : List (Located Equation))
    (hlive : run.log.halted = false) (hrest : run.cursor.rest = s.tokens ++ later)
    (horder : run.cursor.InOrder) :
    ∃ equation log, Recover.equationStep (.upTo maxNesting) .file done run =
        .ok (.yield (done ++ [equation], none)) ⟨⟨later, s.close.span.stop, run.cursor.size⟩, log⟩ ∧
      (equation = s.equation ∧ run.log.Gains (if s.isBroken = true then 1 else 0) log ∨
        log.Full) := by
  obtain ⟨kind, hpeek, hstart, htel, hstop⟩ := peek_of_rest hrest
  rcases equation_at hrest horder with ⟨found, halone, hread⟩ | ⟨halone, e, c, words,
    hread, hc, hwords, hsize⟩
  · refine ⟨found, run.log, Recover.equationStep_of_ok hlive hpeek htel hstop hread, .inl ⟨?_, ?_⟩⟩
    · rw [equation, halone]
      rfl
    · rw [isBroken, halone]
      exact .none hlive
  · have hends : ∀ token ∈ words, token.kind.endsStatement = false := fun token hmem =>
      not_endsStatement_of_mem (hwords.mem hmem)
    have hresumed : c.resumed .file run.cursor.rest.length =
        ⟨later, s.close.span.stop, c.size⟩ := by
      refine Cursor.resumed_of_rest hends s.closed hc fun hlength hnil => s.nonempty ?_
      -- where nothing was passed, all words are left
      rw [hc, rest_words hrest, hnil, List.length_append] at hlength
      exact List.eq_nil_of_length_eq_zero (by simpa using hlength)
    refine ⟨⟨.error, s.span⟩, run.log.record c e, ?_, ?_⟩
    · rw [Recover.equationStep_of_error hlive hpeek htel hstop hread, hresumed, hsize, hstart,
        Cursor.spanFrom, Nat.max_eq_left (start_le hrest horder)]
      rfl
    · rcases Log.gains_record hlive (c := c) (by simp [hc]) e with hgains | hfull
      · refine .inl ⟨?_, ?_⟩
        · rw [equation, halone]
          rfl
        · rw [isBroken, halone]
          exact hgains
      · exact .inr hfull

/-- The loop over equations ends behind the `tel`, with the equation of each statement and a
diagnostic for each that is broken, unless it meets the cap on the way. -/
theorem moreEquations_at (statements : List Statement) {tel : Token} {later : List Token}
    (htel : tel.kind = .kwTel) (run : Run) (done : List (Located Equation))
    (hlive : run.log.halted = false) (horder : run.cursor.InOrder)
    (hrest : run.cursor.rest = statements.flatMap tokens ++ tel :: later) :
    (∃ log, Recover.moreEquations (.upTo maxNesting) .file done run =
        .ok (done ++ statements.map equation, none) ⟨⟨later, tel.span.stop, run.cursor.size⟩, log⟩ ∧
      run.log.Gains (statements.countP isBroken) log) ∨
    ∃ read run', Recover.moreEquations (.upTo maxNesting) .file done run = .ok read run' ∧
    run'.log.Full := by
  induction statements generalizing run done with
  | nil =>
      have hpeek : run.cursor.peek = some .kwTel := by simp [Cursor.peek, hrest, htel]
      have hpass : run.cursor.pass = ⟨later, tel.span.stop, run.cursor.size⟩ := by
        rw [Cursor.pass, hrest]
        rfl
      refine .inl ⟨run.log, ?_, .none hlive⟩
      rw [Recover.moreEquations_of_done (Recover.equationStep_of_tel hlive hpeek),
        hpass, List.map_nil, List.append_nil]
  | cons s statements ih =>
      rw [List.flatMap_cons, List.append_assoc] at hrest
      obtain ⟨found, log, hstep, hround⟩ := equationStep_at done hlive hrest horder
      rw [Recover.moreEquations_of_yield hstep]
      rcases hround with ⟨rfl, hgains⟩ | hfull
      · have hbehind : Token.Ordered s.close.span.stop run.cursor.size
            (statements.flatMap tokens ++ tel :: later) := by
          have hinOrder : Token.Ordered run.cursor.last run.cursor.size
            (s.words ++ s.close :: (statements.flatMap tokens ++ tel :: later)) :=
            rest_words hrest ▸ horder
          exact hinOrder.behind
        rcases ih ⟨⟨_, s.close.span.stop, run.cursor.size⟩, log⟩
          (done ++ [s.equation]) hgains.halted
          hbehind rfl with ⟨last, hread, hmore⟩ | hfull
        · refine .inl ⟨last, ?_, ?_⟩
          · rw [hread, List.append_assoc]
            rfl
          · rw [List.countP_cons, Nat.add_comm]
            exact hgains.trans hmore
        · exact .inr hfull
      · -- nothing is read any more
        exact .inr ⟨_, _, Recover.moreEquations_of_done
          (Recover.equationStep_of_halted hfull.1), hfull⟩

end Statement

end Lustre
