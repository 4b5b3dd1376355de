import Lustre.Proofs.Reader.Discipline
import Lustre.Proofs.Reader.Headway

/-!
# Readers called from one state

A reader is told how deep it may nest and whether it stands in a body; the cursor and the
log go through it.  `State` gathers all of this as a parser would keep it: the tokens and a
position among them, the depth, the scope and the log.  `State.call` runs a reader from such
a state and answers the state where it stopped.

The depth counts up to the limit, and no reader is started deeper: what would be read beyond
it never matters (`Nested.counting_eq`).
-/

namespace Lustre

/-! ## Counting the depth -/

namespace Nested

/-- The readers of what is nested in `deep`. -/
def below (deep : Nested) : Nested := ⟨Read.top deep, Read.inner deep, Read.staticArgs deep⟩

/-- The readers of what is nested at `depth`, which counts up to the limit.  Should the depth ever
exceed the limit, `beyond` would read. -/
def counting (beyond : Nested) (depth : Nat) : Nested :=
  if maxNesting < depth then beyond
  else if depth = maxNesting then exhausted
  else below (counting beyond (depth + 1))
termination_by maxNesting + 1 - depth

variable {beyond : Nested} {depth : Nat}

theorem counting_limit : counting beyond maxNesting = exhausted := by
  rw [counting, if_neg (Nat.lt_irrefl _), if_pos rfl]

theorem counting_below (h : depth < maxNesting) :
    counting beyond depth = below (counting beyond (depth + 1)) := by
  rw [counting, if_neg (Nat.not_lt_of_gt h), if_neg (Nat.ne_of_lt h)]

/-- Counting up to the limit is counting down the levels that are left. -/
theorem counting_eq_upTo (beyond : Nested) (levels : Nat) (h : levels ≤ maxNesting) :
    counting beyond (maxNesting - levels) = upTo levels := by
  induction levels with
  | zero => exact counting_limit
  | succ levels ih =>
      have hnext : maxNesting - (levels + 1) + 1 = maxNesting - levels := by omega
      rw [counting_below (by omega), hnext, ih (Nat.le_of_succ_le h)]
      rfl

theorem counting_eq (beyond : Nested) (h : depth ≤ maxNesting) :
    counting beyond depth = upTo (maxNesting - depth) := by
  have hdepth : maxNesting - (maxNesting - depth) = depth := Nat.sub_sub_self h
  rw [← counting_eq_upTo beyond (maxNesting - depth) (Nat.sub_le _ _), hdepth]

end Nested

/-! ## States -/

/-- The fields of a parser. -/
structure State where
  tokens : List Token
  /-- The length of the text. -/
  size : Nat
  /-- The number of tokens before the next one. -/
  pos : Nat
  /-- How deep the parser is in nested readers. -/
  depth : Nat
  scope : Scope
  log : Log
deriving DecidableEq

namespace State

variable {α β : Type}

/-- Where the token before the position ends; zero if there is none. -/
def lastStop (s : State) : Nat :=
  match s.pos with
  | 0 => 0
  | before + 1 => (s.tokens[before]?.map fun token => token.span.stop).getD 0

/-- The place of a state in its tokens. -/
def cursor (s : State) : Cursor := ⟨s.tokens.drop s.pos, s.lastStop, s.size⟩

/-- The place of a state, with its log. -/
def run (s : State) : Run := ⟨s.cursor, s.log⟩

/-- The state after a run that was started in it. -/
def after (s : State) (run : Run) : State :=
  { s with pos := s.tokens.length - run.left, log := run.log }

/-- The result of a run that was started in a state, with the state that it leaves. -/
def ended (s : State) : EStateM.Result Diagnostic Run α → EStateM.Result Diagnostic State α
  | .ok a run => .ok a (s.after run)
  | .error e run => .error e (s.after run)

/-- What a reader answers in a state, and the state that it leaves. -/
def call (beyond : Nested) (read : Nested → Scope → Recover α) (s : State) :
    EStateM.Result Diagnostic State α :=
  s.ended (read (.counting beyond s.depth) s.scope s.run)

/-! ## Cursors of a state -/

variable {s : State} {beyond : Nested}

/-- Passing a token is adding one to the position. -/
theorem cursor_pass (h : s.pos < s.tokens.length) :
    s.cursor.pass = State.cursor { s with pos := s.pos + 1 } := by
  have hrest : s.tokens.drop s.pos = s.tokens[s.pos] :: s.tokens.drop (s.pos + 1) :=
    List.drop_eq_getElem_cons h
  have hstop : State.lastStop { s with pos := s.pos + 1 } = s.tokens[s.pos].span.stop := by
    change (s.tokens[s.pos]?.map fun token => token.span.stop).getD 0 = _
    rw [List.getElem?_eq_getElem h]
    rfl
  unfold Cursor.pass cursor
  rw [hstop]
  simp only [hrest]

/-- Every cursor that a reader comes to is that of a position behind the first one. -/
theorem exists_pos {c : Cursor} (hpos : s.pos ≤ s.tokens.length) (h : s.cursor.Onward c) :
    ∃ pos, s.pos ≤ pos ∧ pos ≤ s.tokens.length ∧ c = State.cursor { s with pos := pos } := by
  induction h with
  | here => exact ⟨s.pos, Nat.le_refl _, hpos, rfl⟩
  | pass _ ih =>
      obtain ⟨pos, hle, hlength, rfl⟩ := ih
      by_cases hend : pos < s.tokens.length
      · exact ⟨pos + 1, Nat.le_succ_of_le hle, hend, cursor_pass (s := { s with pos := pos }) hend⟩
      · -- at the end of the tokens nothing is passed
        refine ⟨pos, hle, hlength, ?_⟩
        have hrest : s.tokens.drop pos = [] := List.drop_eq_nil_of_le (Nat.le_of_not_lt hend)
        unfold Cursor.pass cursor
        simp only [hrest]

/-- The state after a run is the one that the run came to. -/
theorem run_after {run : Run} (hpos : s.pos ≤ s.tokens.length) (h : s.cursor.Onward run.cursor) :
    (s.after run).run = run ∧ s.pos ≤ (s.after run).pos ∧
      (s.after run).pos ≤ (s.after run).tokens.length := by
  obtain ⟨pos, hle, hlength, hcursor⟩ := exists_pos hpos h
  have hleft : run.left = s.tokens.length - pos := by
    unfold Run.left
    rw [hcursor]
    exact List.length_drop
  have hback : (s.after run).pos = pos := by
    change s.tokens.length - run.left = pos
    omega
  refine ⟨?_, hback ▸ hle, hback ▸ hlength⟩
  have hsame : (s.after run).cursor = run.cursor := by
    rw [hcursor]
    exact congrArg (fun pos => State.cursor { s with pos := pos }) hback
  exact congrArg (Run.mk · run.log) hsame

end State

end Lustre
