import Lustre.Proofs.Parser.Program
import Lustre.Proofs.Reader.Follows
import Lustre.Proofs.Reader.Headway

/-!
# Parsers that do what readers do

A reader knows only a part of a machine: a `Read` its cursor, a `Recover` its cursor and its log
(`View`).  A parser mirrors a reader (`Mirrors`) if it always ends, with the answer of the reader
and in a state that looks to the reader like the one that the reader leaves, and if that state is
in the frame of the first one (`Machine.Frame`): what the parser changed on the way, it has put
back.

Both are shown together, since one needs the other: the frame of a loop is that of its rounds, but
that a loop without a bound ends is seen only from the reader, each of whose rounds takes tokens.

## What breaks the frame for a while

Three parsers leave the frame of their state and come back to it:

* `nested` works one level deeper (`Mirrors.nested_of_lt`);
* `within` works in another scope (`Mirrors.within`);
* `restore` takes back what was done since a checkpoint (`Mirrors.again`).

All others are put together from parsers that stay in the frame, and for them instance search finds
the reader that they mirror.
-/

namespace Lustre

variable {α β σ : Type}

/-! ## The frame of a machine -/

namespace Machine

/-- The states that a parser is started in. -/
structure InRange (s : Machine) : Prop where
  pos_le : s.pos ≤ s.tokens.length
  depth_le : s.depth ≤ maxNesting

/-- What no parser changes between a state and a later one. -/
structure Frame (s t : Machine) : Prop where
  tokens : t.tokens = s.tokens
  size : t.size = s.size
  pos_le : s.pos ≤ t.pos
  pos_le_length : t.pos ≤ t.tokens.length
  depth : t.depth = s.depth
  scope : t.scope = s.scope
  entries : s.log.entries <+: t.log.entries
  halted : s.log.halted = true → t.log.halted = true
  deepest_le : s.deepest ≤ t.deepest
  /-- On the way, the depth never exceeded the limit. -/
  shallow : t.deepest ≤ max s.deepest maxNesting

/-- A state in range, at `depth` and in `scope`. -/
structure Stands (s : Machine) (depth : Nat) (scope : Scope) : Prop where
  inRange : s.InRange
  depth_eq : s.depth = depth
  scope_eq : s.scope = scope

variable {s t u : Machine} {depth : Nat} {scope : Scope}

theorem InRange.frame (h : s.InRange) : s.Frame s where
  tokens := rfl
  size := rfl
  pos_le := Nat.le_refl _
  pos_le_length := h.pos_le
  depth := rfl
  scope := rfl
  entries := List.prefix_refl _
  halted := id
  deepest_le := Nat.le_refl _
  shallow := Nat.le_max_left _ _

theorem Stands.frame (h : s.Stands depth scope) : s.Frame s := h.inRange.frame

theorem Frame.trans (hst : s.Frame t) (htu : t.Frame u) : s.Frame u where
  tokens := htu.tokens.trans hst.tokens
  size := htu.size.trans hst.size
  pos_le := Nat.le_trans hst.pos_le htu.pos_le
  pos_le_length := htu.pos_le_length
  depth := htu.depth.trans hst.depth
  scope := htu.scope.trans hst.scope
  entries := hst.entries.trans htu.entries
  halted h := htu.halted (hst.halted h)
  deepest_le := Nat.le_trans hst.deepest_le htu.deepest_le
  shallow := by
    have hfirst := hst.shallow
    have hsecond := htu.shallow
    omega

/-- The next parser starts in range again. -/
theorem Stands.later (hs : s.Stands depth scope) (h : s.Frame t) : t.Stands depth scope where
  inRange := ⟨h.pos_le_length, h.depth ▸ hs.inRange.depth_le⟩
  depth_eq := h.depth.trans hs.depth_eq
  scope_eq := h.scope.trans hs.scope_eq

/-! ## What the changes of a machine look like -/

theorem cursor_pass (s : Machine) : s.pass.cursor = s.cursor.pass := by
  unfold pass
  split
  · rename_i hlt
    exact (State.cursor_pass hlt).symm
  · rename_i hend
    have hrest : s.tokens.drop s.pos = [] := List.drop_eq_nil_of_le (Nat.le_of_not_lt hend)
    unfold Cursor.pass State.cursor
    simp only [hrest]

/-- Going to a stop at once is passing the tokens before it. -/
theorem cursor_skipUntil (s : Machine) (stop : Kind → Bool) :
    (s.skipUntil stop).cursor = s.cursor.skipUntil stop := by
  induction hrest : s.tokens.drop s.pos generalizing s with
  | nil =>
      have hstay : s.skipUntil stop = s := by
        unfold skipUntil
        rw [hrest]
        rfl
      have hpeek : s.cursor.peek = none := by rw [Cursor.peek, State.cursor, hrest]; rfl
      rw [hstay, Cursor.skipUntil_eq, hpeek]
      rfl
  | cons token rest ih =>
      have hpeek : s.cursor.peek = some token.kind := by
        rw [Cursor.peek, State.cursor, hrest]
        rfl
      rw [Cursor.skipUntil_eq, hpeek]
      by_cases hstop : stop token.kind = true
      · have hstay : s.skipUntil stop = s := by
          unfold skipUntil
          rw [hrest, List.findIdx_cons, hstop]
          rfl
        rw [hstay]
        exact (if_pos hstop).symm
      · -- a token is left, so passing it moves the position
        have hlt : s.pos < s.tokens.length := by
          by_contra hend
          rw [List.drop_eq_nil_of_le (Nat.le_of_not_lt hend)] at hrest
          cases hrest
        have hpass : s.pass = { s with pos := s.pos + 1 } := if_pos hlt
        have hnext : s.tokens.drop (s.pos + 1) = rest := by
          rw [← List.tail_drop, hrest, List.tail_cons]
        have hpassed : s.skipUntil stop = s.pass.skipUntil stop := by
          rw [hpass]
          unfold skipUntil
          simp only [hrest, hnext, List.findIdx_cons, hstop, cond_false, Nat.add_assoc,
            Nat.add_comm 1]
        rw [hpassed, ih s.pass (by rw [hpass]; exact hnext), cursor_pass]
        exact (if_neg hstop).symm

theorem frame_pass (h : s.InRange) : s.Frame s.pass := by
  unfold pass
  split
  · rename_i hlt
    exact { h.frame with pos_le := Nat.le_succ _, pos_le_length := hlt }
  · exact h.frame

theorem frame_skipUntil (h : s.InRange) (stop : Kind → Bool) : s.Frame (s.skipUntil stop) where
  tokens := rfl
  size := rfl
  pos_le := Nat.le_add_right _ _
  pos_le_length := by
    have hfound : (s.tokens.drop s.pos).findIdx (fun token => stop token.kind) ≤
        s.tokens.length - s.pos :=
      List.length_drop ▸ List.findIdx_le_length
    have hpos := h.pos_le
    change s.pos + (s.tokens.drop s.pos).findIdx (fun token => stop token.kind) ≤ s.tokens.length
    omega
  depth := rfl
  scope := rfl
  entries := List.prefix_refl _
  halted := id
  deepest_le := Nat.le_refl _
  shallow := Nat.le_max_left _ _

theorem frame_record (h : s.InRange) (diagnostic : Diagnostic) :
    s.Frame (s.record diagnostic) :=
  have hextended := s.log.extended_record s.cursor diagnostic
  { h.frame with
    entries := hextended.entries
    halted := fun hhalted => (congrArg Log.halted (hextended.frozen hhalted)).trans hhalted }

/-- The level that was gone down is the one that is gone up. -/
theorem Frame.ascend (h : s.descend.Frame t) (hdepth : s.depth < maxNesting) :
    s.Frame t.ascend where
  tokens := h.tokens
  size := h.size
  pos_le := h.pos_le
  pos_le_length := h.pos_le_length
  depth := by
    have hdeeper : t.depth = s.depth + 1 := h.depth
    change t.depth - 1 = s.depth
    omega
  scope := h.scope
  entries := h.entries
  halted := h.halted
  deepest_le := Nat.le_trans (Nat.le_max_left _ _) h.deepest_le
  shallow := by
    have hshallow : t.deepest ≤ max (max s.deepest (s.depth + 1)) maxNesting := h.shallow
    change t.deepest ≤ max s.deepest maxNesting
    omega

/-- The scope that was left is the one that is entered again. -/
theorem Frame.enter {scope : Scope} (h : (s.enter scope).Frame t) : s.Frame (t.enter s.scope) where
  tokens := h.tokens
  size := h.size
  pos_le := h.pos_le
  pos_le_length := h.pos_le_length
  depth := h.depth
  scope := rfl
  entries := h.entries
  halted := h.halted
  deepest_le := h.deepest_le
  shallow := h.shallow

/-- Only what was done since a checkpoint is taken back. -/
theorem Frame.rewind (hs : s.InRange) (h : s.Frame t) :
    s.Frame (t.rewind s.pos s.log.entries.length) where
  tokens := h.tokens
  size := h.size
  pos_le := Nat.le_refl _
  pos_le_length := h.tokens ▸ hs.pos_le
  depth := h.depth
  scope := h.scope
  entries := by
    obtain ⟨later, hlater⟩ := h.entries
    change s.log.entries <+: t.log.entries.take s.log.entries.length
    rewrite [← hlater, List.take_left]
    exact List.prefix_refl _
  halted := h.halted
  deepest_le := h.deepest_le
  shallow := h.shallow

end Machine

/-! ## What readers see of a machine -/

/-- What the readers over `σ` work on is a part of a machine. -/
class View (σ : Type) where
  see : Machine → σ
  /-- The number of tokens to come. -/
  left : σ → Nat
  /-- What is out of sight stays as it is. -/
  Keeps : Machine → Machine → Prop
  keeps_refl : ∀ s, Keeps s s
  keeps_trans : ∀ {s t u}, Keeps s t → Keeps t u → Keeps s u

/-- A `Read` sees the tokens to come; it leaves the log alone. -/
instance : View Cursor where
  see s := s.cursor
  left c := c.rest.length
  Keeps s t := t.log = s.log
  keeps_refl _ := rfl
  keeps_trans hst htu := htu.trans hst

/-- A `Recover` sees the log, too. -/
instance : View Run where
  see s := s.run
  left run := run.left
  Keeps _ _ := True
  keeps_refl _ := trivial
  keeps_trans _ _ := trivial

/-- A result with what `view` shows of its state. -/
def viewed {τ : Type} (view : Machine → τ) :
    EStateM.Result Diagnostic Machine α → EStateM.Result Diagnostic τ α
  | .ok a s => .ok a (view s)
  | .error e s => .error e (view s)

/-- Started in `s`, `m` ends with `result`, which is to a reader like that of `read`, and in the
frame of `origin`. -/
structure Matches [View σ] (origin s : Machine) (m : Parser α) (read : EStateM Diagnostic σ α)
    (result : EStateM.Result Diagnostic Machine α) : Prop where
  ends : m s = .some result
  alike : read (View.see s) = viewed View.see result
  frame : origin.Frame (finalState result)
  keeps : View.Keeps σ origin (finalState result)

/-- Started in `s`, `m` ends as `read` does, in the frame of `origin`. -/
def EndsAs [View σ] (origin s : Machine) (m : Parser α) (read : EStateM Diagnostic σ α) : Prop :=
  ∃ result, Matches origin s m read result

namespace EndsAs

variable [View σ] {origin s t : Machine} {m : Parser α} {read : EStateM Diagnostic σ α}
  {next : α → Parser β} {next' : α → EStateM Diagnostic σ β}

theorem ok {a : α} (hends : m s = .some (.ok a t)) (halike : read (View.see s) = .ok a (View.see t))
    (hframe : origin.Frame t) (hkeeps : View.Keeps σ origin t) : EndsAs origin s m read :=
  ⟨.ok a t, hends, halike, hframe, hkeeps⟩

theorem error {e : Diagnostic} (hends : m s = .some (.error e t))
    (halike : read (View.see s) = .error e (View.see t)) (hframe : origin.Frame t)
    (hkeeps : View.Keeps σ origin t) : EndsAs origin s m read :=
  ⟨.error e t, hends, halike, hframe, hkeeps⟩

/-- All that matters is what comes out. -/
theorem of_eq {m' : Parser α} {read' : EStateM Diagnostic σ α} {s' : Machine}
    (h : EndsAs origin s' m' read') (hm : m s = m' s')
    (hread : read (View.see s) = read' (View.see s')) : EndsAs origin s m read := by
  obtain ⟨result, h⟩ := h
  exact ⟨result, hm.trans h.ends, hread.trans h.alike, h.frame, h.keeps⟩

/-- What is in the frame of a later state is in that of an earlier one. -/
theorem earlier (h : EndsAs s s m read) (hframe : origin.Frame s) (hkeeps : View.Keeps σ origin s) :
    EndsAs origin s m read := by
  obtain ⟨result, h⟩ := h
  exact ⟨result, h.ends, h.alike, hframe.trans h.frame, View.keeps_trans hkeeps h.keeps⟩

theorem bind (h : EndsAs origin s m read)
    (hnext : ∀ a t, origin.Frame t → View.Keeps σ origin t → EndsAs origin t (next a) (next' a)) :
    EndsAs origin s (m >>= next) (read >>= next') := by
  obtain ⟨result, hm⟩ := h
  have hbind : (m >>= next) s = Parser.andThen next result := by
    change (m s).bind _ = _
    rw [hm.ends, Part.bind_some]
  cases result with
  | ok a t => exact (hnext a t hm.frame hm.keeps).of_eq hbind (bind_of_ok hm.alike)
  | error e t => exact .error hbind (bind_of_error hm.alike) hm.frame hm.keeps

end EndsAs

/-- From every state in range, at `depth` and in `scope`, `m` ends as `read` does. -/
class Mirrors [View σ] (depth : Nat) (scope : Scope) (m : Parser α)
    (read : EStateM Diagnostic σ α) : Prop where
  ends : ∀ s : Machine, s.Stands depth scope → EndsAs s s m read

namespace Mirrors

variable {depth : Nat} {scope : Scope}

section

variable [View σ] {origin s : Machine}

/-- A parser that mirrors a reader, after others in the frame of `origin`. -/
theorem later {m : Parser α} {read : EStateM Diagnostic σ α} [h : Mirrors depth scope m read]
    (horigin : origin.Stands depth scope) (hframe : origin.Frame s)
    (hkeeps : View.Keeps σ origin s) : EndsAs origin s m read :=
  (h.ends s (horigin.later hframe)).earlier hframe hkeeps

instance instPure (a : α) :
    Mirrors depth scope (pure a : Parser α) (pure a : EStateM Diagnostic σ α) :=
  ⟨fun s hs => .ok rfl rfl hs.frame (View.keeps_refl s)⟩

instance instThrow (d : Diagnostic) :
    Mirrors depth scope (Parser.throw d : Parser α) (throw d : EStateM Diagnostic σ α) :=
  ⟨fun s hs => .error rfl rfl hs.frame (View.keeps_refl s)⟩

instance instBind (m : Parser α) (read : EStateM Diagnostic σ α) (next : α → Parser β)
    (next' : α → EStateM Diagnostic σ β) [h : Mirrors depth scope m read]
    [hnext : ∀ a, Mirrors depth scope (next a) (next' a)] :
    Mirrors depth scope (m >>= next) (read >>= next') :=
  ⟨fun s hs => (h.ends s hs).bind fun a _ hframe hkeeps =>
    (hnext a).later hs hframe hkeeps⟩

instance instIte (p : Prop) [Decidable p] (yes no : Parser α) (yes' no' : EStateM Diagnostic σ α)
    [hyes : Mirrors depth scope yes yes'] [hno : Mirrors depth scope no no'] :
    Mirrors depth scope (if p then yes else no) (if p then yes' else no') := by
  split
  · exact hyes
  · exact hno

/-- Where the way on depends on the shape of an answer, the search is guided to that place. -/
theorem after {m : Parser α} {read : EStateM Diagnostic σ α} {next : α → Parser β}
    {next' : α → EStateM Diagnostic σ β} [Mirrors depth scope m read]
    (hnext : ∀ a, Mirrors depth scope (next a) (next' a)) :
    Mirrors depth scope (m >>= next) (read >>= next') :=
  instBind m read next next'

theorem choose {p : Prop} [Decidable p] {yes no : Parser α} {yes' no' : EStateM Diagnostic σ α}
    (hyes : Mirrors depth scope yes yes') (hno : Mirrors depth scope no no') :
    Mirrors depth scope (if p then yes else no) (if p then yes' else no') :=
  instIte p yes no yes' no'

/-! ## Loops -/

theorem loop_done {step : α → Parser (ForInStep α)} {a b : α} {s t : Machine}
    (h : step a s = .some (.ok (.done b) t)) : Parser.loop a step s = .some (.ok b t) := by
  refine Part.eq_some_iff.mpr (PFun.fix_stop ?_)
  rw [h, Part.map_some]
  exact Part.mem_some _

theorem loop_error {step : α → Parser (ForInStep α)} {a : α} {e : Diagnostic} {s t : Machine}
    (h : step a s = .some (.error e t)) : Parser.loop a step s = .some (.error e t) := by
  refine Part.eq_some_iff.mpr (PFun.fix_stop ?_)
  rw [h, Part.map_some]
  exact Part.mem_some _

theorem loop_yield {step : α → Parser (ForInStep α)} {a b : α} {s t : Machine}
    (h : step a s = .some (.ok (.yield b) t)) : Parser.loop a step s = Parser.loop b step t := by
  refine PFun.fix_fwd_eq ?_
  rw [h, Part.map_some]
  exact Part.mem_some _

/-- A loop ends as the bounded one does if each round that asks for another takes a token.  The
induction is on the bound, which stays above the number of tokens to come. -/
theorem endsAs_iterateUpTo {step : α → Parser (ForInStep α)}
    {step' : α → EStateM Diagnostic σ (ForInStep α)}
    (hstep : ∀ a, Mirrors depth scope (step a) (step' a))
    (hadvancing : ∀ a x, Meets (step' a) x
      (StepKeeps (fun _ y => View.left y < View.left x) fun _ _ => True))
    (bound : Nat) (a : α) (s : Machine) (hs : s.Stands depth scope)
    (hbound : View.left (View.see (σ := σ) s) < bound) :
    EndsAs s s (Parser.loop a step) (iterateUpTo step' bound a) := by
  induction bound generalizing a s with
  | zero => exact absurd hbound (Nat.not_lt_zero _)
  | succ bound ih =>
      obtain ⟨result, hround⟩ := (hstep a).ends s hs
      cases result with
      | error e t =>
          exact .error (loop_error hround.ends) (bind_of_error hround.alike) hround.frame
            hround.keeps
      | ok next t =>
          have hless := hadvancing a _ _ _ hround.alike
          cases next with
          | done b =>
              exact .ok (loop_done hround.ends) (bind_of_ok hround.alike) hround.frame hround.keeps
          | yield b =>
              rw [stepKeeps_yield] at hless
              have hrest := ih b t (hs.later hround.frame) (by omega)
              exact (hrest.earlier hround.frame hround.keeps).of_eq (loop_yield hround.ends)
                (bind_of_ok hround.alike)

end

theorem loopRead {step : α → Parser (ForInStep α)} {step' : α → Read (ForInStep α)}
    [hstep : ∀ a, Mirrors depth scope (step a) (step' a)] (hadvancing : Advancing step') (a : α) :
    Mirrors depth scope (Parser.loop a step) (Read.iterate a step') :=
  ⟨fun s hs =>
    (endsAs_iterateUpTo hstep hadvancing _ a s hs (Nat.lt_succ_self _)).of_eq rfl rfl⟩

theorem loopRun {step : α → Parser (ForInStep α)} {step' : α → Recover (ForInStep α)}
    [hstep : ∀ a, Mirrors depth scope (step a) (step' a)]
    (hadvancing : Recover.Advancing step') (a : α) :
    Mirrors depth scope (Parser.loop a step) (Recover.iterate a step') :=
  ⟨fun s hs =>
    (endsAs_iterateUpTo hstep hadvancing _ a s hs (Nat.lt_succ_self _)).of_eq rfl rfl⟩

/-! ## Looking at the state -/

theorem run_cursor (next : Cursor → Parser α) (s : Machine) :
    (Parser.cursor >>= next) s = next s.cursor s := by
  change ((Part.some _).bind _).bind _ = _
  rw [Part.bind_some]
  exact Part.bind_some _ _

/-- What is done depends on what lies ahead. -/
theorem lookRead {next : Cursor → Parser α} {next' : Cursor → Read α}
    (h : ∀ s : Machine, s.Stands depth scope → EndsAs s s (next s.cursor) (next' s.cursor)) :
    Mirrors depth scope (Parser.cursor >>= next) (get >>= next') :=
  ⟨fun s hs => (h s hs).of_eq (run_cursor next s) rfl⟩

theorem lookRun {next : Cursor → Parser α} {next' : Run → Recover α}
    (h : ∀ run : Run, Mirrors depth scope (next run.cursor) (next' run)) :
    Mirrors depth scope (Parser.cursor >>= next) (get >>= next') :=
  ⟨fun s hs => ((h s.run).ends s hs).of_eq (run_cursor next s) rfl⟩

instance instCursor : Mirrors depth scope Parser.cursor (get : Read Cursor) :=
  ⟨fun _ hs => .ok (Part.bind_some _ _) rfl hs.frame rfl⟩

instance instHalted : Mirrors depth scope Parser.halted Recover.halted :=
  ⟨fun _ hs => .ok (Part.bind_some _ _) rfl hs.frame trivial⟩

instance instRemaining : Mirrors depth scope Parser.remaining Recover.remaining where
  ends s hs := by
    refine .ok (Part.bind_some _ _) ?_ hs.frame trivial
    change EStateM.Result.ok (s.tokens.drop s.pos).length s.run = _
    rw [List.length_drop]
    rfl

/-! ## Changing the state -/

instance instAdvance : Mirrors depth scope Parser.advance Read.advance where
  ends s hs := by
    have hlog : s.pass.log = s.log := by
      unfold Machine.pass
      split <;> rfl
    exact .ok rfl (congrArg (EStateM.Result.ok ()) (Machine.cursor_pass s).symm)
      (Machine.frame_pass hs.inRange) hlog

instance instReport (d : Diagnostic) : Mirrors depth scope (Parser.report d) (Recover.report d) :=
  ⟨fun _ hs => .ok rfl rfl (Machine.frame_record hs.inRange d) trivial⟩

/-- Recovery asks the state for the scope. -/
instance instSynchronize (stops : List Kind) :
    Mirrors depth scope (Parser.synchronize stops) (Recover.synchronize scope stops) where
  ends s hs := by
    let stop (kind : Kind) : Bool := stops.contains kind || (scope == .body && kind == .kwEnd)
    have hends : Parser.synchronize stops s = .some (.ok () (s.skipUntil stop)) := by
      change Part.some (EStateM.Result.ok () (s.skipUntil fun kind =>
        stops.contains kind || (s.scope == .body && kind == .kwEnd))) = _
      rw [hs.scope_eq]
    refine .ok hends ?_ (Machine.frame_skipUntil hs.inRange _) trivial
    exact congrArg (fun c => EStateM.Result.ok () (Run.mk c s.log))
      (Machine.cursor_skipUntil s stop).symm

/-! ## Readers within readers -/

instance instLift (m : Parser α) (read : Read α) [h : Mirrors depth scope m read] :
    Mirrors depth scope m (monadLift read : Recover α) where
  ends s hs := by
    obtain ⟨result, hm⟩ := h.ends s hs
    have hlog : (finalState result).log = s.log := hm.keeps
    cases result with
    | ok a t =>
        have hlift : (monadLift read : Recover α) s.run = .ok a ⟨t.cursor, s.log⟩ :=
          Recover.lift_ok hm.alike
        refine .ok hm.ends (hlift.trans ?_) hm.frame trivial
        exact congrArg (fun log => EStateM.Result.ok a (Run.mk t.cursor log)) hlog.symm
    | error e t =>
        have hlift : (monadLift read : Recover α) s.run = .error e ⟨t.cursor, s.log⟩ :=
          Recover.lift_error hm.alike
        refine .error hm.ends (hlift.trans ?_) hm.frame trivial
        exact congrArg (fun log => EStateM.Result.error e (Run.mk t.cursor log)) hlog.symm

instance instAttempt (m : Parser α) (read : Recover α) [h : Mirrors depth scope m read] :
    Mirrors depth scope (Parser.attempt m) (Recover.attempt read) where
  ends s hs := by
    obtain ⟨result, hm⟩ := h.ends s hs
    have hends : Parser.attempt m s = .some (Parser.caught result) := by
      change (m s).map _ = _
      rw [hm.ends, Part.map_some]
    cases result with
    | ok a t => exact .ok hends (Recover.attempt_ok hm.alike) hm.frame trivial
    | error e t => exact .ok hends (Recover.attempt_error hm.alike) hm.frame trivial

/-! ## What breaks the frame for a while -/

theorem run_attempt {m : Parser α} {next : Except Diagnostic α → Parser β} {s : Machine}
    {result : EStateM.Result Diagnostic Machine α} (h : m s = .some result) :
    (Parser.attempt m >>= next) s = Parser.andThen next (Parser.caught result) := by
  change ((m s).map _).bind _ = _
  rw [h, Part.map_some, Part.bind_some]

theorem run_modify {change' : Machine → Machine} {next : Unit → Parser α} {s : Machine} :
    (Parser.modify change' >>= next) s = next () (change' s) :=
  Part.bind_some _ _

/-- Whether it succeeds or fails, what is nested comes back from its level. -/
theorem run_nested {m : Parser α} {s : Machine} {result : EStateM.Result Diagnostic Machine α}
    (hdepth : s.depth < maxNesting) (h : m s.descend = .some result) :
    Parser.nested m s = .some (viewed Machine.ascend result) := by
  refine (Part.bind_some _ _).trans ?_
  change (if s.depth ≥ maxNesting then _ else _ : Parser α) s = _
  rw [if_neg (Nat.not_le_of_gt hdepth), run_modify, run_attempt h]
  cases result <;> exact run_modify

/-- Where no level is left, nothing is read. -/
theorem nested_of_exhausted (m : Parser α) :
    Mirrors maxNesting scope (Parser.nested m) (Read.fail .nestedTooDeeply : Read α) where
  ends s hs := by
    refine .error ?_ rfl hs.frame rfl
    refine (Part.bind_some _ _).trans ?_
    change (if s.depth ≥ maxNesting then _ else _ : Parser α) s = _
    rw [if_pos (Nat.le_of_eq hs.depth_eq.symm)]
    rfl

theorem nested_of_lt {m : Parser α} {read : Read α} (hdepth : depth < maxNesting)
    [h : Mirrors (depth + 1) scope m read] : Mirrors depth scope (Parser.nested m) read where
  ends s hs := by
    have hlt : s.depth < maxNesting := hs.depth_eq ▸ hdepth
    have hdeeper : s.descend.Stands (depth + 1) scope :=
      ⟨⟨hs.inRange.pos_le, hlt⟩, congrArg (· + 1) hs.depth_eq, hs.scope_eq⟩
    obtain ⟨result, hm⟩ := h.ends s.descend hdeeper
    have hends := run_nested hlt hm.ends
    cases result with
    | ok a t => exact .ok hends hm.alike (Machine.Frame.ascend hm.frame hlt) hm.keeps
    | error e t => exact .error hends hm.alike (Machine.Frame.ascend hm.frame hlt) hm.keeps

/-- Whether it succeeds or fails, what is run in another scope comes back from it. -/
theorem run_within {other : Scope} {m : Parser α} {s : Machine}
    {result : EStateM.Result Diagnostic Machine α} (h : m (s.enter other) = .some result) :
    Parser.within other m s = .some (viewed (fun t => t.enter s.scope) result) := by
  refine (Part.bind_some _ _).trans ?_
  refine run_modify.trans ((run_attempt h).trans ?_)
  cases result <;> exact run_modify

theorem within {other : Scope} {m : Parser α} {read : Recover α}
    [h : Mirrors depth other m read] : Mirrors depth scope (Parser.within other m) read where
  ends s hs := by
    have hother : (s.enter other).Stands depth other :=
      ⟨⟨hs.inRange.pos_le, hs.inRange.depth_le⟩, hs.depth_eq, rfl⟩
    obtain ⟨result, hm⟩ := h.ends (s.enter other) hother
    have hends := run_within hm.ends
    cases result with
    | ok a t => exact .ok hends hm.alike (Machine.Frame.enter hm.frame) trivial
    | error e t => exact .error hends hm.alike (Machine.Frame.enter hm.frame) trivial

end Mirrors

/-! ## Tokens -/

namespace Parser

variable {depth : Nat} {scope : Scope}

instance mirrors_peek : Mirrors depth scope peek Read.peek := by
  unfold peek Read.peek
  infer_instance

instance mirrors_isAt (kind : Kind) : Mirrors depth scope (isAt kind) (Read.isAt kind) := by
  unfold isAt Read.isAt
  infer_instance

instance mirrors_here : Mirrors depth scope here Read.here := by
  unfold here Read.here
  infer_instance

instance mirrors_eat (kind : Kind) : Mirrors depth scope (eat kind) (Read.eat kind) := by
  unfold eat Read.eat
  infer_instance

instance mirrors_eatAny (kinds : List Kind) :
    Mirrors depth scope (eatAny kinds) (Read.eatAny kinds) := by
  induction kinds with
  | nil => exact Mirrors.instPure false
  | cons kind kinds ih =>
      unfold eatAny Read.eatAny
      infer_instance

instance mirrors_spanFrom (start : Nat) :
    Mirrors depth scope (spanFrom start) (Read.spanFrom start) := by
  unfold spanFrom Read.spanFrom
  infer_instance

instance mirrors_fail (cause : Cause) :
    Mirrors depth scope (fail cause : Parser α) (Read.fail cause : Read α) := by
  unfold fail Read.fail
  infer_instance

instance mirrors_unexpected (options : List Kind) :
    Mirrors depth scope (unexpected options : Parser α) (Read.unexpected options : Read α) := by
  unfold unexpected Read.unexpected
  infer_instance

instance mirrors_missing (wanted : Wanted) :
    Mirrors depth scope (missing wanted : Parser α) (Read.missing wanted : Read α) := by
  unfold missing Read.missing
  infer_instance

instance mirrors_expect (kind : Kind) : Mirrors depth scope (expect kind) (Read.expect kind) := by
  unfold expect Read.expect
  infer_instance

instance mirrors_take? (kind : Kind) : Mirrors depth scope (take? kind) (Read.take? kind) := by
  refine Mirrors.lookRead fun s hs => ?_
  cases s.cursor.rest with
  | nil => exact (Mirrors.instPure none).ends s hs
  | cons token rest =>
      have hfound : Mirrors depth scope
          (if token.kind = kind then do advance; return some token else return none)
          (if token.kind = kind then do Read.advance; return some token else return none) :=
        inferInstance
      exact hfound.ends s hs

instance mirrors_takeText : Mirrors depth scope takeText Read.takeText := by
  unfold takeText Read.takeText
  infer_instance

/-! ## Lists and options -/

section

variable (m : Parser α) (read : Read α) [Mirrors depth scope m read]

instance mirrors_located : Mirrors depth scope (located m) (Read.located read) := by
  unfold located Read.located
  infer_instance

instance mirrors_optionalAt (kind : Kind) :
    Mirrors depth scope (optionalAt kind m) (Read.optionalAt kind read) := by
  unfold optionalAt Read.optionalAt
  infer_instance

instance mirrors_optionalAfter (kind : Kind) :
    Mirrors depth scope (optionalAfter kind m) (Read.optionalAfter kind read) := by
  unfold optionalAfter Read.optionalAfter
  infer_instance

variable [Forward read]

/-- The items after the first one of a list with commas. -/
theorem mirrors_commas (items : List α) :
    Mirrors depth scope
      (loop items fun items => do
        if ← eat .comma then return .yield (items ++ [← m]) else return .done items)
      (Read.iterate items fun items => do
        if ← Read.eat .comma then return .yield (items ++ [← read]) else return .done items) := by
  refine .loopRead ?_ items
  exact Read.advancing_commaStep read

instance mirrors_commaList : Mirrors depth scope (commaList m) (Read.commaList read) :=
  .after fun first => mirrors_commas m read [first]

instance mirrors_separated (close : Kind) (separators : List Kind) :
    Mirrors depth scope (separated close separators m) (Read.separated close separators read) := by
  refine .loopRead ?_ []
  exact Read.advancing_separatedStep close separators read

instance mirrors_terminated (starts : List Kind) :
    Mirrors depth scope (terminated starts m) (Read.terminated starts read) := by
  refine .loopRead ?_ []
  exact Read.advancing_terminatedStep starts read

end

/-! ## A second look -/

theorem run_checkpoint (next : Checkpoint → Parser α) (s : Machine) :
    (checkpoint >>= next) s = next ⟨s.pos, s.log.entries.length⟩ s := by
  change ((Part.some _).bind _).bind _ = _
  rw [Part.bind_some]
  exact Part.bind_some _ _

/-- Back at a checkpoint nothing is left of what was done since. -/
theorem endsAs_restore {s t : Machine} (hs : s.InRange) (hframe : s.Frame t)
    (hlog : t.log = s.log) :
    EndsAs s t (restore ⟨s.pos, s.log.entries.length⟩) (set s.cursor : Read Unit) := by
  let back : Machine := t.rewind s.pos s.log.entries.length
  have hcursor : s.cursor = back.cursor := by
    change s.cursor = ⟨t.tokens.drop s.pos, State.lastStop { t.toState with pos := s.pos }, t.size⟩
    unfold State.cursor State.lastStop
    rw [hframe.tokens, hframe.size]
  have hkept : back.log = s.log := by
    change { t.log with entries := t.log.entries.take s.log.entries.length } = s.log
    rw [hlog, List.take_length]
  exact .ok (t := back) rfl (congrArg (EStateM.Result.ok ()) hcursor) (.rewind hs hframe) hkept

theorem endsAs_again {first : Parser α} {first' : Read α} {second : Parser β} {second' : Read β}
    {other : α → Parser β} {other' : α → Read β} {kind : Kind}
    [hfirst : Mirrors depth scope first first'] [hsecond : Mirrors depth scope second second']
    [hother : ∀ a, Mirrors depth scope (other a) (other' a)] (s : Machine)
    (hs : s.Stands depth scope) :
    EndsAs s s (do
        let a ← first
        if ← isAt kind then
          restore ⟨s.pos, s.log.entries.length⟩
          second
        else other a)
      (do
        let a ← first'
        if ← Read.isAt kind then
          set s.cursor
          second'
        else other' a) := by
  refine (hfirst.ends s hs).bind fun a t hframe hlog => ?_
  refine ((mirrors_isAt kind).later hs hframe hlog).bind fun found u hframe hlog => ?_
  split
  · exact (endsAs_restore hs.inRange hframe hlog).bind fun _ v hframe hlog =>
      hsecond.later hs hframe hlog
  · exact (hother a).later hs hframe hlog

end Parser

end Lustre
