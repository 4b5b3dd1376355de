import Lustre.Proofs.Reader.Passing

/-!
# What a reader meets when it succeeds

`Meets read s Q` says that if `read` succeeds from `s`, its answer and the place
that it reaches satisfy `Q`.  The lemmas follow the ways in which readers are put
together: a goal about a reader becomes goals about its steps, with what is known
of the next token as hypotheses.
-/

namespace Lustre

variable {ε σ α β : Type}

/-! ## One reader after another -/

section

variable {read : EStateM ε σ α} {next : α → EStateM ε σ β} {s s' s'' : σ} {a : α} {b : β} {e : ε}

theorem bind_of_ok (h : read s = .ok a s') : (read >>= next) s = next a s' := by
  change EStateM.bind read next s = _
  rw [EStateM.bind, h]

/-- What follows a failure is not read. -/
theorem bind_of_error (h : read s = .error e s') : (read >>= next) s = .error e s' := by
  change EStateM.bind read next s = _
  rw [EStateM.bind, h]

theorem bind_eq_ok :
    (read >>= next) s = .ok b s'' ↔ ∃ a s', read s = .ok a s' ∧ next a s' = .ok b s'' := by
  cases hread : read s with
  | ok a s' =>
      rw [bind_of_ok hread]
      refine ⟨fun hnext => ⟨a, s', rfl, hnext⟩, ?_⟩
      rintro ⟨_, _, hsame, hnext⟩
      cases hsame
      exact hnext
  | error e s' =>
      rw [bind_of_error hread]
      constructor
      · intro hok
        cases hok
      · rintro ⟨_, _, hsame, -⟩
        cases hsame

end

/-! ## What holds after a success -/

/-- If `read` succeeds from `s`, its answer and the state that it reaches satisfy `Q`. -/
def Meets (read : EStateM ε σ α) (s : σ) (Q : α → σ → Prop) : Prop :=
  ∀ a s', read s = .ok a s' → Q a s'

namespace Meets

variable {s : σ} {P Q : α → σ → Prop} {R : β → σ → Prop}

theorem mono {read : EStateM ε σ α} (h : Meets read s P) (hPQ : ∀ a s', P a s' → Q a s') :
    Meets read s Q :=
  fun a s' hok => hPQ a s' (h a s' hok)

/-- Nothing is claimed. -/
theorem any {read : EStateM ε σ α} : Meets read s fun _ _ => True :=
  fun _ _ _ => trivial

theorem and {read : EStateM ε σ α} (hP : Meets read s P) (hQ : Meets read s Q) :
    Meets read s fun a s' => P a s' ∧ Q a s' :=
  fun a s' hok => ⟨hP a s' hok, hQ a s' hok⟩

theorem pure {a : α} (h : Q a s) : Meets (Pure.pure a : EStateM ε σ α) s Q := by
  intro b s' hok
  cases hok
  exact h

theorem throw {e : ε} : Meets (MonadExcept.throw e : EStateM ε σ α) s Q := by
  intro a s' hok
  cases hok

theorem bind {read : EStateM ε σ α} {next : α → EStateM ε σ β} (h : Meets read s P)
    (hnext : ∀ a s', P a s' → Meets (next a) s' R) : Meets (read >>= next) s R := by
  intro b s' hok
  obtain ⟨a, middle, hread, hlast⟩ := bind_eq_ok.mp hok
  exact hnext a middle (h a middle hread) b s' hlast

theorem get {next : σ → EStateM ε σ β} (h : Meets (next s) s R) :
    Meets (MonadState.get >>= next) s R :=
  h

theorem set {s' : σ} {next : EStateM ε σ β} (h : Meets next s' R) :
    Meets (MonadStateOf.set s' >>= fun _ => next) s R :=
  h

end Meets

/-- What holds after a step of a loop: `I` if it goes on, `Q` if it ends. -/
def StepKeeps (I Q : α → σ → Prop) : ForInStep α → σ → Prop
  | .yield a, s => I a s
  | .done a, s => Q a s

@[simp] theorem stepKeeps_yield {I Q : α → σ → Prop} {a : α} {s : σ} :
    StepKeeps I Q (.yield a) s ↔ I a s :=
  Iff.rfl

@[simp] theorem stepKeeps_done {I Q : α → σ → Prop} {a : α} {s : σ} :
    StepKeeps I Q (.done a) s ↔ Q a s :=
  Iff.rfl

/-- A loop keeps what each of its steps keeps. -/
theorem meets_iterateUpTo {step : α → EStateM Diagnostic σ (ForInStep α)} {I Q : α → σ → Prop}
    (hstep : ∀ a s, I a s → Meets (step a) s (StepKeeps I Q))
    (hstop : ∀ a s, I a s → Q a s) (bound : Nat) (a : α) (s : σ) (h : I a s) :
    Meets (iterateUpTo step bound a) s Q := by
  induction bound generalizing a s with
  | zero => exact .pure (hstop a s h)
  | succ bound ih =>
      refine .bind (hstep a s h) fun next s' hnext => ?_
      cases next with
      | done a => exact .pure hnext
      | yield a => exact ih a s' hnext

/-- The same for a loop whose steps use up some of `size`, which `bound` exceeds: it ends only
where a step ends it. -/
theorem meets_iterateUpTo_of_progress {step : α → EStateM Diagnostic σ (ForInStep α)}
    {I Q : α → σ → Prop} (size : σ → Nat)
    (hstep : ∀ a s, I a s → Meets (step a) s (StepKeeps (fun a s' => I a s' ∧ size s' < size s) Q))
    (bound : Nat) (a : α) (s : σ) (h : I a s) (hbound : size s < bound) :
    Meets (iterateUpTo step bound a) s Q := by
  induction bound generalizing a s with
  | zero => omega
  | succ bound ih =>
      refine .bind (hstep a s h) fun next s' hnext => ?_
      cases next with
      | done a => exact .pure hnext
      | yield a =>
          obtain ⟨hnext, hsize⟩ := hnext
          exact ih a s' hnext (by omega)

namespace Meets

variable {c : Cursor} {Q : α → Cursor → Prop} {R : β → Cursor → Prop} {kind : Kind}

open Read

/-- A loop of a reader keeps what each of its steps keeps. -/
theorem iterate {step : α → Read (ForInStep α)} {a : α} {I : α → Cursor → Prop} (h : I a c)
    (hstep : ∀ a c, I a c → Meets (step a) c (StepKeeps I Q))
    (hstop : ∀ a c, I a c → Q a c) : Meets (Read.iterate a step) c Q :=
  meets_iterateUpTo hstep hstop _ a c h

/-- The same, where what the steps keep holds only after the first one. -/
theorem iterate_of_first {step : α → Read (ForInStep α)} {a : α} {I : α → Cursor → Prop}
    (hfirst : Meets (step a) c (StepKeeps I Q))
    (hstep : ∀ a c, I a c → Meets (step a) c (StepKeeps I Q))
    (hstop : ∀ a c, I a c → Q a c) : Meets (Read.iterate a step) c Q := by
  refine .get (.bind hfirst fun next c' hnext => ?_)
  cases next with
  | done a => exact .pure hnext
  | yield a => exact meets_iterateUpTo hstep hstop _ a c' hnext

/-- A loop whose steps pass tokens ends only where a step ends it. -/
theorem iterate_of_progress {step : α → Read (ForInStep α)} {a : α} {I : α → Cursor → Prop}
    (h : I a c)
    (hstep : ∀ a c, I a c → Meets (step a) c
      (StepKeeps (fun a c' => I a c' ∧ c'.rest.length < c.rest.length) Q)) :
    Meets (Read.iterate a step) c Q :=
  meets_iterateUpTo_of_progress (fun c => c.rest.length) hstep _ a c h (Nat.lt_succ_self _)

/-! ## The next token -/

theorem peek {next : Option Kind → Read β} (h : Meets (next c.peek) c R) :
    Meets (Read.peek >>= next) c R :=
  h

theorem here {next : Nat → Read β} (h : ∀ start, Meets (next start) c R) :
    Meets (Read.here >>= next) c R :=
  h _

theorem spanFrom {start : Nat} {next : Span → Read β} (h : ∀ span, Meets (next span) c R) :
    Meets (Read.spanFrom start >>= next) c R :=
  h _

theorem advance {next : Unit → Read β} (h : Meets (next ()) c.pass R) :
    Meets (Read.advance >>= next) c R :=
  h

theorem fail {cause : Cause} : Meets (Read.fail cause : Read α) c Q := by
  intro a c' hok
  cases hok

theorem unexpected {options : List Kind} : Meets (Read.unexpected options : Read α) c Q := by
  intro a c' hok
  cases hok

theorem missing {wanted : Wanted} : Meets (Read.missing wanted : Read α) c Q := by
  intro a c' hok
  cases hok

theorem isAt {next : Bool → Read β} (hyes : c.peek = some kind → Meets (next true) c R)
    (hno : c.peek ≠ some kind → Meets (next false) c R) : Meets (Read.isAt kind >>= next) c R := by
  change Meets (next (c.isAt kind)) c R
  by_cases h : c.peek = some kind
  · have hat : c.isAt kind = true := by simp [Cursor.isAt, h]
    rw [hat]
    exact hyes h
  · have hat : c.isAt kind = false := by simp [Cursor.isAt, h]
    rw [hat]
    exact hno h

theorem ifAt {yes no : Read β} (hyes : c.peek = some kind → Meets yes c R)
    (hno : c.peek ≠ some kind → Meets no c R) :
    Meets (Read.isAt kind >>= fun found => if found = true then yes else no) c R :=
  isAt (fun h => by simpa using hyes h) fun h => by simpa using hno h

theorem eat {next : Bool → Read β} (hyes : c.peek = some kind → Meets (next true) c.pass R)
    (hno : c.peek ≠ some kind → Meets (next false) c R) : Meets (Read.eat kind >>= next) c R := by
  refine .bind (P := fun found c' =>
    found = true ∧ c.peek = some kind ∧ c' = c.pass ∨ found = false ∧ c.peek ≠ some kind ∧ c' = c)
    ?_ ?_
  · exact ifAt (fun h => .advance (.pure (.inl ⟨rfl, h, rfl⟩))) fun h => .pure (.inr ⟨rfl, h, rfl⟩)
  · rintro found c' (⟨rfl, h, rfl⟩ | ⟨rfl, h, rfl⟩)
    · exact hyes h
    · exact hno h

theorem ifEat {yes no : Read β} (hyes : c.peek = some kind → Meets yes c.pass R)
    (hno : c.peek ≠ some kind → Meets no c R) :
    Meets (Read.eat kind >>= fun found => if found = true then yes else no) c R :=
  eat (fun h => by simpa using hyes h) fun h => by simpa using hno h

theorem expect {next : Span → Read β}
    (h : c.peek = some kind → ∀ span, Meets (next span) c.pass R) :
    Meets (Read.expect kind >>= next) c R := by
  refine .bind (P := fun _ c' => c.peek = some kind ∧ c' = c.pass) ?_ ?_
  · exact ifAt (fun hpeek => .get (.advance (.pure ⟨hpeek, rfl⟩))) fun _ => .unexpected
  · rintro span c' ⟨hpeek, rfl⟩
    exact h hpeek span

theorem take? {next : Option Token → Read β}
    (hsome : ∀ token rest, c.rest = token :: rest → token.kind = kind →
      Meets (next (some token)) c.pass R)
    (hnone : c.peek ≠ some kind → Meets (next none) c R) :
    Meets (Read.take? kind >>= next) c R := by
  refine .bind (P := fun found c' =>
    (∃ token rest, found = some token ∧ c.rest = token :: rest ∧ token.kind = kind ∧ c' = c.pass) ∨
      found = none ∧ c.peek ≠ some kind ∧ c' = c) ?_ ?_
  · refine .get ?_
    split
    · rename_i token rest hrest
      split
      · rename_i hkind
        exact .advance (.pure (.inl ⟨token, rest, rfl, hrest, hkind, rfl⟩))
      · rename_i hkind
        exact .pure (.inr ⟨rfl, by simp [Cursor.peek, hrest, hkind], rfl⟩)
    · rename_i hrest
      exact .pure (.inr ⟨rfl, by simp [Cursor.peek, hrest], rfl⟩)
  · rintro found c' (⟨token, rest, rfl, hrest, hkind, rfl⟩ | ⟨rfl, hpeek, rfl⟩)
    · exact hsome token rest hrest hkind
    · exact hnone hpeek

theorem optionalAfter {read : Read α} {R : Option α → Cursor → Prop}
    (hyes : c.peek = some kind → Meets read c.pass fun a c' => R (some a) c')
    (hno : c.peek ≠ some kind → R none c) : Meets (Read.optionalAfter kind read) c R :=
  ifEat (fun h => .bind (hyes h) fun _ _ ha => .pure ha) fun h => .pure (hno h)

theorem optionalAt {read : Read α} {R : Option α → Cursor → Prop}
    (hyes : c.peek = some kind → Meets read c fun a c' => R (some a) c')
    (hno : c.peek ≠ some kind → R none c) : Meets (Read.optionalAt kind read) c R :=
  ifAt (fun h => .bind (hyes h) fun _ _ ha => .pure ha) fun h => .pure (hno h)

theorem located {read : Read α} {R : Located α → Cursor → Prop}
    (h : Meets read c fun a c' => ∀ span, R ⟨a, span⟩ c') : Meets (Read.located read) c R :=
  .here fun _ => .bind h fun _ _ ha => .spanFrom fun span => .pure (ha span)

end Meets

end Lustre
