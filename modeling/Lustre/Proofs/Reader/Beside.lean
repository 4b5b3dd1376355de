import Lustre.Proofs.Reader.Progress
import Lustre.Proofs.Tree.Move

/-!
# The same tokens in another text

A `Context` says how the tokens of a text are found again in another one: in other
places, and perhaps with more tokens behind them, the first of which begins an item.
Two cursors are `Beside` each other if what is to come for the one is to come for the
other in this way.

Readers that are `Alike` then do the same.  If the tokens are all there is (`later` is
empty), they give the same answer or the same failure, in the other place.  With more
tokens behind, a failure is passed on only if some token is left, since a failure at the
end of the tokens is none in front of others; and success only if it is `good`, for some
readers stop only because there is nothing left.

Places themselves are never looked at, except for the blanks around `::`, hence the
assumption that no such blanks get lost.
-/

namespace Lustre

open Movable

variable {α β γ δ σ : Type}

/-! ## Two states -/

/-- How the states of two runs belong together, and what the offsets of the first are in the
second. -/
structure Link (σ : Type) where
  place : Nat → Nat
  beside : σ → σ → Prop
  /-- Whether all failures of the first run are failures of the second. -/
  strict : Prop
  /-- Whether failures in this state are. -/
  seen : σ → Prop

namespace Link

variable (link : Link σ)

/-- From two states that belong together, the second reader answers what the first answers, as far
as `R` tells, if the answer of the first is good, and fails as the first does. -/
def Alike (good : α → σ → Prop) (R : α → β → Prop) (read : EStateM Diagnostic σ α)
    (read' : EStateM Diagnostic σ β) (s s' : σ) : Prop :=
  match read s with
  | .ok a s₁ =>
      link.strict ∨ good a s₁ → ∃ a' s₁', read' s' = .ok a' s₁' ∧ R a a' ∧ link.beside s₁ s₁'
  | .error e s₁ => link.strict ∨ link.seen s₁ →
      ∃ s₁', read' s' = .error (move link.place e) s₁' ∧ link.beside s₁ s₁'

/-- The next round of a loop is like that of another. -/
inductive StepAlike (R : α → β → Prop) : ForInStep α → ForInStep β → Prop
  | done {a : α} {a' : β} (h : R a a') : StepAlike R (.done a) (.done a')
  | yield {a : α} {a' : β} (h : R a a') : StepAlike R (.yield a) (.yield a')

theorem StepAlike.of_refl {R : α → α → Prop} (h : ∀ a, R a a) (next : ForInStep α) :
    StepAlike R next next := by
  cases next with
  | done a => exact .done (h a)
  | yield a => exact .yield (h a)

/-- A round that ends the loop is good if what it ends with is; of the others, all that satisfy
`goes` are. -/
def StepGood (good : α → σ → Prop) (goes : σ → Prop) : ForInStep α → σ → Prop
  | .done a, s => good a s
  | .yield _, s => goes s

variable {link}

namespace Alike

variable {good : α → σ → Prop} {good₁ : γ → σ → Prop} {R : α → β → Prop} {S : γ → δ → Prop}
  {s s' : σ}

theorem pure {a : α} {a' : β} (hs : link.beside s s') (h : R a a') :
    link.Alike good R (Pure.pure a) (Pure.pure a') s s' :=
  fun _ => ⟨a', s', rfl, h, hs⟩

theorem throw {d d' : Diagnostic} (hs : link.beside s s')
    (h : link.strict ∨ link.seen s → d' = move link.place d) :
    link.Alike good R (MonadExcept.throw d) (MonadExcept.throw d') s s' := by
  intro hclaimed
  rw [h hclaimed]
  exact ⟨s', rfl, hs⟩

theorem mono {good' : α → σ → Prop} {R' : α → β → Prop} {read : EStateM Diagnostic σ α}
    {read' : EStateM Diagnostic σ β} (h : link.Alike good R read read' s s')
    (hgood : ∀ a s, good' a s → good a s) (hR : ∀ a a', R a a' → R' a a') :
    link.Alike good' R' read read' s s' := by
  unfold Alike at h ⊢
  split at h
  · intro hclaimed
    obtain ⟨a', s₁', hread', ha, hs₁⟩ := h (hclaimed.imp id (hgood _ _))
    exact ⟨a', s₁', hread', hR _ _ ha, hs₁⟩
  · exact h

/-- What follows is alike if the first answers are, and a good end has a good beginning, and so has
a failure that is seen. -/
theorem bind {read : EStateM Diagnostic σ α} {read' : EStateM Diagnostic σ β}
    {next : α → EStateM Diagnostic σ γ} {next' : β → EStateM Diagnostic σ δ}
    (h : link.Alike good R read read' s s')
    (hnext : ∀ a a' s₁ s₁', read s = .ok a s₁ → R a a' → link.beside s₁ s₁' →
      link.Alike good₁ S (next a) (next' a') s₁ s₁')
    (hgood : ¬link.strict →
      ∀ a s₁ b s₂, read s = .ok a s₁ → next a s₁ = .ok b s₂ → good₁ b s₂ → good a s₁)
    (hseen : ¬link.strict →
      ∀ a s₁ e s₂, read s = .ok a s₁ → next a s₁ = .error e s₂ → link.seen s₂ → good a s₁) :
    link.Alike good₁ S (read >>= next) (read' >>= next') s s' := by
  change match EStateM.bind read next s with
    | .ok b s₂ => link.strict ∨ good₁ b s₂ →
        ∃ b' s₂', EStateM.bind read' next' s' = .ok b' s₂' ∧ S b b' ∧ link.beside s₂ s₂'
    | .error e s₂ => link.strict ∨ link.seen s₂ →
        ∃ s₂', EStateM.bind read' next' s' = .error (move link.place e) s₂' ∧ link.beside s₂ s₂'
  unfold Alike at h
  unfold EStateM.bind
  -- the first reader fails in both texts, or the second one follows
  cases hread : read s with
  | error e s₁ =>
      rw [hread] at h
      intro hclaimed
      obtain ⟨s₁', hread', hs₁⟩ := h hclaimed
      rw [hread']
      exact ⟨s₁', rfl, hs₁⟩
  | ok a s₁ =>
      rw [hread] at h
      dsimp only
      cases hlast : next a s₁ with
      | ok b s₂ =>
          intro hclaimed
          -- what is claimed of the end was claimed of the middle
          have hfirst : link.strict ∨ good a s₁ := by
            by_cases hstrict : link.strict
            · exact .inl hstrict
            · exact .inr (hgood hstrict a s₁ b s₂ hread hlast (hclaimed.resolve_left hstrict))
          obtain ⟨a', s₁', hread', ha, hs₁⟩ := h hfirst
          have hsecond := hnext a a' s₁ s₁' hread ha hs₁
          unfold Alike at hsecond
          rw [hlast] at hsecond
          rw [hread']
          exact hsecond hclaimed
      | error e s₂ =>
          intro hclaimed
          have hfirst : link.strict ∨ good a s₁ := by
            by_cases hstrict : link.strict
            · exact .inl hstrict
            · exact .inr (hseen hstrict a s₁ e s₂ hread hlast (hclaimed.resolve_left hstrict))
          obtain ⟨a', s₁', hread', ha, hs₁⟩ := h hfirst
          have hsecond := hnext a a' s₁ s₁' hread ha hs₁
          unfold Alike at hsecond
          rw [hlast] at hsecond
          rw [hread']
          exact hsecond hclaimed

/-- The bounds of two loops do not matter, as long as they are not what ends them. -/
theorem iterateUpTo {step : α → EStateM Diagnostic σ (ForInStep α)}
    {step' : β → EStateM Diagnostic σ (ForInStep β)} {G : σ → Prop} (size : σ → Nat)
    (hadvancing : ∀ a s, Meets (step a) s
      (StepKeeps (fun _ s₁ => size s₁ < size s) fun _ _ => True))
    (hstep : ∀ a a' s s', R a a' → link.beside s s' →
      link.Alike (StepGood good G) (StepAlike R) (step a) (step' a') s s')
    (hgoes : ∀ bound a s b s₁, Lustre.iterateUpTo step bound a s = .ok b s₁ → good b s₁ → G s)
    (hseen : ∀ bound a s e s₁, Lustre.iterateUpTo step bound a s = .error e s₁ → link.seen s₁ → G s)
    (bound bound' : Nat) {a : α} {a' : β} (hs : link.beside s s') (ha : R a a')
    (hbound : size s < bound) (hbound' : size s < bound') :
    link.Alike good R (Lustre.iterateUpTo step bound a)
      (Lustre.iterateUpTo step' bound' a') s s' := by
  induction bound generalizing bound' a a' s s' with
  | zero => omega
  | succ bound ih =>
      obtain ⟨bound', rfl⟩ : ∃ n, bound' = n + 1 := ⟨bound' - 1, by omega⟩
      refine bind (hstep a a' s s' ha hs) (fun next next' s₁ s₁' hok hnext hs₁ => ?_)
        (fun _ next s₁ b s₂ _ hlast hgood => ?_) fun _ next s₁ e s₂ _ hlast hat => ?_
      · have hkeeps := hadvancing a s next s₁ hok
        cases hnext with
        | done ha₁ => exact .pure hs₁ ha₁
        | yield ha₁ =>
            -- the step has passed a token, so both bounds still suffice
            simp only [stepKeeps_yield] at hkeeps
            exact ih bound' hs₁ ha₁ (by omega) (by omega)
      · cases next with
        | done b' =>
            cases hlast
            exact hgood
        | yield b' => exact hgoes bound b' s₁ b s₂ hlast hgood
      · cases next with
        | done b' => cases hlast
        | yield b' => exact hseen bound b' s₁ e s₂ hlast hat

end Alike

end Link

/-! ## Two cursors -/

/-- The tokens that begin an item of a file, `include` apart. -/
def itemHeads : List Kind :=
  [.kwNode, .kwFunction, .kwUnsafe, .kwExtern, .kwType, .kwConst, .kwPackage, .kwModel]

theorem itemHeads_cases {P : Kind → Prop} (hnode : P .kwNode) (hfunction : P .kwFunction)
    (hdanger : P .kwUnsafe) (hexternal : P .kwExtern) (htype : P .kwType) (hconst : P .kwConst)
    (hpackage : P .kwPackage) (hmodel : P .kwModel) : ∀ kind ∈ itemHeads, P kind := by
  intro kind hkind
  simp only [itemHeads, List.mem_cons, List.not_mem_nil, or_false] at hkind
  rcases hkind with rfl | rfl | rfl | rfl | rfl | rfl | rfl | rfl <;> assumption

/-- How the tokens of a text stand in another: where each offset is found, and what follows. -/
structure Context where
  place : Nat → Nat
  later : List Token
  mono : ∀ a b, a ≤ b → place a ≤ place b
  opens : ∀ token ∈ later.head?, token.kind ∈ itemHeads

namespace Context

variable (M : Context)

/-- The tokens to come for the first cursor are to come for the second, in their places there and
before those that follow.  No blanks around `::` get lost. -/
structure Beside (c c' : Cursor) : Prop where
  rest : c'.rest = move M.place c.rest ++ M.later
  last : ∀ start, max c'.last (M.place start) = M.place (max c.last start)
  size : M.later = [] → c'.size = M.place c.size
  qualified : ∀ first second, [first, second] <:+: c.rest →
    first.kind = .colonColon ∨ second.kind = .colonColon →
    M.place first.span.stop = M.place second.span.start → first.span.stop = second.span.start

/-- What comes next for the first cursor comes next for the second, be it the end. -/
def Aligned (c : Cursor) : Prop := c.rest ≠ [] ∨ M.later = []

/-- Cursors as the states of two runs. -/
def cursors : Link Cursor := ⟨M.place, M.Beside, M.later = [], fun c => c.rest ≠ []⟩

/-- The same in its place in the other text. -/
def Moved [Movable α] (a a' : α) : Prop := a' = move M.place a

/-- From two cursors, the second reader answers what the first answers, as far as `R` tells. -/
abbrev Reads (R : α → β → Prop) (read : Read α) (read' : Read β) (c c' : Cursor) : Prop :=
  M.cursors.Alike (fun _ _ => True) R read read' c c'

/-- From any two cursors beside each other, the second reader answers what the first answers, moved
to its place in the other text. -/
def Carries [Movable α] (read read' : Read α) : Prop :=
  ∀ c c', M.Beside c c' → M.Reads M.Moved read read' c c'

variable {M}

theorem moved_concat [Movable α] (items : List α) (a : α) :
    M.Moved (items ++ [a]) (move M.place items ++ [move M.place a]) :=
  (move_append M.place items [a]).symm

/-! ### What is the same for both cursors -/

@[simp] theorem move_cover (first second : Span) :
    move M.place (first.cover second) = (move M.place first).cover (move M.place second) := by
  have hmin : M.place (min first.start second.start) =
      min (M.place first.start) (M.place second.start) := by
    rcases Nat.le_total first.start second.start with h | h
    · rw [Nat.min_eq_left h, Nat.min_eq_left (M.mono _ _ h)]
    · rw [Nat.min_eq_right h, Nat.min_eq_right (M.mono _ _ h)]
  have hmax : M.place (max first.stop second.stop) =
      max (M.place first.stop) (M.place second.stop) := by
    rcases Nat.le_total first.stop second.stop with h | h
    · rw [Nat.max_eq_right h, Nat.max_eq_right (M.mono _ _ h)]
    · rw [Nat.max_eq_left h, Nat.max_eq_left (M.mono _ _ h)]
  change (⟨M.place (min first.start second.start),
    M.place (max first.stop second.stop), _⟩ : Span) = _
  rw [hmin, hmax]
  rfl

namespace Beside

variable {c c' : Cursor}

theorem spanFrom (h : M.Beside c c') (start : Nat) :
    c'.spanFrom (M.place start) = move M.place (c.spanFrom start) := by
  change (⟨M.place start, max c'.last (M.place start), 0⟩ : Span) = _
  rw [h.last]
  rfl

/-- Passing the next token, or standing still at the end of both. -/
theorem pass (h : M.Beside c c') (haligned : M.Aligned c) : M.Beside c.pass c'.pass := by
  obtain ⟨hrest, hlast, hsize, hqualified⟩ := h
  rcases c with ⟨_ | ⟨token, rest⟩, last, size⟩
  · -- both are at the end
    have hlater : M.later = [] := haligned.resolve_left fun hne => hne rfl
    have hend : c'.pass = c' := by
      unfold Cursor.pass
      rw [hrest, hlater]
      rfl
    rw [hend]
    exact ⟨hrest, hlast, hsize, hqualified⟩
  · have hpass : c'.pass = ⟨move M.place rest ++ M.later, M.place token.span.stop, c'.size⟩ := by
      unfold Cursor.pass
      rw [hrest]
      rfl
    rw [hpass]
    refine ⟨rfl, fun start => ?_, hsize, fun first second hwithin => ?_⟩
    · change max (M.place token.span.stop) (M.place start) = M.place (max token.span.stop start)
      rcases Nat.le_total token.span.stop start with hle | hle
      · rw [Nat.max_eq_right hle, Nat.max_eq_right (M.mono _ _ hle)]
      · rw [Nat.max_eq_left hle, Nat.max_eq_left (M.mono _ _ hle)]
    · exact hqualified first second (hwithin.trans (List.suffix_cons _ _).isInfix)

theorem span (h : M.Beside c c') (haligned : M.Aligned c) : c'.span = move M.place c.span := by
  unfold Cursor.span
  rw [h.rest]
  rcases hrest : c.rest with _ | ⟨token, rest⟩
  · have hlater : M.later = [] := haligned.resolve_left fun hne => hne hrest
    rw [hlater]
    change Span.point c'.size = _
    rw [h.size hlater]
    rfl
  · rfl

/-- As far as the tokens of the first cursor go, the second sees the same kinds. -/
theorem peekAt_of_lt (h : M.Beside c c') {ahead : Nat} (hlt : ahead < c.rest.length) :
    c'.peekAt ahead = c.peekAt ahead := by
  have hlt' : ahead < (move M.place c.rest).length := by rwa [length_move]
  unfold Cursor.peekAt
  rw [h.rest, List.getElem?_append_left hlt', move_list, List.getElem?_map, Option.map_map]
  rfl

/-- At the end of the first cursor's tokens, the second sees nothing or the beginning of an item. -/
theorem peekAt_length (h : M.Beside c c') :
    c.peekAt c.rest.length = none ∧ c'.peekAt c.rest.length = (M.later.head?.map Token.kind) := by
  have hlength : (move M.place c.rest).length = c.rest.length := length_move _ _
  constructor
  · simp [Cursor.peekAt]
  · unfold Cursor.peekAt
    rw [h.rest, List.getElem?_append_right (by omega), hlength, Nat.sub_self]
    cases M.later <;> rfl

/-- Of kinds that begin no item, both cursors see the same, not farther than the end of the
first. -/
theorem peekAt_iff (h : M.Beside c c') {ahead : Nat}
    (hsees : ahead ≤ c.rest.length ∨ M.later = []) {kind : Kind} (hkind : kind ∉ itemHeads) :
    c'.peekAt ahead = some kind ↔ c.peekAt ahead = some kind := by
  by_cases hlt : ahead < c.rest.length
  · rw [h.peekAt_of_lt hlt]
  · rcases hsees with hle | hlater
    · obtain rfl : ahead = c.rest.length := by omega
      obtain ⟨hnone, hlater⟩ := h.peekAt_length
      rw [hnone, hlater]
      refine ⟨fun hsome => absurd ?_ hkind, nofun⟩
      obtain ⟨token, hhead, rfl⟩ := Option.map_eq_some_iff.mp hsome
      exact M.opens token hhead
    · refine ⟨fun hsome => absurd (Cursor.lt_of_peekAt hsome) ?_, fun hsome =>
        absurd (Cursor.lt_of_peekAt hsome) hlt⟩
      rwa [h.rest, hlater, List.append_nil, length_move]

theorem peek_iff (h : M.Beside c c') {kind : Kind} (hkind : kind ∉ itemHeads) :
    c'.peek = some kind ↔ c.peek = some kind := by
  have hiff := h.peekAt_iff (.inl (Nat.zero_le _)) hkind
  rwa [Cursor.peekAt_zero, Cursor.peekAt_zero] at hiff

theorem isAt (h : M.Beside c c') {kind : Kind} (hkind : kind ∉ itemHeads) :
    c'.isAt kind = c.isAt kind := by
  rw [Bool.eq_iff_iff]
  simpa [Cursor.isAt] using h.peek_iff hkind

/-- Where both cursors see a token or the end, they see the same. -/
theorem peekAt_eq (h : M.Beside c c') {ahead : Nat} (hsees : ahead < c.rest.length ∨ M.later = []) :
    c'.peekAt ahead = c.peekAt ahead := by
  rcases hsees with hlt | hlater
  · exact h.peekAt_of_lt hlt
  · unfold Cursor.peekAt
    rw [h.rest, hlater, List.append_nil, move_list, List.getElem?_map, Option.map_map]
    rfl

theorem peek (h : M.Beside c c') (haligned : M.Aligned c) : c'.peek = c.peek := by
  have hpeek := h.peekAt_eq (haligned.imp List.length_pos_iff.mpr id)
  rwa [Cursor.peekAt_zero, Cursor.peekAt_zero] at hpeek

/-- Where the first cursor is at its end and the second is not, the second is at an item. -/
theorem peek_of_not_aligned (h : M.Beside c c') (hend : ¬M.Aligned c) :
    c.peek = none ∧ ∃ kind ∈ itemHeads, c'.peek = some kind := by
  have hrest : c.rest = [] := Decidable.byContradiction fun hne => hend (.inl hne)
  obtain ⟨token, later, hlater⟩ := List.exists_cons_of_ne_nil fun hnil => hend (.inr hnil)
  refine ⟨by rw [Cursor.peek, hrest]; rfl, token.kind, ?_, ?_⟩
  · exact M.opens token (by rw [hlater]; rfl)
  · rw [Cursor.peek, h.rest, hrest, hlater]
    rfl

theorem found (h : M.Beside c c') (haligned : M.Aligned c) : c'.found = c.found := by
  unfold Cursor.found
  rw [h.rest]
  rcases hrest : c.rest with _ | ⟨token, rest⟩
  · rw [haligned.resolve_left fun hne => hne hrest]
    rfl
  · rfl

theorem unexpected (h : M.Beside c c') (haligned : M.Aligned c) (options : List Kind) :
    c'.unexpected options = move M.place (c.unexpected options) := by
  rw [Cursor.unexpected, h.found haligned, h.span haligned]
  rfl

theorem missing (h : M.Beside c c') (haligned : M.Aligned c) (wanted : Wanted) :
    c'.missing wanted = move M.place (c.missing wanted) := by
  rw [Cursor.missing, h.found haligned, h.span haligned]
  rfl

theorem length_le (h : M.Beside c c') : c.rest.length ≤ c'.rest.length := by
  rw [h.rest, List.length_append, length_move]
  omega

end Beside

theorem Aligned.sees_one {c : Cursor} (h : M.Aligned c) : 1 ≤ c.rest.length ∨ M.later = [] :=
  h.imp List.length_pos_iff.mpr id

theorem aligned_of_peek {c : Cursor} {kind : Kind} (h : c.peek = some kind) : M.Aligned c := by
  refine .inl fun hrest => ?_
  simp [Cursor.peek, hrest] at h

/-! ## Readers from two cursors -/

namespace Reads

variable {c c' : Cursor} {R : α → β → Prop} {S : γ → δ → Prop} {kind : Kind}

theorem pure {a : α} {a' : β} (hc : M.Beside c c') (h : R a a') :
    M.Reads R (Pure.pure a) (Pure.pure a') c c' :=
  Link.Alike.pure hc h

theorem throw {d d' : Diagnostic} (hc : M.Beside c c') (h : d' = move M.place d) :
    M.Reads R (MonadExcept.throw d) (MonadExcept.throw d') c c' :=
  Link.Alike.throw hc fun _ => h

theorem bind {read : Read α} {read' : Read β} {next : α → Read γ} {next' : β → Read δ}
    (h : M.Reads R read read' c c')
    (hnext : ∀ a a' c₁ c₁', R a a' → M.Beside c₁ c₁' → M.Reads S (next a) (next' a') c₁ c₁') :
    M.Reads S (read >>= next) (read' >>= next') c c' :=
  Link.Alike.bind h (fun a a' c₁ c₁' _ => hnext a a' c₁ c₁') (fun _ _ _ _ _ _ _ _ => trivial)
    fun _ _ _ _ _ _ _ _ => trivial

theorem get {next : Cursor → Read γ} {next' : Cursor → Read δ}
    (h : M.Reads S (next c) (next' c') c c') :
    M.Reads S (MonadState.get >>= next) (MonadState.get >>= next') c c' :=
  h

/-- A reader that fails at the end needs a look only where the cursors see the same. -/
theorem starved {read : Read α} {read' : Read β} [hstarved : Starved read]
    (h : M.Aligned c → M.Reads R read read' c c') : M.Reads R read read' c c' := by
  by_cases haligned : M.Aligned c
  · exact h haligned
  · have hrest : c.rest = [] := Decidable.byContradiction fun hne => haligned (.inl hne)
    obtain ⟨e, c₁, herror, hrest₁⟩ := hstarved.fails c hrest
    unfold Reads Link.Alike
    rw [herror]
    rintro (hlater | hseen)
    · exact absurd (.inr hlater) haligned
    · exact absurd hrest₁ hseen

/-- The same for a reader that is seen to fail there. -/
theorem aligned {read : Read α} {read' : Read β}
    (hend : ∀ last size, ∃ e c₁, read ⟨[], last, size⟩ = .error e c₁ ∧ c₁.rest = [])
    (h : M.Aligned c → M.Reads R read read' c c') : M.Reads R read read' c c' :=
  have := Starved.of_end hend
  starved h

theorem here {next : Nat → Read γ} {next' : Nat → Read δ} (hc : M.Beside c c')
    (haligned : M.Aligned c)
    (h : ∀ start, M.Reads S (next start) (next' (M.place start)) c c') :
    M.Reads S (Read.here >>= next) (Read.here >>= next') c c' := by
  change M.Reads S (next c.span.start) (next' c'.span.start) c c'
  rw [hc.span haligned]
  exact h _

theorem spanFrom {start : Nat} {next : Span → Read γ} {next' : Span → Read δ} (hc : M.Beside c c')
    (h : ∀ span, M.Reads S (next span) (next' (move M.place span)) c c') :
    M.Reads S (Read.spanFrom start >>= next) (Read.spanFrom (M.place start) >>= next') c c' := by
  change M.Reads S (next (c.spanFrom start)) (next' (c'.spanFrom (M.place start))) c c'
  rw [hc.spanFrom]
  exact h _

theorem advance {next : Unit → Read γ} {next' : Unit → Read δ} (hc : M.Beside c c')
    (haligned : M.Aligned c)
    (h : M.Beside c.pass c'.pass → M.Reads S (next ()) (next' ()) c.pass c'.pass) :
    M.Reads S (Read.advance >>= next) (Read.advance >>= next') c c' :=
  h (hc.pass haligned)

theorem peek {next : Option Kind → Read γ} {next' : Option Kind → Read δ} (hc : M.Beside c c')
    (haligned : M.Aligned c) (h : M.Reads S (next c.peek) (next' c.peek) c c') :
    M.Reads S (Read.peek >>= next) (Read.peek >>= next') c c' := by
  change M.Reads S (next c.peek) (next' c'.peek) c c'
  rw [hc.peek haligned]
  exact h

/-- A look at the next token that takes the beginning of an item for an end. -/
theorem peekPast {next : Option Kind → Read γ} {next' : Option Kind → Read δ} (hc : M.Beside c c')
    (hend : ∀ kind ∈ itemHeads, next' (some kind) = next' none)
    (h : M.Reads S (next c.peek) (next' c.peek) c c') :
    M.Reads S (Read.peek >>= next) (Read.peek >>= next') c c' := by
  by_cases haligned : M.Aligned c
  · exact peek hc haligned h
  · obtain ⟨hnone, kind, hkind, hsome⟩ := hc.peek_of_not_aligned haligned
    change M.Reads S (next c.peek) (next' c'.peek) c c'
    rw [hsome, hend kind hkind, ← hnone]
    exact h

theorem ifAt {yes no : Read γ} {yes' no' : Read δ} (hc : M.Beside c c') (hkind : kind ∉ itemHeads)
    (hyes : c.peek = some kind → M.Reads S yes yes' c c')
    (hno : c.peek ≠ some kind → M.Reads S no no' c c') :
    M.Reads S (Read.isAt kind >>= fun found => if found = true then yes else no)
      (Read.isAt kind >>= fun found => if found = true then yes' else no') c c' := by
  change M.Reads S (if c.isAt kind = true then yes else no)
    (if c'.isAt kind = true then yes' else no')
    c c'
  rw [hc.isAt hkind]
  by_cases hat : c.isAt kind = true
  · rw [if_pos hat, if_pos hat]
    exact hyes (by simpa [Cursor.isAt] using hat)
  · rw [if_neg hat, if_neg hat]
    exact hno (by simpa [Cursor.isAt] using hat)

/-- Two steps that are known to succeed. -/
theorem after {read : Read α} {read' : Read β} {next : α → Read γ} {next' : β → Read δ} {a : α}
    {a' : β} {c₁ c₁' : Cursor} (h : read c = .ok a c₁) (h' : read' c' = .ok a' c₁')
    (hnext : M.Reads S (next a) (next' a') c₁ c₁') :
    M.Reads S (read >>= next) (read' >>= next') c c' := by
  unfold Reads Link.Alike at *
  rwa [bind_of_ok h, bind_of_ok h']

/-- Both cursors pass the next token, or neither does. -/
theorem eatSame {next : Bool → Read γ} {next' : Bool → Read δ} (hc : M.Beside c c')
    (hiff : c'.peek = some kind ↔ c.peek = some kind)
    (hyes : c.peek = some kind → M.Beside c.pass c'.pass →
      M.Reads S (next true) (next' true) c.pass c'.pass)
    (hno : c.peek ≠ some kind → M.Reads S (next false) (next' false) c c') :
    M.Reads S (Read.eat kind >>= next) (Read.eat kind >>= next') c c' := by
  by_cases hpeek : c.peek = some kind
  · exact after (Read.eat_of_peek hpeek) (Read.eat_of_peek (hiff.mpr hpeek))
      (hyes hpeek (hc.pass (aligned_of_peek hpeek)))
  · exact after (Read.eat_of_ne hpeek) (Read.eat_of_ne fun h => hpeek (hiff.mp h)) (hno hpeek)

theorem eat {next : Bool → Read γ} {next' : Bool → Read δ} (hc : M.Beside c c')
    (hkind : kind ∉ itemHeads)
    (hyes : c.peek = some kind → M.Beside c.pass c'.pass →
      M.Reads S (next true) (next' true) c.pass c'.pass)
    (hno : c.peek ≠ some kind → M.Reads S (next false) (next' false) c c') :
    M.Reads S (Read.eat kind >>= next) (Read.eat kind >>= next') c c' :=
  eatSame hc (hc.peek_iff hkind) hyes hno

theorem ifEat {yes no : Read γ} {yes' no' : Read δ} (hc : M.Beside c c') (hkind : kind ∉ itemHeads)
    (hyes : c.peek = some kind → M.Beside c.pass c'.pass → M.Reads S yes yes' c.pass c'.pass)
    (hno : c.peek ≠ some kind → M.Reads S no no' c c') :
    M.Reads S (Read.eat kind >>= fun found => if found = true then yes else no)
      (Read.eat kind >>= fun found => if found = true then yes' else no') c c' :=
  eat hc hkind (fun hpeek hpass => by simpa using hyes hpeek hpass) fun hpeek => by
    simpa using hno hpeek

/-- A token that must be there is there for both, since the end fails. -/
theorem expect {next : Span → Read γ} {next' : Span → Read δ} (hc : M.Beside c c')
    (h : c.peek = some kind → ∀ span, M.Beside c.pass c'.pass →
      M.Reads S (next span) (next' (move M.place span)) c.pass c'.pass) :
    M.Reads S (Read.expect kind >>= next) (Read.expect kind >>= next') c c' := by
  refine starved fun haligned => ?_
  have hsame := hc.peek haligned
  by_cases hpeek : c.peek = some kind
  · refine after (Read.expect_of_peek hpeek) (Read.expect_of_peek (hsame.trans hpeek)) ?_
    rw [hc.span haligned]
    exact h hpeek _ (hc.pass haligned)
  · refine bind (R := fun _ _ => False) ?_ fun _ _ _ _ hfalse => hfalse.elim
    unfold Reads Link.Alike
    rw [Read.expect_of_ne hpeek]
    refine fun _ => ⟨c', ?_, hc⟩
    rw [Read.expect_of_ne (hsame ▸ hpeek), hc.unexpected haligned]
    rfl

theorem take? {next : Option Token → Read γ} {next' : Option Token → Read δ} (hc : M.Beside c c')
    (hkind : kind ∉ itemHeads)
    (hsome : ∀ token rest, c.rest = token :: rest → token.kind = kind → M.Beside c.pass c'.pass →
      M.Reads S (next (some token)) (next' (some (move M.place token))) c.pass c'.pass)
    (hnone : c.peek ≠ some kind → M.Reads S (next none) (next' none) c c') :
    M.Reads S (Read.take? kind >>= next) (Read.take? kind >>= next') c c' := by
  by_cases hpeek : c.peek = some kind
  · rcases hrest : c.rest with _ | ⟨token, rest⟩
    · simp [Cursor.peek, hrest] at hpeek
    · have htoken : token.kind = kind := by simpa [Cursor.peek, hrest] using hpeek
      have hrest' : c'.rest = move M.place token :: (move M.place rest ++ M.later) := by
        rw [hc.rest, hrest]
        rfl
      exact after (Read.take?_of_rest hrest htoken) (Read.take?_of_rest hrest' htoken)
        (hsome token rest hrest htoken (hc.pass (aligned_of_peek hpeek)))
  · exact after (Read.take?_of_ne hpeek)
      (Read.take?_of_ne fun h => hpeek ((hc.peek_iff hkind).mp h)) (hnone hpeek)

theorem fail {cause : Cause} (hc : M.Beside c c') :
    M.Reads R (Read.fail cause : Read α) (Read.fail cause : Read β) c c' := by
  refine starved fun haligned => ?_
  change M.Reads R (MonadExcept.throw ⟨cause, c.span⟩) (MonadExcept.throw ⟨cause, c'.span⟩) c c'
  rw [hc.span haligned]
  exact throw hc rfl

theorem unexpected {options : List Kind} (hc : M.Beside c c') :
    M.Reads R (Read.unexpected options : Read α) (Read.unexpected options : Read β) c c' := by
  refine starved fun haligned => ?_
  change M.Reads R (MonadExcept.throw (c.unexpected options))
    (MonadExcept.throw (c'.unexpected options)) c c'
  exact throw hc (hc.unexpected haligned options)

theorem missing {wanted : Wanted} (hc : M.Beside c c') :
    M.Reads R (Read.missing wanted : Read α) (Read.missing wanted : Read β) c c' := by
  refine starved fun haligned => ?_
  change M.Reads R (MonadExcept.throw (c.missing wanted))
    (MonadExcept.throw (c'.missing wanted)) c c'
  exact throw hc (hc.missing haligned wanted)

/-- Loops whose steps are alike are alike, whatever tokens follow. -/
theorem iterate {step : α → Read (ForInStep α)} {step' : β → Read (ForInStep β)} {a : α} {a' : β}
    (hadvancing : Advancing step) (hc : M.Beside c c') (ha : R a a')
    (hstep : ∀ a a' c c', R a a' → M.Beside c c' →
      M.Reads (Link.StepAlike R) (step a) (step' a') c c') :
    M.Reads R (Read.iterate a step) (Read.iterate a' step') c c' := by
  have hlength := hc.length_le
  refine Link.Alike.iterateUpTo (G := fun _ => True) (fun c : Cursor => c.rest.length) hadvancing
    (fun a a' c c' ha hc => ?_) (fun _ _ _ _ _ _ _ => trivial)
    (fun _ _ _ _ _ _ _ => trivial) _ _ hc ha
    (Nat.lt_succ_self _) (Nat.lt_succ_of_le hlength)
  exact (hstep a a' c c' ha hc).mono (fun _ _ _ => trivial) fun _ _ h => h

end Reads

/-! ## Readers that carry over -/

namespace Carries

variable [Movable α] [Movable β] {c c' : Cursor}

/-- What follows a reader that carries over. -/
theorem bind {S : γ → δ → Prop} {read read' : Read α} {next : α → Read γ} {next' : α → Read δ}
    (h : M.Carries read read') (hc : M.Beside c c')
    (hnext : ∀ a c₁ c₁', M.Beside c₁ c₁' → M.Reads S (next a) (next' (move M.place a)) c₁ c₁') :
    M.Reads S (read >>= next) (read' >>= next') c c' :=
  .bind (h c c' hc) fun a a' c₁ c₁' ha hc₁ => by
    cases ha
    exact hnext a c₁ c₁' hc₁

/-- What is read with its place and fails at the end needs a look only where the cursors see the
same. -/
theorem located_of_aligned {read read' : Read α} [Starved read]
    (h : ∀ c c', M.Beside c c' → M.Aligned c → M.Reads M.Moved read read' c c') :
    M.Carries (Read.located read) (Read.located read') := fun c c' hc =>
  .starved fun haligned => .here hc haligned fun _ =>
    .bind (h c c' hc haligned) fun a a' _ _ ha hc₁ => .spanFrom hc₁ fun _ =>
      .pure hc₁ (by cases ha; rfl)

theorem located {read read' : Read α} [Starved read] (h : M.Carries read read') :
    M.Carries (Read.located read) (Read.located read') :=
  located_of_aligned fun c c' hc _ => h c c' hc

theorem optionalAt {read read' : Read α} {kind : Kind} (hkind : kind ∉ itemHeads)
    (h : M.Carries read read') :
    M.Carries (Read.optionalAt kind read) (Read.optionalAt kind read') := fun _ _ hc =>
  .ifAt hc hkind (fun _ => h.bind hc fun _ _ _ hc₁ => .pure hc₁ rfl) fun _ => .pure hc rfl

theorem optionalAfter {read read' : Read α} {kind : Kind} (hkind : kind ∉ itemHeads)
    (h : M.Carries read read') :
    M.Carries (Read.optionalAfter kind read) (Read.optionalAfter kind read') := fun _ _ hc =>
  .ifEat hc hkind (fun _ hpass => h.bind hpass fun _ _ _ hc₁ => .pure hc₁ rfl) fun _ => .pure hc rfl

end Carries

/-- A loop that carries over, step by step. -/
theorem reads_iterate [Movable α] {step step' : α → Read (ForInStep α)} {a : α} {c c' : Cursor}
    (hadvancing : Advancing step) (hc : M.Beside c c')
    (hstep : ∀ a c c', M.Beside c c' →
      M.Reads (Link.StepAlike M.Moved) (step a) (step' (move M.place a)) c c') :
    M.Reads M.Moved (Read.iterate a step) (Read.iterate (move M.place a) step') c c' :=
  .iterate hadvancing hc rfl fun a a' c c' ha hc => by
    cases ha
    exact hstep a c c' hc

theorem carries_eat {kind : Kind} (hkind : kind ∉ itemHeads) :
    M.Carries (Read.eat kind) (Read.eat kind) := by
  intro c c' hc
  have heat : M.Reads M.Moved (Read.eat kind >>= Pure.pure) (Read.eat kind >>= Pure.pure) c c' :=
    .eat hc hkind (fun _ hpass => .pure hpass rfl) fun _ => .pure hc rfl
  rwa [bind_pure] at heat

theorem carries_expect (kind : Kind) : M.Carries (Read.expect kind) (Read.expect kind) := by
  intro c c' hc
  have hexpect : M.Reads M.Moved (Read.expect kind >>= Pure.pure)
      (Read.expect kind >>= Pure.pure) c c' :=
    .expect hc fun _ span hpass => .pure hpass rfl
  rwa [bind_pure] at hexpect

section

variable [Movable α] {item item' : Read α} [Forward item]

omit [Forward item] in
theorem reads_commaStep (hitem : M.Carries item item') (items : List α) (c c' : Cursor)
    (hc : M.Beside c c') :
    M.Reads (Link.StepAlike M.Moved) (Read.commaStep item items)
      (Read.commaStep item' (move M.place items)) c c' :=
  .ifEat hc (by decide)
    (fun _ hpass => hitem.bind hpass fun a _ _ hc₁ => .pure hc₁ (.yield (moved_concat items a)))
    fun _ => .pure hc (.done rfl)

theorem carries_commaList (hitem : M.Carries item item') :
    M.Carries (Read.commaList item) (Read.commaList item') := fun _ _ hc =>
  hitem.bind hc fun _ _ _ hc₁ =>
    reads_iterate (Read.advancing_commaStep item) hc₁ (reads_commaStep hitem)

theorem reads_eatAny {kinds : List Kind} (hkinds : ∀ kind ∈ kinds, kind ∉ itemHeads) {c c' : Cursor}
    (hc : M.Beside c c') {S : γ → δ → Prop} {next : Bool → Read γ} {next' : Bool → Read δ}
    (h : ∀ found c₁ c₁', M.Beside c₁ c₁' → M.Reads S (next found) (next' found) c₁ c₁') :
    M.Reads S (Read.eatAny kinds >>= next) (Read.eatAny kinds >>= next') c c' := by
  refine .bind (R := fun found found' => found' = found) ?_ fun found found' c₁ c₁' heq hc₁ => ?_
  · induction kinds with
    | nil => exact .pure hc rfl
    | cons kind kinds ih =>
        refine .ifEat hc (hkinds kind List.mem_cons_self)
          (fun _ hpass => .pure hpass rfl) fun _ => ?_
        exact ih fun other hother => hkinds other (List.mem_cons_of_mem _ hother)
  · cases heq
    exact h found c₁ c₁' hc₁

theorem carries_separated {close : Kind} {separators : List Kind} (hclose : close ∉ itemHeads)
    (hseparators : ∀ kind ∈ separators, kind ∉ itemHeads) (hitem : M.Carries item item') :
    M.Carries (Read.separated close separators item) (Read.separated close separators item') := by
  intro c c' hc
  refine reads_iterate (a := []) (Read.advancing_separatedStep close separators item) hc
    fun items c c' hc => ?_
  refine .ifAt hc hclose (fun _ => .pure hc (.done rfl)) fun _ => ?_
  refine hitem.bind hc fun a c₁ c₁' hc₁ => ?_
  refine reads_eatAny hseparators hc₁ fun found c₂ c₂' hc₂ => ?_
  split
  · exact .pure hc₂ (.yield (moved_concat items a))
  · exact .pure hc₂ (.done (moved_concat items a))

/-- Items that go on as long as a token of `starts` comes next: if such a token could begin an item,
they carry over only if some token is left in the end. -/
theorem alike_terminated {starts : List Kind} {good : List α → Cursor → Prop}
    (hitem : M.Carries item item')
    (hgood : ∀ items c, good items c → c.rest = [] → ∀ kind ∈ starts, kind ∉ itemHeads)
    {c c' : Cursor} (hc : M.Beside c c') :
    M.cursors.Alike good M.Moved (Read.terminated starts item)
      (Read.terminated starts item') c c' := by
  have hlength := hc.length_le
  refine Link.Alike.iterateUpTo (G := fun _ => True) (fun c : Cursor => c.rest.length)
    (Read.advancing_terminatedStep starts item) (fun items items' c c' hitems hc => ?_)
    (fun _ _ _ _ _ _ _ => trivial) (fun _ _ _ _ _ _ _ => trivial) _ _ hc rfl (Nat.lt_succ_self _)
    (Nat.lt_succ_of_le hlength)
  cases hitems
  refine .bind (hitem c c' hc) (fun a a' c₁ c₁' _ ha hc₁ => ?_) (fun _ _ _ _ _ _ _ _ => trivial)
    fun _ _ _ _ _ _ _ _ => trivial
  cases ha
  refine .bind (carries_expect _ c₁ c₁' hc₁) (fun _ _ c₂ c₂' _ _ hc₂ => ?_)
    (fun _ _ _ _ _ _ _ _ => trivial) fun _ _ _ _ _ _ _ _ => trivial
  change M.cursors.Alike _ _
    ((if c₂.peek.any starts.contains = true then _ else _ : Read (ForInStep (List α))))
    (if c₂'.peek.any starts.contains = true then _ else _) c₂ c₂'
  by_cases haligned : M.Aligned c₂
  · rw [hc₂.peek haligned]
    split
    · exact .pure hc₂ (.yield (moved_concat items a))
    · exact .pure hc₂ (.done (moved_concat items a))
  · -- the first run is at its end and ends the list, for which some token must not begin an item
    obtain ⟨hnone, kind, hkind, hsome⟩ := hc₂.peek_of_not_aligned haligned
    have hrest : c₂.rest = [] := Decidable.byContradiction fun hne => haligned (.inl hne)
    rw [hnone, hsome]
    rintro (hstrict | hends)
    · exact absurd (.inr hstrict) haligned
    · have hother : starts.contains kind = false := by
        rw [List.contains_eq_mem, decide_eq_false_iff_not]
        exact fun hmem => hgood _ c₂ hends hrest kind hmem hkind
      exact ⟨_, c₂', by rw [Option.any_some, hother]; rfl, .done (moved_concat items a), hc₂⟩

theorem carries_terminated {starts : List Kind} (hstarts : ∀ kind ∈ starts, kind ∉ itemHeads)
    (hitem : M.Carries item item') :
    M.Carries (Read.terminated starts item) (Read.terminated starts item') := fun _ _ =>
  alike_terminated hitem fun _ _ _ _ => hstarts

end

end Context

end Lustre
