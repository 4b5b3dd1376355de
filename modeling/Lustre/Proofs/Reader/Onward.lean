import Lustre.Reader.Cursor
import Lustre.Proofs.Token.Tiling

/-!
# Cursors one behind the other

The cursors that a reader comes to are reached by passing tokens (`Cursor.Onward`).
As long as the tokens of a text are in order, so are the bytes that such cursors name:
where the next token begins and where the last one ended only ever move to the right.

A failure names a place (`Cursor.Marks`): it begins no farther to the left than where
the reader was started and no farther to the right than where it gave up, and both of
its ends are edges of tokens or the end of the text.
-/

namespace Lustre

namespace Cursor

/-- Passing a token leaves those after it. -/
theorem rest_pass (c : Cursor) : c.pass.rest = c.rest.tail := by
  unfold pass
  split <;> simp_all

/-! ## Never back -/

/-- The cursors that are reached by passing tokens. -/
inductive Onward (c : Cursor) : Cursor → Prop
  | here : c.Onward c
  | pass {c' : Cursor} (h : c.Onward c') : c.Onward c'.pass

namespace Onward

variable {c c₁ c₂ : Cursor}

theorem trans (h₁ : c.Onward c₁) (h₂ : c₁.Onward c₂) : c.Onward c₂ := by
  induction h₂ with
  | here => exact h₁
  | pass _ ih => exact ih.pass

theorem suffix (h : c.Onward c₁) : c₁.rest <:+ c.rest := by
  induction h with
  | here => exact List.suffix_refl _
  | @pass c' _ ih =>
      rw [rest_pass]
      exact (List.tail_suffix _).trans ih

theorem size (h : c.Onward c₁) : c₁.size = c.size := by
  induction h with
  | here => rfl
  | pass _ ih =>
      rw [← ih]
      unfold Cursor.pass
      split <;> rfl

/-- At the end there is nowhere to go. -/
theorem eq_of_end (h : c.Onward c₁) (hend : c.rest = []) : c₁ = c := by
  induction h with
  | here => rfl
  | pass _ ih =>
      rw [ih]
      unfold Cursor.pass
      rw [hend]

/-- The last token passed was one of those to come, unless none was passed. -/
theorem last_eq (h : c.Onward c₁) :
    c₁ = c ∨ ∃ token ∈ c.rest, c₁.last = token.span.stop := by
  induction h with
  | here => exact .inl rfl
  | @pass c' h ih =>
      unfold Cursor.pass
      split
      · rename_i token rest heq
        exact .inr ⟨token, h.suffix.mem (by rw [heq]; exact List.mem_cons_self), rfl⟩
      · exact ih

/-- The last token passed does not end behind all that were there. -/
theorem last_le (h : c.Onward c₁) {stop : Nat} (hlast : c.last ≤ stop)
    (hrest : ∀ token ∈ c.rest, token.span.stop ≤ stop) : c₁.last ≤ stop := by
  rcases h.last_eq with rfl | ⟨token, htoken, heq⟩
  · exact hlast
  · exact heq ▸ hrest token htoken

end Onward

/-! ## Tokens in order -/

/-- The tokens to come stand one behind the other, after the last one passed and within the text. -/
def InOrder (c : Cursor) : Prop := Token.Ordered c.last c.size c.rest

variable {c c' c₁ : Cursor}

namespace InOrder

/-- The last token passed, the next one and the end of the text come in this order. -/
theorem bounds (h : c.InOrder) :
    c.last ≤ c.span.start ∧ c.span.start ≤ c.span.stop ∧ c.span.stop ≤ c.size := by
  obtain ⟨rest, last, size⟩ := c
  cases rest with
  | nil => exact ⟨h, Nat.le_refl _, Nat.le_refl _⟩
  | cons token rest => exact ⟨h.1, h.2.1, h.2.2.2.le⟩

theorem pass (h : c.InOrder) : c.pass.InOrder := by
  obtain ⟨rest, last, size⟩ := c
  cases rest with
  | nil => exact h
  | cons token rest => exact h.2.2.2

theorem onward (hc : c.InOrder) (h : c.Onward c') : c'.InOrder := by
  induction h with
  | here => exact hc
  | pass _ ih => exact ih.pass

/-- A token that is passed ends where it was seen to end. -/
theorem last_pass (h : c.InOrder) : c.last ≤ c.pass.last ∧ c.pass.last ≤ c.span.stop := by
  have hbounds := h.bounds
  obtain ⟨rest, last, size⟩ := c
  cases rest with
  | nil => exact ⟨Nat.le_refl _, h⟩
  | cons token rest => exact ⟨Nat.le_trans hbounds.1 hbounds.2.1, Nat.le_refl _⟩

/-- What comes next never begins before what came next. -/
theorem start_pass (h : c.InOrder) : c.span.start ≤ c.pass.span.start := by
  have hbounds := h.bounds
  have hnext := h.pass.bounds
  obtain ⟨rest, last, size⟩ := c
  cases rest with
  | nil => exact Nat.le_refl _
  | cons token rest =>
      dsimp only [Cursor.span, Cursor.pass] at hbounds hnext ⊢
      omega

end InOrder

namespace Onward

theorem last_mono (h : c.Onward c') (hc : c.InOrder) : c.last ≤ c'.last := by
  induction h with
  | here => exact Nat.le_refl _
  | pass h ih => exact Nat.le_trans ih (hc.onward h).last_pass.1

theorem start_mono (h : c.Onward c') (hc : c.InOrder) : c.span.start ≤ c'.span.start := by
  induction h with
  | here => exact Nat.le_refl _
  | pass h ih => exact Nat.le_trans ih (hc.onward h).start_pass

end Onward

/-! ## Where a failure points -/

/-- A byte where one of the tokens to come begins or ends, or the text does. -/
def Edge (c : Cursor) (place : Nat) : Prop :=
  place = c.size ∨ ∃ token ∈ c.rest, place = token.span.start ∨ place = token.span.stop

theorem Edge.earlier {place : Nat} (h : c'.Edge place) (honward : c.Onward c') : c.Edge place := by
  rcases h with hsize | ⟨token, htoken, hplace⟩
  · exact .inl (hsize.trans honward.size)
  · exact .inr ⟨token, honward.suffix.mem htoken, hplace⟩

theorem edge_start (c : Cursor) : c.Edge c.span.start := by
  obtain ⟨rest, last, size⟩ := c
  cases rest with
  | nil => exact .inl rfl
  | cons token rest => exact .inr ⟨token, List.mem_cons_self, .inl rfl⟩

theorem edge_stop (c : Cursor) : c.Edge c.span.stop := by
  obtain ⟨rest, last, size⟩ := c
  cases rest with
  | nil => exact .inl rfl
  | cons token rest => exact .inr ⟨token, List.mem_cons_self, .inr rfl⟩

/-- A place that a reader may point at if it was started at `c` and gives up at `c'`. -/
structure Marks (c : Cursor) (span : Span) (c' : Cursor) : Prop where
  behind : c.span.start ≤ span.start
  before : span.start ≤ c'.span.start
  wide : span.start ≤ span.stop
  start : c.Edge span.start
  stop : c.Edge span.stop

namespace Marks

variable {span : Span}

/-- A reader that is started earlier may point there too. -/
theorem earlier (h : c₁.Marks span c') (hc : c.InOrder) (honward : c.Onward c₁) :
    c.Marks span c' where
  behind := Nat.le_trans (honward.start_mono hc) h.behind
  before := h.before
  wide := h.wide
  start := h.start.earlier honward
  stop := h.stop.earlier honward

/-- A token on the way. -/
theorem between (hc : c.InOrder) (h₁ : c.Onward c₁) (h₂ : c₁.Onward c') : c.Marks c₁.span c' where
  behind := h₁.start_mono hc
  before := h₂.start_mono (hc.onward h₁)
  wide := (hc.onward h₁).bounds.2.1
  start := c₁.edge_start.earlier h₁
  stop := c₁.edge_stop.earlier h₁

/-- The next token. -/
theorem here (hc : c.InOrder) : c.Marks c.span c := .between hc .here .here

/-- All that was passed. -/
theorem passed (hc : c.InOrder) (h : c.Onward c') : c.Marks (c'.spanFrom c.span.start) c' where
  behind := Nat.le_refl _
  before := h.start_mono hc
  wide := Nat.le_max_right _ _
  start := c.edge_start
  stop := by
    change c.Edge (max c'.last c.span.start)
    rcases h.last_eq with rfl | ⟨token, htoken, heq⟩
    · rw [Nat.max_eq_right hc.bounds.1]
      exact c'.edge_start
    · rcases Nat.le_total c'.last c.span.start with hle | hle
      · rw [Nat.max_eq_right hle]
        exact c.edge_start
      · rw [Nat.max_eq_left hle]
        exact .inr ⟨token, htoken, .inr heq⟩

/-- From the next token over another one to come. -/
theorem cover {first last : Token} {rest : List Token} (hc : c.InOrder)
    (hrest : c.rest = first :: rest) (hlast : last ∈ rest) (honward : c.Onward c') :
    c.Marks (first.span.cover last.span) c' := by
  have hstart : c.span = first.span := by rw [Cursor.span, hrest]
  have hordered := hc
  rw [InOrder, hrest] at hordered
  obtain ⟨-, hwide, -, hlater⟩ := hordered
  obtain ⟨hbehind, hlastWide⟩ := hlater.start_le last hlast
  have hmin : min first.span.start last.span.start = first.span.start := by omega
  have hmax : max first.span.stop last.span.stop = last.span.stop := by omega
  rw [Span.cover, hmin, hmax, ← hstart]
  refine ⟨Nat.le_refl _, honward.start_mono hc, ?_, c.edge_start, .inr ⟨last, ?_, .inr rfl⟩⟩
  · rw [hstart]
    exact Nat.le_trans hwide (Nat.le_trans hbehind hlastWide)
  · rw [hrest]
    exact List.mem_cons_of_mem _ hlast

end Marks

end Cursor

end Lustre
