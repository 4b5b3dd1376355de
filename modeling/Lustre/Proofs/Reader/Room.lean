import Lustre.Proofs.Reader.Sparing
import Lustre.Reader.Program

/-!
# As many levels as tokens are enough

What is nested one level deeper begins behind a token that the level above has passed: an
opening parenthesis, an operator, a keyword or a name.  So each further level takes up a token,
and where something is nested too deeply for some number of levels, at least as many tokens
were left (`Course.roomy`).
-/

namespace Lustre

variable {α β : Type}

/-- No token comes back, and if something is nested too deeply, there were at least `levels`
tokens. -/
def Course.roomy (levels : Nat) : Course := fun c cause c' =>
  c'.rest.length ≤ c.rest.length ∧ (cause = some .nestedTooDeeply → levels ≤ c.rest.length)

theorem Cursor.length_pass_lt {c : Cursor} {kind : Kind} (hpeek : c.peek = some kind) :
    c.pass.rest.length < c.rest.length := by
  rw [rest_pass, List.length_tail]
  cases hrest : c.rest with
  | nil => simp [peek, hrest] at hpeek
  | cons token rest => simp

namespace Course

variable {levels : Nat}

theorem roomy_pass {c : Cursor} {kind : Kind} (hpeek : c.peek = some kind) :
    roomy levels c none c.pass :=
  ⟨Nat.le_of_lt (Cursor.length_pass_lt hpeek), fun h => by cases h⟩

instance : Tolerant (roomy levels) where
  stay c := ⟨Nat.le_refl _, fun h => by cases h⟩
  fail c cause hne := ⟨Nat.le_refl _, fun h => absurd (Option.some.inj h) hne⟩
  pass hpeek _ := roomy_pass hpeek
  keyword hpeek _ := roomy_pass hpeek
  trans h₁ h₂ := ⟨Nat.le_trans h₂.1 h₁.1, fun hcause => Nat.le_trans (h₂.2 hcause) h₁.1⟩

end Course

/-! ## Behind a token -/

namespace Spares

variable {levels : Nat} {start c : Cursor}

/-- Behind a token there is room for one level more. -/
theorem behind {read : Read α} [h : Sparing (.roomy levels) read]
    (hbehind : c.rest.length < start.rest.length) : Spares (.roomy (levels + 1)) start read c :=
  ⟨Nat.le_of_lt (Nat.lt_of_le_of_lt (h.spares c).1 hbehind),
    fun hcause => Nat.lt_of_le_of_lt ((h.spares c).2 hcause) hbehind⟩

theorem behind_advance {next : Unit → Read β} {kind : Kind} (hpeek : c.peek = some kind)
    [hnext : Sparing (.roomy levels) (next ())] :
    Spares (.roomy (levels + 1)) c (Read.advance >>= next) c :=
  have hbehind : Spares (.roomy (levels + 1)) c (next ()) c.pass :=
    behind (Cursor.length_pass_lt hpeek)
  hbehind

end Spares

namespace Read

variable {levels : Nat}

theorem roomy_expect {kind : Kind} [IsFalse kind.isMarked] {next : Span → Read β}
    [∀ span, Sparing (.roomy levels) (next span)] :
    Sparing (.roomy (levels + 1)) (expect kind >>= next) where
  spares c := by
    refine (Sparing.spares c).bind fun span c' hread _ => .behind ?_
    by_cases hpeek : c.peek = some kind
    · rw [expect_of_peek hpeek] at hread
      cases hread
      exact Cursor.length_pass_lt hpeek
    · rw [expect_of_ne hpeek] at hread
      cases hread

/-! ## Expressions -/

variable (deep : Nested) [hdeep : deep.Sparing (.roomy levels)]

instance roomy_postfixStep (value : Expr) :
    Sparing (.roomy (levels + 1)) (postfixStep deep value) := by
  refine .peek fun c => ?_
  split
  · exact .behind_advance ‹_›
  · exact .behind_advance ‹_›
  · exact .behind_advance ‹_›
  · exact Sparing.spares c

instance roomy_postfixes (value : Expr) : Sparing (.roomy (levels + 1)) (postfixes deep value) := by
  unfold postfixes
  infer_instance

instance roomy_nameExpr : Sparing (.roomy (levels + 1)) (nameExpr deep) where
  spares c := by
    refine .here fun start => (Sparing.spares c).bind fun name c' hread _ => ?_
    have hshort : c'.rest.length < c.rest.length := by
      refine (meets_reference c name c' hread).1.shorter ?_
      obtain ⟨first, rest, hwords, -⟩ := name.beginsPlain
      simp [hwords]
    refine .peek ?_
    split
    · exact .behind hshort
    · exact .behind hshort
    · exact .behind hshort

instance roomy_primary : Sparing (.roomy (levels + 1)) (primary deep) := by
  refine .after fun start => .peek fun c => ?_
  split
  · exact .takeText ‹_›
  · exact .takeText ‹_›
  · exact .advance ‹_›
  · exact .advance ‹_›
  · exact Sparing.spares c
  · exact .behind_advance ‹_›
  · exact .behind_advance ‹_›
  · exact .behind_advance ‹_›
  · exact .behind_advance ‹_›
  · exact .behind_advance ‹_›
  · exact .behind_advance ‹_›
  · exact .behind_advance ‹_›
  · exact Sparing.spares c

instance roomy_prefixed : Sparing (.roomy (levels + 1)) (prefixed deep) := by
  refine .peek fun c => ?_
  split
  · rename_i op hop
    obtain ⟨kind, hpeek, -⟩ := Option.bind_eq_some_iff.mp hop
    exact .here fun place => .behind_advance hpeek
  · exact Sparing.spares c

instance roomy_innerStep (least : Nat) (lhs : Expr) :
    Sparing (.roomy (levels + 1)) (innerStep deep least lhs) where
  spares c := by
    refine .ifAt (fun hwhen => ?_) (.peek ?_)
    · split
      · exact Sparing.spares c
      · exact .behind_advance hwhen
    · split
      · rename_i op hop
        obtain ⟨kind, hpeek, -⟩ := Option.bind_eq_some_iff.mp hop
        split
        · exact Sparing.spares c
        · exact .behind_advance hpeek
      · exact Sparing.spares c

instance roomy_inner (least : Nat) : Sparing (.roomy (levels + 1)) (inner deep least) := by
  unfold inner
  infer_instance

instance roomy_comparison : Sparing (.roomy (levels + 1)) (comparison deep) :=
  sparing_comparison_of deep

instance roomy_topStep (least : Nat) (lhs : Expr) :
    Sparing (.roomy (levels + 1)) (topStep deep least lhs) := by
  refine .peek fun c => ?_
  split
  · rename_i op hop
    obtain ⟨kind, hpeek, -⟩ := Option.bind_eq_some_iff.mp hop
    split
    · exact Sparing.spares c
    · exact .behind_advance hpeek
  · exact Sparing.spares c

instance roomy_top (least : Nat) : Sparing (.roomy (levels + 1)) (top deep least) := by
  unfold top
  infer_instance

instance roomy_staticArgs : Sparing (.roomy (levels + 1)) (staticArgs deep) :=
  roomy_expect

end Read

/-- Where something is nested too deeply, no fewer tokens are left than there are levels. -/
instance Nested.roomy_upTo (levels : Nat) : (upTo levels).Sparing (.roomy levels) := by
  induction levels with
  | zero =>
      have hfail : ∀ {γ : Type}, Lustre.Sparing (.roomy 0) (Read.fail .nestedTooDeeply : Read γ) :=
        ⟨fun c => ⟨Nat.le_refl _, fun _ => Nat.zero_le _⟩⟩
      exact ⟨fun _ => hfail, fun _ => hfail, hfail⟩
  | succ levels ih =>
      exact ⟨Read.roomy_top _, Read.roomy_inner _, Read.roomy_staticArgs _⟩

instance Recover.roomy_wholeExpr (levels : Nat) :
    Sparing (.roomy levels) (wholeExpr (.upTo levels)) := by
  unfold wholeExpr
  infer_instance

end Lustre
