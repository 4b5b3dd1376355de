import Lustre.Proofs.Reread.Edges

/-!
# How a chain of operators groups

A chain is an operand and any number of links, each a binary operator and the operand behind
it.  The table of operators says how a chain groups, without saying how to find out: its
root is the weakest operator, the first one of that level if the level groups to the right
and the last one otherwise, and what stands on either side of the root is a chain again
(`Groups`).  There is at most one such tree (`Groups.unique`).

A chain does not group at all if two comparisons stand in it with no operator of the top
tier between; `chained?` finds the first two.
-/

namespace Lustre

/-- An operator where it stands, and the operand behind it. -/
structure ChainLink where
  op : BinaryOp
  place : Span
  operand : Expr

/-- The level of the operator. -/
def ChainLink.level (link : ChainLink) : Nat := link.op.strength.prec.level

namespace BinaryOp

variable {op : BinaryOp}

theorem rightMin_le (op : BinaryOp) : op.strength.rightMin ≤ op.strength.prec.level + 1 := by
  cases op <;> decide

/-! The tiers are ranges of levels, with the comparisons on a level of their own. -/

theorem tier_top_iff : op.tier = .top ↔ op.strength.prec.level < Prec.equality.level := by
  cases op <;> decide

theorem tier_comparison_iff :
    op.tier = .comparison ↔ op.strength.prec.level = Prec.equality.level := by
  cases op <;> decide

theorem tier_inner_iff : op.tier = .inner ↔ Prec.equality.level < op.strength.prec.level := by
  cases op <;> decide

end BinaryOp

/-! ## The root of a chain -/

/-- No operator is weaker than `root`, and of those that are as weak `root` is the first if they
group to the right, and the last if they do not. -/
def IsRoot (before : List ChainLink) (root : ChainLink) (after : List ChainLink) : Prop :=
  match root.op.strength.assoc with
  | .right =>
      (∀ link ∈ before, root.level < link.level) ∧ ∀ link ∈ after, root.level ≤ link.level
  | .left | .none =>
      (∀ link ∈ before, root.level ≤ link.level) ∧ ∀ link ∈ after, root.level < link.level

/-- `tree` is the chain of `first` and some links, split at its root again and again. -/
inductive Groups : Expr → List ChainLink → Expr → Prop
  | operand (first : Expr) : Groups first [] first
  | split {first lhs rhs : Expr} {before after : List ChainLink} {root : ChainLink}
      (hroot : IsRoot before root after) (hleft : Groups first before lhs)
      (hright : Groups root.operand after rhs) :
      Groups first (before ++ root :: after) (Read.binary root.op lhs rhs)

namespace IsRoot

variable {before before' after after' : List ChainLink} {root root' link : ChainLink}

theorem le_before (h : IsRoot before root after) (hmem : link ∈ before) :
    root.level ≤ link.level := by
  unfold IsRoot at h
  split at h
  · exact Nat.le_of_lt (h.1 link hmem)
  · exact h.1 link hmem
  · exact h.1 link hmem

theorem le_after (h : IsRoot before root after) (hmem : link ∈ after) :
    root.level ≤ link.level := by
  unfold IsRoot at h
  split at h
  · exact h.2 link hmem
  · exact Nat.le_of_lt (h.2 link hmem)
  · exact Nat.le_of_lt (h.2 link hmem)

theorem lt_before (h : IsRoot before root after) (hright : root.op.strength.assoc = .right)
    (hmem : link ∈ before) : root.level < link.level := by
  unfold IsRoot at h
  rw [hright] at h
  exact h.1 link hmem

theorem lt_after (h : IsRoot before root after) (hright : root.op.strength.assoc ≠ .right)
    (hmem : link ∈ after) : root.level < link.level := by
  unfold IsRoot at h
  split at h
  · exact absurd ‹_› hright
  · exact h.2 link hmem
  · exact h.2 link hmem

/-- Of two operators in a chain only one is its root: they would be of one level, and there the
associativity decides. -/
theorem not_both (h : IsRoot before root after) (h' : IsRoot before' root' after')
    (hafter : root' ∈ after) (hbefore : root ∈ before') : False := by
  have hle : root.level ≤ root'.level := h.le_after hafter
  have hge : root'.level ≤ root.level := h'.le_before hbefore
  have hassoc : root.op.strength.assoc = root'.op.strength.assoc :=
    BinaryOp.assoc_eq_of_level_eq (Nat.le_antisymm hle hge)
  by_cases hright : root.op.strength.assoc = .right
  · have hlt := h'.lt_before (hassoc ▸ hright) hbefore
    omega
  · have hlt := h.lt_after hright hafter
    omega

/-- A chain has one root. -/
theorem unique (h : IsRoot before root after) (h' : IsRoot before' root' after')
    (hsame : before ++ root :: after = before' ++ root' :: after') :
    before = before' ∧ root = root' ∧ after = after' := by
  rcases List.append_eq_append_iff.mp hsame with ⟨middle, hbefore, hrest⟩ | ⟨middle, hbefore, hrest⟩
  · cases middle with
    | nil =>
        obtain ⟨rfl, rfl⟩ := List.cons.inj hrest
        exact ⟨by rw [hbefore, List.append_nil], rfl, rfl⟩
    | cons link middle =>
        obtain ⟨rfl, rfl⟩ := List.cons.inj hrest
        exact (h.not_both h' (by simp) (by simp [hbefore])).elim
  · cases middle with
    | nil =>
        obtain ⟨rfl, rfl⟩ := List.cons.inj hrest
        exact ⟨by rw [hbefore, List.append_nil], rfl, rfl⟩
    | cons link middle =>
        obtain ⟨rfl, rfl⟩ := List.cons.inj hrest
        exact (h'.not_both h (by simp) (by simp [hbefore])).elim

/-- An operator is the root of what climbing reads around it: no operator before it would have
left it out of its right operand, and its own right operand has only operators that it
admits. -/
theorem of_rightMin (hbefore : ∀ link ∈ before, root.level < link.op.strength.rightMin)
    (hafter : ∀ link ∈ after, root.op.strength.rightMin ≤ link.level) :
    IsRoot before root after := by
  have hle : ∀ link ∈ before, root.level ≤ link.level := by
    intro link hmem
    have hlt := hbefore link hmem
    have hbound : link.op.strength.rightMin ≤ link.level + 1 := link.op.rightMin_le
    omega
  unfold IsRoot
  cases hassoc : root.op.strength.assoc with
  | right =>
      refine ⟨fun link hmem => ?_, fun link hmem => ?_⟩
      · refine Nat.lt_of_le_of_ne (hle link hmem) fun heq => ?_
        have hright : link.op.strength.assoc = .right :=
          (BinaryOp.assoc_eq_of_level_eq heq).symm.trans hassoc
        have hlt := hbefore link hmem
        rw [Strength.rightMin, hright] at hlt
        exact Nat.ne_of_lt hlt heq
      · have hmin := hafter link hmem
        rwa [Strength.rightMin, hassoc] at hmin
  | left =>
      refine ⟨hle, fun link hmem => ?_⟩
      have hmin := hafter link hmem
      rwa [Strength.rightMin, hassoc] at hmin
  | none =>
      refine ⟨hle, fun link hmem => ?_⟩
      have hmin := hafter link hmem
      rwa [Strength.rightMin, hassoc] at hmin

end IsRoot

/-- A chain groups in one way. -/
theorem Groups.unique {first tree other : Expr} {links : List ChainLink}
    (h : Groups first links tree) (h' : Groups first links other) : tree = other := by
  induction h generalizing other with
  | operand first =>
      generalize hlinks : [] = links at h'
      cases h' with
      | operand => rfl
      | split => simp at hlinks
  | @split first lhs rhs before after root hroot _ _ ihleft ihright =>
      generalize hlinks : before ++ root :: after = links at h'
      cases h' with
      | operand => simp at hlinks
      | @split _ lhs' rhs' before' after' root' hroot' hleft' hright' =>
          obtain ⟨rfl, rfl, rfl⟩ := hroot.unique hroot' hlinks
          rw [ihleft hleft', ihright hright']

/-! ## Comparisons that follow one another -/

/-- The operators of the top tier cut a chain into runs, and a run may have one comparison: the
first two comparisons of the first run that has more. -/
def chained? (links : List ChainLink) : Option (ChainLink × ChainLink) :=
  (links.splitOnP fun link => link.op.tier == .top).findSome? fun run =>
    match run.filter fun link => link.op.tier == .comparison with
    | first :: second :: _ => some (first, second)
    | _ => none

section

variable {run done before after : List ChainLink} {link first second : ChainLink}

/-- An operator of the top tier keeps what is before it apart from what is after it. -/
theorem chained?_append (htop : link.op.tier = .top) (before after : List ChainLink) :
    chained? (before ++ link :: after) = (chained? before).or (chained? after) := by
  unfold chained?
  rw [List.splitOnP_append_cons before after (by simpa using htop), List.findSome?_append]

/-- A chain begins with the run that its first links are part of. -/
theorem exists_run (hrun : ∀ link ∈ run, link.op.tier ≠ .top) (later : List ChainLink) :
    ∃ next runs, (run ++ later).splitOnP (fun link => link.op.tier == .top) =
      (run ++ next) :: runs := by
  induction run with
  | nil =>
      cases hsplit : later.splitOnP fun link => link.op.tier == .top with
      | nil => exact absurd hsplit (List.splitOnP_ne_nil _ _)
      | cons next runs => exact ⟨next, runs, hsplit⟩
  | cons link run ih =>
      obtain ⟨next, runs, hsplit⟩ := ih fun other hmem => hrun other (List.mem_cons_of_mem _ hmem)
      have hlink : ¬ (link.op.tier == .top) = true := by
        simpa using hrun link List.mem_cons_self
      refine ⟨next, runs, ?_⟩
      rw [List.cons_append, List.splitOnP_cons_eq_if_modifyHead, if_neg hlink, hsplit]
      rfl

/-- Links of the inner tier are no comparisons. -/
theorem filter_comparison_of_inner (h : ∀ link ∈ run, link.op.tier = .inner) :
    (run.filter fun link => link.op.tier == .comparison) = [] := by
  rw [List.filter_eq_nil_iff]
  intro link hmem
  rw [h link hmem]
  decide

theorem chained?_of_inner (h : ∀ link ∈ run, link.op.tier = .inner) : chained? run = none := by
  have hrun : ∀ link ∈ run, (link.op.tier == .top) = false := by
    intro link hmem
    rw [h link hmem]
    rfl
  unfold chained?
  rw [List.splitOnP_eq_singleton hrun, List.findSome?_singleton, filter_comparison_of_inner h]

/-- One comparison of operands of the inner tier is followed by no other. -/
theorem chained?_of_one (hfirst : first.op.tier = .comparison)
    (hbefore : ∀ link ∈ before, link.op.tier = .inner)
    (hafter : ∀ link ∈ after, link.op.tier = .inner) :
    chained? (before ++ first :: after) = none := by
  have hrun : ∀ link ∈ before ++ first :: after, (link.op.tier == .top) = false := by
    intro link hmem
    rcases List.mem_append.mp hmem with hmem | hmem
    · rw [hbefore link hmem]
      rfl
    · rcases List.mem_cons.mp hmem with rfl | hmem
      · rw [hfirst]
        rfl
      · rw [hafter link hmem]
        rfl
  unfold chained?
  rw [List.splitOnP_eq_singleton hrun, List.findSome?_singleton, List.filter_append,
    List.filter_cons_of_pos (by rw [hfirst]; rfl), filter_comparison_of_inner hbefore,
    filter_comparison_of_inner hafter]
  rfl

/-- Two comparisons with operands of the inner tier follow one another, whatever comes behind
them. -/
theorem chained?_of_two (hfirst : first.op.tier = .comparison)
    (hsecond : second.op.tier = .comparison) (hbefore : ∀ link ∈ before, link.op.tier = .inner)
    (hafter : ∀ link ∈ after, link.op.tier = .inner) (later : List ChainLink) :
    chained? (before ++ first :: (after ++ second :: later)) = some (first, second) := by
  let run := before ++ first :: (after ++ [second])
  have hrun : ∀ link ∈ run, link.op.tier ≠ .top := by
    intro link hmem htop
    simp only [run, List.mem_append, List.mem_cons, List.not_mem_nil, or_false] at hmem
    rcases hmem with hmem | rfl | hmem | rfl
    · exact absurd ((hbefore link hmem).symm.trans htop) (by decide)
    · exact absurd (hfirst.symm.trans htop) (by decide)
    · exact absurd ((hafter link hmem).symm.trans htop) (by decide)
    · exact absurd (hsecond.symm.trans htop) (by decide)
  obtain ⟨next, runs, hsplit⟩ := exists_run hrun later
  have hsame : before ++ first :: (after ++ second :: later) = run ++ later := by simp [run]
  have hcomparisons : (run ++ next).filter (fun link => link.op.tier == .comparison) =
      first :: second :: next.filter fun link => link.op.tier == .comparison := by
    simp [run, List.filter_append, filter_comparison_of_inner hbefore,
      filter_comparison_of_inner hafter, hfirst, hsecond]
  unfold chained?
  rw [hsame, hsplit, List.findSome?_cons, hcomparisons]

end

end Lustre
