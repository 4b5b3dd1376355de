import Lustre.Proofs.Reread.Atom

/-!
# Operators, read back

Above the atoms, two layers of the reader climb the levels of the operators.  Both are
followed with the loop that comes after as a continuation, so that the left operand of an
operator can be followed by the operator:

* `ReadsInner`, for prefix operators, operators of the inner tier and clocks;
* `ReadsTop`, for operators of the top tier, comparisons and conditionals.

The induction is on the expression, along its left edge.  Everything else is nested
deeper.  What is used of the ranks is little: a place never demands less than the
level of its operator, so a word behind an operator that belongs to the whole
application ends the loop that reads the right operand (`Ends.of_level`).
-/

namespace Lustre

open Chunk

section

variable {deep : Nested} {full called : Bool} {span : Span}

/-! ## All atoms -/

/-- Whether an operator is applied in a callee makes no difference to it. -/
theorem Expr.Printable.uncalled {expr : Expr} (h : expr.Printable called)
    (hrank : expr.rank < Prec.atom) : expr.Printable false := by
  cases h with
  | cond hcondition hyes hno => exact .cond hcondition hyes hno
  | sampled hvalue hclock => exact .sampled hvalue hclock
  | unary hoperand => exact .unary hoperand
  | binary hlhs hrhs => exact .binary hlhs hrhs
  | _ => exact absurd hrank (Nat.lt_irrefl _)

/-- An expression in the place of an atom is one, or is put in parentheses. -/
theorem readsAtom_chunks (hdeep : deep.Rereads) {expr : Expr} (hexpr : expr.Printable called)
    (hbare : expr.rank = Prec.atom → ReadsAtom deep called (expr.bare full) (expr.settled full)) :
    ReadsAtom deep called (expr.enclose full Prec.atom (expr.bare full))
      (Expr.settle full Prec.atom (expr.settled full)) := by
  have hrank : (expr.settled full).rank = expr.rank := Expr.rank_rebuild _ expr
  have hle := expr.rank_le_atom
  unfold Expr.enclose Expr.settle
  rw [hrank]
  split
  · rename_i henclosed
    exact readsAtom_enclosed hdeep (hexpr.uncalled henclosed.1)
  · exact hbare (by omega)

/-- Every printable atom is read back. -/
theorem Expr.Printable.readsAtom (hdeep : deep.Rereads) (full : Bool) {called : Bool}
    {expr : Expr} (hexpr : expr.Printable called) (hrank : expr.rank = Prec.atom) :
    ReadsAtom deep called (expr.bare full) (expr.settled full) := by
  cases hexpr with
  | bool => exact readsAtom_bool _
  | int => exact readsAtom_int _
  | real => exact readsAtom_real _
  | name => exact readsAtom_name _
  | inst _ hargs => exact readsAtom_inst hdeep _ hargs
  | tuple hitems => exact readsAtom_tuple hdeep hitems
  | array hitems => exact readsAtom_array hdeep hitems
  | record _ _ hnames hvalues => exact readsAtom_record hdeep hnames hvalues
  | merge hclock hnil _ hvalues => exact readsAtom_merge hdeep hclock hnil hvalues
  | list hoperands => exact readsAtom_list hdeep hoperands
  | field hvalue _ hfield =>
      exact (readsAtom_chunks hdeep hvalue (hvalue.readsAtom hdeep full)).field hfield
  | index hvalue hindex =>
      exact (readsAtom_chunks hdeep hvalue (hvalue.readsAtom hdeep full)).index hdeep hindex
  | slice hvalue hfirst hlast hstep =>
      exact (readsAtom_chunks hdeep hvalue (hvalue.readsAtom hdeep full)).slice hdeep hfirst hlast
        hstep
  | call hcallee hargs =>
      exact (readsAtom_chunks hdeep hcallee (hcallee.readsAtom hdeep full)).call hdeep hargs
  | cond | sampled => cases hrank
  | @unary _ _ op => cases op <;> cases hrank
  | @binary _ _ op => cases op <;> cases hrank
termination_by sizeOf expr

/-! ## Operands of the inner tier -/

/-- Chunks of an operand of the inner tier: they are read, and so is whatever operators and clocks
come after them. -/
structure ReadsInner (deep : Nested) (chunks : List Chunk) (tree : Expr) (rank : Nat) : Prop where
  gives {c : Cursor} {later : List Chunk} {least : Nat} {Q : Expr → Cursor → Prop}
    (hshows : c.Shows (chunks ++ later)) (hleast : least ≤ rank) (hdemand : demand later ≤ rank)
    (hnext : ∀ read c', AnswersTree tree later read c' →
      LoopGives (Read.innerStep deep least) read c' Q) : Gives (Read.inner deep least) c Q

/-- What is neither an operator from the level `least` on nor a clock ends the loop. -/
theorem loopGives_inner {c : Cursor} {later : List Chunk} {least : Nat} {read : Expr}
    {Q : Expr → Cursor → Prop} (hends : Ends .inner least later)
    (hunsampled : Unsampled least later)
    (hshows : c.Shows later) (hQ : Q read c) : LoopGives (Read.innerStep deep least) read c Q := by
  refine .next ?_
  by_cases hwhen : c.peek = some .kwWhen
  · refine .isAt_yes hwhen ?_
    rw [if_pos rfl, if_pos (hunsampled (hshows.peek ▸ hwhen))]
    exact .pure hQ
  · refine .isAt_no hwhen (.peek ?_)
    split
    · rename_i op hop
      obtain ⟨kind, hkind, htier⟩ := Option.bind_eq_some_iff.mp hop
      obtain ⟨rfl, hinner⟩ := BinaryOp.symbol_of_inTier? htier
      rw [if_pos (hends op hinner (hshows.peek ▸ hkind))]
      exact .pure hQ
    · exact .pure hQ

/-- What the prefixed layer reads is an operand. -/
theorem ReadsInner.of_prefixed {chunks : List Chunk} {tree : Expr} {rank : Nat}
    (h : ∀ {c : Cursor} {later : List Chunk}, c.Shows (chunks ++ later) → demand later ≤ rank →
      Gives (Read.prefixed deep) c (AnswersTree tree later)) :
    ReadsInner deep chunks tree rank :=
  ⟨fun hshows _ hdemand hnext => (h hshows hdemand).bind fun read c' hread =>
    (hnext read c' hread).iterate⟩

theorem ReadsAtom.inner {chunks : List Chunk} {tree : Expr} (h : ReadsAtom deep false chunks tree) :
    ReadsInner deep chunks tree Prec.atom := by
  refine .of_prefixed fun {c later} hshows hdemand => ?_
  have hparen : (kinds later).head? ≠ some .lParen := head_ne_of_demand (Nat.lt_succ_of_le hdemand)
  exact h.gives hshows (Nat.le_succ_of_le hdemand) (by simpa using hparen) fun read c' hread =>
    loopGives_postfix hdemand hread.2 hread

/-- A prefix operator takes what binds tighter. -/
theorem readsInner_unary (hdeep : deep.Rereads) (op : UnaryOp) {operand : Expr}
    (hoperand : operand.Printable false) :
    ReadsInner deep ((Expr.unary span op operand).bare full)
      ((Expr.unary span op operand).settled full) op.prec.level := by
  refine .of_prefixed fun {c later} hshows hdemand => ?_
  have hlow : Prec.equality.level < op.prec.level + 1 := by cases op <;> decide
  have hhigh : op.prec.level + 1 ≤ Prec.atom := by cases op <;> decide
  have hsymbol : UnaryOp.ofKind? op.symbol = some op := by cases op <;> rfl
  obtain ⟨rank, hrank, hprinted⟩ := operand.printed_chunks full hhigh
  have hwords : c.peek = some op.symbol ∧
      c.pass.Shows (operand.chunks full (op.prec.level + 1) ++ later) := by
    rw [Expr.bare, UnaryOp.chunks] at hshows
    split at hshows
    · exact ⟨hshows.peek, hshows.pass_sign⟩
    · exact ⟨hshows.peek, hshows.pass_sign.blank⟩
  refine .peekAs hwords.1 ?_
  simp only [Option.bind_some, hsymbol]
  refine .here fun _ => .advance ?_
  refine (hdeep.inner hoperand hprinted hlow hrank (by omega) (.of_lt (by omega))
    (.of_lt (by omega)) hwords.2).bind fun read c' hread => .pure ⟨?_, hread.2⟩
  exact congrArg (Expr.unary .nowhere op) hread.1

/-- A clock samples all that holds together as tightly. -/
theorem readsInner_sampled {clock : Located Clock} {chunks : List Chunk} {tree : Expr}
    {rank : Nat} (h : ReadsInner deep chunks tree rank) (hrank : Prec.sampling.level ≤ rank)
    (hclock : clock.value.Printable) :
    ReadsInner deep (chunks ++ [blank, sign .kwWhen, blank] ++ clock.value.chunks)
      (.sampled .nowhere tree (.nowhere clock.value.strip)) Prec.sampling.level := by
  refine ⟨fun {c later least Q} hshows hleast hdemand hnext => ?_⟩
  rw [List.append_assoc, List.append_assoc] at hshows
  refine h.gives hshows (Nat.le_trans hleast hrank) hrank fun read c' hread => .next ?_
  have hwhen : c'.Shows (sign .kwWhen :: blank :: (clock.value.chunks ++ later)) := hread.2.blank
  refine .isAt_yes hwhen.peek ?_
  rw [if_pos rfl, if_neg (by omega)]
  have hlater : ∀ kind ∈ [Kind.pragma, .colonColon, .lParen], (kinds later).head? ≠ some kind := by
    intro kind hkind
    apply head_ne_of_demand
    refine Nat.lt_of_le_of_lt hdemand ?_
    simp only [List.mem_cons, List.not_mem_nil, or_false] at hkind
    rcases hkind with rfl | rfl | rfl <;> decide
  refine .advance ((gives_clock hclock hlater hwhen.pass_sign.blank).bind
    fun readClock c'' hsampled => .pure ⟨?_, hnext _ _ ⟨?_, hsampled.2⟩⟩)
  · have hwords : c'.Shows ([sign .kwWhen, blank] ++ clock.value.chunks ++ later) := hwhen
    exact hwords.length_lt (by simp) hsampled.2
  · rw [Expr.strip, Expr.rebuild, hsampled.1]
    exact congrArg (Expr.sampled _ · _) hread.1

/-- The left operand of an operator is followed by the operator, and its right operand is nested
deeper. -/
theorem readsInner_binary (hdeep : deep.Rereads) {op : BinaryOp} (htier : op.tier = .inner)
    {chunks : List Chunk} {tree rhs : Expr} {rank : Nat} (h : ReadsInner deep chunks tree rank)
    (hrank : op.strength.leftMin ≤ rank) (hrhs : rhs.Printable false) :
    ReadsInner deep
      (chunks ++ [blank, sign op.symbol, blank] ++ rhs.chunks full op.strength.rightMin)
      (.binary .nowhere op tree (rhs.settledAt full op.strength.rightMin))
      op.strength.prec.level := by
  refine ⟨fun {c later least Q} hshows hleast hdemand hnext => ?_⟩
  have hleft := op.level_le_leftMin
  -- the right operand is printed so that climbing from its least level takes all of it
  have hright := op.level_le_rightMin
  have hhigh : op.strength.rightMin ≤ Prec.atom := by cases op <;> decide
  have hlow : Prec.equality.level < op.strength.rightMin := by
    have hlow : Prec.equality.level < op.strength.prec.level := by
      cases op <;> first
        | decide
        | cases htier
    omega
  have hsymbol : BinaryOp.inTier? .inner op.symbol = some op := htier ▸ op.inTier?_symbol
  have hnot : op.symbol ≠ .kwWhen := by cases op <;> decide
  obtain ⟨rank', hrank', hprinted⟩ := rhs.printed_chunks full hhigh
  rw [List.append_assoc, List.append_assoc] at hshows
  refine h.gives hshows (by omega) (by simpa using hrank) fun read c' hread => .next ?_
  -- the loop takes the operator, whose level is high enough
  have hop : c'.Shows (sign op.symbol :: blank ::
      (rhs.chunks full op.strength.rightMin ++ later)) := hread.2.blank
  have hpeek : c'.peek = some op.symbol := hop.peek
  refine .isAt_no (by rw [hpeek]; simpa using hnot) (.peekAs hpeek ?_)
  simp only [Option.bind_some, hsymbol]
  rw [if_neg (by omega)]
  refine .advance ((hdeep.inner hrhs hprinted hlow hrank' (by omega) (.of_level hdemand)
    (.of_level hdemand) hop.pass_sign.blank).bind fun readRhs c'' hreadRhs =>
      .pure ⟨?_, hnext _ _ ⟨?_, hreadRhs.2⟩⟩)
  · have hwords : c'.Shows ([sign op.symbol, blank] ++ rhs.chunks full op.strength.rightMin ++
        later) :=
      hop
    exact hwords.length_lt (by simp) hreadRhs.2
  · have hfirst : read.rebuild Expr.keep = tree := hread.1
    have hsecond : readRhs.rebuild Expr.keep = rhs.settledAt full op.strength.rightMin := hreadRhs.1
    simp only [Read.binary, Expr.strip, Expr.rebuild, Expr.keep, hfirst, hsecond]

/-- In parentheses or not, an expression is read as an operand if its rank is that of one. -/
theorem Expr.Printed.readsInner (hdeep : deep.Rereads) {expr : Expr} (hexpr : expr.Printable false)
    {chunks : List Chunk} {tree : Expr} {rank : Nat} (h : expr.Printed full chunks tree rank)
    (hrank : Prec.equality.level < rank)
    (hbare : Prec.equality.level < expr.rank →
      ReadsInner deep (expr.bare full) (expr.settled full) expr.rank) :
    ReadsInner deep chunks tree rank := by
  cases h with
  | bare => exact hbare hrank
  | enclosed => exact (readsAtom_enclosed hdeep hexpr).inner

/-- Every printable operand of the inner tier is read back. -/
theorem Expr.Printable.readsInner (hdeep : deep.Rereads) (full : Bool) :
    ∀ {expr : Expr}, expr.Printable false → Prec.equality.level < expr.rank →
      ReadsInner deep (expr.bare full) (expr.settled full) expr.rank
  | .cond _ _ _ _ _, _, hrank => absurd hrank (Nat.not_lt_zero _)
  | .unary _ op _, .unary hoperand, _ => readsInner_unary hdeep op hoperand
  | .sampled _ value _, .sampled hvalue hclock, _ => by
      obtain ⟨rank, hle, hprinted⟩ :=
        value.printed_chunks full (by decide : Prec.sampling.level ≤ Prec.atom)
      have hlow : Prec.equality.level < rank := Nat.lt_of_lt_of_le (by decide) hle
      have hread := hprinted.readsInner hdeep hvalue hlow (hvalue.readsInner hdeep full)
      exact readsInner_sampled hread hle hclock
  | .binary _ op lhs _, .binary hlhs hrhs, hrank => by
      have hlevel : Prec.equality.level < op.strength.prec.level := hrank
      have hleft := op.level_le_leftMin
      obtain ⟨rank, hle, hprinted⟩ :=
        lhs.printed_chunks full (by cases op <;> decide : op.strength.leftMin ≤ Prec.atom)
      have hread := hprinted.readsInner hdeep hlhs (by omega) (hlhs.readsInner hdeep full)
      exact readsInner_binary hdeep (BinaryOp.tier_of_lt_level hlevel) hread hle hrhs
  | .bool _ _, h, _ | .int _ _, h, _ | .real _ _, h, _ | .name _ _, h, _ | .tuple _ _, h, _
  | .array _ _, h, _ | .record _ _ _ _, h, _ | .field _ _ _, h, _ | .index _ _ _, h, _
  | .slice _ _ _ _ _, h, _ | .call _ _ _, h, _ | .merge _ _ _, h, _ | .list _ _ _, h, _ =>
      (h.readsAtom hdeep full rfl).inner

/-! ## Full expressions -/

/-- Chunks of an expression: they are read, and so is whatever operators of the top tier come after
them. -/
structure ReadsTop (deep : Nested) (chunks : List Chunk) (tree : Expr) (rank : Nat) : Prop where
  gives {c : Cursor} {later : List Chunk} {least : Nat} {Q : Expr → Cursor → Prop}
    (hshows : c.Shows (chunks ++ later)) (hleast : least ≤ rank) (hdemand : demand later ≤ rank)
    (hfull : demand later ≤ Prec.equality.level)
    (hnext : ∀ read c', AnswersTree tree later read c' →
      LoopGives (Read.topStep deep least) read c' Q) : Gives (Read.top deep least) c Q

/-- What is no operator from the level `least` on ends the loop. -/
theorem loopGives_top {c : Cursor} {later : List Chunk} {least : Nat} {read : Expr}
    {Q : Expr → Cursor → Prop} (hends : Ends .top least later) (hshows : c.Shows later)
    (hQ : Q read c) : LoopGives (Read.topStep deep least) read c Q := by
  refine .next (.peek ?_)
  split
  · rename_i op hop
    obtain ⟨kind, hkind, htier⟩ := Option.bind_eq_some_iff.mp hop
    obtain ⟨rfl, htop⟩ := BinaryOp.symbol_of_inTier? htier
    rw [if_pos (hends op htop (hshows.peek ▸ hkind))]
    exact .pure hQ
  · exact .pure hQ

/-- No comparison comes next. -/
theorem no_comparison {c : Cursor} {later : List Chunk} (hfull : demand later ≤ Prec.equality.level)
    (hshows : c.Shows later) : c.peek.bind (BinaryOp.inTier? .comparison) = none := by
  rw [Option.eq_none_iff_forall_not_mem]
  intro op hop
  obtain ⟨kind, hkind, htier⟩ := Option.bind_eq_some_iff.mp hop
  obtain ⟨rfl, hcomparison⟩ := BinaryOp.symbol_of_inTier? htier
  have hends : Ends .comparison 0 later := .of_full hfull (by decide)
  exact absurd (hends op hcomparison (hshows.peek ▸ hkind)) (Nat.not_lt_zero _)

/-- What the layer of comparisons reads is an expression. -/
theorem ReadsTop.of_comparison {chunks : List Chunk} {tree : Expr} {rank : Nat}
    (h : ∀ {c : Cursor} {later : List Chunk}, c.Shows (chunks ++ later) → demand later ≤ rank →
      demand later ≤ Prec.equality.level → Gives (Read.comparison deep) c
        (AnswersTree tree later)) :
    ReadsTop deep chunks tree rank :=
  ⟨fun hshows _ hdemand hfull hnext => (h hshows hdemand hfull).bind fun read c' hread =>
    (hnext read c' hread).iterate⟩

/-- An operand that no comparison follows. -/
theorem ReadsInner.top {chunks : List Chunk} {tree : Expr} {rank : Nat}
    (h : ReadsInner deep chunks tree rank) : ReadsTop deep chunks tree rank := by
  refine .of_comparison fun {c later} hshows hdemand hfull => ?_
  refine (h.gives hshows (Nat.zero_le _) hdemand fun read c' hread =>
    loopGives_inner (.of_full hfull (by decide)) (.of_full hfull) hread.2 hread).bind
      fun read c' hread => .peek ?_
  rw [no_comparison hfull hread.2]
  exact .pure hread

/-- Two operands and a comparison between them. -/
theorem readsTop_comparison {op : BinaryOp} (htier : op.tier = .comparison)
    {chunks chunks' : List Chunk} {lhs rhs : Expr} {rank rank' : Nat}
    (hlhs : ReadsInner deep chunks lhs rank) (hrank : op.strength.leftMin ≤ rank)
    (hrhs : ReadsInner deep chunks' rhs rank') (hrank' : op.strength.rightMin ≤ rank') :
    ReadsTop deep (chunks ++ [blank, sign op.symbol, blank] ++ chunks')
      (.binary .nowhere op lhs rhs) op.strength.prec.level := by
  refine .of_comparison fun {c later} hshows hdemand hfull => ?_
  have hright := op.level_le_rightMin
  have hsymbol : BinaryOp.inTier? .comparison op.symbol = some op := htier ▸ op.inTier?_symbol
  rw [List.append_assoc, List.append_assoc] at hshows
  -- the comparison ends the loop of the left operand
  have hends : ∀ more, Ends .inner 0 (blank :: sign op.symbol :: more) := by
    intro more other hother hhead
    have hsame : op.symbol = other.symbol := Option.some.inj hhead
    have hnone : BinaryOp.inTier? .inner op.symbol = none :=
      BinaryOp.inTier?_of_ne (by rw [htier]; decide)
    rw [hsame, ← hother, other.inTier?_symbol] at hnone
    cases hnone
  have hunsampled : ∀ more, Unsampled 0 (blank :: sign op.symbol :: more) := by
    intro more hwhen
    have hsame : op.symbol = .kwWhen := Option.some.inj hwhen
    exact absurd hsame (by cases op <;> decide)
  refine (hlhs.gives hshows (Nat.zero_le _) (by simpa using hrank) fun read c' hread =>
    loopGives_inner (hends _) (hunsampled _) hread.2 hread).bind fun read c' hread => ?_
  have hop : c'.Shows (sign op.symbol :: blank :: (chunks' ++ later)) := hread.2.blank
  have hpeek : c'.peek = some op.symbol := hop.peek
  refine .peekAs hpeek ?_
  simp only [Option.bind_some, hsymbol]
  refine .advance ((hrhs.gives hop.pass_sign.blank (Nat.zero_le _) (by omega) fun read c' hread =>
    loopGives_inner (.of_full hfull (by decide)) (.of_full hfull) hread.2 hread).bind
      fun readRhs c'' hreadRhs => .peek ?_)
  rw [no_comparison hfull hreadRhs.2]
  refine .pure ⟨?_, hreadRhs.2⟩
  have hfirst : read.rebuild Expr.keep = lhs := hread.1
  have hsecond : readRhs.rebuild Expr.keep = rhs := hreadRhs.1
  simp only [Read.binary, Expr.strip, Expr.rebuild, Expr.keep, hfirst, hsecond]

/-- The left operand of an operator is followed by the operator, and its right operand is nested
deeper. -/
theorem readsTop_binary (hdeep : deep.Rereads) {op : BinaryOp} (htier : op.tier = .top)
    {chunks : List Chunk} {tree rhs : Expr} {rank : Nat} (h : ReadsTop deep chunks tree rank)
    (hrank : op.strength.leftMin ≤ rank) (hrhs : rhs.Printable false) :
    ReadsTop deep
      (chunks ++ [blank, sign op.symbol, blank] ++ rhs.chunks full op.strength.rightMin)
      (.binary .nowhere op tree (rhs.settledAt full op.strength.rightMin))
      op.strength.prec.level := by
  refine ⟨fun {c later least Q} hshows hleast hdemand hfull hnext => ?_⟩
  have hleft := op.level_le_leftMin
  have hright := op.level_le_rightMin
  have hhigh : op.strength.rightMin ≤ Prec.atom := by cases op <;> decide
  have hlow : op.strength.leftMin ≤ Prec.equality.level := by
    cases op <;> first
      | decide
      | cases htier
  have hsymbol : BinaryOp.inTier? .top op.symbol = some op := htier ▸ op.inTier?_symbol
  obtain ⟨rank', hrank', hprinted⟩ := rhs.printed_chunks full hhigh
  rw [List.append_assoc, List.append_assoc] at hshows
  refine h.gives hshows (by omega) (by simpa using hrank) (by simpa using hlow)
    fun read c' hread => .next ?_
  -- the loop takes the operator, whose level is high enough
  have hop : c'.Shows (sign op.symbol :: blank ::
      (rhs.chunks full op.strength.rightMin ++ later)) := hread.2.blank
  have hpeek : c'.peek = some op.symbol := hop.peek
  refine .peekAs hpeek ?_
  simp only [Option.bind_some, hsymbol]
  rw [if_neg (by omega)]
  refine .advance ((hdeep.top hrhs hprinted hrank' (by omega) hfull (.of_level hdemand)
    hop.pass_sign.blank).bind fun readRhs c'' hreadRhs => .pure ⟨?_, hnext _ _ ⟨?_, hreadRhs.2⟩⟩)
  · have hwords : c'.Shows ([sign op.symbol, blank] ++ rhs.chunks full op.strength.rightMin ++
        later) :=
      hop
    exact hwords.length_lt (by simp) hreadRhs.2
  · have hfirst : read.rebuild Expr.keep = tree := hread.1
    have hsecond : readRhs.rebuild Expr.keep = rhs.settledAt full op.strength.rightMin := hreadRhs.1
    simp only [Read.binary, Expr.strip, Expr.rebuild, Expr.keep, hfirst, hsecond]

theorem gives_conditional (hdeep : deep.Rereads) {start : Nat} (opening : CondWord)
    {condition yes no : Expr} (hcondition : condition.Printable false) (hyes : yes.Printable false)
    (hno : no.Printable false) {c : Cursor} {later : List Chunk} (hclosed : demand later = 0)
    (hshows : c.Shows (condition.chunks full 0 ++ [blank, sign .kwThen, blank] ++
      yes.chunks full 0 ++ [blank, sign .kwElse, blank] ++ no.chunks full 0 ++ later)) :
    Gives (Read.conditional deep start opening) c
      (AnswersTree ((Expr.cond span opening condition yes no).settled full) later) := by
  simp only [List.append_assoc] at hshows
  refine (hdeep.whole hcondition rfl hshows).bind fun first c₁ hfirst => ?_
  have hthen : c₁.Shows (sign .kwThen :: blank :: (yes.chunks full 0 ++
      ([blank, sign .kwElse, blank] ++ (no.chunks full 0 ++ later)))) := hfirst.2.blank
  refine .expect hthen.peek fun _ => ?_
  refine (hdeep.whole hyes rfl hthen.pass_sign.blank).bind fun second c₂ hsecond => ?_
  have helse : c₂.Shows (sign .kwElse :: blank :: (no.chunks full 0 ++ later)) := hsecond.2.blank
  refine .expect helse.peek fun _ => ?_
  refine (hdeep.whole hno hclosed helse.pass_sign.blank).bind fun third c₃ hthird => ?_
  refine .spanFrom fun _ => .pure ⟨?_, hthird.2⟩
  have hfirst : first.rebuild Expr.keep = condition.settledAt full 0 := hfirst.1
  have hsecond : second.rebuild Expr.keep = yes.settledAt full 0 := hsecond.1
  have hthird : third.rebuild Expr.keep = no.settledAt full 0 := hthird.1
  simp only [Expr.strip, Expr.rebuild, Expr.keep, hfirst, hsecond, hthird]
  rfl

/-- A conditional goes on as far as it can, so nothing may follow but what closes it. -/
theorem readsTop_cond (hdeep : deep.Rereads) {opening : CondWord} {condition yes no : Expr}
    (hcondition : condition.Printable false) (hyes : yes.Printable false)
    (hno : no.Printable false) :
    ReadsTop deep ((Expr.cond span opening condition yes no).bare full)
      ((Expr.cond span opening condition yes no).settled full) Prec.alternative.level := by
  refine ReadsInner.top (.of_prefixed fun {c later} hshows hdemand => ?_)
  have hclosed : demand later = 0 := Nat.le_zero.mp hdemand
  have hpeek : c.peek = some opening.symbol := hshows.peek
  have hplain : UnaryOp.ofKind? opening.symbol = none := by cases opening <;> rfl
  have hwords : c.pass.Shows (condition.chunks full 0 ++ [blank, sign .kwThen, blank] ++
      yes.chunks full 0 ++ [blank, sign .kwElse, blank] ++ no.chunks full 0 ++ later) := by
    simp only [List.append_assoc]
    simp only [Expr.bare, List.append_assoc] at hshows
    exact hshows.pass_sign.blank
  refine gives_prefixed hplain hpeek (P := AnswersTree _ later) ?_ fun read c' hread =>
    loopGives_postfix (by omega) hread.2 hread
  have hrest : ∀ start, Gives (Read.conditional deep start opening) c.pass
      (AnswersTree ((Expr.cond span opening condition yes no).settled full) later) :=
    fun start => gives_conditional hdeep opening hcondition hyes hno hclosed hwords
  cases opening with
  | ifWord => exact .here fun start => .peekAs hpeek (.advance (hrest start))
  | whenWord => exact .here fun start => .peekAs hpeek (.advance (hrest start))

/-- In parentheses or not, an expression is read back. -/
theorem Expr.Printed.readsTop (hdeep : deep.Rereads) {expr : Expr} (hexpr : expr.Printable false)
    {chunks : List Chunk} {tree : Expr} {rank : Nat} (h : expr.Printed full chunks tree rank)
    (hbare : ReadsTop deep (expr.bare full) (expr.settled full) expr.rank) :
    ReadsTop deep chunks tree rank := by
  cases h with
  | bare => exact hbare
  | enclosed => exact (readsAtom_enclosed hdeep hexpr).inner.top

/-- Every printable expression is read back. -/
theorem Expr.Printable.readsTop (hdeep : deep.Rereads) (full : Bool) :
    ∀ {expr : Expr}, expr.Printable false →
      ReadsTop deep (expr.bare full) (expr.settled full) expr.rank
  | .cond _ _ _ _ _, .cond hcondition hyes hno => readsTop_cond hdeep hcondition hyes hno
  | .binary _ op lhs rhs, .binary hlhs hrhs => by
      obtain ⟨rank, hle, hprinted⟩ :=
        lhs.printed_chunks full (by cases op <;> decide : op.strength.leftMin ≤ Prec.atom)
      -- the tier of the operator tells which loop reads it
      cases htier : op.tier with
      | top =>
          have hread := hprinted.readsTop hdeep hlhs (hlhs.readsTop hdeep full)
          exact readsTop_binary hdeep htier hread hle hrhs
      | comparison =>
          obtain ⟨rank', hle', hprinted'⟩ :=
            rhs.printed_chunks full (by cases op <;> decide : op.strength.rightMin ≤ Prec.atom)
          have hlow := comparison_demand htier
          have hlow' : op.strength.rightMin = Prec.equality.level + 1 := by
            cases op <;> first
              | rfl
              | cases htier
          refine readsTop_comparison htier
            (hprinted.readsInner hdeep hlhs (by omega) (hlhs.readsInner hdeep full)) hle
            (hprinted'.readsInner hdeep hrhs (by omega) (hrhs.readsInner hdeep full)) hle'
      | inner =>
          have hlevel : Prec.equality.level < op.strength.prec.level := by
            cases op <;> first
              | decide
              | cases htier
          exact ((Expr.Printable.binary hlhs hrhs).readsInner hdeep full hlevel).top
  | .unary _ op _, .unary hoperand =>
      (readsInner_unary hdeep op hoperand).top
  | .sampled _ _ _, h => by
      have hlow : Prec.equality.level < Prec.sampling.level := by decide
      exact (h.readsInner hdeep full hlow).top
  | .bool _ _, h | .int _ _, h | .real _ _, h | .name _ _, h | .tuple _ _, h
  | .array _ _, h | .record _ _ _ _, h | .field _ _ _, h | .index _ _ _, h
  | .slice _ _ _ _ _, h | .call _ _ _, h | .merge _ _ _, h | .list _ _ _, h =>
      (h.readsAtom hdeep full rfl).inner.top

end

end Lustre
