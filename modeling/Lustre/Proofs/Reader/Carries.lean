import Lustre.Proofs.Reader.Beside
import Lustre.Reader.Program

/-!
# Expressions and declarations in another text

Every reader of a part of a declaration carries over to another text in which its
tokens are found again: it answers the same tree, moved to its place there.  The readers
of one level of expressions do so if those of the levels below do (`Levels`), and so
those of all levels do (`levels_upTo`).

Where a reader looks at a token that may not be there, the token that could be there
instead begins an item, and this is taken for an end as well.  A reader that asks for
such a token is one that fails at the end.
-/

namespace Lustre

open Movable

namespace Context

variable {M : Context} {α : Type}

/-! ## Names and clocks -/

theorem carries_pragmas : M.Carries Read.pragmas Read.pragmas := by
  intro c c' hc
  refine reads_iterate (a := []) Read.advancing_pragmaStep hc fun read c c' hc => ?_
  refine .take? hc (by decide) (fun token rest _ _ hpass => ?_) fun _ => .pure hc (.done rfl)
  exact .pure hpass (.yield (moved_concat read (.ofToken token)))

theorem carries_ident : M.Carries Read.ident Read.ident := by
  intro c c' hc
  refine .take? hc (by decide) (fun token rest _ _ hpass => ?_) fun _ => .missing hc
  exact carries_pragmas.bind hpass fun pragmas _ _ hc₁ => .pure hc₁ rfl

theorem carries_identList : M.Carries Read.identList Read.identList :=
  carries_commaList carries_ident

/-- The only place where blanks matter. -/
theorem carries_reference : M.Carries Read.reference Read.reference := by
  intro c c' hc
  refine .take? hc (by decide) (fun first rest hrest _ hc₁ => ?_) fun _ => .missing hc
  refine .take? hc₁ (by decide) (fun separator rest₁ hrest₁ hkind hc₂ => ?_) fun _ => .pure hc₁ rfl
  refine .take? hc₂ (by decide) (fun member rest₂ hrest₂ _ hc₃ => ?_) fun _ => .missing hc₂
  have htail : c.pass.rest = rest := by rw [Cursor.rest_pass, hrest]; rfl
  have htail₁ : c.pass.pass.rest = rest₁ := by rw [Cursor.rest_pass, hrest₁]; rfl
  have hleft : M.place first.span.stop = M.place separator.span.start ↔
      first.span.stop = separator.span.start := by
    refine ⟨hc.qualified first separator ?_ (.inr hkind), fun h => by rw [h]⟩
    rw [hrest, ← htail, hrest₁]
    exact ⟨[], rest₁, rfl⟩
  have hright : M.place separator.span.stop = M.place member.span.start ↔
      separator.span.stop = member.span.start := by
    refine ⟨hc₁.qualified separator member ?_ (.inl hkind), fun h => by rw [h]⟩
    rw [hrest₁, ← htail₁, hrest₂]
    exact ⟨[], rest₂, rfl⟩
  dsimp only [Token.move_span, Span.move_start, Span.move_stop]
  simp only [hleft, hright]
  split
  · refine .pure hc₃ ?_
    change _ = (⟨some first.text, member.text,
      move M.place (first.span.cover member.span)⟩ : Reference)
    rw [move_cover]
    rfl
  · refine .throw hc₃ ?_
    change _ = (⟨.spacedQualifiedName, move M.place (first.span.cover member.span)⟩ : Diagnostic)
    rw [move_cover]

/-- How far a name goes is the same for both cursors. -/
theorem Beside.referenceLength {c c' : Cursor} (h : M.Beside c c') :
    c'.referenceLength = c.referenceLength ∧ c.referenceLength ≤ c.rest.length := by
  unfold Cursor.referenceLength
  rw [h.isAt (by decide)]
  split
  · rename_i hat
    have hone : 1 ≤ c.rest.length :=
      Cursor.lt_of_peekAt ((Cursor.peekAt_zero c).trans (beq_iff_eq.mp hat))
    have hfirst := h.peekAt_iff (.inl hone) (by decide : Kind.colonColon ∉ itemHeads)
    by_cases hcolons : c.peekAt 1 = some .colonColon
    · have htwo : 2 ≤ c.rest.length := Cursor.lt_of_peekAt hcolons
      have hsecond := h.peekAt_iff (.inl htwo) (by decide : Kind.ident ∉ itemHeads)
      simp only [hfirst, hsecond, true_and]
      split
      · rename_i hboth
        exact Cursor.lt_of_peekAt hboth.2
      · exact hone
    · rw [if_neg fun hboth => hcolons (hfirst.mp hboth.1), if_neg fun hboth => hcolons hboth.1]
      exact ⟨rfl, hone⟩
  · exact ⟨rfl, Nat.zero_le _⟩

theorem carries_clock : M.Carries Read.clock Read.clock := by
  refine @Carries.located _ _ _ _ _ (.of_end fun _ _ => ⟨_, _, rfl, rfl⟩) fun c c' hc => ?_
  refine .ifEat hc (by decide) (fun _ hc₁ => ?_) fun _ => .get ?_
  · refine .ifEat hc₁ (by decide) (fun _ hc₂ => ?_) fun _ => ?_
    · refine carries_ident.bind hc₂ fun name _ _ hc₃ => .expect hc₃ fun _ _ hc₄ => ?_
      exact .pure hc₄ rfl
    · exact carries_ident.bind hc₁ fun name _ _ hc₂ => .pure hc₂ rfl
  · obtain ⟨hlength, hle⟩ := hc.referenceLength
    have hparen := hc.peekAt_iff (.inl hle) (by decide : Kind.lParen ∉ itemHeads)
    simp only [hlength, hparen]
    split
    · rename_i hcase
      refine carries_reference.bind hc fun case _ _ hc₁ => ?_
      refine .aligned (fun _ _ => ⟨_, _, rfl, rfl⟩) fun haligned => ?_
      refine .advance hc₁ haligned fun hc₂ => carries_ident.bind hc₂ fun name _ _ hc₃ => ?_
      exact .expect hc₃ fun _ _ hc₄ => .pure hc₄ rfl
    · exact carries_ident.bind hc fun name _ _ hc₁ => .pure hc₁ rfl

/-! ## Expressions -/

variable (M) in
/-- The readers of what is nested deeper carry over. -/
structure Levels (deep : Nested) : Prop where
  top : ∀ least, M.Carries (deep.top least) (deep.top least)
  inner : ∀ least, M.Carries (deep.inner least) (deep.inner least)
  args : M.Carries deep.args deep.args

variable {deep : Nested} [deep.Advances]

section

variable (hdeep : M.Levels deep)
include hdeep

omit [deep.Advances] in
theorem carries_expr : M.Carries deep.expr deep.expr := hdeep.top 0

theorem carries_exprList {close : Kind} (hclose : close ∉ itemHeads) :
    M.Carries (Read.exprList deep close) (Read.exprList deep close) := fun c c' hc =>
  .ifAt hc hclose (fun _ => .pure hc rfl) fun _ => carries_commaList (carries_expr hdeep) c c' hc

omit [deep.Advances] in
/-- What is built from an index or a slice is built from it in the other text. -/
theorem reads_indexing {α : Type} {R : α → α → Prop} {index index' : Expr → α}
    {slice slice' : Expr → Expr → Option Expr → α} {c c' : Cursor} (hc : M.Beside c c')
    (hindex : ∀ at_, R (index at_) (index' (move M.place at_)))
    (hslice : ∀ first last step, R (slice first last step)
      (slice' (move M.place first) (move M.place last) (move M.place step))) :
    M.Reads R (Read.indexing deep index slice) (Read.indexing deep index' slice') c c' := by
  refine (carries_expr hdeep).bind hc fun first _ _ hc₁ => ?_
  refine .ifEat hc₁ (by decide) (fun _ hc₂ => ?_) fun _ => .pure hc₁ (hindex first)
  refine (carries_expr hdeep).bind hc₂ fun last _ _ hc₃ => ?_
  refine (Carries.optionalAfter (by decide) (carries_expr hdeep)).bind hc₃ fun step _ _ hc₄ => ?_
  exact .pure hc₄ (hslice first last step)

theorem reads_postfixStep (value : Expr) (c c' : Cursor) (hc : M.Beside c c') :
    M.Reads (Link.StepAlike M.Moved) (Read.postfixStep deep value)
      (Read.postfixStep deep (move M.place value)) c c' := by
  refine .peekPast hc (itemHeads_cases rfl rfl rfl rfl rfl rfl rfl rfl) ?_
  split
  · rename_i hdot
    refine .advance hc (aligned_of_peek hdot) fun hc₁ => ?_
    refine carries_ident.bind hc₁ fun field _ _ hc₂ => .pure hc₂ (.yield ?_)
    simp [Moved]
  · rename_i hbracket
    refine .advance hc (aligned_of_peek hbracket) fun hc₁ => ?_
    refine .bind (R := fun build build' => ∀ span,
      M.Moved (build span) (build' (move M.place span)))
      (reads_indexing hdeep hc₁ ?_ ?_) fun build build' _ _ hbuild hc₂ => ?_
    · exact fun at_ span => by simp [Moved]
    · exact fun first last step span => by simp [Moved]
    · refine .expect hc₂ fun _ close hc₃ => .pure hc₃ (.yield ?_)
      simpa using hbuild (value.span.cover close)
  · rename_i hparen
    refine .advance hc (aligned_of_peek hparen) fun hc₁ => ?_
    refine (carries_exprList hdeep (by decide)).bind hc₁ fun args _ _ hc₂ => ?_
    refine .expect hc₂ fun _ close hc₃ => .pure hc₃ (.yield ?_)
    simp [Moved]
  · exact .pure hc (.done rfl)

theorem reads_postfixes {value : Expr} {c c' : Cursor} (hc : M.Beside c c') :
    M.Reads M.Moved (Read.postfixes deep value) (Read.postfixes deep (move M.place value)) c c' :=
  reads_iterate (Read.advancing_postfixStep deep) hc (reads_postfixStep hdeep)

omit [deep.Advances] in
theorem carries_fieldInit : M.Carries (Read.fieldInit deep) (Read.fieldInit deep) := by
  intro c c' hc
  refine .aligned (fun _ _ => ⟨_, _, rfl, rfl⟩) fun haligned => ?_
  refine .here hc haligned fun start => carries_ident.bind hc fun field _ _ hc₁ => ?_
  refine .expect hc₁ fun _ _ hc₂ => (carries_expr hdeep).bind hc₂ fun value _ _ hc₃ => ?_
  exact .spanFrom hc₃ fun span => .pure hc₃ rfl

theorem reads_record {start : Nat} {type : Reference} {c c' : Cursor} (hc : M.Beside c c') :
    M.Reads M.Moved (Read.record deep start type)
      (Read.record deep (M.place start) (move M.place type)) c c' := by
  refine .expect hc fun _ _ hc₁ => .get ?_
  have hfields : ∀ (base : Option Reference) (c c' : Cursor), M.Beside c c' →
      M.Reads M.Moved (do
        let fields ← Read.separated .rBrace [.comma, .semi] (Read.fieldInit deep)
        let _ ← Read.expect .rBrace
        return .record (← Read.spanFrom start) type base fields : Read Expr) (do
        let fields ← Read.separated .rBrace [.comma, .semi] (Read.fieldInit deep)
        let _ ← Read.expect .rBrace
        return .record (← Read.spanFrom (M.place start)) (move M.place type) (move M.place base)
          fields : Read Expr) c c' := by
    intro base c c' hc
    refine (carries_separated (by decide) (by decide) (carries_fieldInit hdeep)).bind hc
      fun fields _ _ hc₁ => .expect hc₁ fun _ _ hc₂ => .spanFrom hc₂ fun span => .pure hc₂ ?_
    simp [Moved]
  obtain ⟨hlength, hle⟩ := hc₁.referenceLength
  have hwith := hc₁.peekAt_iff (.inl hle) (by decide : Kind.kwWith ∉ itemHeads)
  simp only [hlength, hwith]
  split
  · refine carries_reference.bind hc₁ fun base _ _ hc₂ => ?_
    refine .aligned (fun _ _ => ⟨_, _, rfl, rfl⟩) fun haligned => ?_
    exact .advance hc₂ haligned fun hc₃ => hfields (some base) _ _ hc₃
  · exact hfields none _ _ hc₁

theorem carries_nameExpr : M.Carries (Read.nameExpr deep) (Read.nameExpr deep) := by
  intro c c' hc
  refine .aligned (fun _ _ => ⟨_, _, rfl, rfl⟩) fun haligned => ?_
  refine .here hc haligned fun start => carries_reference.bind hc fun name c₁ c₁' hc₁ => ?_
  refine .peekPast hc₁ (itemHeads_cases rfl rfl rfl rfl rfl rfl rfl rfl) ?_
  split
  · refine hdeep.args.bind hc₁ fun args _ _ hc₂ => ?_
    refine .ifAt hc₂ (by decide) (fun _ => ?_) fun _ => ?_
    · exact .spanFrom hc₂ fun span => .pure hc₂ (by simp [Moved])
    · exact .spanFrom hc₂ fun span => .throw hc₂ rfl
  · exact reads_record hdeep hc₁
  · exact .spanFrom hc₁ fun span => .pure hc₁ rfl

omit [deep.Advances] hdeep in
theorem carries_pattern : M.Carries Read.pattern Read.pattern := by
  intro c c' hc
  refine .aligned (fun _ _ => ⟨_, _, rfl, rfl⟩) fun haligned => ?_
  refine .peek hc haligned ?_
  split
  · exact .advance hc haligned fun hc₁ => .pure hc₁ rfl
  · exact .advance hc haligned fun hc₁ => .pure hc₁ rfl
  · exact carries_reference.bind hc fun ref _ _ hc₁ => .pure hc₁ rfl
  · exact .missing hc

omit [deep.Advances] in
theorem carries_mergeArm : M.Carries (Read.mergeArm deep) (Read.mergeArm deep) := by
  intro c c' hc
  refine .aligned (fun _ _ => ⟨_, _, rfl, rfl⟩) fun haligned => ?_
  refine .here hc haligned fun start => .expect hc fun _ _ hc₁ => ?_
  refine carries_pattern.bind hc₁ fun pattern _ _ hc₂ => .expect hc₂ fun _ _ hc₃ => ?_
  refine (carries_expr hdeep).bind hc₃ fun value _ _ hc₄ => .expect hc₄ fun _ _ hc₅ => ?_
  exact .spanFrom hc₅ fun span => .pure hc₅ rfl

theorem reads_merge {start : Nat} {c c' : Cursor} (hc : M.Beside c c') :
    M.Reads M.Moved (Read.merge deep start) (Read.merge deep (M.place start)) c c' := by
  refine carries_ident.bind hc fun clock c₁ c₁' hc₁ => ?_
  refine .bind (reads_iterate (a := []) (Read.advancing_mergeStep deep) hc₁
    fun arms c₂ c₂' hc₂ => ?_) fun arms arms' c₂ c₂' harms hc₂ => ?_
  · refine .ifAt hc₂ (by decide) (fun _ => ?_) fun _ => .pure hc₂ (.done rfl)
    exact (carries_mergeArm hdeep).bind hc₂ fun arm _ _ hc₃ =>
      .pure hc₃ (.yield (moved_concat arms arm))
  · cases harms
    rw [isEmpty_move]
    split
    · exact .missing hc₂
    · exact .spanFrom hc₂ fun span => .pure hc₂ (by simp [Moved])

omit [deep.Advances] in
theorem reads_conditional {start : Nat} {word : CondWord} {c c' : Cursor} (hc : M.Beside c c') :
    M.Reads M.Moved (Read.conditional deep start word)
      (Read.conditional deep (M.place start) word) c c' := by
  refine (carries_expr hdeep).bind hc fun condition _ _ hc₁ => .expect hc₁ fun _ _ hc₂ => ?_
  refine (carries_expr hdeep).bind hc₂ fun yes _ _ hc₃ => .expect hc₃ fun _ _ hc₄ => ?_
  refine (carries_expr hdeep).bind hc₄ fun no _ _ hc₅ => ?_
  exact .spanFrom hc₅ fun span => .pure hc₅ rfl

theorem reads_operands {start : Nat} {op : ListOp} {c c' : Cursor} (hc : M.Beside c c') :
    M.Reads M.Moved (Read.operands deep start op) (Read.operands deep (M.place start) op) c c' := by
  refine .expect hc fun _ _ hc₁ => ?_
  refine (carries_exprList hdeep (by decide)).bind hc₁ fun operands _ _ hc₂ => ?_
  exact .expect hc₂ fun _ _ hc₃ => .spanFrom hc₃ fun span => .pure hc₃ (by simp [Moved])

omit [deep.Advances] hdeep in
theorem reads_takeText {R : α → α → Prop} {next next' : String → Read α} {c c' : Cursor}
    (hc : M.Beside c c') (haligned : M.Aligned c)
    (h : ∀ text, M.Beside c.pass c'.pass → M.Reads R (next text) (next' text) c.pass c'.pass) :
    M.Reads R (Read.takeText >>= next) (Read.takeText >>= next') c c' := by
  have htext : c'.rest.head?.map Token.text = c.rest.head?.map Token.text := by
    rw [hc.rest]
    rcases hrest : c.rest with _ | ⟨token, rest⟩
    · rw [haligned.resolve_left fun hne => hne hrest]
      rfl
    · rfl
  change M.Reads R (next ((c.rest.head?.map Token.text).getD ""))
    (next' ((c'.rest.head?.map Token.text).getD "")) c.pass c'.pass
  rw [htext]
  exact h _ (hc.pass haligned)

theorem carries_primary : M.Carries (Read.primary deep) (Read.primary deep) := by
  intro c c' hc
  refine .aligned (fun _ _ => ⟨_, _, rfl, rfl⟩) fun haligned => ?_
  have hlist {close : Kind} {build : Span → List Expr → Expr} (start : Nat)
      (hclose : close ∉ itemHeads)
      (hbuild : ∀ span items, M.Moved (build span items)
        (build (move M.place span) (move M.place items)))
      {c c' : Cursor} (hc : M.Beside c c') : M.Reads M.Moved (do
        let items ← Read.exprList deep close
        let _ ← Read.expect close
        return build (← Read.spanFrom start) items) (do
        let items ← Read.exprList deep close
        let _ ← Read.expect close
        return build (← Read.spanFrom (M.place start)) items) c c' := by
    refine (carries_exprList hdeep hclose).bind hc fun items _ _ hc₁ =>
      .expect hc₁ fun _ _ hc₂ => ?_
    exact .spanFrom hc₂ fun span => .pure hc₂ (hbuild span items)
  refine .here hc haligned fun start => .peek hc haligned ?_
  split
  · exact reads_takeText hc haligned fun _ hc₁ => .spanFrom hc₁ fun span => .pure hc₁ rfl
  · exact reads_takeText hc haligned fun _ hc₁ => .spanFrom hc₁ fun span => .pure hc₁ rfl
  · exact .advance hc haligned fun hc₁ => .spanFrom hc₁ fun span => .pure hc₁ rfl
  · exact .advance hc haligned fun hc₁ => .spanFrom hc₁ fun span => .pure hc₁ rfl
  · exact carries_nameExpr hdeep c c' hc
  · exact .advance hc haligned (hlist start (by decide) fun _ _ => by simp [Moved])
  · exact .advance hc haligned (hlist start (by decide) fun _ _ => by simp [Moved])
  · exact .advance hc haligned (reads_conditional hdeep)
  · exact .advance hc haligned (reads_conditional hdeep)
  · exact .advance hc haligned (reads_merge hdeep)
  · exact .advance hc haligned (reads_operands hdeep)
  · exact .advance hc haligned (reads_operands hdeep)
  · exact .missing hc

theorem carries_prefixed : M.Carries (Read.prefixed deep) (Read.prefixed deep) := by
  intro c c' hc
  refine .aligned (fun _ _ => ⟨_, _, rfl, rfl⟩) fun haligned => .peek hc haligned ?_
  split
  · refine .here hc haligned fun start => .advance hc haligned fun hc₁ => ?_
    refine (hdeep.inner _).bind hc₁ fun operand _ _ hc₂ => .pure hc₂ ?_
    rw [Expr.move_span]
    rfl
  · exact (carries_primary hdeep).bind hc fun value _ _ hc₁ => reads_postfixes hdeep hc₁

omit [deep.Advances] hdeep in
theorem moved_binary (op : BinaryOp) (lhs rhs : Expr) :
    M.Moved (Read.binary op lhs rhs) (Read.binary op (move M.place lhs) (move M.place rhs)) := by
  simp [Moved, Read.binary]

omit [deep.Advances] in
theorem reads_innerStep (least : Nat) (lhs : Expr) (c c' : Cursor) (hc : M.Beside c c') :
    M.Reads (Link.StepAlike M.Moved) (Read.innerStep deep least lhs)
      (Read.innerStep deep least (move M.place lhs)) c c' := by
  refine .ifAt hc (by decide) (fun hwhen => ?_) fun _ => ?_
  · split
    · exact .pure hc (.done rfl)
    · refine .advance hc (aligned_of_peek hwhen) fun hc₁ => ?_
      refine carries_clock.bind hc₁ fun clock _ _ hc₂ => .pure hc₂ (.yield ?_)
      simp [Moved]
  · refine .peekPast hc (itemHeads_cases rfl rfl rfl rfl rfl rfl rfl rfl) ?_
    split
    · rename_i op hop
      obtain ⟨kind, hkind, -⟩ := Option.bind_eq_some_iff.mp hop
      split
      · exact .pure hc (.done rfl)
      · refine .advance hc (aligned_of_peek hkind) fun hc₁ => ?_
        exact (hdeep.inner _).bind hc₁ fun rhs _ _ hc₂ =>
          .pure hc₂ (.yield (moved_binary op lhs rhs))
    · exact .pure hc (.done rfl)

theorem carries_inner (least : Nat) : M.Carries (Read.inner deep least) (Read.inner deep least) :=
  fun _ _ hc => (carries_prefixed hdeep).bind hc fun _ _ _ hc₁ =>
    reads_iterate (Read.advancing_innerStep deep least) hc₁ (reads_innerStep hdeep least)

theorem carries_comparison : M.Carries (Read.comparison deep) (Read.comparison deep) := by
  intro c c' hc
  refine (carries_inner hdeep 0).bind hc fun lhs c₁ c₁' hc₁ => ?_
  refine .peekPast hc₁ (itemHeads_cases rfl rfl rfl rfl rfl rfl rfl rfl) ?_
  split
  · rename_i op hop
    obtain ⟨kind, hkind, -⟩ := Option.bind_eq_some_iff.mp hop
    refine .advance hc₁ (aligned_of_peek hkind) fun hc₂ => ?_
    refine (carries_inner hdeep 0).bind hc₂ fun rhs c₃ c₃' hc₃ => ?_
    refine .peekPast hc₃ (itemHeads_cases rfl rfl rfl rfl rfl rfl rfl rfl) ?_
    split
    · exact .fail hc₃
    · exact .pure hc₃ (moved_binary op lhs rhs)
  · exact .pure hc₁ rfl

omit [deep.Advances] in
theorem reads_topStep (least : Nat) (lhs : Expr) (c c' : Cursor) (hc : M.Beside c c') :
    M.Reads (Link.StepAlike M.Moved) (Read.topStep deep least lhs)
      (Read.topStep deep least (move M.place lhs)) c c' := by
  refine .peekPast hc (itemHeads_cases rfl rfl rfl rfl rfl rfl rfl rfl) ?_
  split
  · rename_i op hop
    obtain ⟨kind, hkind, -⟩ := Option.bind_eq_some_iff.mp hop
    split
    · exact .pure hc (.done rfl)
    · refine .advance hc (aligned_of_peek hkind) fun hc₁ => ?_
      exact (hdeep.top _).bind hc₁ fun rhs _ _ hc₂ => .pure hc₂ (.yield (moved_binary op lhs rhs))
  · exact .pure hc (.done rfl)

theorem carries_top (least : Nat) : M.Carries (Read.top deep least) (Read.top deep least) :=
  fun _ _ hc => (carries_comparison hdeep).bind hc fun _ _ _ hc₁ =>
    reads_iterate (Read.advancing_topStep deep least) hc₁ (reads_topStep hdeep least)

/-! ## Types and static arguments -/

omit [deep.Advances] hdeep in
theorem carries_simpleType : M.Carries Read.simpleType Read.simpleType := by
  intro c c' hc
  refine .aligned (fun _ _ => ⟨_, _, rfl, rfl⟩) fun haligned => .here hc haligned fun start => ?_
  refine .peek hc haligned ?_
  split
  · exact .advance hc haligned fun hc₁ => .spanFrom hc₁ fun span => .pure hc₁ rfl
  · exact .advance hc haligned fun hc₁ => .spanFrom hc₁ fun span => .pure hc₁ rfl
  · exact .advance hc haligned fun hc₁ => .spanFrom hc₁ fun span => .pure hc₁ rfl
  · exact carries_reference.bind hc fun ref _ _ hc₁ => .spanFrom hc₁ fun span => .pure hc₁ rfl
  · exact .missing hc

theorem carries_typeExpr : M.Carries (Read.typeExpr deep) (Read.typeExpr deep) := by
  intro c c' hc
  refine carries_simpleType.bind hc fun type c₁ c₁' hc₁ => ?_
  refine reads_iterate (Read.advancing_lengthStep deep) hc₁ fun type c c' hc => ?_
  refine .ifEat hc (by decide) (fun _ hc₁ => ?_) fun _ => .pure hc (.done rfl)
  refine (carries_inner hdeep _).bind hc₁ fun length _ _ hc₂ => .pure hc₂ (.yield ?_)
  simp [Moved]

omit [deep.Advances] in
theorem carries_nodeUse : M.Carries (Read.nodeUse deep) (Read.nodeUse deep) := by
  intro c c' hc
  refine .aligned (fun _ _ => ⟨_, _, rfl, rfl⟩) fun haligned => .here hc haligned fun start => ?_
  refine carries_reference.bind hc fun node _ _ hc₁ => ?_
  refine (Carries.optionalAt (by decide) hdeep.args).bind hc₁ fun args _ _ hc₂ => ?_
  exact .spanFrom hc₂ fun span => .pure hc₂ rfl

theorem reads_typeArg {start : Nat} {explicit : Bool} {c c' : Cursor} (hc : M.Beside c c') :
    M.Reads M.Moved (Read.typeArg deep start explicit)
      (Read.typeArg deep (M.place start) explicit) c c' :=
  (carries_typeExpr hdeep).bind hc fun _ _ _ hc₁ => .spanFrom hc₁ fun _ => .pure hc₁ rfl

omit [deep.Advances] in
theorem reads_constArg {start : Nat} {explicit : Bool} {c c' : Cursor} (hc : M.Beside c c') :
    M.Reads M.Moved (Read.constArg deep start explicit)
      (Read.constArg deep (M.place start) explicit) c c' :=
  (carries_expr hdeep).bind hc fun _ _ _ hc₁ => .spanFrom hc₁ fun _ => .pure hc₁ rfl

omit [deep.Advances] in
theorem reads_nodeArg {start : Nat} {kind : NodeKind} {c c' : Cursor} (hc : M.Beside c c') :
    M.Reads M.Moved (Read.nodeArg deep start kind) (Read.nodeArg deep (M.place start) kind) c c' :=
  (carries_nodeUse hdeep).bind hc fun target _ _ hc₁ => .spanFrom hc₁ fun span => .pure hc₁ (by
    cases target
    simp [Moved])

omit [deep.Advances] hdeep in
/-- Whether an argument ends, not farther than the end of the first cursor. -/
theorem Beside.endsArg {c c' : Cursor} (h : M.Beside c c') {ahead : Nat}
    (hsees : ahead ≤ c.rest.length ∨ M.later = []) {close : Kind} (hclose : close ∉ itemHeads) :
    c'.endsArg ahead close = c.endsArg ahead close := by
  have hends : ∀ c : Cursor, c.endsArg ahead close = true ↔ c.peekAt ahead = some .comma ∨
      c.peekAt ahead = some .semi ∨ c.peekAt ahead = some close := by
    intro c
    unfold Cursor.endsArg
    split <;> simp_all [or_assoc]
  rw [Bool.eq_iff_iff, hends, hends, h.peekAt_iff hsees (by decide), h.peekAt_iff hsees (by decide),
    h.peekAt_iff hsees hclose]

omit [deep.Advances] in
theorem reads_nameLedConst {close : Kind} (hclose : close ∉ itemHeads) {start : Nat}
    {c c' : Cursor} (hc : M.Beside c c') :
    M.Reads M.Moved (Read.nameLedConst deep close start)
      (Read.nameLedConst deep close (M.place start)) c c' := by
  refine (carries_expr hdeep).bind hc fun value c₁ c₁' hc₁ => ?_
  have hvalue : M.Reads M.Moved
    (do return .const (← Read.spanFrom start) value false : Read StaticArg)
      (do return .const (← Read.spanFrom (M.place start)) (move M.place value) false :
        Read StaticArg) c₁ c₁' :=
    .spanFrom hc₁ fun span => .pure hc₁ rfl
  cases value
  case name span ref =>
    refine .get ?_
    rw [hc₁.endsArg (.inl (Nat.zero_le _)) hclose]
    split
    · exact .throw hc₁ rfl
    · exact hvalue
  all_goals exact hvalue

omit [deep.Advances] in
/-- Both cursors go back to where they were for the second look. -/
theorem reads_nameLedArg {close : Kind} (hclose : close ∉ itemHeads) {start : Nat} {c c' : Cursor}
    (hc : M.Beside c c') :
    M.Reads M.Moved (Read.nameLedArg deep close start)
      (Read.nameLedArg deep close (M.place start)) c c' := by
  obtain ⟨hlength, hle⟩ := hc.referenceLength
  have hopens := hc.peekAt_iff (.inl hle) (by decide : Kind.ltLt ∉ itemHeads)
  refine .get ?_
  simp only [hlength, hc.endsArg (.inl hle) hclose, hopens]
  split
  · exact carries_reference.bind hc fun ref _ _ hc₁ => .spanFrom hc₁ fun span => .pure hc₁ rfl
  · split
    · refine (carries_nodeUse hdeep).bind hc fun target _ _ hc₁ => ?_
      refine .ifAt hc₁ (by decide) (fun _ => ?_) fun _ => ?_
      · exact reads_nameLedConst hdeep hclose hc
      · refine .spanFrom hc₁ fun span => .pure hc₁ ?_
        cases target
        simp [Moved]
    · exact reads_nameLedConst hdeep hclose hc

theorem carries_staticArg {close : Kind} (hclose : close ∉ itemHeads) :
    M.Carries (Read.staticArg deep close) (Read.staticArg deep close) := by
  intro c c' hc
  refine .starved fun haligned => .get ?_
  have hcaret := hc.peekAt_iff haligned.sees_one (by decide : Kind.caret ∉ itemHeads)
  have hbuiltin {start : Nat} : M.Reads M.Moved
      (if c.endsArg 1 close = true ∨ c.peekAt 1 = some .caret then Read.typeArg deep start false
        else Read.constArg deep start false)
      (if c.endsArg 1 close = true ∨ c.peekAt 1 = some .caret then
        Read.typeArg deep (M.place start) false
        else Read.constArg deep (M.place start) false) c c' := by
    split
    · exact reads_typeArg hdeep hc
    · exact reads_constArg hdeep hc
  -- an operator alone is told by two tokens, which are there in both texts
  have hop : ((c'.peek.bind PredefinedOp.ofKind?).filter fun _ => c'.endsArg 1 close) =
      (c.peek.bind PredefinedOp.ofKind?).filter fun _ => c.endsArg 1 close := by
    rw [hc.peek haligned, hc.endsArg haligned.sees_one hclose]
  rw [hop]
  generalize ((c.peek.bind PredefinedOp.ofKind?).filter fun _ => c.endsArg 1 close) = found
  simp only [hc.peek haligned, hc.span haligned, hc.endsArg haligned.sees_one hclose, hcaret,
    Span.move_start]
  cases found
  case some op => exact .advance hc haligned fun hc₁ => .spanFrom hc₁ fun span => .pure hc₁ rfl
  case none =>
    dsimp only
    split
    · exact .advance hc haligned (reads_typeArg hdeep)
    · exact .advance hc haligned (reads_constArg hdeep)
    · exact .advance hc haligned (reads_nodeArg hdeep)
    · exact .advance hc haligned (reads_nodeArg hdeep)
    · exact hbuiltin
    · exact hbuiltin
    · exact hbuiltin
    · exact reads_nameLedArg hdeep hclose hc
    · exact reads_constArg hdeep hc

theorem carries_staticArgs : M.Carries (Read.staticArgs deep) (Read.staticArgs deep) := by
  intro c c' hc
  refine .expect hc fun _ _ hc₁ => ?_
  refine (carries_separated (by decide) (by decide) (carries_staticArg hdeep (by decide))).bind hc₁
    fun args _ _ hc₂ => .expect hc₂ fun _ _ hc₃ => .pure hc₃ rfl

end

theorem levels_upTo (levels : Nat) : M.Levels (.upTo levels) := by
  induction levels with
  | zero => exact ⟨fun _ _ _ hc => .fail hc, fun _ _ _ hc => .fail hc, fun _ _ hc => .fail hc⟩
  | succ levels ih => exact ⟨carries_top ih, carries_inner ih, carries_staticArgs ih⟩

/-! ## Parts of declarations -/

section

variable (hdeep : M.Levels deep)
include hdeep

theorem carries_typedNames : M.Carries (Read.typedNames deep) (Read.typedNames deep) := by
  intro c c' hc
  refine carries_identList.bind hc fun names _ _ hc₁ => .expect hc₁ fun _ _ hc₂ => ?_
  exact (carries_typeExpr hdeep).bind hc₂ fun type _ _ hc₃ => .pure hc₃ rfl

theorem carries_varGroups : M.Carries (Read.varGroups deep) (Read.varGroups deep) := by
  intro c c' hc
  refine (carries_typedNames hdeep).bind hc fun first c₁ c₁' hc₁ => ?_
  refine reads_iterate (a := [first]) (Read.advancing_groupStep deep) hc₁ fun groups c c' hc => ?_
  refine .ifEat hc (by decide) (fun _ hc₁ => ?_) fun _ => .pure hc (.done rfl)
  refine .ifAt hc₁ (by decide) (fun _ => .pure hc₁ (.done rfl)) fun _ => ?_
  exact (carries_typedNames hdeep).bind hc₁ fun group _ _ hc₂ =>
    .pure hc₂ (.yield (moved_concat groups group))

theorem carries_varDecl : M.Carries (Read.varDecl deep) (Read.varDecl deep) := by
  refine @Carries.located _ _ _ _ _ (.of_end fun _ _ => ⟨_, _, rfl, rfl⟩) fun c c' hc => ?_
  refine .ifEat hc (by decide) (fun _ hc₁ => ?_) fun _ => ?_
  · refine (carries_varGroups hdeep).bind hc₁ fun groups _ _ hc₂ => .expect hc₂ fun _ _ hc₃ => ?_
    refine .expect hc₃ fun _ _ hc₄ => carries_clock.bind hc₄ fun clock _ _ hc₅ => .pure hc₅ rfl
  · refine (carries_typedNames hdeep).bind hc fun group _ _ hc₁ => ?_
    exact (Carries.optionalAfter (by decide) carries_clock).bind hc₁ fun clock _ _ hc₂ =>
      .pure hc₂ rfl

theorem carries_params : M.Carries (Read.params deep) (Read.params deep) := by
  intro c c' hc
  refine .expect hc fun _ _ hc₁ => ?_
  refine (carries_separated (by decide) (by decide) (carries_varDecl hdeep)).bind hc₁
    fun params _ _ hc₂ => .expect hc₂ fun _ _ hc₃ => .pure hc₃ rfl

theorem carries_profile : M.Carries (Read.profile deep) (Read.profile deep) := by
  intro c c' hc
  refine (carries_params hdeep).bind hc fun inputs _ _ hc₁ => .expect hc₁ fun _ _ hc₂ => ?_
  exact (carries_params hdeep).bind hc₂ fun outputs _ _ hc₃ => .pure hc₃ rfl

omit [deep.Advances] hdeep in
theorem carries_nodeKind : M.Carries Read.nodeKind Read.nodeKind := by
  intro c c' hc
  refine .aligned (fun _ _ => ⟨_, _, rfl, rfl⟩) fun haligned => ?_
  have hiff (kind : Kind) : c'.peek = some kind ↔ c.peek = some kind := by rw [hc.peek haligned]
  refine .eatSame hc (hiff .kwNode) (fun _ hpass => .pure hpass rfl) fun _ => ?_
  exact .eatSame hc (hiff .kwFunction) (fun _ hpass => .pure hpass rfl) fun _ => .unexpected hc

omit [deep.Advances] hdeep in
theorem carries_nodeHead : M.Carries Read.nodeHead Read.nodeHead := by
  intro c c' hc
  refine .aligned (fun _ _ => ⟨_, _, rfl, rfl⟩) fun haligned => ?_
  have hname : ∀ (isUnsafe : Bool) (c c' : Cursor), M.Beside c c' → M.Reads M.Moved (do
      let kind ← Read.nodeKind
      return ⟨isUnsafe, kind, ← Read.ident⟩ : Read NodeHead) (do
      let kind ← Read.nodeKind
      return ⟨isUnsafe, kind, ← Read.ident⟩ : Read NodeHead) c c' := fun isUnsafe c c' hc =>
    carries_nodeKind.bind hc fun kind _ _ hc₁ => carries_ident.bind hc₁ fun name _ _ hc₂ =>
      .pure hc₂ rfl
  refine .eatSame hc (by rw [hc.peek haligned]) (fun _ hpass => hname true _ _ hpass) fun _ => ?_
  exact hname false c c' hc

theorem carries_staticParam : M.Carries (Read.staticParam deep) (Read.staticParam deep) := by
  refine @Carries.located_of_aligned _ _ _ _ _ (.of_end fun _ _ => ⟨_, _, rfl, rfl⟩)
    fun c c' hc haligned => .peek hc haligned ?_
  have hnode : M.Reads M.Moved (do
      let head ← Read.nodeHead
      return .node head (← Read.profile deep) : Read StaticParam) (do
      let head ← Read.nodeHead
      return .node head (← Read.profile deep) : Read StaticParam) c c' :=
    carries_nodeHead.bind hc fun head _ _ hc₁ => (carries_profile hdeep).bind hc₁
      fun profile _ _ hc₂ => .pure hc₂ rfl
  split
  · exact .advance hc haligned fun hc₁ => carries_ident.bind hc₁ fun name _ _ hc₂ => .pure hc₂ rfl
  · refine .advance hc haligned fun hc₁ => carries_ident.bind hc₁ fun name _ _ hc₂ => ?_
    refine .expect hc₂ fun _ _ hc₃ => (carries_typeExpr hdeep).bind hc₃ fun type _ _ hc₄ => ?_
    exact .pure hc₄ rfl
  · exact hnode
  · exact hnode
  · exact hnode
  · exact .unexpected hc

theorem carries_staticParams : M.Carries (Read.staticParams deep) (Read.staticParams deep) := by
  intro c c' hc
  refine .expect hc fun _ _ hc₁ => ?_
  refine (carries_separated (by decide) (by decide) (carries_staticParam hdeep)).bind hc₁
    fun params _ _ hc₂ => .expect hc₂ fun _ _ hc₃ => .pure hc₃ rfl

theorem carries_fieldDecl : M.Carries (Read.fieldDecl deep) (Read.fieldDecl deep) := by
  refine @Carries.located _ _ _ _ _ (.of_end fun _ _ => ⟨_, _, rfl, rfl⟩) fun c c' hc => ?_
  refine carries_identList.bind hc fun names _ _ hc₁ => .expect hc₁ fun _ _ hc₂ => ?_
  refine (carries_typeExpr hdeep).bind hc₂ fun type c₃ c₃' hc₃ => ?_
  refine .ifAt hc₃ (by decide) (fun heq => ?_) fun _ => .pure hc₃ rfl
  rw [length_move]
  split
  · exact .fail hc₃
  · refine .advance hc₃ (aligned_of_peek heq) fun hc₄ => ?_
    exact (carries_expr hdeep).bind hc₄ fun value _ _ hc₅ => .pure hc₅ rfl

theorem carries_fieldDecls : M.Carries (Read.fieldDecls deep) (Read.fieldDecls deep) := by
  intro c c' hc
  refine .expect hc fun _ _ hc₁ => ?_
  refine (carries_separated (by decide) (by decide) (carries_fieldDecl hdeep)).bind hc₁
    fun fields _ _ hc₂ => .expect hc₂ fun _ _ hc₃ => .pure hc₃ rfl

theorem carries_typeBody : M.Carries (Read.typeBody deep) (Read.typeBody deep) := by
  refine @Carries.located_of_aligned _ _ _ _ _ (.of_end fun _ _ => ⟨_, _, rfl, rfl⟩)
    fun c c' hc haligned => .peek hc haligned ?_
  split
  · refine .advance hc haligned fun hc₁ => .expect hc₁ fun _ _ hc₂ => ?_
    exact carries_identList.bind hc₂ fun names _ _ hc₃ => .expect hc₃ fun _ _ hc₄ => .pure hc₄ rfl
  · refine .advance hc haligned fun hc₁ => ?_
    exact (carries_fieldDecls hdeep).bind hc₁ fun fields _ _ hc₂ => .pure hc₂ rfl
  · exact (carries_fieldDecls hdeep).bind hc fun fields _ _ hc₁ => .pure hc₁ rfl
  · exact (carries_typeExpr hdeep).bind hc fun type _ _ hc₁ => .pure hc₁ rfl

theorem carries_typeDef : M.Carries (Read.typeDef deep) (Read.typeDef deep) := by
  refine @Carries.located _ _ _ _ _ (.of_end fun _ _ => ⟨_, _, rfl, rfl⟩) fun c c' hc => ?_
  refine carries_ident.bind hc fun name _ _ hc₁ => ?_
  exact (Carries.optionalAfter (by decide) (carries_typeBody hdeep)).bind hc₁ fun body _ _ hc₂ =>
    .pure hc₂ rfl

theorem carries_typeEntry : M.Carries (Read.typeEntry deep) (Read.typeEntry deep) := by
  intro c c' hc
  refine (carries_typeDef hdeep).bind hc fun entry _ _ hc₁ => ?_
  exact .expect hc₁ fun _ _ hc₂ => .pure hc₂ rfl

theorem carries_constDef : M.Carries (Read.constDef deep) (Read.constDef deep) := by
  intro c c' hc
  refine carries_ident.bind hc fun name c₁ c₁' hc₁ => ?_
  refine .aligned (fun _ _ => ⟨_, _, rfl, rfl⟩) fun haligned => .peek hc₁ haligned ?_
  split
  · refine .bind (reads_iterate (a := [name]) (Read.advancing_commaStep Read.ident) hc₁
      (reads_commaStep carries_ident)) fun names names' _ _ hnames hc₂ =>
        .expect hc₂ fun _ _ hc₃ => ?_
    cases hnames
    exact (carries_typeExpr hdeep).bind hc₃ fun type _ _ hc₄ => .pure hc₄ rfl
  · refine .advance hc₁ haligned fun hc₂ => (carries_typeExpr hdeep).bind hc₂ fun type _ _ hc₃ => ?_
    refine .ifEat hc₃ (by decide) (fun _ hc₄ => ?_) fun _ => .pure hc₃ rfl
    exact (carries_expr hdeep).bind hc₄ fun value _ _ hc₅ => .pure hc₅ rfl
  · refine .advance hc₁ haligned fun hc₂ => ?_
    exact (carries_expr hdeep).bind hc₂ fun value _ _ hc₃ => .pure hc₃ rfl
  · exact .unexpected hc₁

theorem carries_constEntry : M.Carries (Read.constEntry deep) (Read.constEntry deep) := by
  intro c c' hc
  have hstarved : Starved (Read.constDef deep) := .of_end fun _ _ => ⟨_, _, rfl, rfl⟩
  refine (carries_constDef hdeep).located.bind hc fun entry _ _ hc₁ => ?_
  exact .expect hc₁ fun _ _ hc₂ => .pure hc₂ rfl

/-! ### What packages show and take -/

theorem carries_provide : M.Carries (Read.provide deep) (Read.provide deep) := by
  refine @Carries.located_of_aligned _ _ _ _ _ (.of_end fun _ _ => ⟨_, _, rfl, rfl⟩)
    fun c c' hc haligned => .peek hc haligned ?_
  have hnode : M.Reads M.Moved (do
      let head ← Read.nodeHead
      let params ← Read.optionalAt .ltLt (Read.staticParams deep)
      return .node head params (← Read.profile deep) : Read Provide) (do
      let head ← Read.nodeHead
      let params ← Read.optionalAt .ltLt (Read.staticParams deep)
      return .node head params (← Read.profile deep) : Read Provide) c c' := by
    refine carries_nodeHead.bind hc fun head _ _ hc₁ => ?_
    refine (Carries.optionalAt (by decide) (carries_staticParams hdeep)).bind hc₁
      fun params _ _ hc₂ => ?_
    exact (carries_profile hdeep).bind hc₂ fun profile _ _ hc₃ => .pure hc₃ rfl
  split
  · refine .advance hc haligned fun hc₁ => carries_ident.bind hc₁ fun name _ _ hc₂ => ?_
    refine .expect hc₂ fun _ _ hc₃ => (carries_typeExpr hdeep).bind hc₃ fun type _ _ hc₄ => ?_
    exact (Carries.optionalAfter (by decide) (carries_expr hdeep)).bind hc₄ fun value _ _ hc₅ =>
      .pure hc₅ rfl
  · refine .advance hc haligned fun hc₁ => ?_
    exact (carries_typeDef hdeep).bind hc₁ fun entry _ _ hc₂ => .pure hc₂ rfl
  · exact hnode
  · exact hnode
  · exact hnode
  · exact .unexpected hc

omit [deep.Advances] hdeep in
theorem carries_uses : M.Carries Read.uses Read.uses := by
  intro c c' hc
  refine .ifEat hc (by decide) (fun _ hc₁ => ?_) fun _ => .pure hc rfl
  exact carries_identList.bind hc₁ fun names _ _ hc₂ => .expect hc₂ fun _ _ hc₃ => .pure hc₃ rfl

/-- What a package provides ends where no other thing begins, and an item that follows could begin
with the same token.  So more tokens are harmless only if some token was left. -/
theorem alike_provides (c c' : Cursor) (hc : M.Beside c c') :
    M.cursors.Alike (fun _ c₁ => c₁.rest ≠ []) M.Moved (Read.provides deep)
      (Read.provides deep) c c' := by
  refine .bind (carries_eat (by decide) c c' hc) (fun found found' c₁ c₁' _ hfound hc₁ => ?_)
    (fun _ _ _ _ _ _ _ _ => trivial) fun _ _ _ _ _ _ _ _ => trivial
  cases hfound
  cases found with
  | false => exact .pure hc₁ rfl
  | true =>
      have hitems : M.cursors.Alike (fun _ c₂ => c₂.rest ≠ []) M.Moved
          (Read.terminated [.kwConst, .kwType, .kwNode, .kwFunction, .kwUnsafe] (Read.provide deep))
          (Read.terminated [.kwConst, .kwType, .kwNode, .kwFunction, .kwUnsafe] (Read.provide deep))
          c₁ c₁' :=
        alike_terminated (carries_provide hdeep) (fun _ _ hsome hend => absurd hend hsome) hc₁
      refine .bind hitems (fun items items' c₂ c₂' _ h hc₂ => ?_) (fun _ _ c₂ _ _ _ hok hsome => ?_)
        fun _ _ _ _ _ _ hnot _ => (by cases hnot)
      · cases h
        exact .pure hc₂ rfl
      · cases hok
        exact hsome

omit [deep.Advances] hdeep in
/-- Whether the name of an argument comes, not farther than the end of the first cursor. -/
theorem Beside.namesArgAt {c c' : Cursor} (h : M.Beside c c') {ahead : Nat}
    (hsees : ahead ≤ c.rest.length ∨ M.later = []) : c'.namesArgAt ahead = c.namesArgAt ahead := by
  have hname := h.peekAt_iff hsees (by decide : Kind.ident ∉ itemHeads)
  rw [Bool.eq_iff_iff]
  simp only [Cursor.namesArgAt, Bool.and_eq_true, Bool.or_eq_true, beq_iff_eq, hname]
  refine and_congr_right fun hident => ?_
  have hmore : ahead + 1 ≤ c.rest.length ∨ M.later = [] := .inl (Cursor.lt_of_peekAt hident)
  rw [h.peekAt_iff hmore (by decide), h.peekAt_iff hmore (by decide)]

omit [deep.Advances] hdeep in
theorem reads_keywordArg {arg arg' : Nat → Read StaticArg} (hstarved : ∀ start, Starved (arg start))
    (harg : ∀ start c c', M.Beside c c' → M.Reads M.Moved (arg start) (arg' (M.place start)) c c')
    {c c' : Cursor} (hc : M.Beside c c') (haligned : M.Aligned c) :
    M.Reads M.Moved (Read.keywordArg arg) (Read.keywordArg arg') c c' := by
  refine .advance hc haligned fun hc₁ => carries_ident.bind hc₁ fun name _ _ hc₂ => ?_
  refine .expect hc₂ fun _ _ hc₃ => .starved fun haligned₃ => .here hc₃ haligned₃ fun start => ?_
  refine .bind (harg start _ _ hc₃) fun value value' _ _ hvalue hc₄ => .pure hc₄ ?_
  cases hvalue
  rfl

theorem carries_namedArg {close : Kind} (hclose : close ∉ itemHeads) :
    M.Carries (Read.namedArg deep close) (Read.namedArg deep close) := by
  refine @Carries.located_of_aligned _ _ _ _ _ (.look fun c hrest => ?_) fun c c' hc haligned => ?_
  · simp only [Cursor.peek, hrest, List.head?_nil, Option.map_none]
    exact Starved.fails c hrest
  have hplain : M.Reads M.Moved (do return ⟨none, ← Read.staticArg deep close⟩ : Read NamedArg)
      (do return ⟨none, ← Read.staticArg deep close⟩ : Read NamedArg) c c' :=
    (carries_staticArg hdeep hclose).bind hc fun arg _ _ hc₁ => .pure hc₁ rfl
  have hword {arg : Nat → Read StaticArg} [∀ start, Starved (arg start)]
      (harg : ∀ start c c', M.Beside c c' → M.Reads M.Moved (arg start)
        (arg (M.place start)) c c') :
      M.Reads M.Moved
        (if c.namesArgAt 1 = true then Read.keywordArg arg
          else do return ⟨none, ← Read.staticArg deep close⟩)
        (if c.namesArgAt 1 = true then Read.keywordArg arg
          else do return ⟨none, ← Read.staticArg deep close⟩) c c' := by
    split
    · exact reads_keywordArg inferInstance harg hc haligned
    · exact hplain
  refine .get ?_
  simp only [hc.peek haligned, hc.namesArgAt (.inl (Nat.zero_le _)),
    hc.namesArgAt haligned.sees_one]
  split
  · split
    · refine carries_ident.bind hc fun name _ _ hc₁ => .expect hc₁ fun _ _ hc₂ => ?_
      exact (carries_staticArg hdeep hclose).bind hc₂ fun arg _ _ hc₃ => .pure hc₃ rfl
    · exact hplain
  · exact hword fun _ _ _ => reads_typeArg hdeep
  · exact hword fun _ _ _ => reads_constArg hdeep
  · exact hword fun _ _ _ => reads_nodeArg hdeep
  · exact hword fun _ _ _ => reads_nodeArg hdeep
  · exact hplain

theorem carries_modelArgs : M.Carries (Read.modelArgs deep) (Read.modelArgs deep) := by
  intro c c' hc
  refine .ifEat hc (by decide) (fun _ hc₁ => ?_) fun _ => ?_
  · refine (carries_separated (by decide) (by decide) (carries_namedArg hdeep (by decide))).bind hc₁
      fun args _ _ hc₂ => .expect hc₂ fun _ _ hc₃ => .pure hc₃ rfl
  · refine .ifEat hc (by decide) (fun _ hc₁ => ?_) fun _ => .unexpected hc
    refine (carries_separated (by decide) (by decide) (carries_namedArg hdeep (by decide))).bind hc₁
      fun args _ _ hc₂ => .expect hc₂ fun _ _ hc₃ => .pure hc₃ rfl

omit [deep.Advances] hdeep in
theorem carries_instanceWord : M.Carries Recover.instanceWord Recover.instanceWord := fun _ _ hc =>
  .ifEat hc (by decide) (fun _ hc₁ => .pure hc₁ rfl) fun _ =>
    .ifEat hc (by decide) (fun _ hc₁ => .pure hc₁ rfl) fun _ => .pure hc rfl

/-! ### Equations and nodes -/

omit [deep.Advances] in
theorem reads_partStep (left : LeftExpr) (c c' : Cursor) (hc : M.Beside c c') :
    M.Reads (Link.StepAlike M.Moved) (Read.partStep deep left)
      (Read.partStep deep (move M.place left)) c c' := by
  refine .ifEat hc (by decide) (fun _ hc₁ => ?_) fun _ => ?_
  · refine carries_ident.bind hc₁ fun field _ _ hc₂ => .pure hc₂ (.yield ?_)
    simp [Moved]
  · refine .ifEat hc (by decide) (fun _ hc₁ => ?_) fun _ => .pure hc (.done rfl)
    refine .bind (R := fun build build' => ∀ span,
      M.Moved (build span) (build' (move M.place span)))
      (reads_indexing hdeep hc₁ ?_ ?_) fun build build' _ _ hbuild hc₂ => ?_
    · exact fun at_ span => by simp [Moved]
    · exact fun first last step span => by simp [Moved]
    · refine .expect hc₂ fun _ close hc₃ => .pure hc₃ (.yield ?_)
      simpa using hbuild (left.span.cover close)

theorem carries_leftExpr : M.Carries (Read.leftExpr deep) (Read.leftExpr deep) := by
  intro c c' hc
  refine carries_ident.bind hc fun name c₁ c₁' hc₁ => ?_
  rw [← LeftExpr.move_name]
  exact reads_iterate (Read.advancing_partStep deep) hc₁ (reads_partStep hdeep)

theorem carries_leftList : M.Carries (Read.leftList deep) (Read.leftList deep) := by
  intro c c' hc
  have hitems := carries_commaList (carries_leftExpr hdeep)
  refine .ifEat hc (by decide) (fun _ hc₁ => ?_) fun _ => ?_
  · refine .ifAt hc₁ (by decide) (fun _ => ?_) fun _ => ?_
    · exact .expect hc₁ fun _ _ hc₂ => .pure hc₂ rfl
    · exact hitems.bind hc₁ fun items _ _ hc₂ => .expect hc₂ fun _ _ hc₃ => .pure hc₃ rfl
  · exact hitems.bind hc fun items _ _ hc₁ => .pure hc₁ rfl

theorem carries_statement : M.Carries (Read.statement deep) (Read.statement deep) := by
  intro c c' hc
  refine .ifEat hc (by decide) (fun _ hc₁ => ?_) fun _ => ?_
  · exact (carries_expr hdeep).bind hc₁ fun condition _ _ hc₂ => .pure hc₂ rfl
  · refine (carries_leftList hdeep).bind hc fun left _ _ hc₁ => .expect hc₁ fun _ _ hc₂ => ?_
    exact (carries_expr hdeep).bind hc₂ fun right _ _ hc₃ => .pure hc₃ rfl

theorem carries_equation : M.Carries (Read.equation deep) (Read.equation deep) := by
  intro c c' hc
  have hstarved : Starved (Read.statement deep) := .of_end fun _ _ => ⟨_, _, rfl, rfl⟩
  refine (carries_statement hdeep).located.bind hc fun equation _ _ hc₁ => ?_
  exact .expect hc₁ fun _ _ hc₂ => .pure hc₂ rfl

omit [deep.Advances] in
theorem carries_synonymTarget :
    M.Carries (Recover.synonymTarget deep) (Recover.synonymTarget deep) := by
  intro c c' hc
  refine (Carries.optionalAfter (by decide) (carries_nodeUse hdeep)).bind hc
    fun target _ _ hc₁ => ?_
  cases target with
  | none => exact .pure hc₁ rfl
  | some target => exact .eat hc₁ (by decide) (fun _ hc₂ => .pure hc₂ rfl) fun _ => .pure hc₁ rfl

theorem carries_externalNode :
    M.Carries (Recover.externalNode deep) (Recover.externalNode deep) := by
  intro c c' hc
  refine .aligned (fun _ _ => ⟨_, _, rfl, rfl⟩) fun haligned => ?_
  have hrest : ∀ (isUnsafe : Bool) (c c' : Cursor), M.Beside c c' → M.Reads M.Moved (do
      let _ ← Read.expect .kwExtern
      let kind ← Read.nodeKind
      let name ← Read.ident
      let profile ← Read.profile deep
      let _ ← Read.eat .semi
      return ⟨⟨isUnsafe, kind, name⟩, profile⟩ : Read ExternalNode) (do
      let _ ← Read.expect .kwExtern
      let kind ← Read.nodeKind
      let name ← Read.ident
      let profile ← Read.profile deep
      let _ ← Read.eat .semi
      return ⟨⟨isUnsafe, kind, name⟩, profile⟩ : Read ExternalNode) c c' := by
    intro isUnsafe c c' hc
    refine .expect hc fun _ _ hc₁ => carries_nodeKind.bind hc₁ fun kind _ _ hc₂ => ?_
    refine carries_ident.bind hc₂ fun name _ _ hc₃ => ?_
    refine (carries_profile hdeep).bind hc₃ fun profile _ _ hc₄ => ?_
    exact (carries_eat (by decide)).bind hc₄ fun _ _ _ hc₅ => .pure hc₅ rfl
  refine .eatSame hc (by rw [hc.peek haligned]) (fun _ hpass => hrest true _ _ hpass) fun _ => ?_
  exact hrest false c c' hc

omit [deep.Advances] hdeep in
theorem carries_includeDirective : M.Carries Recover.includeDirective Recover.includeDirective := by
  refine @Carries.located _ _ _ _ _ (.of_end fun _ _ => ⟨_, _, rfl, rfl⟩) fun c c' hc => ?_
  refine .expect hc fun _ _ hc₁ => ?_
  refine .take? hc₁ (by decide) (fun file rest _ _ hc₂ => ?_) fun _ => .missing hc₁
  exact .eat hc₂ (by decide) (fun _ hc₃ => .pure hc₃ rfl) fun _ => .pure hc₂ rfl

end

end Context

end Lustre
