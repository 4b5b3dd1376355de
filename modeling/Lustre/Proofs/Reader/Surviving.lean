import Lustre.Proofs.Reader.Cutting
import Lustre.Proofs.Tree.Subexpr

/-!
# Expressions before a cut

No reader of an expression sees what follows, as long as it does not read beyond.  The
readers of one level of nesting are treated under the assumption that those of the levels
below survive a cut (`Nested.Survives`).

Two readers need a token more than they pass: an instance of a node is one only in front
of a parenthesis, and static arguments are told apart by the token after them.  The token
is there, since the call goes on with the one and the list is closed behind the other.
-/

namespace Lustre

open Cursor

/-- The number of tokens that must be left behind an expression where it is read. -/
def Expr.slack (e : Expr) : Nat := e.isInst.toNat

theorem Expr.slack_le (e : Expr) : e.slack ≤ 1 := Bool.toNat_le _

theorem Expr.slack_eq_zero {e : Expr} (h : e.isInst = false) : e.slack = 0 := by rw [slack, h]; rfl

namespace Nested

/-- What the readers of a level answer is read where what follows is cut off.  They pass tokens, and
an expression that begins with the use of a node goes on behind it. -/
structure Survives (later : List Token) (deep : Nested) : Prop where
  spanned : deep.Spanned
  behind : ∀ {c c₁ c₂ target value}, Read.nodeUse deep c = .ok target c₁ →
    deep.expr c = .ok value c₂ → c₁.Onward c₂
  top : ∀ least c d, c.Cut later d → Lustre.Survives later (fun _ => 0) (deep.top least) c d
  inner : ∀ least c d, c.Cut later d → Lustre.Survives later (fun _ => 0) (deep.inner least) c d
  args : ∀ c d, c.Cut later d → Lustre.Survives later (fun _ => 0) deep.args c d

end Nested

namespace Read

variable {later : List Token} {deep : Nested} {c d : Cursor}

section

variable [deep.Advances] (hdeep : deep.Survives later)
include hdeep

omit [deep.Advances] in
theorem survives_expr (hcut : c.Cut later d) : Survives later (fun _ => 0) deep.expr c d :=
  hdeep.top 0 c d hcut

/-- The token that closes the list is left. -/
theorem survives_exprList {close : Kind} (hcut : c.Cut later d) :
    Survives later (fun _ => 1) (exprList deep close) c d := by
  refine .ifAt hcut (fun _ => .pure (Nat.le_refl _)) (fun _ _ => .pure hcut) fun _ => ?_
  refine survives_commaList (fun c d hcut => ?_) hcut
  exact (survives_expr hdeep hcut).loosen

/-- A list of expressions with the token that closes it. -/
theorem survives_closedList {α : Type} {close : Kind} {next : List Expr → Span → Read α}
    [∀ exprs span, Forward (next exprs span)] (hcut : c.Cut later d)
    (hnext : ∀ exprs span c d, c.Cut later d → Survives later (fun _ => 0) (next exprs span) c d) :
    Survives later (fun _ => 0) (do
      let exprs ← exprList deep close
      let span ← expect close
      next exprs span) c d := by
  refine .bind (survives_exprList hdeep hcut) (fun exprs c₁ _ => ?_) fun exprs c₁ d₁ _ hcut₁ => ?_
  · refine .expect fun hclose span => (Forward.meets (next exprs span) _).mono fun _ c' hle => ?_
    have := length_pass hclose
    omega
  · exact .expect hcut₁ fun _ span hpass => hnext exprs span _ _ hpass

/-! ## Postfix forms -/

theorem survives_indexing {α : Type} {index : Expr → α} {slice : Expr → Expr → Option Expr → α}
    (hcut : c.Cut later d) :
    Survives later (fun _ => 0) (indexing deep index slice) c d := by
  refine .first (survives_expr hdeep hcut) fun first c₁ d₁ hcut₁ => ?_
  refine .ifEat hcut₁ (fun _ hpass => ?_) fun _ => .pure hcut₁
  refine .first (survives_expr hdeep hpass) fun last c₂ d₂ hcut₂ => ?_
  have hstep : ∀ c d, c.Cut later d → Survives later (fun _ => 0) deep.expr c d :=
    fun c d => survives_expr hdeep
  exact .first (survives_optionalAfter hstep hcut₂) fun step c₃ d₃ hcut₃ => .pure hcut₃

omit [deep.Advances] hdeep in
theorem postfixStep_at_end {value : Expr} (hend : d.rest = []) :
    postfixStep deep value d = .ok (.done value) d :=
  peek_at_end hend

theorem survives_postfixStep {value : Expr} (hcut : c.Cut later d) :
    Survives later (fun _ => 0) (postfixStep deep value) c d := by
  refine .round (advancing_postfixStep deep) hcut (.peek ?_) postfixStep_at_end fun hsome => ?_
  · split
    · exact .advance (.bind .any fun _ _ _ => .pure trivial)
    · exact .advance (.bind .any fun _ _ _ => .bind .any fun _ _ _ => .pure trivial)
    · exact .advance (.bind .any fun _ _ _ => .bind .any fun _ _ _ => .pure trivial)
    · exact .pure ⟨rfl, rfl⟩
  · refine .peek hcut hsome ?_
    split
    · refine .advance hcut hsome fun hpass => ?_
      exact .first (survives_ident hpass) fun field c₁ d₁ hcut₁ => .pure hcut₁
    · refine .advance hcut hsome fun hpass => ?_
      refine .first (survives_indexing hdeep hpass) fun build c₁ d₁ hcut₁ => ?_
      exact .expect hcut₁ fun _ _ hpass₁ => .pure hpass₁
    · refine .advance hcut hsome fun hpass => ?_
      exact survives_closedList hdeep hpass fun args close c₁ d₁ hcut₁ => .pure hcut₁
    · exact .pure hcut

theorem survives_postfixes {value : Expr} (hcut : c.Cut later d) :
    Survives later (fun _ => 0) (postfixes deep value) c d :=
  .iterate (advancing_postfixStep deep) hcut
    (fun _ _ _ hcut => survives_postfixStep hdeep hcut) value

/-! ## Primary expressions -/

theorem survives_fieldInit (hcut : c.Cut later d) :
    Survives later (fun _ => 0) (fieldInit deep) c d := by
  refine .before hcut
    ((moves_fieldInit hdeep.spanned c).mono fun _ _ h => h.shorter) fun hsome => ?_
  refine .here hcut hsome (.first (survives_ident hcut) fun field c₁ d₁ hcut₁ => ?_)
  refine .expect hcut₁ fun _ _ hpass => .first (survives_expr hdeep hpass)
    fun value c₂ d₂ hcut₂ => ?_
  exact .spanFrom hcut₂ fun _ => .pure hcut₂

theorem survives_record {start : Nat} {type : Reference}
    (hcut : c.Cut later d) : Survives later (fun _ => 0) (record deep start type) c d := by
  have hfields : ∀ base c d, c.Cut later d → Survives later (fun _ => 0) (do
      let fields ← separated .rBrace [.comma, .semi] (fieldInit deep)
      let _ ← expect .rBrace
      return Expr.record (← spanFrom start) type base fields) c d := by
    intro base c d hcut
    have hitem : ∀ c d, c.Cut later d → Survives later (fun _ => 1) (fieldInit deep) c d :=
      fun c d hcut => (survives_fieldInit hdeep hcut).loosen
    refine .bind (survives_separated hitem hcut) (fun fields c₁ _ => ?_)
      fun fields c₁ d₁ _ hcut₁ => ?_
    · refine .expect fun hclose _ => .spanFrom fun _ => .pure ?_
      exact length_pass hclose
    · exact .expect hcut₁ fun _ _ hpass => .spanFrom hpass fun _ => .pure hpass
  refine @Survives.expect _ _ _ _ _ _ _ (fun _ => .after fun c => ?_) hcut fun _ _ hpass => ?_
  · exact @Forward.instIte _ _ _ _ _ inferInstance inferInstance
  · exact survives_ifFollowed hpass (by decide) (fun base c d hcut => hfields (some base) c d hcut)
      (hfields none _ _ hpass)

omit hdeep in
/-- A record passes its braces and needs nothing behind them. -/
theorem meets_record_shorter {start : Nat} {type : Reference} (c : Cursor) :
    Meets (record deep start type) c fun e c' => e.isInst = false ∧
    c'.rest.length < c.rest.length := by
  have hfields : ∀ base c₁ stop, c₁.rest.length < stop → Meets (do
      let fields ← separated .rBrace [.comma, .semi] (fieldInit deep)
      let _ ← expect .rBrace
      return Expr.record (← spanFrom start) type base fields) c₁ fun e c' =>
        e.isInst = false ∧ c'.rest.length < stop := by
    intro base c₁ stop hlt
    refine .bind (Forward.meets _ c₁) fun fields c₂ hle => .expect fun hclose _ => ?_
    have := length_pass hclose
    exact .spanFrom fun _ => .pure ⟨rfl, by omega⟩
  refine .expect fun hopen _ => .get ?_
  have hpass := length_pass hopen
  dsimp only
  split
  · rename_i hwith
    refine .bind (Forward.meets reference _) fun base c₁ hle =>
      .advance (hfields (some base) _ _ ?_)
    have := (Forward.meets advance c₁) () c₁.pass rfl
    omega
  · exact hfields none _ _ hpass

omit hdeep in
/-- An instance stands before the parenthesis of its call. -/
theorem called_of_nameExpr (c : Cursor) : Meets (nameExpr deep) c fun e c' =>
    e.isInst = false ∨ c'.peek = some .lParen := by
  refine .here fun _ => .bind .any fun name c₁ _ => .peek ?_
  split
  · refine .bind .any fun args c₂ _ => .ifAt (fun hopen => ?_) fun _ => .spanFrom fun _ => .throw
    exact .spanFrom fun _ => .pure (.inr hopen)
  · exact (meets_record_shorter c₁).mono fun _ _ h => .inl h.1
  · exact .spanFrom fun _ => .pure (.inl rfl)

theorem survives_nameExpr (hcut : c.Cut later d) :
    Survives later Expr.slack (nameExpr deep) c d := by
  refine .before hcut ((moves_nameExpr hdeep.spanned c).mono fun _ _ h => ?_) fun hsome => ?_
  · exact Nat.le_add_right_of_le h.shorter
  refine .here hcut hsome (.bind (survives_reference hcut) (fun name c₁ hname => ?_)
    fun name c₁ d₁ _ hcut₁ => ?_)
  · refine .peek ?_
    split
    · refine .bind (hdeep.spanned.args c₁) fun args c₂ hargs => .ifAt (fun _ => ?_) fun _ => ?_
      · exact .spanFrom fun _ => .pure (Nat.le_add_right_of_le (Nat.le_of_lt hargs.shorter))
      · exact .spanFrom fun _ => .throw
    · exact (Forward.meets _ _).mono fun _ _ hle => Nat.le_add_right_of_le hle
    · exact .spanFrom fun _ => .pure (Nat.le_refl _)
  · -- where no token is left behind the name, it stands by itself, as it does in the text
    let alone : Expr := .name (c₁.spanFrom c.span.start) name
    refine .unlessEnd (b := alone) hcut₁ (.peek ?_) (fun hend => ?_) fun hsome₁ => ?_
    · split
      · refine .bind (hdeep.spanned.args c₁) fun args c₂ hargs => .ifAt (fun _ => ?_) fun _ => ?_
        · exact .spanFrom fun _ => .pure (.inl (Nat.le_add_right_of_le hargs.shorter))
        · exact .spanFrom fun _ => .throw
      · exact (meets_record_shorter c₁).mono fun _ _ h => .inl (Nat.le_add_right_of_le h.2)
      · exact .spanFrom_eq (.pure (.inr ⟨rfl, rfl⟩))
    · refine (peek_at_end hend).trans ?_
      exact congrArg (fun span => EStateM.Result.ok (Expr.name span name) d₁) (hcut₁.spanFrom _)
    · refine .peek hcut₁ hsome₁ ?_
      split
      · refine .bind (hdeep.args _ _ hcut₁) (fun args c₂ _ => ?_) fun args c₂ d₂ _ hcut₂ => ?_
        · refine .ifAt (fun _ => .spanFrom fun _ => .pure ?_) fun _ => .spanFrom fun _ => .throw
          exact Nat.le_add_right _ _
        · refine .ifAt hcut₂ (fun _ => .spanFrom fun _ => .pure (Nat.le_refl _))
            (fun _ _ => ?_) fun _ => ?_
          · exact .spanFrom hcut₂ fun _ => .pure hcut₂
          · exact .spanFrom hcut₂ fun _ => .throw
      · exact (survives_record hdeep hcut₁).loosen
      · exact .spanFrom hcut₁ fun _ => .pure hcut₁

omit [deep.Advances] hdeep in
theorem survives_pattern (hcut : c.Cut later d) : Survives later (fun _ => 0) pattern c d := by
  refine .before hcut ((moves_pattern c).mono fun _ _ h => h.shorter) fun hsome => ?_
  refine .peek hcut hsome ?_
  split
  · exact .advance hcut hsome fun hpass => .pure hpass
  · exact .advance hcut hsome fun hpass => .pure hpass
  · exact .first (survives_reference hcut) fun _ _ _ hcut₁ => .pure hcut₁
  · exact .missing

theorem survives_mergeArm (hcut : c.Cut later d) :
    Survives later (fun _ => 0) (mergeArm deep) c d := by
  refine .before hcut ((moves_mergeArm hdeep.spanned c).mono fun _ _ h => h.shorter) fun hsome => ?_
  refine .here hcut hsome (.expect hcut fun _ _ hpass => ?_)
  refine .first (survives_pattern hpass) fun pattern c₁ d₁ hcut₁ =>
    .expect hcut₁ fun _ _ hpass₁ => ?_
  refine .first (survives_expr hdeep hpass₁) fun value c₂ d₂ hcut₂ => ?_
  exact .expect hcut₂ fun _ _ hpass₂ => .spanFrom hpass₂ fun _ => .pure hpass₂

theorem survives_merge {start : Nat} (hcut : c.Cut later d) :
    Survives later (fun _ => 0) (merge deep start) c d := by
  have harms : ∀ c d, c.Cut later d →
      Survives later (fun _ => 0) (iterate [] (mergeStep deep)) c d := by
    refine fun c d hcut => .iterate (advancing_mergeStep deep) hcut (fun arms c d hcut => ?_) []
    refine .ifAt hcut (fun _ => ?_) (fun _ _ => ?_) fun _ => .pure hcut
    · exact .bind (moves_mergeArm hdeep.spanned c) fun arm c₁ harm => .pure harm.shorter
    · exact .first (survives_mergeArm hdeep hcut) fun arm c₁ d₁ hcut₁ => .pure hcut₁
  refine .first (survives_ident hcut) fun clock c₁ d₁ hcut₁ => ?_
  refine .first (harms c₁ d₁ hcut₁) fun arms c₂ d₂ hcut₂ => ?_
  split
  · exact .missing
  · exact .spanFrom hcut₂ fun _ => .pure hcut₂

theorem survives_conditional {start : Nat} {word : CondWord} (hcut : c.Cut later d) :
    Survives later (fun _ => 0) (conditional deep start word) c d := by
  refine .first (survives_expr hdeep hcut) fun condition c₁ d₁ hcut₁ => ?_
  refine .expect hcut₁ fun _ _ hpass₁ => .first (survives_expr hdeep hpass₁)
    fun yes c₂ d₂ hcut₂ => ?_
  refine .expect hcut₂ fun _ _ hpass₂ => .first (survives_expr hdeep hpass₂)
    fun no c₃ d₃ hcut₃ => ?_
  exact .spanFrom hcut₃ fun _ => .pure hcut₃

theorem survives_operands {start : Nat} {op : ListOp} (hcut : c.Cut later d) :
    Survives later (fun _ => 0) (operands deep start op) c d := by
  refine .expect hcut fun _ _ hpass => survives_closedList hdeep hpass fun exprs _ c₁ d₁ hcut₁ => ?_
  exact .spanFrom hcut₁ fun _ => .pure hcut₁

theorem survives_primary (hcut : c.Cut later d) :
    Survives later Expr.slack (primary deep) c d := by
  refine .before hcut ((moves_primary hdeep.spanned c).mono fun _ _ h => ?_) fun hsome => ?_
  · exact Nat.le_add_right_of_le h.shorter
  have hlist {close : Kind} {build : Span → List Expr → Expr} (start : Nat) {c d : Cursor}
      (hcut : c.Cut later d) : Survives later Expr.slack (do
        let items ← exprList deep close
        let _ ← expect close
        return build (← spanFrom start) items) c d := by
    refine (survives_closedList hdeep hcut fun items _ c₁ d₁ hcut₁ => ?_).loosen
    exact .spanFrom hcut₁ fun _ => .pure hcut₁
  refine .here hcut hsome (.peek hcut hsome ?_)
  split
  · exact .takeText hcut hsome fun _ hpass => .spanFrom hpass fun _ => .pure hpass
  · exact .takeText hcut hsome fun _ hpass => .spanFrom hpass fun _ => .pure hpass
  · exact .advance hcut hsome fun hpass => .spanFrom hpass fun _ => .pure hpass
  · exact .advance hcut hsome fun hpass => .spanFrom hpass fun _ => .pure hpass
  · exact survives_nameExpr hdeep hcut
  · exact .advance hcut hsome fun hpass => hlist _ hpass
  · exact .advance hcut hsome fun hpass => hlist _ hpass
  · exact .advance hcut hsome fun hpass => (survives_conditional hdeep hpass).loosen
  · exact .advance hcut hsome fun hpass => (survives_conditional hdeep hpass).loosen
  · exact .advance hcut hsome fun hpass => (survives_merge hdeep hpass).loosen
  · exact .advance hcut hsome fun hpass => (survives_operands hdeep hpass).loosen
  · exact .advance hcut hsome fun hpass => (survives_operands hdeep hpass).loosen
  · exact .missing

omit hdeep in
theorem called_of_primary (c : Cursor) : Meets (primary deep) c fun e c' =>
    e.isInst = false ∨ c'.peek = some .lParen := by
  refine .here fun _ => .peek ?_
  split
  · exact .bind .any fun _ _ _ => .spanFrom fun _ => .pure (.inl rfl)
  · exact .bind .any fun _ _ _ => .spanFrom fun _ => .pure (.inl rfl)
  · exact .advance (.spanFrom fun _ => .pure (.inl rfl))
  · exact .advance (.spanFrom fun _ => .pure (.inl rfl))
  · exact called_of_nameExpr c
  · exact .advance (.bind .any fun _ _ _ => .expect fun _ _ => .spanFrom fun _ => .pure (.inl rfl))
  · exact .advance (.bind .any fun _ _ _ => .expect fun _ _ => .spanFrom fun _ => .pure (.inl rfl))
  · refine .advance (.bind .any fun _ _ _ => .expect fun _ _ => .bind .any fun _ _ _ => ?_)
    exact .expect fun _ _ => .bind .any fun _ _ _ => .spanFrom fun _ => .pure (.inl rfl)
  · refine .advance (.bind .any fun _ _ _ => .expect fun _ _ => .bind .any fun _ _ _ => ?_)
    exact .expect fun _ _ => .bind .any fun _ _ _ => .spanFrom fun _ => .pure (.inl rfl)
  · refine .advance (.bind .any fun _ _ _ => .bind .any fun _ _ _ => ?_)
    split
    · exact .missing
    · exact .spanFrom fun _ => .pure (.inl rfl)
  · refine .advance (.expect fun _ _ => .bind .any fun _ _ _ => .expect fun _ _ => ?_)
    exact .spanFrom fun _ => .pure (.inl rfl)
  · refine .advance (.expect fun _ _ => .bind .any fun _ _ _ => .expect fun _ _ => ?_)
    exact .spanFrom fun _ => .pure (.inl rfl)
  · exact .missing

omit hdeep in
/-- What is called is followed by its arguments. -/
theorem meets_postfixes_called {value : Expr} (hcalled : c.peek = some .lParen) :
    Meets (postfixes deep value) c fun _ c' => c'.rest.length < c.rest.length := by
  refine .iterate_of_first (I := fun _ c' => c'.rest.length < c.rest.length) (.peek ?_)
    (fun value c₁ hlt => ?_) fun _ _ h => h
  · rw [hcalled]
    refine .advance (.bind (Forward.meets _ _) fun args c₁ hle₁ => .expect fun hclose _ => .pure ?_)
    have hopen := length_pass hcalled
    have := length_pass hclose
    exact Nat.lt_of_le_of_lt (by omega) hopen
  · refine (Forward.meets (postfixStep deep value) c₁).mono fun next c₂ hle => ?_
    cases next with
    | done => exact Nat.lt_of_le_of_lt hle hlt
    | yield => exact Nat.lt_of_le_of_lt hle hlt

/-! ## Operators -/

theorem survives_prefixed (hcut : c.Cut later d) :
    Survives later (fun _ => 0) (prefixed deep) c d := by
  refine .before hcut ((moves_prefixed hdeep.spanned c).mono fun _ _ h => h.shorter) fun hsome => ?_
  refine .peek hcut hsome ?_
  split
  · refine .here hcut hsome (.advance hcut hsome fun hpass => ?_)
    exact .first (hdeep.inner _ _ _ hpass) fun operand c₁ d₁ hcut₁ => .pure hcut₁
  · refine .bind (survives_primary hdeep hcut) (fun e c₁ he => ?_) fun e c₁ d₁ _ hcut₁ => ?_
    · rcases (called_of_primary c) e c₁ he with hinst | hcalled
      · have := Expr.slack_eq_zero hinst
        exact (Forward.meets _ c₁).mono fun _ _ hle => by omega
      · have := e.slack_le
        exact (meets_postfixes_called hcalled).mono fun _ _ hlt => by omega
    · exact survives_postfixes hdeep hcut₁

omit [deep.Advances] hdeep in
theorem innerStep_at_end {least : Nat} {lhs : Expr} (hend : d.rest = []) :
    innerStep deep least lhs d = .ok (.done lhs) d :=
  (isAt_at_end hend).trans (peek_at_end hend)

theorem survives_innerStep {least : Nat} {lhs : Expr} (hcut : c.Cut later d) :
    Survives later (fun _ => 0) (innerStep deep least lhs) c d := by
  refine .round (advancing_innerStep deep least) hcut (.ifAt (fun _ => ?_) fun _ => .peek ?_)
    innerStep_at_end fun hsome => .isAt hcut hsome ?_
  · split
    · exact .pure ⟨rfl, rfl⟩
    · exact .advance (.bind .any fun _ _ _ => .pure trivial)
  · split
    · split
      · exact .pure ⟨rfl, rfl⟩
      · exact .advance (.bind .any fun _ _ _ => .pure trivial)
    · exact .pure ⟨rfl, rfl⟩
  · split
    · split
      · exact .pure hcut
      · refine .advance hcut hsome fun hpass => ?_
        exact .first (survives_clock hpass) fun clock c₁ d₁ hcut₁ => .pure hcut₁
    · refine .peek hcut hsome ?_
      split
      · split
        · exact .pure hcut
        · refine .advance hcut hsome fun hpass => ?_
          exact .first (hdeep.inner _ _ _ hpass) fun rhs c₁ d₁ hcut₁ => .pure hcut₁
      · exact .pure hcut

theorem survives_inner {least : Nat} (hcut : c.Cut later d) :
    Survives later (fun _ => 0) (inner deep least) c d :=
  .first (survives_prefixed hdeep hcut) fun first _ _ hcut₁ =>
    .iterate (advancing_innerStep deep least) hcut₁
      (fun _ _ _ hcut => survives_innerStep hdeep hcut) first

omit [deep.Advances] hdeep in
theorem survives_lastComparison {op : BinaryOp} {lhs rhs : Expr} (hcut : c.Cut later d) :
    Survives later (fun _ => 0) (lastComparison op lhs rhs) c d := by
  refine .unlessEnd (b := binary op lhs rhs) hcut (.peek ?_) (fun hend => peek_at_end hend)
    fun hsome => .peek hcut hsome ?_
  · split
    · exact .fail
    · exact .pure (.inr ⟨rfl, rfl⟩)
  · split
    · exact .never .fail
    · exact .pure hcut

theorem survives_comparison (hcut : c.Cut later d) :
    Survives later (fun _ => 0) (comparison deep) c d := by
  rw [comparison_eq]
  refine .first (survives_inner hdeep hcut) fun lhs c₁ d₁ hcut₁ => ?_
  refine .unlessEnd (b := lhs) hcut₁ (.peek ?_) (fun hend => peek_at_end hend)
    fun hsome => .peek hcut₁ hsome ?_
  · split
    · rename_i op hop
      obtain ⟨kind, hkind, -⟩ := Option.bind_eq_some_iff.mp hop
      refine .advance ((Forward.meets _ _).mono fun _ _ hle => .inl ?_)
      exact Nat.lt_of_le_of_lt hle (length_pass hkind)
    · exact .pure (.inr ⟨rfl, rfl⟩)
  · split
    · refine .advance hcut₁ hsome fun hpass => ?_
      exact .first (survives_inner hdeep hpass) fun rhs c₂ d₂ hcut₂ => survives_lastComparison hcut₂
    · exact .pure hcut₁

omit [deep.Advances] hdeep in
theorem topStep_at_end {least : Nat} {lhs : Expr} (hend : d.rest = []) :
    topStep deep least lhs d = .ok (.done lhs) d :=
  peek_at_end hend

theorem survives_topStep {least : Nat} {lhs : Expr} (hcut : c.Cut later d) :
    Survives later (fun _ => 0) (topStep deep least lhs) c d := by
  refine .round (advancing_topStep deep least) hcut (.peek ?_) topStep_at_end fun hsome => ?_
  · split
    · split
      · exact .pure ⟨rfl, rfl⟩
      · exact .advance (.bind .any fun _ _ _ => .pure trivial)
    · exact .pure ⟨rfl, rfl⟩
  · refine .peek hcut hsome ?_
    split
    · split
      · exact .pure hcut
      · refine .advance hcut hsome fun hpass => ?_
        exact .first (hdeep.top _ _ _ hpass) fun rhs c₁ d₁ hcut₁ => .pure hcut₁
    · exact .pure hcut

theorem survives_top {least : Nat} (hcut : c.Cut later d) :
    Survives later (fun _ => 0) (top deep least) c d :=
  .first (survives_comparison hdeep hcut) fun first _ _ hcut₁ =>
    .iterate (advancing_topStep deep least) hcut₁
      (fun _ _ _ hcut => survives_topStep hdeep hcut) first

/-! ## Types and static arguments -/

omit [deep.Advances] hdeep in
theorem survives_simpleType (hcut : c.Cut later d) :
    Survives later (fun _ => 0) simpleType c d := by
  refine .before hcut ((moves_simpleType c).mono fun _ _ h => h.shorter) fun hsome => ?_
  refine .here hcut hsome (.peek hcut hsome ?_)
  split
  · exact .advance hcut hsome fun hpass => .spanFrom hpass fun _ => .pure hpass
  · exact .advance hcut hsome fun hpass => .spanFrom hpass fun _ => .pure hpass
  · exact .advance hcut hsome fun hpass => .spanFrom hpass fun _ => .pure hpass
  · exact .first (survives_reference hcut) fun ref c₁ d₁ hcut₁ =>
      .spanFrom hcut₁ fun _ => .pure hcut₁
  · exact .missing

theorem survives_typeExpr (hcut : c.Cut later d) :
    Survives later (fun _ => 0) (typeExpr deep) c d := by
  refine .first (survives_simpleType hcut) fun type c₁ d₁ hcut₁ => ?_
  refine .iterate (advancing_lengthStep deep) hcut₁ (fun type c d hcut => ?_) type
  refine .ifEat hcut (fun _ hpass => ?_) fun _ => .pure hcut
  exact .first (survives_inner hdeep hpass) fun length c₂ d₂ hcut₂ => .pure hcut₂

theorem survives_nodeUse (hcut : c.Cut later d) :
    Survives later (fun _ => 0) (nodeUse deep) c d := by
  refine .before hcut ((moves_nodeUse hdeep.spanned c).mono fun _ _ h => h.shorter) fun hsome => ?_
  refine .here hcut hsome (.first (survives_reference hcut) fun node c₁ d₁ hcut₁ => ?_)
  have hargs : Survives later (fun _ => 0) (optionalAt .ltLt deep.args) c₁ d₁ := by
    refine .ifAt hcut₁ (fun _ => ?_) (fun _ _ => ?_) fun _ => .pure hcut₁
    · exact .bind (hdeep.spanned.args c₁) fun args c₂ hargs => .pure hargs.shorter
    · exact .first (hdeep.args c₁ d₁ hcut₁) fun args c₂ d₂ hcut₂ => .pure hcut₂
  exact .first hargs fun args c₂ d₂ hcut₂ => .spanFrom hcut₂ fun _ => .pure hcut₂

theorem survives_typeArg {start : Nat} {explicit : Bool} (hcut : c.Cut later d) :
    Survives later (fun _ => 0) (typeArg deep start explicit) c d :=
  .first (survives_typeExpr hdeep hcut) fun _ _ _ hcut₁ => .spanFrom hcut₁ fun _ => .pure hcut₁

omit [deep.Advances] in
theorem survives_constArg {start : Nat} {explicit : Bool} (hcut : c.Cut later d) :
    Survives later (fun _ => 0) (constArg deep start explicit) c d :=
  .first (survives_expr hdeep hcut) fun _ _ _ hcut₁ => .spanFrom hcut₁ fun _ => .pure hcut₁

theorem survives_nodeArg {start : Nat} {kind : NodeKind} (hcut : c.Cut later d) :
    Survives later (fun _ => 0) (nodeArg deep start kind) c d :=
  .first (survives_nodeUse hdeep hcut) fun _ _ _ hcut₁ => .spanFrom hcut₁ fun _ => .pure hcut₁

omit [deep.Advances] in
/-- What is refused for what follows it is refused before a cut only if it was. -/
theorem survives_nameLedConst {close : Kind} {start : Nat} (hcut : c.Cut later d) :
    Survives later (fun _ => 0) (nameLedConst deep close start) c d := by
  refine .bind (survives_expr hdeep hcut) (fun value c₁ _ => ?_) fun value c₁ d₁ _ hcut₁ => ?_
  · split
    · refine .get ?_
      split
      · exact .throw
      · exact .spanFrom fun _ => .pure (Nat.le_refl _)
    · exact .spanFrom fun _ => .pure (Nat.le_refl _)
  · have hconst : Survives later (fun _ => 0) (do
        return StaticArg.const (← spanFrom start) value false) c₁ d₁ :=
      .spanFrom hcut₁ fun _ => .pure hcut₁
    split
    · refine .look fun arg c' hread hleft => ?_
      split at hread
      · cases hread
      · rename_i hends
        rw [if_neg fun hends' => hends (hcut₁.endsArg_of hends')]
        exact hconst arg c' hread hleft
    · exact hconst

omit [deep.Advances] hdeep in
/-- A constant that begins with a name ends where its value does. -/
theorem expr_of_nameLedConst {close : Kind} {start : Nat} (c : Cursor) :
    Meets (nameLedConst deep close start) c fun _ c' => ∃ value, deep.expr c = .ok value c' := by
  refine .bind (P := fun value c₁ => deep.expr c = .ok value c₁) (fun _ _ h => h)
    fun value c₁ h => ?_
  split
  · refine .get ?_
    split
    · exact .throw
    · exact .spanFrom fun _ => .pure ⟨_, h⟩
  · exact .spanFrom fun _ => .pure ⟨_, h⟩

omit hdeep in
/-- The use of a node takes its name. -/
theorem meets_nodeUse_length (c : Cursor) : Meets (nodeUse deep) c fun _ c' =>
    c'.rest.length + c.referenceLength ≤ c.rest.length := by
  refine .here fun _ => .bind (meets_reference_length c) fun node c₁ hnode => ?_
  refine .bind (Forward.meets _ c₁) fun args c₂ hle => .spanFrom fun _ => .pure ?_
  omega

/-- A node with static arguments that begins at `start` and at the cursor `c`, or a constant if it
is called. -/
def instanceArg (deep : Nested) (close : Kind) (start : Nat) (c : Cursor) : Read StaticArg := do
  let target ← nodeUse deep
  if ← isAt .lParen then
    set c
    nameLedConst deep close start
  else return .node (← spanFrom start) none target.span target.node target.args

/-- What is read again goes on behind what was read of it first. -/
theorem survives_instanceArg {close : Kind} {start : Nat} {arg : StaticArg} {c' : Cursor}
    (hcut : c.Cut later d) (hread : instanceArg deep close start c c = .ok arg c')
    (hleft : later.length + 1 ≤ c'.rest.length) : c.referenceLength < d.rest.length ∧
      ∃ d', instanceArg deep close start d d = .ok arg d' ∧ c'.Cut later d' := by
  obtain ⟨target, c₁, htarget, hrest⟩ := bind_eq_ok.mp hread
  have hpassed := (meets_nodeUse_length c) target c₁ htarget
  have hlength := hcut.length
  have hnode : later.length + 1 ≤ c₁.rest.length → c.referenceLength < d.rest.length ∧
      ∃ d₁, nodeUse deep d = .ok target d₁ ∧ c₁.Cut later d₁ ∧ d₁.peek = c₁.peek := by
    intro hbehind
    obtain ⟨d₁, htarget', hcut₁⟩ :=
      survives_nodeUse hdeep hcut target c₁ htarget (Nat.le_of_succ_le hbehind)
    have hlength₁ := hcut₁.length
    exact ⟨by omega, d₁, htarget', hcut₁, hcut₁.peek (List.length_pos_iff.mp (by omega))⟩
  by_cases hcalled : c₁.peek = some .lParen
  · have hagain : nameLedConst deep close start c = .ok arg c' := by
      rwa [bind_of_ok (isAt_of_peek hcalled)] at hrest
    obtain ⟨value, hvalue⟩ := expr_of_nameLedConst c arg c' hagain
    have honward := (hdeep.behind htarget hvalue).suffix.length_le
    -- the constant goes on behind the use of the node, so that was read before the cut as well
    obtain ⟨hlt, d₁, htarget', -, hpeek₁⟩ := hnode (Nat.le_trans hleft honward)
    obtain ⟨d', hagain', hcut'⟩ :=
      survives_nameLedConst hdeep hcut arg c' hagain (Nat.le_of_succ_le hleft)
    refine ⟨hlt, d', (bind_of_ok htarget').trans ?_, hcut'⟩
    exact (bind_of_ok (isAt_of_peek (hpeek₁.trans hcalled))).trans hagain'
  · rw [bind_of_ok (isAt_of_ne hcalled)] at hrest
    have hsame : c' = c₁ := by cases hrest; rfl
    subst hsame
    obtain ⟨hlt, d₁, htarget', hcut₁, hpeek₁⟩ := hnode hleft
    have hnode' : Survives later (fun _ => 1) (do
        return StaticArg.node (← spanFrom start) none target.span target.node target.args) c' d₁ :=
      .spanFrom hcut₁ fun _ => .pure hcut₁
    obtain ⟨d', hrest', hcut'⟩ := hnode' arg c' hrest hleft
    refine ⟨hlt, d', (bind_of_ok htarget').trans ?_, hcut'⟩
    exact (bind_of_ok (isAt_of_ne (hpeek₁ ▸ hcalled))).trans hrest'

/-- The argument is told apart by what follows its name. -/
theorem survives_nameLedArg {close : Kind} {start : Nat} (hclose : close ≠ .colonColon)
    (hcut : c.Cut later d) (hname : d.referenceLength > 0) :
    Survives later (fun _ => 1) (nameLedArg deep close start) c d := by
  have hlength := hcut.length
  refine .look fun arg c' hread hleft => ?_
  by_cases hends : c.endsArg c.referenceLength close = true
  · rw [if_pos hends] at hread
    have hpassed : c'.rest.length + c.referenceLength = c.rest.length := by
      refine Meets.bind (R := fun _ c' => c'.rest.length + c.referenceLength = c.rest.length)
        (meets_reference_length c) (fun ref c₁ h => ?_) arg c' hread
      exact .spanFrom fun _ => .pure h
    rw [hcut.referenceLength (by omega), if_pos ((hcut.endsArg (by omega) close).trans hends)]
    refine Survives.first (n := 1) ?_ (fun ref c₁ d₁ hcut₁ => ?_) arg c' hread hleft
    · exact (survives_reference hcut).loosen
    · exact .spanFrom hcut₁ fun _ => .pure hcut₁
  · rw [if_neg hends] at hread
    rw [if_neg fun hends' => hends (hcut.endsArg_followed hclose hname hends')]
    by_cases hopen : c.peekAt c.referenceLength = some .ltLt
    · rw [if_pos hopen] at hread
      obtain ⟨hlt, hagain⟩ := survives_instanceArg hdeep hcut hread hleft
      rw [hcut.referenceLength (Nat.le_of_lt hlt), if_pos ((hcut.peekAt hlt).trans hopen)]
      exact hagain
    · rw [if_neg hopen] at hread
      rw [if_neg fun hopen' => hopen (hcut.followed (by decide) hname hopen').2]
      exact survives_nameLedConst hdeep hcut arg c' hread (Nat.le_of_succ_le hleft)

theorem survives_staticArg {close : Kind} (hclose : close ≠ .colonColon) (hcut : c.Cut later d) :
    Survives later (fun _ => 1) (staticArg deep close) c d := by
  refine .reaching hcut 2 ((moves_staticArg hdeep.spanned c).mono fun _ _ h => ?_) fun hle => ?_
  · exact Nat.succ_le_succ h.shorter
  have hsome : d.rest ≠ [] := List.length_pos_iff.mp (Nat.lt_of_succ_lt hle)
  -- the next token and the one after it stand before the cut
  refine .lookSame ?_ ?_
  · dsimp only
    rw [hcut.span hsome, hcut.peek hsome, hcut.endsArg hle, hcut.peekAt hle]
  · dsimp only
    split
    · exact .advance hcut hsome fun hpass => .spanFrom hpass fun _ => .pure hpass
    · have hbuiltin : ∀ start, Survives later (fun _ => 1) (if c.endsArg 1 close = true ∨
        c.peekAt 1 = some .caret
          then typeArg deep start false else constArg deep start false) c d := by
        intro start
        split
        · exact (survives_typeArg hdeep hcut).loosen
        · exact (survives_constArg hdeep hcut).loosen
      split
      · exact .advance hcut hsome fun hpass => (survives_typeArg hdeep hpass).loosen
      · exact .advance hcut hsome fun hpass => (survives_constArg hdeep hpass).loosen
      · exact .advance hcut hsome fun hpass => (survives_nodeArg hdeep hpass).loosen
      · exact .advance hcut hsome fun hpass => (survives_nodeArg hdeep hpass).loosen
      · exact hbuiltin _
      · exact hbuiltin _
      · exact hbuiltin _
      · rename_i hident
        refine survives_nameLedArg hdeep hclose hcut ?_
        have hident' : d.isAt .ident = true := by simp [Cursor.isAt, hcut.peek hsome, hident]
        rw [referenceLength, if_pos hident']
        split <;> omega
      · exact (survives_constArg hdeep hcut).loosen

theorem survives_staticArgs (hcut : c.Cut later d) :
    Survives later (fun _ => 0) (staticArgs deep) c d := by
  refine .expect hcut fun _ _ hpass => ?_
  refine .bind (survives_separated (fun c d => survives_staticArg hdeep (by decide)) hpass)
    (fun args c₁ _ => .expect fun hclose _ => .pure (length_pass hclose))
    fun args c₁ d₁ _ hcut₁ => ?_
  exact .expect hcut₁ fun _ _ hpass₁ => .pure hpass₁

end

end Read

/-- However many levels are allowed, what follows an expression can be cut off. -/
theorem Nested.survives_upTo (later : List Token) (levels : Nat) :
    (upTo levels).Survives later := by
  induction levels with
  | zero => exact ⟨spanned_upTo 0, onward_of_nodeUse, fun _ _ _ _ => .never .fail,
      fun _ _ _ _ => .never .fail, fun _ _ _ => .never .fail⟩
  | succ levels ih =>
      exact ⟨spanned_upTo (levels + 1), onward_of_nodeUse, fun _ _ _ hcut =>
        Read.survives_top ih hcut,
        fun _ _ _ hcut => Read.survives_inner ih hcut, fun _ _ hcut =>
          Read.survives_staticArgs ih hcut⟩

end Lustre
