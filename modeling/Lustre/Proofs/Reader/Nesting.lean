import Lustre.Proofs.Reader.Sparing
import Lustre.Proofs.Tree.Depth
import Lustre.Reader.Program

/-!
# The limit on nesting is exact

How many levels may be nested makes no other difference to what is read: what can be read
with some number of levels is read in the same way with every number that its depth does
not exceed, and with fewer levels it is nested too deeply.

Both readers go the same way until the second one runs out of levels, so they are compared
step by step (`Spends`), with an account of the levels that the first one has used so far.
Only an instance with static arguments is read twice, first as a node and then, one level
deeper, as a part of an expression.  The second reading decides, since what is deep enough
to stop the first one stops it too (`Nested.Leads`).
-/

namespace Lustre

variable {α β : Type}

/-- If `spent` levels were used before, what `read` answers from `c` on has used `cost` levels in
all. Where there are so many, `read'` answers the same, and where there are too few, but enough for
what came before, it finds that something is nested too deeply. -/
def SpendsFrom (limit spent : Nat) (read read' : Read α) (cost : α → Nat) (c : Cursor) : Prop :=
  ∀ a c', read c = .ok a c' → spent ≤ cost a ∧ (cost a ≤ limit → read' c = .ok a c') ∧
    (spent ≤ limit → limit < cost a → failure (read' c) = some .nestedTooDeeply)

/-- The same from everywhere on. -/
def Spends (limit spent : Nat) (read read' : Read α) (cost : α → Nat) : Prop :=
  ∀ c, SpendsFrom limit spent read read' cost c

theorem Read.failure_bind {read : Read α} {next : α → Read β} {c : Cursor} {cause : Cause}
    (h : failure (read c) = some cause) : failure ((read >>= next) c) = some cause := by
  cases hread : read c with
  | ok a c' =>
      rw [hread] at h
      cases h
  | error e c' =>
      rw [hread] at h
      rw [bind_of_error hread]
      exact h

namespace SpendsFrom

variable {limit spent : Nat} {cost : β → Nat} {c : Cursor}

theorem of_spends {read read' : Read β} (h : Spends limit spent read read' cost) :
    SpendsFrom limit spent read read' cost c :=
  h c

theorem bind {read read' : Read α} {next next' : α → Read β} {costs : α → Nat}
    (h : SpendsFrom limit spent read read' costs c)
    (hnext : ∀ a c', read c = .ok a c' → SpendsFrom limit (costs a) (next a) (next' a) cost c') :
    SpendsFrom limit spent (read >>= next) (read' >>= next') cost c := by
  intro b c'' hboth
  obtain ⟨a, c', hread, hlast⟩ := bind_eq_ok.mp hboth
  obtain ⟨hfirst, hsame, hover⟩ := h a c' hread
  obtain ⟨hmore, hsame', hover'⟩ := hnext a c' hread b c'' hlast
  refine ⟨Nat.le_trans hfirst hmore, fun hcost => ?_, fun hspent hcost => ?_⟩
  -- costs only grow, so what is enough in the end was enough for the first step
  · rw [bind_of_ok (hsame (Nat.le_trans hmore hcost))]
    exact hsame' hcost
  · by_cases henough : costs a ≤ limit
    · rw [bind_of_ok (hsame henough)]
      exact hover' henough hcost
    · exact Read.failure_bind (hover hspent (Nat.lt_of_not_le henough))

/-- More may have been used before, if it does not exceed what is used in all. -/
theorem raise {read read' : Read β} (h : SpendsFrom limit 0 read read' cost c)
    (hcost : Meets read c fun b _ => spent ≤ cost b) :
    SpendsFrom limit spent read read' cost c := by
  intro b c' hread
  obtain ⟨-, hsame, hover⟩ := h b c' hread
  exact ⟨hcost b c' hread, hsame, fun _ => hover (Nat.zero_le _)⟩

theorem get {next next' : Cursor → Read β}
    (h : SpendsFrom limit spent (next c) (next' c) cost c) :
    SpendsFrom limit spent (MonadState.get >>= next) (MonadState.get >>= next') cost c :=
  h

theorem set {c' : Cursor} {next next' : Read β}
    (h : SpendsFrom limit spent next next' cost c') :
    SpendsFrom limit spent (MonadStateOf.set c' >>= fun _ => next)
      (MonadStateOf.set c' >>= fun _ => next') cost c :=
  h

theorem ite {p : Prop} [Decidable p] {yes no yes' no' : Read β}
    (hyes : SpendsFrom limit spent yes yes' cost c)
    (hno : SpendsFrom limit spent no no' cost c) :
    SpendsFrom limit spent (if p then yes else no) (if p then yes' else no') cost c := by
  split
  · exact hyes
  · exact hno

end SpendsFrom

namespace Spends

variable {limit spent : Nat} {cost : β → Nat}

/-- The first reader that goes deeper. -/
theorem first {read read' : Read α} {next next' : α → Read β} {costs : α → Nat}
    (h : Spends limit spent read read' costs)
    (hnext : ∀ a, Spends limit (costs a) (next a) (next' a) cost) :
    Spends limit spent (read >>= next) (read' >>= next') cost :=
  fun c => (h c).bind fun a c' _ => hnext a c'

/-- What was used before counts as well. -/
theorem more {read read' : Read α} {costs : α → Nat} (h : Spends limit 0 read read' costs) :
    Spends limit spent read read' fun a => max spent (costs a) := by
  intro c a c' hread
  obtain ⟨-, hsame, hover⟩ := h c a c' hread
  refine ⟨Nat.le_max_left .., fun hcost => ?_, fun hspent hcost => ?_⟩
  · exact hsame (Nat.le_trans (Nat.le_max_right ..) hcost)
  · refine hover (Nat.zero_le _) ?_
    dsimp only at hcost
    omega

/-- A further reader that goes deeper. -/
theorem bind {read read' : Read α} {next next' : α → Read β} {costs : α → Nat}
    (h : Spends limit 0 read read' costs)
    (hnext : ∀ a, Spends limit (max spent (costs a)) (next a) (next' a) cost) :
    Spends limit spent (read >>= next) (read' >>= next') cost :=
  h.more.first hnext

theorem pure {b : β} (h : cost b = spent) :
    Spends limit spent (Pure.pure b) (Pure.pure b) cost := by
  intro c b' c' hread
  cases hread
  exact ⟨Nat.le_of_eq h.symm, fun _ => rfl, fun hspent hcost => by omega⟩

/-- Nothing is used. -/
theorem same {read : Read β} : Spends limit spent read read fun _ => spent := fun _ _ _ hread =>
  ⟨Nat.le_refl _, fun _ => hread, fun hspent hcost => absurd hspent (Nat.not_le_of_lt hcost)⟩

/-- A reader that does not go deeper. -/
theorem after {read : Read α} {next next' : α → Read β}
    (hnext : ∀ a, Spends limit spent (next a) (next' a) cost) :
    Spends limit spent (read >>= next) (read >>= next') cost :=
  same.first hnext

/-- A reader that fails. -/
theorem never {read read' : Read β} (h : ∀ c b c', read c ≠ .ok b c') :
    Spends limit spent read read' cost :=
  fun c b c' hread => absurd hread (h c b c')

theorem throw {e : Diagnostic} {read' : Read β} :
    Spends limit spent (MonadExcept.throw e) read' cost :=
  never fun _ _ _ hread => by cases hread

theorem fail {cause : Cause} {read' : Read β} : Spends limit spent (Read.fail cause) read' cost :=
  never fun _ _ _ hread => by cases hread

theorem missing {wanted : Wanted} {read' : Read β} :
    Spends limit spent (Read.missing wanted) read' cost :=
  never fun _ _ _ hread => by cases hread

theorem ite {p : Prop} [Decidable p] {yes no yes' no' : Read β}
    (hyes : p → Spends limit spent yes yes' cost) (hno : ¬p → Spends limit spent no no' cost) :
    Spends limit spent (if p then yes else no) (if p then yes' else no') cost := by
  split
  · exact hyes ‹_›
  · exact hno ‹_›

/-! ## Levels -/

/-- The same one level deeper. -/
theorem deeper {read read' : Read β} (h : Spends limit 0 read read' cost) :
    Spends (limit + 1) 0 read read' fun b => cost b + 1 := by
  intro c b c' hread
  obtain ⟨-, hsame, hover⟩ := h c b c' hread
  exact ⟨Nat.zero_le _, fun hcost => hsame (Nat.le_of_succ_le_succ hcost),
    fun _ hcost => hover (Nat.zero_le _) (Nat.lt_of_succ_lt_succ hcost)⟩

/-- No level is left. -/
theorem exhausted {read : Read β} (h : ∀ b, 0 < cost b) :
    Spends 0 0 read (Read.fail .nestedTooDeeply) cost :=
  fun _ b _ _ => ⟨Nat.zero_le _, fun hcost => absurd (h b) (Nat.not_lt_of_le hcost), fun _ _ => rfl⟩

/-- What was read with some levels took no more than there were. -/
theorem cost_le {levels : Nat} {read : Read β} (h : Spends levels 0 read read cost) {c c' : Cursor}
    {b : β} (hread : read c = .ok b c') : cost b ≤ levels := by
  apply Nat.le_of_not_lt
  intro hover
  have hfailure := (h c b c' hread).2.2 (Nat.zero_le _) hover
  rw [hread] at hfailure
  cases hfailure

/-! ## Loops -/

theorem iterate {step step' : β → Read (ForInStep β)} {b : β}
    (hstep : ∀ b, Spends limit (cost b) (step b) (step' b) fun next => cost next.value) :
    Spends limit (cost b) (Read.iterate b step) (Read.iterate b step') cost := by
  have hloop : ∀ bound b,
      Spends limit (cost b) (iterateUpTo step bound b) (iterateUpTo step' bound b) cost := by
    intro bound
    induction bound with
    | zero => exact fun b => .pure rfl
    | succ bound ih =>
        refine fun b => (hstep b).first fun next => ?_
        cases next with
        | done b => exact .pure rfl
        | yield b => exact ih b
  exact .after fun c => hloop _ b

section Lists

variable {item item' : Read α} {costs : α → Nat} {total : List α → Nat}
  (hnil : total [] = 0) (hconcat : ∀ items item,
    total (items ++ [item]) = max (total items) (costs item))
  (hitem : Spends limit 0 item item' costs)

include hnil hconcat hitem

theorem commaList : Spends limit 0 (Read.commaList item) (Read.commaList item') total := by
  refine hitem.first fun first => ?_
  have hfirst : total [first] = costs first := by
    have := hconcat [] first
    rwa [hnil, Nat.zero_max] at this
  rw [← hfirst]
  refine .iterate fun items => .after fun found => .ite (fun _ => ?_) fun _ => .pure rfl
  exact hitem.bind fun next => .pure (hconcat items next)

theorem separated {close : Kind} {separators : List Kind} :
    Spends limit 0 (Read.separated close separators item) (Read.separated close separators item')
      total := by
  rw [← hnil]
  refine .iterate fun items => .after fun found => .ite (fun _ => .pure rfl) fun _ => ?_
  refine hitem.bind fun next => .after fun more => .ite (fun _ => ?_) fun _ => ?_
  · exact .pure (hconcat items next)
  · exact .pure (hconcat items next)

end Lists

end Spends

/-! ## Readers of one level -/

/-- What is nested deeper is read with `deep` and with `deep'`, which has `limit` levels. -/
structure Nested.Spends (limit : Nat) (deep deep' : Nested) : Prop where
  top : ∀ least, Lustre.Spends limit 0 (deep.top least) (deep'.top least) Expr.nesting
  inner : ∀ least, Lustre.Spends limit 0 (deep.inner least) (deep'.inner least) Expr.nesting
  args : Lustre.Spends limit 0 deep.args deep'.args fun args => argsDepth (some args)

namespace Read

variable {limit spent : Nat} {deep deep' : Nested} (h : deep.Spends limit deep')
include h

theorem spends_exprList (close : Kind) :
    Spends limit 0 (exprList deep close) (exprList deep' close) Expr.listDepth := by
  refine .after fun found => .ite (fun _ => .pure rfl) fun _ => ?_
  exact .commaList rfl Expr.listDepth_concat (h.top 0)

theorem spends_indexing {index : Expr → α} {slice : Expr → Expr → Option Expr → α} {cost : α → Nat}
    (hindex : ∀ at_, cost (index at_) = max spent at_.nesting)
    (hslice : ∀ first last step, cost (slice first last step) =
      max (max (max spent first.nesting) last.nesting) (stepDepth step)) :
    Spends limit spent (indexing deep index slice) (indexing deep' index slice) cost := by
  refine (h.top 0).bind fun first => .after fun found => .ite (fun _ => ?_) fun _ => ?_
  · refine (h.top 0).bind fun last => ?_
    have hstep : Spends limit 0 (optionalAfter .kwStep deep.expr) (optionalAfter .kwStep deep'.expr)
        stepDepth :=
      .after fun found => .ite (fun _ => (h.top 0).first fun step => .pure rfl) fun _ => .pure rfl
    exact hstep.bind fun step => .pure (hslice first last step)
  · exact .pure (hindex first)

omit h in
/-- Nothing else is built from what stands between brackets. -/
theorem built_indexing {index : Expr → α} {slice : Expr → Expr → Option Expr → α} {c : Cursor} :
    Meets (indexing deep index slice) c fun built _ =>
      (∃ at_, built = index at_) ∨ ∃ first last step, built = slice first last step := by
  refine .bind .any fun first _ _ => .bind .any fun found _ _ => ?_
  split
  · refine .bind .any fun last _ _ => .bind .any fun step _ _ => ?_
    exact .pure (.inr ⟨first, last, step, rfl⟩)
  · exact .pure (.inl ⟨first, rfl⟩)

theorem spends_postfixStep (value : Expr) :
    Spends limit value.depth (postfixStep deep value) (postfixStep deep' value)
      fun next => next.value.depth := by
  refine .after fun next => ?_
  split
  · exact .after fun _ => .after fun field => .pure rfl
  · have hindexing : Spends limit value.depth
        (indexing deep (fun index span => Expr.index span value index)
          (fun first last step span => Expr.slice span value first last step))
        (indexing deep' (fun index span => Expr.index span value index)
          (fun first last step span => Expr.slice span value first last step))
        fun build => (build (Span.point 0)).depth :=
      spends_indexing h (fun _ => rfl) (fun _ _ _ => rfl)
    refine .after fun _ c => (hindexing c).bind fun build c' hread => ?_
    refine .of_spends (.after fun close => .pure ?_)
    rcases built_indexing build c' hread with ⟨index, rfl⟩ | ⟨first, last, step, rfl⟩
    · rfl
    · rfl
  · exact .after fun _ => (spends_exprList h _).bind fun args => .after fun close => .pure rfl
  · exact .pure rfl

theorem spends_postfixes (value : Expr) :
    Spends limit value.depth (postfixes deep value) (postfixes deep' value) Expr.depth :=
  .iterate (spends_postfixStep h)

/-! ## Primary expressions -/

theorem spends_fieldInit : Spends limit 0 (fieldInit deep) (fieldInit deep') fun init =>
    init.value.nesting := by
  refine .after fun start => .after fun field => .after fun _ => (h.top 0).first fun value => ?_
  exact .after fun span => .pure rfl

theorem spends_record (start : Nat) (type : Reference) :
    Spends limit 0 (record deep start type) (record deep' start type) Expr.depth := by
  have hfields : Spends limit 0 (separated .rBrace [.comma, .semi] (fieldInit deep))
      (separated .rBrace [.comma, .semi] (fieldInit deep')) FieldInit.listDepth :=
    .separated rfl FieldInit.listDepth_concat (spends_fieldInit h)
  have hrest : ∀ base : Option Reference, Spends limit 0
      (do
        let fields ← separated .rBrace [.comma, .semi] (fieldInit deep)
        let _ ← expect .rBrace
        return .record (← spanFrom start) type base fields)
      (do
        let fields ← separated .rBrace [.comma, .semi] (fieldInit deep')
        let _ ← expect .rBrace
        return .record (← spanFrom start) type base fields) Expr.depth := by
    intro base
    refine hfields.first fun fields => ?_
    exact .after fun _ => .after fun span => .pure rfl
  refine .after fun _ => .after fun c => .ite (fun _ => ?_) fun _ => ?_
  · exact .after fun base => .after fun _ => .after fun _ => hrest _
  · exact .after fun _ => hrest _

theorem spends_nameExpr : Spends limit 0 (nameExpr deep) (nameExpr deep') Expr.depth := by
  refine .after fun start => .after fun name => .after fun next => ?_
  split
  · refine h.args.first fun args => .after fun found => .ite (fun _ => ?_) fun _ => ?_
    · exact .after fun span => .pure rfl
    · exact .after fun span => .throw
  · exact spends_record h start name
  · exact .after fun span => .pure rfl

theorem spends_mergeArm : Spends limit 0 (mergeArm deep) (mergeArm deep') fun arm =>
    arm.value.nesting := by
  refine .after fun start => .after fun _ => .after fun pattern => .after fun _ => ?_
  exact (h.top 0).first fun value => .after fun _ => .after fun span => .pure rfl

theorem spends_merge (start : Nat) :
    Spends limit 0 (merge deep start) (merge deep' start) Expr.depth := by
  have harms : Spends limit (MergeArm.listDepth []) (iterate [] (mergeStep deep))
      (iterate [] (mergeStep deep')) MergeArm.listDepth := by
    refine .iterate fun arms => .after fun found => .ite (fun _ => ?_) fun _ => .pure rfl
    exact (spends_mergeArm h).bind fun arm => .pure (MergeArm.listDepth_concat arms arm)
  refine .after fun clock => harms.first fun arms => .ite (fun _ => .missing) fun _ => ?_
  exact .after fun span => .pure rfl

theorem spends_conditional (start : Nat) (word : CondWord) :
    Spends limit 0 (conditional deep start word) (conditional deep' start word) Expr.depth := by
  refine (h.top 0).first fun condition => .after fun _ => (h.top 0).bind fun yes => ?_
  exact .after fun _ => (h.top 0).bind fun no => .after fun span => .pure rfl

theorem spends_operands (start : Nat) (op : ListOp) :
    Spends limit 0 (operands deep start op) (operands deep' start op) Expr.depth := by
  refine .after fun _ => (spends_exprList h _).first fun operands => ?_
  exact .after fun _ => .after fun span => .pure rfl

theorem spends_primary : Spends limit 0 (primary deep) (primary deep') Expr.depth := by
  refine .after fun start => .after fun next => ?_
  split
  · exact .after fun digits => .after fun span => .pure rfl
  · exact .after fun digits => .after fun span => .pure rfl
  · exact .after fun _ => .after fun span => .pure rfl
  · exact .after fun _ => .after fun span => .pure rfl
  · exact spends_nameExpr h
  · refine .after fun _ => (spends_exprList h _).first fun items => ?_
    exact .after fun _ => .after fun span => .pure rfl
  · refine .after fun _ => (spends_exprList h _).first fun items => ?_
    exact .after fun _ => .after fun span => .pure rfl
  · exact .after fun _ => spends_conditional h start _
  · exact .after fun _ => spends_conditional h start _
  · exact .after fun _ => spends_merge h start
  · exact .after fun _ => spends_operands h start _
  · exact .after fun _ => spends_operands h start _
  · exact .missing

/-! ## Operators -/

omit h in
theorem depth_binary {tier : Tier} {op : BinaryOp} {next : Option Kind}
    (hop : next.bind (BinaryOp.inTier? tier) = some op) (lhs rhs : Expr) :
    (binary op lhs rhs).depth =
      max lhs.depth (if tier = .comparison then rhs.depth else rhs.nesting) := by
  obtain ⟨kind, -, hkind⟩ := Option.bind_eq_some_iff.mp hop
  rw [binary, Expr.depth, (BinaryOp.symbol_of_inTier? hkind).2]
  rfl

theorem spends_prefixed : Spends limit 0 (prefixed deep) (prefixed deep') Expr.depth := by
  refine .after fun next => ?_
  split
  · refine .after fun start => .after fun _ => (h.inner _).first fun operand => ?_
    exact .pure rfl
  · exact (spends_primary h).first (spends_postfixes h)

theorem spends_innerStep (least : Nat) (lhs : Expr) :
    Spends limit lhs.depth (innerStep deep least lhs) (innerStep deep' least lhs)
      fun next => next.value.depth := by
  refine .after fun sampled => .ite (fun _ => ?_) fun _ => .after fun next => ?_
  · exact .ite (fun _ => .pure rfl) fun _ => .after fun _ => .after fun clock => .pure rfl
  · split
    · rename_i hop
      refine .ite (fun _ => .pure rfl) fun _ => .after fun _ => ?_
      exact (h.inner _).bind fun rhs => .pure (depth_binary hop lhs rhs)
    · exact .pure rfl

theorem spends_inner (least : Nat) :
    Spends limit 0 (inner deep least) (inner deep' least) Expr.depth :=
  (spends_prefixed h).first fun _ => .iterate (spends_innerStep h least)

theorem spends_comparison : Spends limit 0 (comparison deep) (comparison deep') Expr.depth := by
  refine (spends_inner h 0).first fun lhs => .after fun next => ?_
  split
  · rename_i hop
    refine .after fun _ => (spends_inner h 0).bind fun rhs => .after fun next => ?_
    split
    · exact .fail
    · exact .pure (depth_binary hop lhs rhs)
  · exact .pure rfl

theorem spends_topStep (least : Nat) (lhs : Expr) :
    Spends limit lhs.depth (topStep deep least lhs) (topStep deep' least lhs)
      fun next => next.value.depth := by
  refine .after fun next => ?_
  split
  · rename_i hop
    refine .ite (fun _ => .pure rfl) fun _ => .after fun _ => ?_
    exact (h.top _).bind fun rhs => .pure (depth_binary hop lhs rhs)
  · exact .pure rfl

theorem spends_top (least : Nat) : Spends limit 0 (top deep least) (top deep' least) Expr.depth :=
  (spends_comparison h).first fun _ => .iterate (spends_topStep h least)

/-! ## Types and static arguments -/

theorem spends_typeExpr : Spends limit 0 (typeExpr deep) (typeExpr deep') TypeExpr.depth := by
  have hsimple : Spends limit 0 simpleType simpleType TypeExpr.depth := by
    refine .after fun start => .after fun next => ?_
    split
    · exact .after fun _ => .after fun span => .pure rfl
    · exact .after fun _ => .after fun span => .pure rfl
    · exact .after fun _ => .after fun span => .pure rfl
    · exact .after fun ref => .after fun span => .pure rfl
    · exact .missing
  refine hsimple.first fun type => .iterate fun type => .after fun found => ?_
  refine .ite (fun _ => ?_) fun _ => .pure rfl
  exact (spends_inner h _).bind fun length => .pure rfl

theorem spends_nodeUse : Spends limit 0 (nodeUse deep) (nodeUse deep') fun target =>
    argsDepth target.args := by
  have hargs : Spends limit 0 (optionalAt .ltLt deep.args)
      (optionalAt .ltLt deep'.args) argsDepth :=
    .after fun found => .ite (fun _ => h.args.first fun args => .pure rfl) fun _ => .pure rfl
  refine .after fun start => .after fun node => hargs.first fun args => ?_
  exact .after fun span => .pure rfl

theorem spends_typeArg (start : Nat) (explicit : Bool) :
    Spends limit 0 (typeArg deep start explicit) (typeArg deep' start explicit) StaticArg.depth :=
  (spends_typeExpr h).first fun _ => .after fun _ => .pure rfl

theorem spends_constArg (start : Nat) (explicit : Bool) :
    Spends limit 0 (constArg deep start explicit) (constArg deep' start explicit) StaticArg.depth :=
  (h.top 0).first fun _ => .after fun _ => .pure rfl

theorem spends_nodeArg (start : Nat) (kind : NodeKind) :
    Spends limit 0 (nodeArg deep start kind) (nodeArg deep' start kind) StaticArg.depth :=
  (spends_nodeUse h).first fun _ => .after fun _ => .pure rfl

theorem spends_nameLedConst (close : Kind) (start : Nat) :
    Spends limit 0 (nameLedConst deep close start) (nameLedConst deep' close start)
      StaticArg.depth := by
  refine (h.top 0).first fun value => ?_
  split
  · exact .after fun c => .ite (fun _ => .throw) fun _ => .after fun span => .pure rfl
  · exact .after fun span => .pure rfl

omit h in
/-- The constant is a full expression. -/
theorem meets_nameLedConst_depth {close : Kind} {start : Nat} {c : Cursor} :
    Meets (nameLedConst deep close start) c fun arg _ =>
      ∃ value c', deep.expr c = .ok value c' ∧ arg.depth = value.nesting := by
  have hvalue : Meets deep.expr c fun value c' => deep.expr c = .ok value c' := fun _ _ h => h
  refine hvalue.bind fun value c' hread => ?_
  split
  · refine .get ?_
    split
    · exact .throw
    · exact .spanFrom fun span => .pure ⟨_, c', hread, rfl⟩
  · exact .spanFrom fun span => .pure ⟨_, c', hread, rfl⟩

end Read

/-- Where an expression is read, what stands there is nested at least as deep as the arguments of
the node that it begins with. -/
def Nested.Leads (deep : Nested) : Prop :=
  ∀ c c₁ c₂ target value, Read.nodeUse deep c = .ok target c₁ →
    deep.expr c = .ok value c₂ → argsDepth target.args ≤ value.nesting

namespace Read

variable {limit : Nat} {deep deep' : Nested} (h : deep.Spends limit deep') (hleads : deep.Leads)
include h hleads

theorem spends_nameLedArg (close : Kind) (start : Nat) :
    Spends limit 0 (nameLedArg deep close start) (nameLedArg deep' close start)
      StaticArg.depth := by
  refine fun c => .get (.ite ?_ (.ite ?_ ?_))
  · exact .of_spends (.after fun ref => .after fun span => .pure rfl)
  · refine (spends_nodeUse h c).bind fun target c₁ htarget => ?_
    have hlook : SpendsFrom limit (argsDepth target.args) (isAt .lParen) (isAt .lParen)
        (fun _ => argsDepth target.args) c₁ := .of_spends .same
    refine hlook.bind fun found c₂ _ => .ite (.set ?_) ?_
    · -- what is read as a node first is not deeper than what it is read as in the end
      refine (spends_nameLedConst h close start c).raise ?_
      refine meets_nameLedConst_depth.mono fun arg c₃ hvalue => ?_
      obtain ⟨value, c₄, hread, hdepth⟩ := hvalue
      rw [hdepth]
      exact hleads c c₁ c₄ target value htarget hread
    · exact .of_spends (.after fun span => .pure rfl)
  · exact spends_nameLedConst h close start c

theorem spends_staticArg (close : Kind) :
    Spends limit 0 (staticArg deep close) (staticArg deep' close) StaticArg.depth := by
  refine .after fun c => ?_
  dsimp only
  split
  · exact .after fun _ => .after fun span => .pure rfl
  · split
    · exact .after fun _ => spends_typeArg h _ _
    · exact .after fun _ => spends_constArg h _ _
    · exact .after fun _ => spends_nodeArg h _ _
    · exact .after fun _ => spends_nodeArg h _ _
    · exact .ite (fun _ => spends_typeArg h _ _) fun _ => spends_constArg h _ _
    · exact .ite (fun _ => spends_typeArg h _ _) fun _ => spends_constArg h _ _
    · exact .ite (fun _ => spends_typeArg h _ _) fun _ => spends_constArg h _ _
    · exact spends_nameLedArg h hleads close _
    · exact spends_constArg h _ _

theorem spends_staticArgs :
    Spends limit 0 (staticArgs deep) (staticArgs deep') StaticArg.listDepth := by
  have hargs : Spends limit 0 (separated .gtGt [.comma, .semi] (staticArg deep .gtGt))
      (separated .gtGt [.comma, .semi] (staticArg deep' .gtGt)) StaticArg.listDepth :=
    .separated rfl StaticArg.listDepth_concat (spends_staticArg h hleads .gtGt)
  exact .after fun _ => hargs.first fun args => .after fun _ => .pure rfl

end Read

/-! ## All levels -/

namespace Read

variable {deep : Nested} {c c₁ c₂ : Cursor}

/-- What begins with a name goes on behind it, and an instance with its arguments. -/
theorem args_of_nameExpr [deep.Advances] {name : Reference} (hname : reference c = .ok name c₁) :
    Meets (nameExpr deep) c fun _ c' => c₁.Onward c' ∧ (c₁.peek = some .ltLt →
      ∃ args c₃, deep.args c₁ = .ok args c₃ ∧ c₃.Onward c') := by
  refine .here fun _ => .bind (P := fun _ c' => c₁ = c') (fun _ c' h => ?_) ?_
  · cases hname.symm.trans h
    rfl
  · rintro _ _ rfl
    refine .peek ?_
    split
    · refine .bind (P := fun args c₃ => deep.args c₁ = .ok args c₃) (fun _ _ h => h) ?_
      intro args c₃ hargs
      have hpassed : c₁.Onward c₃ := Forward.meets_onward _ c₁ _ _ hargs
      refine .ifAt (fun _ => .spanFrom fun _ => .pure ?_) fun _ => .spanFrom fun _ => .throw
      exact ⟨hpassed, fun _ => ⟨args, c₃, hargs, .here⟩⟩
    · rename_i hbrace
      refine (Forward.meets_onward _ c₁).mono fun _ _ honward => ⟨honward, fun hopen => ?_⟩
      rw [hbrace] at hopen
      cases hopen
    · rename_i hnot _
      exact .spanFrom fun _ => .pure ⟨.here, fun hopen => absurd hopen hnot⟩

/-- An expression goes on behind the name that it begins with, and one that begins with an instance
was read with its arguments. -/
theorem args_of_top [deep.Advances] {least : Nat} {value : Expr} {name : Reference}
    (h : top deep least c = .ok value c₂) (hname : reference c = .ok name c₁) :
    c₁.Onward c₂ ∧
      (c₁.peek = some .ltLt → ∃ args c', deep.args c₁ = .ok args c' ∧ c'.Onward c₂) := by
  obtain ⟨whole, c₃, hcomparison, hlast⟩ := bind_eq_ok.mp h
  rw [comparison_eq] at hcomparison
  obtain ⟨lhs, c₄, hinner, hcompared⟩ := bind_eq_ok.mp hcomparison
  obtain ⟨first, c₅, hprefixed, hjoined⟩ := bind_eq_ok.mp hinner
  have hrest : c₅.Onward c₂ :=
    ((Forward.meets_onward _ c₅ _ _ hjoined).trans (Forward.meets_onward _ c₄ _ _ hcompared)).trans
      (Forward.meets_onward _ c₃ _ _ hlast)
  -- the first token is an identifier, which is neither a prefix operator nor another primary
  have hident : c.peek = some .ident := (meets_reference_ident c) name c₁ hname
  have hprimary : (primary deep >>= postfixes deep) c = .ok first c₅ := by
    obtain ⟨next, c', hpeek, hrest⟩ := bind_eq_ok.mp hprefixed
    cases hpeek
    rwa [hident] at hrest
  obtain ⟨atom, c₆, hprimary, hpostfixes⟩ := bind_eq_ok.mp hprimary
  have hatom : c₆.Onward c₂ := (Forward.meets_onward _ c₆ _ _ hpostfixes).trans hrest
  have hinstance : nameExpr deep c = .ok atom c₆ := by
    obtain ⟨start, c', hhere, hrest⟩ := bind_eq_ok.mp hprimary
    cases hhere
    obtain ⟨next, c', hpeek, hrest⟩ := bind_eq_ok.mp hrest
    cases hpeek
    rwa [hident] at hrest
  obtain ⟨hbehind, hargs⟩ := args_of_nameExpr hname atom c₆ hinstance
  refine ⟨hbehind.trans hatom, fun hopen => ?_⟩
  obtain ⟨args, c', hread, hcalled⟩ := hargs hopen
  exact ⟨args, c', hread, hcalled.trans hatom⟩

end Read

namespace Nested

variable {levels : Nat}

/-- The arguments of an instance lie one level deeper in the expression that begins with it. -/
theorem leads_of_spends (h : ∀ limit, (upTo levels).Spends limit (upTo limit)) :
    (upTo levels).Leads := by
  intro c c₁ c₂ target value htarget hvalue
  obtain ⟨start, c', hhere, htarget⟩ := bind_eq_ok.mp htarget
  cases hhere
  obtain ⟨name, c₃, hname, htarget⟩ := bind_eq_ok.mp htarget
  obtain ⟨args, c₄, hargs, htarget⟩ := bind_eq_ok.mp htarget
  cases htarget
  have hlist : Meets (Read.optionalAt .ltLt (upTo levels).args) c₃ fun args c' => args = none ∨
      c₃.peek = some .ltLt ∧ ∃ list, args = some list ∧ (upTo levels).args c₃ = .ok list c' :=
    .optionalAt (fun hopen list c' hread => .inr ⟨hopen, list, rfl, hread⟩) fun _ => .inl rfl
  rcases hlist args c₁ hargs with rfl | ⟨hopen, list, rfl, hread⟩
  · exact Nat.zero_le _
  · -- with just the levels of the expression, the arguments are read within it
    have hwithin : Read.top (upTo value.depth) 0 c = .ok value c₂ :=
      ((h value.nesting).top 0 c value c₂ hvalue).2.1 (Nat.le_refl _)
    obtain ⟨again, c₅, hagain, -⟩ := (Read.args_of_top hwithin hname).2 hopen
    refine Nat.le_of_not_lt fun hdeeper => ?_
    have hover := ((h value.depth).args c₃ list c₁ hread).2.2 (Nat.zero_le _)
      (Nat.lt_of_succ_lt hdeeper)
    rw [hagain] at hover
    cases hover

/-- Whatever the levels, the same is read with any other number of them, or something is nested too
deeply. -/
theorem spends_upTo (levels limit : Nat) : (upTo levels).Spends limit (upTo limit) := by
  induction levels generalizing limit with
  | zero => exact ⟨fun _ => .fail, fun _ => .fail, .fail⟩
  | succ levels ih =>
      cases limit with
      -- with no level there is nothing to read, since everything takes one
      | zero => exact ⟨fun _ => .exhausted fun _ => Nat.succ_pos _,
          fun _ => .exhausted fun _ => Nat.succ_pos _, .exhausted fun _ => Nat.succ_pos _⟩
      | succ limit =>
          have hleads := leads_of_spends ih
          exact ⟨fun least => (Read.spends_top (ih limit) least).deeper,
            fun least => (Read.spends_inner (ih limit) least).deeper,
            (Read.spends_staticArgs (ih limit) hleads).deeper⟩

/-- What is read with as many levels as `read` has does not take more. -/
theorem enough {limit levels : Nat} {read read' : Read α} {cost : α → Nat} {c c' : Cursor} {a : α}
    (hself : Lustre.Spends levels 0 read read cost) (h : Lustre.Spends limit 0 read read' cost)
    (hle : levels ≤ limit) (hread : read c = .ok a c') : read' c = .ok a c' :=
  (h c a c' hread).2.1 (Nat.le_trans (hself.cost_le hread) hle)

variable {limit least : Nat} {c c₁ c₂ : Cursor}

/-- What some levels are enough for, more are enough for. -/
theorem top_of_le (hle : levels ≤ limit) {e : Expr} (h : (upTo levels).top least c = .ok e c₁) :
    (upTo limit).top least c = .ok e c₁ :=
  enough ((spends_upTo levels levels).top least) ((spends_upTo levels limit).top least) hle h

/-- An expression that begins with the use of a node goes on behind it. -/
theorem onward_of_nodeUse {target : NodeUse} {value : Expr}
    (htarget : Read.nodeUse (upTo levels) c = .ok target c₁)
    (hvalue : (upTo levels).expr c = .ok value c₂) : c₁.Onward c₂ := by
  cases levels with
  | zero => cases hvalue
  | succ levels =>
      obtain ⟨start, c', hhere, htarget⟩ := bind_eq_ok.mp htarget
      cases hhere
      obtain ⟨name, c₃, hname, htarget⟩ := bind_eq_ok.mp htarget
      obtain ⟨args, c₄, hargs, htarget⟩ := bind_eq_ok.mp htarget
      cases htarget
      obtain ⟨hbehind, hcalled⟩ := Read.args_of_top hvalue hname
      refine Meets.optionalAt (R := fun _ c₄ => c₄.Onward c₂) (fun hopen list c' hread => ?_)
        (fun _ => hbehind) args c₁ hargs
      -- the arguments are the ones that are read one level deeper
      obtain ⟨again, c₅, hagain, honward⟩ := hcalled hopen
      have hsame := enough (spends_upTo levels levels).args (spends_upTo levels (levels + 1)).args
        (Nat.le_succ _) hagain
      cases hread.symm.trans hsame
      exact honward

end Nested

/-- The number of levels that are allowed only decides whether an expression is accepted. -/
theorem Recover.spends_wholeExpr (levels limit : Nat) :
    Spends limit 0 (wholeExpr (.upTo levels)) (wholeExpr (.upTo limit)) Expr.nesting := by
  refine ((Nested.spends_upTo levels limit).top 0).first fun expr => .after fun c => ?_
  exact .ite (fun _ => .pure rfl) fun _ => .missing

end Lustre
