import Lustre.Proofs.Reader.Covering
import Lustre.Proofs.Reader.Expr
import Lustre.Reader.Signature

/-!
# The spans that readers put around what they read

Every reader below the declarations answers spans on the tokens that it has passed, and it
passes one at least.  As in the proofs about words, the readers of one level of nesting are
treated under the assumption that those of the levels below do so (`Nested.Spanned`).

A chain of postfix forms or of operators is read from the left, and what has been read
becomes a part of what is read next.  So its steps are measured from where the chain begins.
-/

namespace Lustre

open Cursor

/-- Pragmas stand aside. -/
theorem Pragma.isAside_of_mem_extents {pragmas : List Pragma} {extent : Extent}
    (h : extent ∈ extents pragmas) : extent.isAside = true := by
  obtain ⟨pragma, -, hmem⟩ := List.mem_flatMap.mp h
  rw [List.mem_singleton.mp hmem]
  rfl

namespace Nested

/-- What the readers of a level answer lies on the tokens that they pass. -/
structure Spanned (deep : Nested) : Prop where
  top : ∀ least c, Meets (deep.top least) c fun e c' => c.Moves (extents e) c'
  inner : ∀ least c, Meets (deep.inner least) c fun e c' => c.Moves (extents e) c'
  args : ∀ c, Meets deep.args c fun args c' => c.Moves (extents args) c'

end Nested

namespace Read

variable {deep : Nested} (hdeep : deep.Spanned)
include hdeep

theorem moves_expr (c : Cursor) : Meets deep.expr c fun e c' => c.Moves (extents e) c' :=
  hdeep.top 0 c

theorem covers_exprList (close : Kind) (c : Cursor) :
    Meets (exprList deep close) c fun exprs c' => c.Covers (Expr.listExtents exprs) c' := by
  refine .ifAt (fun _ => .pure (.refl c)) fun _ => ?_
  refine (moves_commaList (moves_expr hdeep) c).mono fun exprs c' h => ?_
  rw [Expr.listExtents_eq]
  exact h.covers

/-! ## Postfix forms -/

/-- What stands between brackets, whatever is built of it. -/
theorem moves_indexing {α : Type} {index : Expr → α} {slice : Expr → Expr → Option Expr → α}
    (c : Cursor) :
    Meets (indexing deep index slice) c fun built c' =>
      (∃ place, built = index place ∧ c.Moves (extents place) c') ∨
        ∃ first last step, built = slice first last step ∧
          c.Moves (extents first ++ extents last ++ extents step) c' := by
  refine .bind (moves_expr hdeep c) fun first c₁ hfirst => ?_
  refine .ifEat (fun _ => ?_) fun _ => .pure (.inl ⟨first, rfl, hfirst⟩)
  refine .bind (moves_expr hdeep c₁.pass) fun last c₂ hlast => ?_
  refine .bind (covers_optionalAfter c₂ (moves_expr hdeep)) fun step c₃ hstep => ?_
  exact .pure (.inr ⟨first, last, step, rfl, (hfirst.pass.trans hlast.covers).trans hstep⟩)

/-- A postfix form after a value. -/
theorem moves_postfixStep {c₀ c : Cursor} {value : Expr} (hvalue : c₀.Moves (extents value) c) :
    Meets (postfixStep deep value) c (StepKeeps (fun e c' => c₀.Moves (extents e) c')
      fun e c' => c₀.Moves (extents e) c') := by
  refine .peek ?_
  split
  · refine .advance (.bind (moves_ident _) fun field c' hfield => .pure ?_)
    -- the pragmas of the field follow it, outside the span of the whole
    exact (hvalue.pass.trans hfield.covers).joined fun _ => Pragma.isAside_of_mem_extents
  · refine .advance (.bind (moves_indexing hdeep _) fun build c' hbuild => ?_)
    refine .expect_eq fun hclose => .pure ?_
    rcases hbuild with ⟨place, rfl, hplace⟩ | ⟨first, last, step, rfl, hrange⟩
    · exact (hvalue.pass.trans hplace.covers).closed hclose
    · have hall := (hvalue.pass.trans hrange.covers).closed hclose
      rwa [← stepExtents_eq, List.append_assoc] at hall
  · refine .advance (.bind (covers_exprList hdeep _ _) fun args c' hargs => ?_)
    exact .expect_eq fun hclose => .pure ((hvalue.pass.trans hargs).closed hclose)
  · exact .pure hvalue

theorem moves_postfixes {c₀ c : Cursor} {value : Expr} (hvalue : c₀.Moves (extents value) c) :
    Meets (postfixes deep value) c fun e c' => c₀.Moves (extents e) c' :=
  .iterate (I := fun e c' => c₀.Moves (extents e) c') hvalue
    (fun _ _ he => moves_postfixStep hdeep he) fun _ _ h => h

/-! ## Primary expressions -/

theorem moves_fieldInit (c : Cursor) :
    Meets (fieldInit deep) c fun init c' => c.Moves (extents init) c' := by
  refine .here_eq (.bind (moves_ident c) fun field c₁ hfield => .expect fun _ _ => ?_)
  refine .bind (moves_expr hdeep _) fun value c₂ hvalue => .spanFrom_eq (.pure ?_)
  exact (hfield.pass.trans hvalue.covers).part

/-- A record, whose type has been passed. -/
theorem moves_record {c₀ c : Cursor} {type : Reference} (htype : c₀.Moves (extents type) c) :
    Meets (record deep c₀.span.start type) c fun e c' => c₀.Moves (extents e) c' := by
  refine .expect fun _ _ => .get ?_
  have hfields : ∀ base c₁, c.pass.Covers (extents base) c₁ →
      Meets (do
        let fields ← separated .rBrace [.comma, .semi] (fieldInit deep)
        let _ ← expect .rBrace
        return Expr.record (← spanFrom c₀.span.start) type base fields) c₁ fun e c' =>
          c₀.Moves (extents e) c' := by
    intro base c₁ hbase
    refine .bind (covers_separated (moves_fieldInit hdeep) c₁) fun fields c₂ hfields => ?_
    refine .expect fun _ _ => .spanFrom_eq (.pure ?_)
    rw [← FieldInit.listExtents_eq] at hfields
    exact ((htype.pass.trans hbase).trans hfields).pass.part
  dsimp only
  split
  · exact .bind (moves_reference _) fun base c₁ hbase =>
      .advance (hfields (some base) _ hbase.pass.covers)
  · exact hfields none _ (.refl _)

theorem moves_nameExpr (c : Cursor) :
    Meets (nameExpr deep) c fun e c' => c.Moves (extents e) c' := by
  refine .here_eq (.bind (moves_reference c) fun name c₁ hname => .peek ?_)
  split
  · refine .bind (hdeep.args c₁) fun args c₂ hargs => ?_
    refine .ifAt (fun _ => .spanFrom_eq (.pure ?_)) fun _ => .spanFrom fun _ => .throw
    rw [← StaticArg.listExtents_eq] at hargs
    exact (hname.trans hargs.covers).part
  · exact moves_record hdeep hname
  · exact .spanFrom_eq (.pure hname.part)

omit hdeep in
theorem moves_pattern (c : Cursor) :
    Meets pattern c fun pattern c' => c.Moves (extents pattern) c' := by
  refine .peek ?_
  split
  · rename_i htrue
    exact .advance (.pure (.token htrue))
  · rename_i hfalse
    exact .advance (.pure (.token hfalse))
  · exact .bind (moves_reference c) fun ref c' href => .pure href
  · exact .missing

theorem moves_mergeArm (c : Cursor) :
    Meets (mergeArm deep) c fun arm c' => c.Moves (extents arm) c' := by
  refine .here_eq (.expect fun hopen _ => .bind (moves_pattern _) fun pattern c₁ hpattern => ?_)
  refine .expect fun _ _ => .bind (moves_expr hdeep _) fun value c₂ hvalue => ?_
  refine .expect fun _ _ => .spanFrom_eq (.pure ?_)
  exact (Moves.behind hopen (hpattern.pass.trans hvalue.covers).covers).pass.part

/-- A merge, whose keyword has been passed. -/
theorem moves_merge {c₀ c : Cursor} (hmerge : c₀.Moves [] c) :
    Meets (merge deep c₀.span.start) c fun e c' => c₀.Moves (extents e) c' := by
  refine .bind (moves_ident c) fun clock c₁ hclock => ?_
  refine .bind (P := fun arms c' => c₁.Covers (extents arms) c') ?_ fun arms c' harms => ?_
  · refine .iterate (I := fun arms c' => c₁.Covers (extents arms) c') (.refl c₁)
      (fun arms c' harms => ?_) fun _ _ h => h
    refine .ifAt (fun _ => ?_) fun _ => .pure harms
    exact .bind (moves_mergeArm hdeep c') fun arm c₂ harm => .pure (Moves.snoc harms harm).covers
  · split
    · exact .missing
    · rw [← MergeArm.listExtents_eq] at harms
      exact .spanFrom_eq (.pure (hmerge.trans (hclock.covers.trans harms)).part)

/-- A conditional, whose keyword has been passed. -/
theorem moves_conditional {c₀ c : Cursor} {word : CondWord} (hword : c₀.Moves [] c) :
    Meets (conditional deep c₀.span.start word) c fun e c' => c₀.Moves (extents e) c' := by
  refine .bind (moves_expr hdeep c) fun condition c₁ hcondition => .expect fun _ _ => ?_
  refine .bind (moves_expr hdeep _) fun yes c₂ hyes => .expect fun _ _ => ?_
  refine .bind (moves_expr hdeep _) fun no c₃ hno => .spanFrom_eq (.pure ?_)
  have hall := hcondition.pass.trans (hyes.pass.trans hno.covers).covers
  exact (hword.trans hall.covers).part

/-- The operands of an operator that has been passed. -/
theorem moves_operands {c₀ c : Cursor} {op : ListOp} (hop : c₀.Moves [] c) :
    Meets (operands deep c₀.span.start op) c fun e c' => c₀.Moves (extents e) c' := by
  refine .expect fun _ _ => .bind (covers_exprList hdeep _ _) fun exprs c₁ hexprs => ?_
  exact .expect fun _ _ => .spanFrom_eq (.pure (hop.pass.trans hexprs).pass.part)

omit hdeep in
/-- The text of a token. -/
theorem moves_takeText {c : Cursor} {kind : Kind} (hpeek : c.peek = some kind) :
    Meets takeText c fun _ c' => c.Moves [] c' :=
  .get (.advance (.pure (.token hpeek)))

/-- An expression that no operator splits. -/
theorem moves_primary (c : Cursor) : Meets (primary deep) c fun e c' => c.Moves (extents e) c' := by
  refine .here_eq (.peek ?_)
  split
  · rename_i h
    exact .bind (moves_takeText h) fun digits c' hmoves => .spanFrom_eq (.pure hmoves.part)
  · rename_i h
    exact .bind (moves_takeText h) fun digits c' hmoves => .spanFrom_eq (.pure hmoves.part)
  · rename_i h
    exact .advance (.spanFrom_eq (.pure (Moves.token h).part))
  · rename_i h
    exact .advance (.spanFrom_eq (.pure (Moves.token h).part))
  · exact moves_nameExpr hdeep c
  · rename_i h
    refine .advance (.bind (covers_exprList hdeep _ _) fun items c₁ hitems => ?_)
    exact .expect fun _ _ => .spanFrom_eq (.pure (Moves.behind h hitems).pass.part)
  · rename_i h
    refine .advance (.bind (covers_exprList hdeep _ _) fun items c₁ hitems => ?_)
    exact .expect fun _ _ => .spanFrom_eq (.pure (Moves.behind h hitems).pass.part)
  · rename_i h
    exact .advance (moves_conditional hdeep (.token h))
  · rename_i h
    exact .advance (moves_conditional hdeep (.token h))
  · rename_i h
    exact .advance (moves_merge hdeep (.token h))
  · rename_i h
    exact .advance (moves_operands hdeep (.token h))
  · rename_i h
    exact .advance (moves_operands hdeep (.token h))
  · exact .missing

/-! ## Operators -/

theorem moves_prefixed (c : Cursor) :
    Meets (prefixed deep) c fun e c' => c.Moves (extents e) c' := by
  refine .peek ?_
  split
  · rename_i op hop
    obtain ⟨kind, hkind, -⟩ := Option.bind_eq_some_iff.mp hop
    refine .here_eq (.advance (.bind (hdeep.inner _ _) fun operand c' hoperand => .pure ?_))
    exact .prefixed hkind hoperand.covers
  · exact .bind (moves_primary hdeep c) fun e c' he => moves_postfixes hdeep he

omit hdeep in
/-- An operator between two operands. -/
theorem moves_binary {c₀ c c' : Cursor} {op : BinaryOp} {lhs rhs : Expr}
    (hlhs : c₀.Moves (extents lhs) c) (hrhs : c.pass.Moves (extents rhs) c') :
    c₀.Moves (extents (binary op lhs rhs)) c' :=
  (hlhs.pass.trans hrhs.covers).joined (List.forall_mem_nil _)

/-- An operator with its right operand, or a clock, after a left operand. -/
theorem moves_innerStep {min : Nat} {c₀ c : Cursor} {lhs : Expr} (hlhs : c₀.Moves (extents lhs) c) :
    Meets (innerStep deep min lhs) c (StepKeeps (fun e c' => c₀.Moves (extents e) c')
      fun e c' => c₀.Moves (extents e) c') := by
  refine .ifAt (fun _ => ?_) fun _ => .peek ?_
  · split
    · exact .pure hlhs
    · refine .advance (.bind (moves_clock _) fun clock c' hclock => .pure ?_)
      exact (hlhs.pass.trans hclock.covers).joined (List.forall_mem_nil _)
  · split
    · split
      · exact .pure hlhs
      · exact .advance (.bind (hdeep.inner _ _) fun rhs c' hrhs => .pure (moves_binary hlhs hrhs))
    · exact .pure hlhs

theorem moves_inner (min : Nat) (c : Cursor) :
    Meets (inner deep min) c fun e c' => c.Moves (extents e) c' :=
  .bind (moves_prefixed hdeep c) fun _ _ hfirst =>
    .iterate (I := fun e c' => c.Moves (extents e) c') hfirst
      (fun _ _ he => moves_innerStep hdeep he) fun _ _ h => h

theorem moves_comparison (c : Cursor) :
    Meets (comparison deep) c fun e c' => c.Moves (extents e) c' := by
  refine .bind (moves_inner hdeep 0 c) fun lhs c₁ hlhs => .peek ?_
  split
  · refine .advance (.bind (moves_inner hdeep 0 _) fun rhs c₂ hrhs => .peek ?_)
    split
    · exact .fail
    · exact .pure (moves_binary hlhs hrhs)
  · exact .pure hlhs

/-- An operator of the top tier with its right operand after a left operand. -/
theorem moves_topStep {min : Nat} {c₀ c : Cursor} {lhs : Expr} (hlhs : c₀.Moves (extents lhs) c) :
    Meets (topStep deep min lhs) c (StepKeeps (fun e c' => c₀.Moves (extents e) c')
      fun e c' => c₀.Moves (extents e) c') := by
  refine .peek ?_
  split
  · split
    · exact .pure hlhs
    · exact .advance (.bind (hdeep.top _ _) fun rhs c' hrhs => .pure (moves_binary hlhs hrhs))
  · exact .pure hlhs

theorem moves_top (min : Nat) (c : Cursor) :
    Meets (top deep min) c fun e c' => c.Moves (extents e) c' :=
  .bind (moves_comparison hdeep c) fun _ _ hfirst =>
    .iterate (I := fun e c' => c.Moves (extents e) c') hfirst
      (fun _ _ he => moves_topStep hdeep he) fun _ _ h => h

/-! ## Types -/

omit hdeep in
theorem moves_simpleType (c : Cursor) :
    Meets simpleType c fun type c' => c.Moves (extents type) c' := by
  refine .here_eq (.peek ?_)
  split
  · rename_i h
    exact .advance (.spanFrom_eq (.pure (Moves.token h).part))
  · rename_i h
    exact .advance (.spanFrom_eq (.pure (Moves.token h).part))
  · rename_i h
    exact .advance (.spanFrom_eq (.pure (Moves.token h).part))
  · exact .bind (moves_reference c) fun ref c' href => .spanFrom_eq (.pure href.part)
  · exact .missing

theorem moves_typeExpr (c : Cursor) :
    Meets (typeExpr deep) c fun type c' => c.Moves (extents type) c' := by
  refine .bind (moves_simpleType c) fun first c₁ hfirst => ?_
  refine .iterate (I := fun type c' => c.Moves (extents type) c') hfirst (fun type c' htype => ?_)
    fun _ _ h => h
  refine .ifEat (fun _ => ?_) fun _ => .pure htype
  refine .bind (moves_inner hdeep _ _) fun length c₂ hlength => .pure ?_
  exact (htype.pass.trans hlength.covers).joined (List.forall_mem_nil _)

/-! ## Static arguments -/

theorem moves_nodeUse (c : Cursor) :
    Meets (nodeUse deep) c fun target c' => c.Moves (extents target) c' := by
  refine .here_eq (.bind (moves_reference c) fun node c₁ hnode => ?_)
  refine .bind (covers_optionalAt c₁ (hdeep.args c₁)) fun args c' hargs => .spanFrom_eq (.pure ?_)
  exact (hnode.trans hargs).part

theorem moves_typeArg {explicit : Bool} {c₀ c : Cursor} (h : c₀.Covers [] c) :
    Meets (typeArg deep c₀.span.start explicit) c fun arg c' => c₀.Moves (extents arg) c' :=
  .bind (moves_typeExpr hdeep c) fun _ _ htype => .spanFrom_eq (.pure (h.moves htype).part)

theorem moves_constArg {explicit : Bool} {c₀ c : Cursor} (h : c₀.Covers [] c) :
    Meets (constArg deep c₀.span.start explicit) c fun arg c' => c₀.Moves (extents arg) c' :=
  .bind (moves_expr hdeep c) fun _ _ hvalue => .spanFrom_eq (.pure (h.moves hvalue).part)

theorem moves_nodeArg {kind : NodeKind} {c₀ c : Cursor} (h : c₀.Covers [] c) :
    Meets (nodeArg deep c₀.span.start kind) c fun arg c' => c₀.Moves (extents arg) c' := by
  refine .bind (moves_nodeUse hdeep c) fun target c' htarget => .spanFrom_eq (.pure ?_)
  have hall := (h.moves htarget).part
  rwa [NodeUse.extents_eq] at hall

theorem moves_nameLedConst {close : Kind} (c : Cursor) :
    Meets (nameLedConst deep close c.span.start) c fun arg c' => c.Moves (extents arg) c' := by
  refine .bind (moves_expr hdeep c) fun value c' hvalue => ?_
  split
  · refine .get ?_
    split
    · exact .throw
    · exact .spanFrom_eq (.pure hvalue.part)
  · exact .spanFrom_eq (.pure hvalue.part)

theorem moves_nameLedArg {close : Kind} (c : Cursor) :
    Meets (nameLedArg deep close c.span.start) c fun arg c' => c.Moves (extents arg) c' := by
  refine .get ?_
  dsimp only
  split
  · exact .bind (moves_reference c) fun ref c' href => .spanFrom_eq (.pure href.part)
  · split
    · refine .bind (moves_nodeUse hdeep c) fun target c' htarget => ?_
      refine .ifAt (fun _ => .set (moves_nameLedConst hdeep c)) fun _ => .spanFrom_eq (.pure ?_)
      rw [NodeUse.extents_eq] at htarget
      exact htarget.part
    · exact moves_nameLedConst hdeep c

theorem moves_staticArg {close : Kind} (c : Cursor) :
    Meets (staticArg deep close) c fun arg c' => c.Moves (extents arg) c' := by
  have hbuiltin : Meets (if c.endsArg 1 close = true ∨ c.peekAt 1 = some .caret
      then typeArg deep c.span.start false else constArg deep c.span.start false) c
      fun arg c' => c.Moves (extents arg) c' := by
    split
    · exact moves_typeArg hdeep (.refl c)
    · exact moves_constArg hdeep (.refl c)
  refine .get ?_
  dsimp only
  split
  · rename_i op hop
    obtain ⟨kind, hkind, -⟩ := Option.bind_eq_some_iff.mp (Option.filter_eq_some_iff.mp hop).1
    exact .advance (.spanFrom_eq (.pure (Moves.token hkind).part))
  · split
    · rename_i h
      exact .advance (moves_typeArg hdeep (Moves.token h).covers)
    · rename_i h
      exact .advance (moves_constArg hdeep (Moves.token h).covers)
    · rename_i h
      exact .advance (moves_nodeArg hdeep (Moves.token h).covers)
    · rename_i h
      exact .advance (moves_nodeArg hdeep (Moves.token h).covers)
    · exact hbuiltin
    · exact hbuiltin
    · exact hbuiltin
    · exact moves_nameLedArg hdeep c
    · exact moves_constArg hdeep (.refl c)

theorem moves_staticArgs (c : Cursor) :
    Meets (staticArgs deep) c fun args c' => c.Moves (extents args) c' := by
  refine .expect fun hopen _ => .bind (covers_separated (moves_staticArg hdeep) _)
    fun args c' hargs => ?_
  exact .expect fun _ _ => .pure (Moves.behind hopen hargs).pass

/-! ## Variables and profiles -/

theorem moves_typedNames (c : Cursor) :
    Meets (typedNames deep) c fun group c' => c.Moves (extents group) c' := by
  refine .bind (moves_identList c) fun names c₁ hnames => .expect fun _ _ => ?_
  exact .bind (moves_typeExpr hdeep _) fun type c₂ htype => .pure (hnames.pass.trans htype.covers)

theorem moves_varGroups (c : Cursor) :
    Meets (varGroups deep) c fun groups c' => c.Moves (extents groups) c' := by
  refine .bind (moves_typedNames hdeep c) fun first c₁ hfirst => ?_
  refine .iterate (I := fun groups c' => c.Moves (extents groups) c') hfirst.single
    (fun groups c' hgroups => ?_) fun _ _ h => h
  refine .ifEat (fun _ => ?_) fun _ => .pure hgroups
  refine .ifAt (fun _ => .pure hgroups.pass) fun _ => ?_
  exact .bind (moves_typedNames hdeep _) fun group c₂ hlast =>
    .pure (.snoc hgroups.pass.covers hlast)

theorem moves_varDecl (c : Cursor) :
    Meets (varDecl deep) c fun decl c' => c.Moves (extents decl) c' := by
  refine moves_located c (.ifEat (fun hopen => ?_) fun _ => ?_)
  · refine .bind (moves_varGroups hdeep _) fun groups c₁ hgroups => .expect fun _ _ => ?_
    refine .expect fun _ _ => .bind (moves_clock _) fun clock c₂ hclock => .pure ?_
    exact .behind hopen (hgroups.pass.pass.trans hclock.covers).covers
  · refine .bind (moves_typedNames hdeep c) fun group c₁ hgroup => ?_
    refine .bind (covers_optionalAfter c₁ moves_clock) fun clock c₂ hclock => .pure ?_
    exact hgroup.single.trans hclock

theorem moves_params (c : Cursor) :
    Meets (params deep) c fun params c' => c.Moves (extents params) c' := by
  refine .expect fun hopen _ => .bind (covers_separated (moves_varDecl hdeep) _)
    fun params c' hparams => ?_
  exact .expect fun _ _ => .pure (Moves.behind hopen hparams).pass

theorem moves_profile (c : Cursor) :
    Meets (profile deep) c fun profile c' => c.Moves (extents profile) c' := by
  refine .bind (moves_params hdeep c) fun inputs c₁ hinputs => .expect fun _ _ => ?_
  exact .bind (moves_params hdeep _) fun outputs c₂ houtputs =>
    .pure (hinputs.pass.trans houtputs.covers)

omit hdeep in
theorem moves_nodeKind (c : Cursor) : Meets nodeKind c fun _ c' => c.Moves [] c' :=
  .ifEat (fun hnode => .pure (.token hnode)) fun _ =>
    .ifEat (fun hfunction => .pure (.token hfunction)) fun _ => .unexpected

omit hdeep in
theorem moves_nodeHead (c : Cursor) :
    Meets nodeHead c fun head c' => c.Moves (extents head) c' := by
  refine .bind (covers_eat .kwUnsafe c) fun isUnsafe c₁ hmark => ?_
  refine .bind (moves_nodeKind c₁) fun kind c₂ hkind => ?_
  exact .bind (moves_ident c₂) fun name c₃ hname => .pure (hmark.moves (hkind.trans hname.covers))

/-! ## Static parameters -/

theorem moves_staticParam (c : Cursor) :
    Meets (staticParam deep) c fun param c' => c.Moves (extents param) c' := by
  have hnode : Meets (do
      let head ← nodeHead
      return StaticParam.node head (← profile deep)) c fun param c' =>
        c.Moves (extents param) c' := by
    refine .bind (moves_nodeHead c) fun head c₁ hhead => ?_
    exact .bind (moves_profile hdeep _) fun profile c₂ hprofile =>
      .pure (hhead.trans hprofile.covers)
  refine moves_located c (.peek ?_)
  split
  · rename_i htype
    exact .advance (.bind (moves_ident _) fun name c₁ hname => .pure (.behind htype hname.covers))
  · rename_i hconst
    refine .advance (.bind (moves_ident _) fun name c₁ hname => .expect fun _ _ => ?_)
    refine .bind (moves_typeExpr hdeep _) fun type c₂ htype => .pure ?_
    exact .behind hconst (hname.pass.trans htype.covers).covers
  · exact hnode
  · exact hnode
  · exact hnode
  · exact .unexpected

theorem moves_staticParams (c : Cursor) :
    Meets (staticParams deep) c fun params c' => c.Moves (extents params) c' := by
  refine .expect fun hopen _ =>
    .bind (covers_separated (moves_staticParam hdeep) _) fun params c' hparams => ?_
  exact .expect fun _ _ => .pure (Moves.behind hopen hparams).pass

/-! ## Types and constants -/

theorem moves_fieldDecl (c : Cursor) :
    Meets (fieldDecl deep) c fun decl c' => c.Moves (extents decl) c' := by
  refine moves_located c (.bind (moves_identList c) fun names c₁ hnames => .expect fun _ _ => ?_)
  refine .bind (moves_typeExpr hdeep _) fun type c₂ htype => ?_
  have hdecl := hnames.pass.trans htype.covers
  refine .ifAt (fun _ => ?_) fun _ => .pure (hdecl.trans (.refl c₂))
  split
  · exact .fail
  · exact .advance (.bind (moves_expr hdeep _) fun value c₃ hvalue =>
      .pure (hdecl.pass.trans hvalue.covers))

theorem moves_fieldDecls (c : Cursor) :
    Meets (fieldDecls deep) c fun fields c' => c.Moves (extents fields) c' := by
  refine .expect fun hopen _ =>
    .bind (covers_separated (moves_fieldDecl hdeep) _) fun fields c' hfields => ?_
  exact .expect fun _ _ => .pure (Moves.behind hopen hfields).pass

theorem moves_typeBody (c : Cursor) :
    Meets (typeBody deep) c fun body c' => c.Moves (extents body) c' := by
  refine moves_located c (.peek ?_)
  split
  · rename_i henum
    refine .advance (.expect fun _ _ => .bind (moves_identList _) fun names c₁ hnames => ?_)
    exact .expect fun _ _ => .pure ((Moves.token henum).pass.trans hnames.covers).pass
  · rename_i hstruct
    exact .advance (.bind (moves_fieldDecls hdeep _) fun fields c₁ hfields =>
      .pure (.behind hstruct hfields.covers))
  · exact .bind (moves_fieldDecls hdeep _) fun fields c₁ hfields => .pure hfields
  · exact .bind (moves_typeExpr hdeep _) fun type c₁ htype => .pure htype

theorem moves_typeDef (c : Cursor) :
    Meets (typeDef deep) c fun entry c' => c.Moves (extents entry) c' := by
  refine moves_located c (.bind (moves_ident c) fun name c₁ hname => ?_)
  exact .bind (covers_optionalAfter c₁ (moves_typeBody hdeep)) fun body c₂ hbody =>
    .pure (hname.trans hbody)

theorem moves_typeEntry (c : Cursor) :
    Meets (typeEntry deep) c fun entry c' => c.Moves (extents entry) c' :=
  .bind (moves_typeDef hdeep c) fun _ _ hentry => .expect fun _ _ => .pure hentry.pass

theorem moves_constDef (c : Cursor) :
    Meets (constDef deep) c fun entry c' => c.Moves (extents entry) c' := by
  refine .bind (moves_ident c) fun name c₁ hname => .peek ?_
  split
  · refine .bind (P := fun names c' => c.Moves (extents names) c') ?_
      fun names c₂ hnames => .expect fun _ _ => ?_
    · refine .iterate (I := fun names c' => c.Moves (extents names) c') hname.single
        (fun names c' hnames => ?_) fun _ _ h => h
      refine .ifEat (fun _ => ?_) fun _ => .pure hnames
      exact .bind (moves_ident _) fun next c₂ hnext => .pure (.snoc hnames.pass.covers hnext)
    · exact .bind (moves_typeExpr hdeep _) fun type c₃ htype =>
        .pure (hnames.pass.trans htype.covers)
  · refine .advance (.bind (moves_typeExpr hdeep _) fun type c₂ htype => ?_)
    refine .ifEat (fun _ => ?_) fun _ => .pure (hname.single.pass.trans htype.covers)
    exact .bind (moves_expr hdeep _) fun value c₃ hvalue =>
      .pure ((hname.pass.trans htype.covers).pass.trans hvalue.covers)
  · exact .advance (.bind (moves_expr hdeep _) fun value c₂ hvalue =>
      .pure (hname.pass.trans hvalue.covers))
  · exact .unexpected

theorem moves_constEntry (c : Cursor) :
    Meets (constEntry deep) c fun entry c' => c.Moves (extents entry) c' :=
  .bind (moves_located c (moves_constDef hdeep c)) fun _ _ hentry =>
    .expect fun _ _ => .pure hentry.pass

/-! ## What packages show and take -/

theorem moves_provide (c : Cursor) :
    Meets (provide deep) c fun shown c' => c.Moves (extents shown) c' := by
  have hnode : Meets (do
      let head ← nodeHead
      let params ← optionalAt .ltLt (staticParams deep)
      return Provide.node head params (← profile deep)) c
      fun shown c' => c.Moves (extents shown) c' := by
    refine .bind (moves_nodeHead c) fun head c₁ hhead => ?_
    refine .bind (covers_optionalAt c₁ (moves_staticParams hdeep c₁)) fun params c₂ hparams => ?_
    refine .bind (moves_profile hdeep _) fun profile c₃ hprofile => .pure ?_
    exact (hhead.trans hparams).trans hprofile.covers
  refine moves_located c (.peek ?_)
  split
  · rename_i hconst
    refine .advance (.bind (moves_ident _) fun name c₁ hname => .expect fun _ _ => ?_)
    refine .bind (moves_typeExpr hdeep _) fun type c₂ htype => ?_
    refine .bind (covers_optionalAfter c₂ (moves_expr hdeep)) fun value c₃ hvalue => .pure ?_
    exact .behind hconst ((hname.pass.trans htype.covers).trans hvalue).covers
  · rename_i htype
    refine .advance (.bind (moves_typeDef hdeep _) fun entry c₁ hentry => .pure ?_)
    exact (Moves.behind htype hentry.covers).inside
  · exact hnode
  · exact hnode
  · exact hnode
  · exact .unexpected

omit hdeep in
theorem covers_uses (c : Cursor) : Meets uses c fun names c' => c.Covers (extents names) c' := by
  refine .ifEat (fun huses => ?_) fun _ => .pure (.refl c)
  exact .bind (moves_identList _) fun names c₁ hnames => .expect fun _ _ =>
    .pure (Moves.behind huses hnames.covers).pass.covers

theorem covers_provides (c : Cursor) :
    Meets (provides deep) c fun shown c' => c.Covers (extents shown) c' :=
  covers_optionalAfter c (moves_terminated (moves_provide hdeep))

omit hdeep in
/-- The keyword of an explicit argument, its name and the argument. -/
theorem moves_keywordArg {kind : Kind} {arg : Nat → Read StaticArg} {c : Cursor}
    (hpeek : c.peek = some kind)
    (harg : ∀ c, Meets (arg c.span.start) c fun arg c' => c.Moves (extents arg) c') :
    Meets (keywordArg arg) c fun named c' => c.Moves (extents named) c' := by
  refine .advance (.bind (moves_ident _) fun name c₁ hname => .expect fun _ _ => .here_eq ?_)
  refine .bind (harg _) fun arg c₂ harg => .pure ?_
  exact .behind hpeek (hname.pass.trans harg.covers).covers

theorem moves_namedArg {close : Kind} (c : Cursor) :
    Meets (namedArg deep close) c fun named c' => c.Moves (extents named) c' := by
  have hposition : Meets (do return (NamedArg.mk none (← staticArg deep close))) c
      fun named c' => c.Moves (extents named) c' :=
    .bind (moves_staticArg hdeep c) fun arg c' harg => .pure harg
  refine moves_located c (.get ?_)
  split
  · split
    · refine .bind (moves_ident c) fun name c₁ hname => .expect fun _ _ => ?_
      exact .bind (moves_staticArg hdeep _) fun arg c₂ harg => .pure (hname.pass.trans harg.covers)
    · exact hposition
  · rename_i htype
    split
    · exact moves_keywordArg htype fun c => moves_typeArg hdeep (.refl c)
    · exact hposition
  · rename_i hconst
    split
    · exact moves_keywordArg hconst fun c => moves_constArg hdeep (.refl c)
    · exact hposition
  · rename_i hnode
    split
    · exact moves_keywordArg hnode fun c => moves_nodeArg hdeep (.refl c)
    · exact hposition
  · rename_i hfunction
    split
    · exact moves_keywordArg hfunction fun c => moves_nodeArg hdeep (.refl c)
    · exact hposition
  · exact hposition

theorem moves_modelArgs (c : Cursor) :
    Meets (modelArgs deep) c fun read c' => c.Moves (extents read.2) c' := by
  refine .ifEat (fun hopen => ?_) fun _ => .ifEat (fun hopen => ?_) fun _ => .unexpected
  · exact .bind (covers_separated (moves_namedArg hdeep) _) fun args c' hargs =>
      .expect fun _ _ => .pure (Moves.behind hopen hargs).pass
  · exact .bind (covers_separated (moves_namedArg hdeep) _) fun args c' hargs =>
      .expect fun _ _ => .pure (Moves.behind hopen hargs).pass

/-! ## Equations -/

theorem moves_leftExpr (c : Cursor) :
    Meets (leftExpr deep) c fun left c' => c.Moves (extents left) c' := by
  refine .bind (moves_ident c) fun name c₁ hname => ?_
  refine .iterate (I := fun left c' => c.Moves (extents left) c')
    (hname.named fun _ => Pragma.isAside_of_mem_extents) (fun left c' hleft => ?_) fun _ _ h => h
  refine .ifEat (fun _ => ?_) fun _ => .ifEat (fun _ => ?_) fun _ => .pure hleft
  · refine .bind (moves_ident _) fun field c₂ hfield => .pure ?_
    exact (hleft.pass.trans hfield.covers).joined fun _ => Pragma.isAside_of_mem_extents
  · refine .bind (moves_indexing hdeep _) fun build c₂ hbuild => .expect_eq fun hclose => .pure ?_
    rcases hbuild with ⟨place, rfl, hplace⟩ | ⟨first, last, step, rfl, hrange⟩
    · exact (hleft.pass.trans hplace.covers).closed hclose
    · exact (hleft.pass.trans hrange.covers).closed hclose

theorem moves_leftList (c : Cursor) :
    Meets (leftList deep) c fun lhs c' => c.Moves (extents lhs) c' := by
  have hlist := moves_commaList (moves_leftExpr hdeep)
  refine .ifEat (fun hopen => ?_) fun _ => ?_
  · have hitems : ∀ items c₁, c.pass.Covers (extents items) c₁ → Meets (do
        let _ ← expect .rParen
        return (⟨items, true⟩ : LeftList)) c₁ fun lhs c' => c.Moves (extents lhs) c' :=
      fun items c₁ hitems => .expect fun _ _ => .pure (Moves.behind hopen hitems).pass
    refine .ifAt (fun _ => hitems [] _ (.refl _)) fun _ => ?_
    exact .bind (hlist _) fun items c₁ h => hitems items c₁ h.covers
  · exact .bind (hlist c) fun items c₁ hitems => .pure hitems

theorem moves_statement (c : Cursor) :
    Meets (statement deep) c fun equation c' => c.Moves (extents equation) c' := by
  refine .ifEat (fun hassert => ?_) fun _ => ?_
  · exact .bind (moves_expr hdeep _) fun condition c₁ hcondition =>
      .pure (.behind hassert hcondition.covers)
  · refine .bind (moves_leftList hdeep c) fun lhs c₁ hlhs => .expect fun _ _ => ?_
    exact .bind (moves_expr hdeep _) fun rhs c₂ hrhs => .pure (hlhs.pass.trans hrhs.covers)

theorem moves_equation (c : Cursor) :
    Meets (equation deep) c fun equation c' => c.Moves (extents equation) c' :=
  .bind (moves_located c (moves_statement hdeep c)) fun _ _ hequation =>
    .expect fun _ _ => .pure hequation.pass

end Read

/-- Answers lie on the tokens passed, however many levels are allowed. -/
theorem Nested.spanned_upTo (levels : Nat) : (upTo levels).Spanned := by
  induction levels with
  | zero => exact ⟨fun _ _ => .fail, fun _ _ => .fail, fun _ => .fail⟩
  | succ levels ih =>
      exact ⟨fun least c => Read.moves_top ih least c, fun least c => Read.moves_inner ih least c,
        fun c => Read.moves_staticArgs ih c⟩

end Lustre
