import Lustre.Proofs.Parser.Mirrors

/-!
# Parsers of expressions and parts of declarations mirror their readers

A reader knows how many levels are left, since that is how many there are in its `Nested`; a parser
compares its depth with the limit.  At depth `d` the two agree if `maxNesting - d` levels are left
(`Calls.mirrors_upTo`), whatever the parser would call beyond the limit.
-/

namespace Lustre

/-- What is called under `nested` at `depth` mirrors what is nested in `deep`. -/
class Calls.Mirror (depth : Nat) (calls : Calls) (deep : Nested) : Prop where
  top : ∀ scope least, Mirrors depth scope (Parser.nested (calls.top least)) (deep.top least)
  inner : ∀ scope least, Mirrors depth scope (Parser.nested (calls.inner least)) (deep.inner least)
  args : ∀ scope, Mirrors depth scope (Parser.nested calls.args) deep.args

namespace Parser

variable {depth : Nat} {scope : Scope}

/-! ## Names and clocks -/

instance mirrors_pragmas : Mirrors depth scope pragmas Read.pragmas := by
  refine @Mirrors.loopRead _ _ _ _ _ (fun read => .after fun found => ?_)
    Read.advancing_pragmaStep []
  cases found <;> infer_instance

instance mirrors_ident : Mirrors depth scope ident Read.ident := by
  refine .after fun found => ?_
  cases found <;> infer_instance

instance mirrors_identList : Mirrors depth scope identList Read.identList := by
  unfold identList Read.identList
  infer_instance

instance mirrors_reference : Mirrors depth scope reference Read.reference := by
  refine .after fun first => ?_
  cases first with
  | none => infer_instance
  | some first =>
      refine .after fun separator => ?_
      cases separator with
      | none => infer_instance
      | some separator =>
          refine .after fun member => ?_
          cases member <;> infer_instance

instance mirrors_clock : Mirrors depth scope clock Read.clock := by
  refine @mirrors_located _ _ _ _ _ (.after fun negated => ?_)
  exact .choose inferInstance (.after fun c => .choose inferInstance inferInstance)

section

variable {calls : Calls} {deep : Nested} [hdeep : deep.Advances]
  [hcalls : Calls.Mirror depth calls deep]

/-! ## Expressions -/

omit hdeep in
instance mirrors_nestedTop (least : Nat) :
    Mirrors depth scope (nested (calls.top least)) (deep.top least) :=
  hcalls.top scope least

omit hdeep in
instance mirrors_nestedInner (least : Nat) :
    Mirrors depth scope (nested (calls.inner least)) (deep.inner least) :=
  hcalls.inner scope least

omit hdeep in
instance mirrors_nestedArgs : Mirrors depth scope (nested calls.args) deep.args :=
  hcalls.args scope

omit hdeep in
instance mirrors_expr : Mirrors depth scope calls.expr deep.expr :=
  hcalls.top scope 0

instance mirrors_exprList (close : Kind) :
    Mirrors depth scope (exprList calls close) (Read.exprList deep close) := by
  unfold exprList Read.exprList
  infer_instance

omit hdeep in
instance mirrors_indexing {α : Type} (index : Expr → α) (slice : Expr → Expr → Option Expr → α) :
    Mirrors depth scope (indexing calls index slice) (Read.indexing deep index slice) := by
  unfold indexing Read.indexing
  infer_instance

instance mirrors_postfixStep (value : Expr) :
    Mirrors depth scope (postfixStep calls value) (Read.postfixStep deep value) := by
  refine .after fun next => ?_
  -- both sides look at the same token, so only the cases on the diagonal are left
  repeat' split
  all_goals first | contradiction | infer_instance

instance mirrors_postfixes (value : Expr) :
    Mirrors depth scope (postfixes calls value) (Read.postfixes deep value) :=
  .loopRead (Read.advancing_postfixStep deep) value

instance mirrors_fieldInit : Mirrors depth scope (fieldInit calls) (Read.fieldInit deep) := by
  unfold fieldInit Read.fieldInit
  infer_instance

instance mirrors_record (start : Nat) (type : Reference) :
    Mirrors depth scope (record calls start type) (Read.record deep start type) := by
  refine .after fun _ => .after fun c => ?_
  exact .choose inferInstance inferInstance

instance mirrors_nameExpr : Mirrors depth scope (nameExpr calls) (Read.nameExpr deep) := by
  refine .after fun start => .after fun name => .after fun next => ?_
  repeat' split
  all_goals first | contradiction | infer_instance

instance mirrors_pattern : Mirrors depth scope pattern Read.pattern := by
  refine .after fun next => ?_
  repeat' split
  all_goals first | contradiction | infer_instance

instance mirrors_mergeArm : Mirrors depth scope (mergeArm calls) (Read.mergeArm deep) := by
  unfold mergeArm Read.mergeArm
  infer_instance

instance mirrors_merge (start : Nat) :
    Mirrors depth scope (merge calls start) (Read.merge deep start) := by
  have harms : Mirrors depth scope
      (loop [] fun arms => do
        if ← isAt .lParen then return .yield (arms ++ [← mergeArm calls]) else return .done arms)
      (Read.iterate [] fun arms => do
        if ← Read.isAt .lParen then return .yield (arms ++ [← Read.mergeArm deep])
        else return .done arms) := by
    refine .loopRead ?_ []
    exact Read.advancing_mergeStep deep
  unfold merge Read.merge
  infer_instance

instance mirrors_conditional (start : Nat) (word : CondWord) :
    Mirrors depth scope (conditional calls start word) (Read.conditional deep start word) := by
  unfold conditional Read.conditional
  infer_instance

instance mirrors_operands (start : Nat) (op : ListOp) :
    Mirrors depth scope (operands calls start op) (Read.operands deep start op) := by
  unfold operands Read.operands
  infer_instance

instance mirrors_primary : Mirrors depth scope (primary calls) (Read.primary deep) := by
  refine .after fun start => .after fun next => ?_
  repeat' split
  all_goals first | contradiction | infer_instance

instance mirrors_prefixed : Mirrors depth scope (prefixed calls) (Read.prefixed deep) := by
  refine .after fun next => ?_
  cases next.bind UnaryOp.ofKind? <;> infer_instance

instance mirrors_innerStep (least : Nat) (lhs : Expr) :
    Mirrors depth scope (innerStep calls least lhs) (Read.innerStep deep least lhs) := by
  refine .after fun sampled => .choose inferInstance (.after fun next => ?_)
  cases next.bind (BinaryOp.inTier? .inner) <;> infer_instance

instance mirrors_inner (least : Nat) :
    Mirrors depth scope (inner calls least) (Read.inner deep least) :=
  .after fun lhs => .loopRead (Read.advancing_innerStep deep least) lhs

instance mirrors_comparison : Mirrors depth scope (comparison calls) (Read.comparison deep) := by
  refine .after fun lhs => .after fun next => ?_
  cases next.bind (BinaryOp.inTier? .comparison) with
  | none => infer_instance
  | some op =>
      refine .after fun _ => .after fun rhs => .after fun next => ?_
      cases next.bind (BinaryOp.inTier? .comparison) <;> infer_instance

instance mirrors_topStep (least : Nat) (lhs : Expr) :
    Mirrors depth scope (topStep calls least lhs) (Read.topStep deep least lhs) := by
  refine .after fun next => ?_
  cases next.bind (BinaryOp.inTier? .top) <;> infer_instance

instance mirrors_top (least : Nat) :
    Mirrors depth scope (top calls least) (Read.top deep least) :=
  .after fun lhs => .loopRead (Read.advancing_topStep deep least) lhs

/-! ## Types and static arguments -/

instance mirrors_simpleType : Mirrors depth scope simpleType Read.simpleType := by
  refine .after fun start => .after fun next => ?_
  repeat' split
  all_goals first | contradiction | infer_instance

instance mirrors_lengthStep (type : TypeExpr) :
    Mirrors depth scope (lengthStep calls type) (Read.lengthStep deep type) := by
  unfold lengthStep Read.lengthStep
  infer_instance

instance mirrors_typeExpr : Mirrors depth scope (typeExpr calls) (Read.typeExpr deep) :=
  .after fun type => .loopRead (Read.advancing_lengthStep deep) type

instance mirrors_nodeUse : Mirrors depth scope (nodeUse calls) (Read.nodeUse deep) := by
  unfold nodeUse Read.nodeUse
  infer_instance

instance mirrors_typeArg (start : Nat) (explicit : Bool) :
    Mirrors depth scope (typeArg calls start explicit) (Read.typeArg deep start explicit) := by
  unfold typeArg Read.typeArg
  infer_instance

instance mirrors_constArg (start : Nat) (explicit : Bool) :
    Mirrors depth scope (constArg calls start explicit) (Read.constArg deep start explicit) := by
  unfold constArg Read.constArg
  infer_instance

instance mirrors_nodeArg (start : Nat) (kind : NodeKind) :
    Mirrors depth scope (nodeArg calls start kind) (Read.nodeArg deep start kind) := by
  unfold nodeArg Read.nodeArg
  infer_instance

instance mirrors_nameLedConst (close : Kind) (start : Nat) :
    Mirrors depth scope (nameLedConst calls close start) (Read.nameLedConst deep close start) := by
  refine .after fun value => ?_
  cases value <;> infer_instance

/-- The state at the checkpoint is the one that was looked at. -/
instance mirrors_nameLedArg (close : Kind) (start : Nat) :
    Mirrors depth scope (nameLedArg calls close start) (Read.nameLedArg deep close start) := by
  refine Mirrors.lookRead fun s hs => ?_
  dsimp only
  split
  · exact Mirrors.ends s hs
  -- the arguments of a node are parsed, and given up again if it is called
  split
  · exact (endsAs_again s hs).of_eq (run_checkpoint _ s) rfl
  · exact (mirrors_nameLedConst close start).ends s hs

instance mirrors_staticArg (close : Kind) :
    Mirrors depth scope (staticArg calls close) (Read.staticArg deep close) := by
  refine .after fun c => ?_
  dsimp only
  -- the parser looks at a cursor made from its state, which is that of the reader
  cases (c.peek.bind PredefinedOp.ofKind?).filter fun _ => c.endsArg 1 close with
  | some op => infer_instance
  | none =>
      dsimp only
      generalize c.peek = next
      repeat' split
      all_goals first | contradiction | infer_instance

instance mirrors_staticArgs : Mirrors depth scope (staticArgs calls) (Read.staticArgs deep) := by
  unfold staticArgs Read.staticArgs
  infer_instance

/-! ## Parts of declarations -/

instance mirrors_typedNames : Mirrors depth scope (typedNames calls) (Read.typedNames deep) := by
  unfold typedNames Read.typedNames
  infer_instance

instance mirrors_varGroups : Mirrors depth scope (varGroups calls) (Read.varGroups deep) := by
  refine .after fun first => .loopRead ?_ [first]
  exact Read.advancing_groupStep deep

instance mirrors_varDecl : Mirrors depth scope (varDecl calls) (Read.varDecl deep) := by
  unfold varDecl Read.varDecl
  infer_instance

instance mirrors_params : Mirrors depth scope (params calls) (Read.params deep) := by
  unfold params Read.params
  infer_instance

instance mirrors_profile : Mirrors depth scope (profile calls) (Read.profile deep) := by
  unfold profile Read.profile
  infer_instance

instance mirrors_nodeKind : Mirrors depth scope nodeKind Read.nodeKind := by
  unfold nodeKind Read.nodeKind
  infer_instance

instance mirrors_nodeHead : Mirrors depth scope nodeHead Read.nodeHead := by
  unfold nodeHead Read.nodeHead
  infer_instance

instance mirrors_staticParam :
    Mirrors depth scope (staticParam calls) (Read.staticParam deep) := by
  refine @mirrors_located _ _ _ _ _ (.after fun next => ?_)
  repeat' split
  all_goals first | contradiction | infer_instance

instance mirrors_staticParams :
    Mirrors depth scope (staticParams calls) (Read.staticParams deep) := by
  unfold staticParams Read.staticParams
  infer_instance

instance mirrors_fieldDecl : Mirrors depth scope (fieldDecl calls) (Read.fieldDecl deep) := by
  unfold fieldDecl Read.fieldDecl
  infer_instance

instance mirrors_fieldDecls : Mirrors depth scope (fieldDecls calls) (Read.fieldDecls deep) := by
  unfold fieldDecls Read.fieldDecls
  infer_instance

instance mirrors_typeBody : Mirrors depth scope (typeBody calls) (Read.typeBody deep) := by
  refine @mirrors_located _ _ _ _ _ (.after fun next => ?_)
  repeat' split
  all_goals first | contradiction | infer_instance

instance mirrors_typeDef : Mirrors depth scope (typeDef calls) (Read.typeDef deep) := by
  unfold typeDef Read.typeDef
  infer_instance

instance mirrors_typeEntry : Mirrors depth scope (typeEntry calls) (Read.typeEntry deep) := by
  unfold typeEntry Read.typeEntry
  infer_instance

instance mirrors_constDef : Mirrors depth scope (constDef calls) (Read.constDef deep) := by
  refine .after fun name => .after fun next => ?_
  have hnames : Mirrors depth scope _ _ := mirrors_commas ident Read.ident [name]
  repeat' split
  all_goals first | contradiction | infer_instance

instance mirrors_constEntry : Mirrors depth scope (constEntry calls) (Read.constEntry deep) := by
  unfold constEntry Read.constEntry
  infer_instance

instance mirrors_provide : Mirrors depth scope (provide calls) (Read.provide deep) := by
  refine @mirrors_located _ _ _ _ _ (.after fun next => ?_)
  repeat' split
  all_goals first | contradiction | infer_instance

instance mirrors_uses : Mirrors depth scope uses Read.uses := by
  unfold uses Read.uses
  infer_instance

instance mirrors_provides : Mirrors depth scope (provides calls) (Read.provides deep) := by
  unfold provides Read.provides
  infer_instance

instance mirrors_keywordArg (arg : Nat → Parser StaticArg) (arg' : Nat → Read StaticArg)
    [∀ start, Mirrors depth scope (arg start) (arg' start)] :
    Mirrors depth scope (keywordArg arg) (Read.keywordArg arg') := by
  unfold keywordArg Read.keywordArg
  infer_instance

instance mirrors_namedArg (close : Kind) :
    Mirrors depth scope (namedArg calls close) (Read.namedArg deep close) := by
  refine @mirrors_located _ _ _ _ _ (.after fun c => ?_)
  generalize c.peek = next
  repeat' split
  all_goals first | contradiction | infer_instance

instance mirrors_modelArgs : Mirrors depth scope (modelArgs calls) (Read.modelArgs deep) := by
  unfold modelArgs Read.modelArgs
  infer_instance

instance mirrors_partStep (left : LeftExpr) :
    Mirrors depth scope (partStep calls left) (Read.partStep deep left) := by
  unfold partStep Read.partStep
  infer_instance

instance mirrors_leftExpr : Mirrors depth scope (leftExpr calls) (Read.leftExpr deep) :=
  .after fun _ => .loopRead (Read.advancing_partStep deep) _

instance mirrors_leftList : Mirrors depth scope (leftList calls) (Read.leftList deep) := by
  unfold leftList Read.leftList
  infer_instance

instance mirrors_statement : Mirrors depth scope (statement calls) (Read.statement deep) := by
  unfold statement Read.statement
  infer_instance

instance mirrors_equation : Mirrors depth scope (equation calls) (Read.equation deep) := by
  unfold equation Read.equation
  infer_instance

end

end Parser

/-! ## The limit -/

/-- Where no level is left, nothing is called. -/
theorem Calls.mirror_exhausted (calls : Calls) : Calls.Mirror maxNesting calls .exhausted where
  top _ _ := .nested_of_exhausted _
  inner _ _ := .nested_of_exhausted _
  args _ := .nested_of_exhausted _

/-- The depth of the state and the levels that are left add up to the limit.  The induction is on
the calls that may still be open; `beyond` is called by none of them. -/
theorem Calls.mirror_upTo (beyond : Calls) (n depth : Nat) (hdepth : depth ≤ maxNesting)
    (hn : maxNesting ≤ depth + n) :
    Calls.Mirror depth (Calls.upTo beyond n) (.upTo (maxNesting - depth)) := by
  induction n generalizing depth with
  | zero =>
      obtain rfl : depth = maxNesting := Nat.le_antisymm hdepth hn
      rw [Nat.sub_self]
      exact mirror_exhausted beyond
  | succ n ih =>
      rcases Nat.eq_or_lt_of_le hdepth with rfl | hlt
      · rw [Nat.sub_self]
        exact mirror_exhausted _
      · have hdeeper := ih (depth + 1) hlt (by omega)
        have hlevels : maxNesting - depth = maxNesting - (depth + 1) + 1 := by omega
        rw [hlevels]
        exact {
          top := fun _ least => @Mirrors.nested_of_lt _ _ _ _ _ hlt (Parser.mirrors_top least)
          inner := fun _ least => @Mirrors.nested_of_lt _ _ _ _ _ hlt (Parser.mirrors_inner least)
          args := fun _ => @Mirrors.nested_of_lt _ _ _ _ _ hlt Parser.mirrors_staticArgs }

end Lustre
