import Lustre.Proofs.Parser.Readers

/-!
# Parsers of declarations and programs mirror their readers

What a parser does depends on the scope that it finds in its state, so it mirrors the reader that
is told this scope.
-/

namespace Lustre

namespace Parser

open Recover (Advancing)

variable {depth : Nat} {scope : Scope}

/-! ## Recovery -/

instance mirrors_reportAny (failure : Option Diagnostic) :
    Mirrors depth scope (reportAny failure) (Recover.reportAny failure) := by
  cases failure <;> unfold reportAny Recover.reportAny <;> infer_instance

instance mirrors_locatedRun {α : Type} (m : Parser α) (read : Recover α)
    [Mirrors depth scope m read] : Mirrors depth scope (located m) (Recover.located read) := by
  unfold located Recover.located
  infer_instance

instance mirrors_leave (start : Nat) : Mirrors depth scope (leave start) (Recover.leave start) := by
  unfold leave Recover.leave
  infer_instance

instance mirrors_skipDeclaration (start : Nat) :
    Mirrors depth scope (skipDeclaration start) (Recover.skipDeclaration scope start) := by
  unfold skipDeclaration Recover.skipDeclaration
  infer_instance

instance mirrors_endMark : Mirrors depth scope endMark Recover.endMark := by
  unfold endMark Recover.endMark
  infer_instance

instance mirrors_endNode : Mirrors depth scope endNode Recover.endNode := by
  unfold endNode Recover.endNode
  infer_instance

instance mirrors_skipNode : Mirrors depth scope skipNode (Recover.skipNode scope) := by
  unfold skipNode Recover.skipNode
  infer_instance

instance mirrors_skipHeader : Mirrors depth scope skipHeader (Recover.skipHeader scope) := by
  unfold skipHeader Recover.skipHeader
  infer_instance

instance mirrors_skipStatement (start : Nat) :
    Mirrors depth scope (skipStatement start) (Recover.skipStatement scope start) := by
  unfold skipStatement Recover.skipStatement
  infer_instance

instance mirrors_skipEntry (start : Nat) :
    Mirrors depth scope (skipEntry start) (Recover.skipEntry scope start) := by
  unfold skipEntry Recover.skipEntry
  infer_instance

/-! ## Blocks -/

/-- Whether a block goes on. -/
theorem mirrors_blockEnd {α : Type} (follows : List Kind) (entries : List α) :
    Mirrors depth scope
      (do
        let c ← cursor
        if (← halted) || !(c.isAt .ident && (c.peekAt 1).any follows.contains) then
          return .done entries
        else return .yield entries : Parser (ForInStep (List α)))
      (do
        let c := (← MonadState.get).cursor
        if (← Recover.halted) || !(c.isAt .ident && (c.peekAt 1).any follows.contains) then
          return .done entries
        else return .yield entries : Recover (ForInStep (List α))) :=
  .lookRun fun _ => inferInstance

instance mirrors_blockStep {α : Type} (follows : List Kind) (m : Parser α) (read : Read α)
    [Mirrors depth scope m read] (entries : List α) :
    Mirrors depth scope (blockStep follows m entries)
      (Recover.blockStep scope follows read entries) := by
  refine .after fun start => .after fun result => ?_
  cases result with
  | ok one => exact .after fun _ => mirrors_blockEnd follows _
  | error e =>
      refine .after fun left => .choose ?_ (.after fun _ => .after fun _ => ?_)
      · exact .after fun _ => mirrors_blockEnd follows _
      · exact .after fun _ => mirrors_blockEnd follows _

section

variable {calls : Calls} {deep : Nested} [hdeep : deep.Advances]
  [hcalls : Calls.Mirror depth calls deep]

instance mirrors_typeBlock :
    Mirrors depth scope (typeBlock calls) (Recover.typeBlock deep scope) :=
  .loopRun (Recover.advancing_blockStep Recover.meets_typeEntry_shorter) []

instance mirrors_constBlock :
    Mirrors depth scope (constBlock calls) (Recover.constBlock deep scope) :=
  .loopRun (Recover.advancing_blockStep Recover.meets_constEntry_shorter) []

/-! ## Equations -/

instance mirrors_equationStep (done : List (Located Equation)) :
    Mirrors depth scope (equationStep calls done) (Recover.equationStep deep scope done) := by
  -- a halted run ends the loop before the `tel` is looked for, on both sides
  refine .lookRun fun run => .after fun stopped => .choose inferInstance (.after fun found => ?_)
  refine .choose inferInstance (.choose inferInstance (.after fun result => ?_))
  cases result <;> infer_instance

instance mirrors_equations :
    Mirrors depth scope (equations calls) (Recover.equations deep scope) :=
  .loopRun Recover.advancing_equationStep _

/-! ## Nodes -/

instance mirrors_localBlock :
    Mirrors depth scope (localBlock calls) (Recover.localBlock deep scope) := by
  unfold localBlock Recover.localBlock
  infer_instance

instance mirrors_localStep (blocks : List (Located LocalBlock)) :
    Mirrors depth scope (localStep calls blocks) (Recover.localStep deep scope blocks) := by
  refine .after fun next => ?_
  -- both sides look at the same token, so only the cases on the diagonal are left
  repeat' split
  all_goals first | contradiction | infer_instance

instance mirrors_localBlocks :
    Mirrors depth scope (localBlocks calls) (Recover.localBlocks deep scope) :=
  .loopRun Recover.advancing_localStep _

instance mirrors_synonymTarget :
    Mirrors depth scope (synonymTarget calls) (Recover.synonymTarget deep) := by
  refine .after fun target => ?_
  cases target <;> infer_instance

instance mirrors_nodeHeader (head : NodeHead) :
    Mirrors depth scope (nodeHeader calls head) (Recover.nodeHeader deep head) := by
  refine .after fun params => ?_
  cases params with
  | error e => infer_instance
  | ok params =>
      refine .after fun profile => ?_
      cases profile with
      | error e => infer_instance
      | ok profile =>
          refine .after fun body => ?_
          cases body <;> infer_instance

instance mirrors_nodeDefinition (decl : NodeDecl) :
    Mirrors depth scope (nodeDefinition calls decl) (Recover.nodeDefinition deep scope decl) := by
  refine .after fun locals => ?_
  cases locals <;> infer_instance

instance mirrors_nodeTail (decl : NodeDecl) :
    Mirrors depth scope (nodeTail calls decl) (Recover.nodeTail deep scope decl) := by
  refine .lookRun fun run => ?_
  dsimp only
  cases decl.body <;> cases decl.profile <;> infer_instance

instance mirrors_closeNode (read : Partial NodeDecl) :
    Mirrors depth scope (closeNode read) (Recover.closeNode scope read) := by
  obtain ⟨decl, failure⟩ := read
  cases failure <;> unfold closeNode Recover.closeNode <;> infer_instance

instance mirrors_openNode (read : Partial NodeDecl) :
    Mirrors depth scope (openNode calls read) (Recover.openNode deep scope read) := by
  obtain ⟨decl, failure⟩ := read
  cases failure <;> unfold openNode Recover.openNode <;> infer_instance

instance mirrors_node : Mirrors depth scope (node calls) (Recover.node deep scope) := by
  unfold node Recover.node
  infer_instance

instance mirrors_externalNode :
    Mirrors depth scope (externalNode calls) (Recover.externalNode deep) := by
  unfold externalNode Recover.externalNode
  infer_instance

/-! ## Declarations -/

instance mirrors_anyDeclaration :
    Mirrors depth scope (anyDeclaration calls) (Recover.anyDeclaration deep scope) := by
  refine .lookRun fun run => ?_
  dsimp only
  generalize run.cursor.peek = next
  repeat' split
  all_goals first | contradiction | infer_instance

instance mirrors_declaration :
    Mirrors depth scope (declaration calls) (Recover.declaration deep scope) := by
  unfold declaration Recover.declaration
  infer_instance

/-! ## Bodies -/

instance mirrors_bodyStep (done : List (Located Declaration)) :
    Mirrors depth scope (bodyStep calls done) (Recover.bodyStepIn deep scope done) := by
  refine .lookRun fun run => .after fun stopped => .choose inferInstance (.after fun found => ?_)
  refine .choose inferInstance ?_
  dsimp only
  cases run.cursor.peek with
  | none => infer_instance
  | some kind =>
      refine .choose inferInstance (.after fun result => ?_)
      cases result <;> infer_instance

instance mirrors_bodyDeclarations :
    Mirrors depth scope (bodyDeclarations calls) (Recover.bodyDeclarationsIn deep scope) :=
  .loopRun Recover.advancing_bodyStepIn _

/-- A body is a scope of its own. -/
instance mirrors_body : Mirrors depth scope (body calls) (Recover.body deep) := by
  unfold body Recover.body
  rw [Recover.bodyDeclarations_eq_bodyDeclarationsIn]
  refine .after fun result => ?_
  cases result with
  | error e => infer_instance
  | ok span => exact @Mirrors.within _ _ _ .body _ _ mirrors_bodyDeclarations

/-! ## Packages -/

instance mirrors_instanceWord : Mirrors depth scope instanceWord Recover.instanceWord := by
  unfold instanceWord Recover.instanceWord
  infer_instance

omit hdeep hcalls in
/-- Where `end` is a stop anyway, the scope does not matter. -/
theorem synchronize_end (scope : Scope) :
    Recover.synchronize .file [.kwEnd] = Recover.synchronize scope [.kwEnd] := by
  cases scope with
  | file => rfl
  | body =>
      -- in a body, `end` is added to stops that hold it already
      have hstop : (fun kind : Kind =>
            [Kind.kwEnd].contains kind || (Scope.file == .body && kind == .kwEnd)) =
          fun kind => [Kind.kwEnd].contains kind || (Scope.body == .body && kind == .kwEnd) := by
        funext kind
        rw [List.contains_cons]
        cases kind == Kind.kwEnd
        · simp only [Bool.and_false]
        · rfl
      unfold Recover.synchronize
      rw [hstop]

instance mirrors_instantiation (name : Ident) (word : InstanceWord) :
    Mirrors depth scope (instantiation calls name word) (Recover.instantiation deep name word) := by
  refine .after fun model => .after fun given => .after fun _ => .lookRun fun run => ?_
  rw [synchronize_end scope]
  infer_instance

instance mirrors_package : Mirrors depth scope (package calls) (Recover.package deep) := by
  refine .after fun _ => .after fun name => .after fun word => ?_
  cases word <;> infer_instance

/-! ## Models -/

instance mirrors_needsStep (done : List (Located StaticParam)) :
    Mirrors depth scope (needsStep calls done) (Recover.needsStep deep done) := by
  refine .after fun result => ?_
  cases result with
  | error e => infer_instance
  | ok param =>
      refine .after fun result => ?_
      cases result <;> infer_instance

instance mirrors_needs : Mirrors depth scope (needs calls) (Recover.needs deep) :=
  .loopRun Recover.advancing_needsStep _

instance mirrors_requiredNeeds (name : Ident) :
    Mirrors depth scope (requiredNeeds calls name) (Recover.requiredNeeds deep name) := by
  unfold requiredNeeds Recover.requiredNeeds
  infer_instance

instance mirrors_modelContents (name : Ident) (uses : List Ident)
    (read : Partial (List (Located StaticParam))) :
    Mirrors depth scope (modelContents calls name uses read)
      (Recover.modelContents deep name uses read) := by
  obtain ⟨needs, failure⟩ := read
  cases failure with
  | some e => exact Mirrors.instPure _
  | none =>
      refine .after fun result => ?_
      cases result <;> infer_instance

instance mirrors_modelTail (name : Ident) :
    Mirrors depth scope (modelTail calls name) (Recover.modelTail deep name) := by
  refine .after fun result => ?_
  cases result <;> infer_instance

instance mirrors_closeModel (read : Partial Model) :
    Mirrors depth scope (closeModel read) (Recover.closeModelIn scope read) := by
  obtain ⟨model, failure⟩ := read
  cases failure <;> unfold closeModel Recover.closeModelIn <;> infer_instance

instance mirrors_model : Mirrors depth scope (model calls) (Recover.modelIn deep scope) := by
  unfold model Recover.modelIn
  infer_instance

/-! ## Programs -/

instance mirrors_includeDirective :
    Mirrors depth scope includeDirective Recover.includeDirective := by
  refine @mirrors_located _ _ _ _ _ (.after fun _ => .after fun file => ?_)
  cases file <;> infer_instance

instance mirrors_includeStep (done : List (Located String)) :
    Mirrors depth scope (includeStep done) (Recover.includeStepIn scope done) := by
  refine .lookRun fun run => .after fun stopped => .choose inferInstance (.after fun result => ?_)
  cases result <;> infer_instance

instance mirrors_includes : Mirrors depth scope includes (Recover.includesIn scope) :=
  .loopRun Recover.advancing_includeStepIn _

instance mirrors_item (c : Cursor) (kind : Kind) :
    Mirrors depth scope (item calls c kind) (Recover.itemIn deep scope c kind) := by
  unfold item Recover.itemIn
  infer_instance

instance mirrors_itemStep (done : List (Located Item)) :
    Mirrors depth scope (itemStep calls done) (Recover.itemStepIn deep scope done) := by
  refine .lookRun fun run => .after fun stopped => .choose inferInstance ?_
  cases run.cursor.peek with
  | none => infer_instance
  | some kind =>
      refine .after fun result => ?_
      cases result <;> infer_instance

instance mirrors_items : Mirrors depth scope (items calls) (Recover.itemsIn deep scope) :=
  .loopRun Recover.advancing_itemStepIn _

instance mirrors_program : Mirrors depth scope (program calls) (Recover.programIn deep scope) := by
  unfold program Recover.programIn
  infer_instance

instance mirrors_wholeExpr : Mirrors depth scope (wholeExpr calls) (Recover.wholeExpr deep) := by
  unfold wholeExpr Recover.wholeExpr
  infer_instance

instance mirrors_standaloneExpr :
    Mirrors depth scope (standaloneExpr calls) (Recover.standaloneExpr deep) := by
  refine .after fun result => ?_
  cases result <;> infer_instance

end

end Parser

end Lustre
