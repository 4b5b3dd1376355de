import Lustre.Proofs.Reader.Recovery

/-!
# Reading declarations passes their words

In a run without a report, every loop ends where a token ends it: the equations of
a node at its `tel`, its blocks at the `let`.  So nothing of a node is skipped, and
what a node was read from is what it is flattened to.
-/

namespace Lustre

open Cursor Lexeme

namespace Recover

variable {deep : Nested} [deep.Advances] {scope : Scope} {log : Log}

/-! ## Readers of declarations are regular -/

instance forward_synonymTarget : Forward (synonymTarget deep) := by
  refine .after fun target => ?_
  cases target <;> infer_instance

instance forward_externalNode : Forward (externalNode deep) := by
  unfold externalNode
  infer_instance

instance regular_endMark : Regular endMark := by
  unfold endMark
  infer_instance

instance regular_endNode : Regular endNode := by
  unfold endNode
  infer_instance

instance regular_skipDeclaration (start : Nat) : Regular (skipDeclaration scope start) := by
  unfold skipDeclaration
  infer_instance

instance regular_skipNode : Regular (skipNode scope) := by
  unfold skipNode
  infer_instance

instance regular_skipHeader : Regular (skipHeader scope) := by
  unfold skipHeader
  infer_instance

instance regular_skipStatement (start : Nat) : Regular (skipStatement scope start) := by
  unfold skipStatement
  infer_instance

instance regular_skipEntry (start : Nat) : Regular (skipEntry scope start) := by
  unfold skipEntry
  infer_instance

instance regular_equationStep (done : List (Located Equation)) :
    Regular (equationStep deep scope done) := by
  refine .look (fun run => ?_) fun _ _ _ => rfl
  refine .after fun stopped => .choose inferInstance (.after fun found => ?_)
  refine .choose inferInstance (.choose inferInstance (.after fun result => ?_))
  cases result <;> infer_instance

instance regular_equations : Regular (equations deep scope) := by
  unfold equations
  infer_instance

/-- Whether a block goes on. -/
theorem regular_blockEnd {α : Type} (follows : List Kind) (entries : List α) :
    Regular (do
      let c := (← get).cursor
      if (← halted) || !(c.isAt .ident && (c.peekAt 1).any follows.contains) then
        return .done entries
      else return .yield entries : Recover (ForInStep (List α))) :=
  .look (fun _ => inferInstance) fun _ _ _ => rfl

instance regular_blockStep {α : Type} (follows : List Kind) (entry : Read α) [Forward entry]
    (entries : List α) :
    Regular (blockStep scope follows entry entries) := by
  refine .after fun start => .after fun result => ?_
  cases result with
  | ok one => exact .after (regular_blockEnd follows)
  | error e =>
      exact .after fun left => .choose (.bind inferInstance (regular_blockEnd follows))
        (.after fun _ => .after fun _ => .after (regular_blockEnd follows))

instance regular_block {α : Type} (follows : List Kind) (entry : Read α) [Forward entry] :
    Regular (block scope follows entry) := by
  unfold block
  infer_instance

instance regular_typeBlock : Regular (typeBlock deep scope) := regular_block _ _

instance regular_constBlock : Regular (constBlock deep scope) := regular_block _ _

instance regular_localBlock : Regular (localBlock deep scope) := by
  unfold localBlock
  infer_instance

instance regular_localStep (blocks : List (Located LocalBlock)) :
    Regular (localStep deep scope blocks) := by
  refine .after fun next => ?_
  split <;> infer_instance

instance regular_localBlocks : Regular (localBlocks deep scope) := by
  unfold localBlocks
  infer_instance

instance regular_nodeHeader (head : NodeHead) : Regular (nodeHeader deep head) := by
  refine .after fun params => ?_
  cases params with
  | error e => infer_instance
  | ok params =>
      refine .after fun profile => ?_
      cases profile with
      | error e => infer_instance
      | ok profile =>
          refine .after fun body => ?_
          cases body <;> infer_instance

instance regular_nodeDefinition (decl : NodeDecl) : Regular (nodeDefinition deep scope decl) := by
  refine .after fun locals => ?_
  cases locals <;> infer_instance

instance regular_nodeTail (decl : NodeDecl) : Regular (nodeTail deep scope decl) := by
  refine .look (fun run => ?_) fun _ _ _ => rfl
  dsimp only
  split <;> infer_instance

instance regular_closeNode (read : Partial NodeDecl) : Regular (closeNode scope read) := by
  obtain ⟨decl, failure⟩ := read
  cases failure <;> unfold closeNode <;> infer_instance

instance regular_openNode (read : Partial NodeDecl) : Regular (openNode deep scope read) := by
  obtain ⟨decl, failure⟩ := read
  cases failure <;> unfold openNode <;> infer_instance

instance regular_node : Regular (node deep scope) := by
  unfold node
  infer_instance

instance regular_anyDeclaration : Regular (anyDeclaration deep scope) := by
  refine .look (fun run => ?_) fun _ _ _ => rfl
  dsimp only
  split <;> infer_instance

instance regular_declaration : Regular (declaration deep scope) := by
  unfold declaration
  infer_instance

section

variable (hdeep : deep.Faithful)
include hdeep

/-! ## Equations -/

/-- The equations of a node end at its `tel`. -/
theorem cleanly_equations (c : Cursor) :
    Cleanly (equations deep scope) ⟨c, log⟩ fun read c' => read.2 = none →
      (∃ c₁, c.Passes (read.1.flatMap fun equation => equation.value.words) c₁ ∧
        c₁.peek = some .kwTel ∧ c' = c₁.pass) ∧ ∀ equation ∈ read.1, equation.value.Shaped := by
  refine .iterate (I := fun read c' =>
    c.Passes (read.1.flatMap fun equation => equation.value.words) c' ∧
      ∀ equation ∈ read.1, equation.value.Shaped) ⟨.refl c, by simp⟩ ?_
  rintro ⟨done, _⟩ c' ⟨hpasses, hshaped⟩
  refine .get (.unlessHalted ?_)
  refine .ifEat (fun htel => .pure fun _ => ⟨⟨c', hpasses, htel, rfl⟩, hshaped⟩) fun _ => ?_
  split
  · exact .pure nofun
  · refine .caughtRead (Read.meets_equation hdeep c') (fun equation c₁ ⟨hequation, hgood⟩ => ?_)
      fun e c₁ => .report
    refine .pure ⟨⟨?_, ?_⟩, hequation.shorter ?_⟩
    · simpa using hpasses.trans hequation
    · exact List.forall_mem_append.mpr ⟨hshaped, by simpa using hgood⟩
    · cases hvalue : equation.value with
      | assertion condition => simp [Equation.words]
      | define lhs rhs => simp [Equation.words]
      | error =>
          rw [hvalue] at hgood
          exact absurd hgood id

/-! ## Blocks of types and constants -/

omit hdeep in
/-- A block has an entry, and all its entries are passed. -/
theorem cleanly_block {α : Type} {follows : List Kind} {entry : Read α} [Forward entry]
    {words : α → List Lexeme}
    {P : α → Prop} (hentry : ∀ c, Meets entry c fun a c' => c.Passes (words a) c' ∧ P a)
    (hwords : ∀ a, words a ≠ []) (c : Cursor) :
    Cleanly (block scope follows entry) ⟨c, log⟩ fun entries c' =>
      c.Passes (entries.flatMap words) c' ∧ entries ≠ [] ∧ ∀ a ∈ entries, P a := by
  refine .iterate (I := fun entries c' => c.Passes (entries.flatMap words) c' ∧
    ∀ a ∈ entries, P a) ⟨.refl c, by simp⟩ ?_
  rintro entries c' ⟨hpasses, hall⟩
  refine .get ?_
  refine .caughtRead (hentry c') (fun one c₁ ⟨hone, hgood⟩ => ?_) fun e c₁ => ?_
  · have hpasses₁ : c.Passes ((entries ++ [one]).flatMap words) c₁ := by
      simpa using hpasses.trans hone
    have hall₁ : ∀ a ∈ entries ++ [one], P a :=
      List.forall_mem_append.mpr ⟨hall, by simpa using hgood⟩
    refine .bindPure (.get (.halted ?_))
    split
    · exact .pure ⟨hpasses₁, by simp, hall₁⟩
    · exact .pure ⟨⟨hpasses₁, hall₁⟩, hone.shorter (hwords one)⟩
  · refine .get ?_
    split
    · exact .throw
    · have hnext : ∀ start, Regular (do
          skipEntry scope start
          let entries ← pure entries
          let c := (← get).cursor
          if (← halted) || !(c.isAt .ident && (c.peekAt 1).any follows.contains) then
            return .done entries
          else return .yield entries : Recover (ForInStep (List α))) := fun start =>
        .after fun _ => .after (regular_blockEnd follows)
      exact .report

theorem cleanly_typeBlock (c : Cursor) :
    Cleanly (typeBlock deep scope) ⟨c, log⟩ fun defs c' =>
      c.Passes (defs.flatMap fun entry => entry.value.words) c' ∧ defs ≠ [] ∧
        ∀ entry ∈ defs, entry.value.Shaped := by
  refine cleanly_block (Read.meets_typeEntry hdeep) (fun entry => ?_) c
  unfold TypeDef.words
  split <;> simp [Ident.words]

theorem cleanly_constBlock (c : Cursor) :
    Cleanly (constBlock deep scope) ⟨c, log⟩ fun defs c' =>
      c.Passes (defs.flatMap fun entry => entry.value.words) c' ∧ defs ≠ [] ∧
        ∀ entry ∈ defs, entry.value.Shaped := by
  refine cleanly_block (Read.meets_constEntry hdeep) (fun entry => ?_) c
  cases entry.value <;> simp [ConstDef.words, Ident.words, typingWords]

/-! ## Nodes -/

theorem cleanly_localBlock (c : Cursor) (h : c.peek = some .kwVar ∨ c.peek = some .kwConst) :
    Cleanly (localBlock deep scope) ⟨c, log⟩ fun block c' =>
      c.Passes block.words c' ∧ block.Shaped := by
  refine .ifEat (fun hvar => ?_) fun hvar => ?_
  · refine .read (Read.meets_terminated (Read.meets_varDecl hdeep) _)
      fun decls c' ⟨hdecls, hne, hall⟩ => .pure ⟨?_, hne, hall⟩
    exact (Passes.sign hvar rfl).trans hdecls
  · have hconst := h.resolve_left hvar
    refine .advance (.bind (cleanly_constBlock hdeep _) fun decls c' ⟨hdecls, hne, hall⟩ =>
      .pure ⟨?_, hne, hall⟩)
    exact (Passes.sign hconst rfl).trans hdecls

theorem cleanly_localBlocks (c : Cursor) :
    Cleanly (localBlocks deep scope) ⟨c, log⟩ fun blocks c' =>
      c.Passes (blocks.flatMap fun block => block.value.words) c' ∧
        ∀ block ∈ blocks, block.value.Shaped := by
  refine .iterate (I := fun blocks c' =>
    c.Passes (blocks.flatMap fun block => block.value.words) c' ∧
    ∀ block ∈ blocks, block.value.Shaped) ⟨.refl c, by simp⟩ ?_
  rintro blocks c' ⟨hpasses, hall⟩
  -- either word begins a block, which passes at least that word
  have hblock : c'.peek = some .kwVar ∨ c'.peek = some .kwConst →
      Cleanly (do return ForInStep.yield (blocks ++ [← located (localBlock deep scope)]))
        ⟨c', log⟩ (StepKeeps (fun blocks c₁ =>
          (c.Passes (blocks.flatMap fun block => block.value.words) c₁ ∧
            ∀ block ∈ blocks, block.value.Shaped) ∧ c₁.rest.length < c'.rest.length)
          fun blocks c₁ => c.Passes (blocks.flatMap fun block => block.value.words) c₁ ∧
            ∀ block ∈ blocks, block.value.Shaped) := by
    intro h
    refine .bind (P := fun block c₁ => c'.Passes block.value.words c₁ ∧ block.value.Shaped)
      (.located ((cleanly_localBlock hdeep c' h).mono fun _ _ h _ => h))
      fun block c₁ ⟨hone, hgood⟩ => .pure ⟨⟨?_, ?_⟩, hone.shorter ?_⟩
    · simpa using hpasses.trans hone
    · exact List.forall_mem_append.mpr ⟨hall, by simpa using hgood⟩
    · cases block.value <;> simp [LocalBlock.words]
  refine .peek ?_
  split
  · rename_i hvar
    exact hblock (.inl hvar)
  · rename_i hconst
    exact hblock (.inr hconst)
  · exact .pure ⟨hpasses, hall⟩

omit [deep.Advances] in
theorem meets_synonymTarget (c : Cursor) :
    Meets (synonymTarget deep) c fun body c' => c.Passes body.words c' ∧
      (body = .missing ∨ ∃ target, body = .synonym target ∧ argsShaped target.args) := by
  refine .bind (P := fun target c' =>
    c.Passes (target.elim [] fun use => (NodeBody.synonym use).words) c' ∧
      ∀ use, target = some use → argsShaped use.args) ?_ ?_
  · refine .optionalAfter (fun heq => ?_) fun _ => ⟨.refl c, fun use h => by cases h⟩
    refine (Read.meets_nodeUse hdeep _).mono fun target c' hread => ⟨?_, ?_⟩
    · exact .eq heq hread.1 target.beginsPlain
    · rintro use ⟨⟩
      exact hread.2.1
  · rintro target c₁ ⟨htarget, hshaped⟩
    cases target with
    | none => exact .pure ⟨htarget, .inl rfl⟩
    | some target =>
        refine .eat (fun hsemi => .pure ⟨?_, .inr ⟨target, rfl, hshaped target rfl⟩⟩) fun _ =>
          .pure ⟨htarget, .inr ⟨target, rfl, hshaped target rfl⟩⟩
        simpa using htarget.trans (Passes.separator hsemi rfl)

omit [deep.Advances] in
/-- The header of a node: no body yet, unless it is an alias. -/
theorem cleanly_nodeHeader (head : NodeHead) (c₀ c : Cursor) (hhead : c₀.Passes (head.words []) c) :
    Cleanly (nodeHeader deep head) ⟨c, log⟩ fun read c' => read.2 = none →
      c₀.Passes read.1.words c' ∧ (read.1.body = .missing ∨
          ∃ target, read.1.body = .synonym target ∧ argsShaped target.args) ∧
        StaticParam.listShaped read.1.params ∧
        ∀ profile, read.1.profile = some profile → profile.Shaped := by
  refine .caughtRead (Read.meets_optionalParams hdeep c)
    (fun params c₁ ⟨hparams, hparamsShaped⟩ => ?_)
    fun e c₁ => .pure nofun
  refine .caughtRead (Read.meets_optionalProfile hdeep c₁)
    (fun profile c₂ ⟨hprofile, hprofileShaped⟩ => ?_) fun e c₂ => .pure nofun
  refine .caughtRead (meets_synonymTarget hdeep c₂) (fun body c₃ ⟨hbody, hkind⟩ => ?_)
    fun e c₃ => .pure nofun
  refine .pure fun _ => ⟨?_, hkind, hparamsShaped, hprofileShaped⟩
  simpa [NodeDecl.words] using hhead.trans (hparams.trans (hprofile.trans hbody))

omit hdeep in
/-- Passing the `tel` of a node and the mark that may stand after it. -/
theorem cleanly_endMark {c : Cursor} (h : c.peek = some .kwTel) :
    Cleanly endMark ⟨c.pass, log⟩ fun _ c' => c.Passes [sign .kwTel] c' := by
  refine .ifEat (fun hsemi => .pure (.tel h (.inr ⟨rfl, .inl hsemi⟩))) fun _ => ?_
  refine .read (P := fun found c' => c' = c.pass ∧ c'.peek ≠ some .dot ∨
    c' = c.pass.pass ∧ c.pass.peek = some .dot) ?_ ?_
  · -- a dot is looked for only where no semicolon was
    exact .ifAt (fun hdot => .advance (.pure (.inr ⟨rfl, hdot⟩))) fun hdot =>
      .pure (.inl ⟨rfl, hdot⟩)
  · rintro found c' h'
    exact .pure (.tel h (h'.imp id fun both => ⟨both.1, .inr both.2⟩))

theorem cleanly_nodeDefinition {decl : NodeDecl} (c₀ c : Cursor) (hdecl : c₀.Passes decl.words c)
    (hbody : decl.body = .missing) (hparams : StaticParam.listShaped decl.params)
    (hprofile : ∀ profile, decl.profile = some profile → profile.Shaped)
    (hsome : decl.profile.isSome = true) :
    Cleanly (nodeDefinition deep scope decl) ⟨c, log⟩ fun read c' => read.2 = none →
      c₀.Passes read.1.words c' ∧ read.1.Shaped := by
  refine .caught (P := fun blocks c' =>
    c.Passes (blocks.flatMap (fun block => block.value.words) ++ [sign .kwLet]) c' ∧
      ∀ block ∈ blocks, block.value.Shaped) ?_ (fun blocks c₁ ⟨hblocks, hblocksShaped⟩ => ?_)
    fun e c₁ => .pure nofun
  · refine .read (P := fun _ c' => c.Passes [] c') ?_ fun _ c₁ hsemi => ?_
    · exact .ifAt (fun hsemi => .advance (.pure (.separator hsemi rfl))) fun _ => .pure (.refl c)
    · refine .bind (cleanly_localBlocks hdeep c₁) fun blocks c₂ ⟨hblocks, hall⟩ => ?_
      refine .expect fun hlet _ => .pure ⟨?_, hall⟩
      simpa using hsemi.trans (hblocks.trans (.sign hlet rfl))
  · -- without a report the equations went as far as their `tel`
    refine .bind (cleanly_equations hdeep c₁) fun read c₂ hequations => ?_
    obtain ⟨equations, failure⟩ := read
    cases failure with
    | some e => exact .pure nofun
    | none =>
        obtain ⟨⟨c₃, hpasses, htel, rfl⟩, hshaped⟩ := hequations rfl
        refine .bind (cleanly_endMark htel) fun _ c' hend => .pure fun _ => ⟨?_, ?_⟩
        · have hall := hdecl.trans (hblocks.trans (hpasses.trans hend))
          simpa [NodeDecl.words, NodeBody.words, hbody, NodeDefinition.words] using hall
        · exact ⟨hparams, hprofile, hsome, hblocksShaped, hshaped⟩

/-- What follows the header of a node. -/
theorem cleanly_nodeTail {decl : NodeDecl} (c₀ c : Cursor) (hdecl : c₀.Passes decl.words c)
    (hbody : decl.body = .missing ∨ ∃ target, decl.body = .synonym target ∧ argsShaped target.args)
    (hparams : StaticParam.listShaped decl.params)
    (hprofile : ∀ profile, decl.profile = some profile → profile.Shaped) :
    Cleanly (nodeTail deep scope decl) ⟨c, log⟩ fun read c' => read.2 = none →
      c₀.Passes read.1.words c' ∧ read.1.Shaped := by
  refine .get ?_
  dsimp only
  split
  · rename_i hsynonym
    split
    · exact .pure nofun
    · refine .pure fun _ => ⟨hdecl, hparams, hprofile, ?_⟩
      rcases hbody with hmissing | ⟨target, htarget, hshaped⟩
      · rw [hsynonym] at hmissing
        cases hmissing
      · rwa [htarget]
  · split
    · exact .pure nofun
    · exact .pure nofun
  · rename_i profile hprofileSome hsynonym
    -- a profile and no `=` before it: only a definition is left
    refine cleanly_nodeDefinition hdeep c₀ c hdecl ?_ hparams hprofile (by rw [hprofileSome]; rfl)
    exact hbody.resolve_right fun ⟨target, htarget, _⟩ => hsynonym target htarget

theorem cleanly_node (c : Cursor) :
    Cleanly (node deep scope) ⟨c, log⟩ fun decl c' => c.Passes decl.words c' ∧ decl.Shaped := by
  refine .read (Read.meets_nodeHead c) fun head c₁ hhead => ?_
  refine .bind (cleanly_nodeHeader hdeep head c c₁ hhead) fun (decl, failure) c₂ hheader => ?_
  cases failure with
  | some e => exact .report
  | none =>
      obtain ⟨hdecl, hbody, hparams, hprofile⟩ := hheader rfl
      refine .bind (cleanly_nodeTail hdeep c c₂ hdecl hbody hparams hprofile)
        fun (decl, failure) c₃ htail => ?_
      cases failure with
      | some e => exact .report
      | none => exact .pure (htail rfl)

omit [deep.Advances] in
theorem meets_externalNode (c : Cursor) :
    Meets (externalNode deep) c fun node c' => c.Passes node.words c' ∧ node.profile.Shaped := by
  refine .bind (Read.meets_eat_explicit rfl) fun isUnsafe c₁ hdanger => ?_
  refine .expect fun hexternal _ => .bind (Read.meets_nodeKind _) fun kind c₂ hkind => ?_
  refine .bind (Read.meets_ident c₂) fun name c₃ hname => ?_
  refine .bind (Read.meets_profile hdeep c₃) fun profile c₄ ⟨hprofile, hshaped⟩ => ?_
  have hpasses : c.Passes (ExternalNode.words ⟨⟨isUnsafe, kind, name⟩, profile⟩) c₄ := by
    simpa [ExternalNode.words, NodeHead.words] using hdanger.trans
      ((Passes.sign hexternal rfl).trans
      (hkind.trans (hname.trans hprofile)))
  refine .eat (fun hsemi => .pure ⟨?_, hshaped⟩) fun _ => .pure ⟨hpasses, hshaped⟩
  simpa using hpasses.trans (Passes.separator hsemi rfl)

/-! ## Declarations -/

theorem cleanly_declaration (c : Cursor) :
    Cleanly (declaration deep scope) ⟨c, log⟩ fun decl c' =>
      c.Passes decl.value.words c' ∧ decl.value.Shaped := by
  have hnode : Cleanly (do return Declaration.node (← node deep scope)) ⟨c, log⟩
      fun decl c' => ∀ span : Span, c.Passes decl.words c' ∧ decl.Shaped :=
    .bind (cleanly_node hdeep c) fun decl c' h => .pure fun _ => h
  have hexternal : Cleanly
      (do return Declaration.external (← (externalNode deep : Read ExternalNode)))
      ⟨c, log⟩ fun decl c' => ∀ span : Span, c.Passes decl.words c' ∧ decl.Shaped :=
    .read (meets_externalNode hdeep c) fun decl c' h => .pure fun _ => h
  refine .located (.get ?_)
  dsimp only
  split
  · split
    · exact hexternal
    · exact hnode
  · exact hexternal
  · exact hnode
  · exact hnode
  · rename_i htype
    refine .advance (.bind (cleanly_typeBlock hdeep _) fun defs c' ⟨hdefs, hne, hall⟩ =>
      .pure fun _ => ⟨?_, hne, hall⟩)
    exact (Passes.sign htype rfl).trans hdefs
  · rename_i hconst
    refine .advance (.bind (cleanly_constBlock hdeep _) fun defs c' ⟨hdefs, hne, hall⟩ =>
      .pure fun _ => ⟨?_, hne, hall⟩)
    exact (Passes.sign hconst rfl).trans hdefs
  · exact .throw

end

end Recover

end Lustre
