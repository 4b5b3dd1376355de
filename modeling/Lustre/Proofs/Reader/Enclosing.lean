import Lustre.Proofs.Reader.Spanning
import Lustre.Proofs.Reader.Headway
import Lustre.Proofs.Reader.Reports

/-!
# The spans of every tree nest

Readers that recover from failures answer trees for broken texts too.  What was skipped
lies between the parts that were kept, or under the error that was left in its place; such
an error has a span since recovery leaves the token where it began.  So the spans of a
program nest whatever the text is, as do those of a single expression.
-/

namespace Lustre

open Cursor

variable {α β : Type}

namespace Meets

variable {run : Run} {R : β → Run → Prop}

theorem spanned {start : Nat} {next : Span → Recover β}
    (h : Meets (next (run.cursor.spanFrom start)) run R) :
    Meets ((monadLift (Read.spanFrom start) : Recover Span) >>= next) run R :=
  h

theorem advanced {next : Unit → Recover β} (h : Meets (next ()) ⟨run.cursor.pass, run.log⟩ R) :
    Meets ((monadLift Read.advance : Recover Unit) >>= next) run R :=
  h

/-- A loop keeps what each of its rounds keeps. -/
theorem rounds {step : α → Recover (ForInStep α)} {I : α → Run → Prop} {a : α} (h : I a run)
    (hstep : ∀ a run, I a run → Meets (step a) run (StepKeeps I I)) :
    Meets (Recover.iterate a step) run I :=
  .get (meets_iterateUpTo hstep (fun _ _ h => h) _ a run h)

end Meets

namespace Recover

/-- What is read together with its place, if that takes up tokens. -/
theorem moves_located [HasExtents α] {read : Recover α} {run : Run}
    (h : Meets read run fun a run' => run.cursor.Covers (extents a) run'.cursor)
    (hshorter : Meets (located read) run fun _ run' => run'.left < run.left) :
    Meets (located read) run fun a run' => run.cursor.Moves (extents a) run'.cursor := by
  have hlocated : Meets (located read) run fun a run' =>
      run'.left < run.left → run.cursor.Moves (extents a) run'.cursor := by
    refine .lifted (Q := fun start c => start = run.cursor.span.start ∧ c = run.cursor)
      (.get (.pure ⟨rfl, rfl⟩)) ?_
    rintro start c ⟨rfl, rfl⟩
    exact .bind h fun a run' hcovers => .spanned (.pure fun hlt => Moves.part ⟨hcovers, hlt⟩)
  exact (hlocated.and hshorter).mono fun _ _ hread => hread.1 hread.2

/-- An error in the place of what was skipped. -/
theorem moves_error {run run' : Run} (honward : run.cursor.Onward run'.cursor)
    (hlt : run'.left < run.left) :
    run.cursor.Moves [.part (run'.cursor.spanFrom run.cursor.span.start) []] run'.cursor :=
  Moves.part ⟨.of_onward honward, hlt⟩

variable {deep : Nested} [hadvances : deep.Advances] (hdeep : deep.Spanned) {scope : Scope}
include hdeep

/-! ## Equations and blocks -/

theorem covers_equations (run : Run) :
    Meets (equations deep scope) run fun read run' =>
      run.cursor.Covers (extents read.1) run'.cursor := by
  refine .rounds (I := fun (read : Partial (List (Located Equation))) run' =>
    run.cursor.Covers (extents read.1) run'.cursor) (.refl _) ?_
  rintro ⟨done, _⟩ run₁ hdone
  refine .get (.halted fun stopped => ?_)
  split
  · exact .pure hdone
  refine .ifEaten (fun _ => .pure (hdone.skip (.pass .here))) fun htel => ?_
  split
  · exact .pure hdone
  rename_i hstop
  -- recovery begins at a token, which it leaves, so the error in this place has a span
  have hsome : run₁.cursor.rest ≠ [] := by
    intro hrest
    simp [Cursor.peek, hrest] at hstop
  refine .caught (.lift (Read.moves_equation hdeep _))
    (fun equation run₂ hequation => .pure (Moves.snoc hdone hequation).covers)
    fun e run₂ honward => .report fun log => ?_
  refine .bind ((Meets.onward _ _).and (meets_skipStatement honward.suffix hsome htel))
    fun _ run₃ hskipped => .spanned (.pure ?_)
  exact (Moves.snoc hdone (moves_error (honward.trans hskipped.1) hskipped.2)).covers

omit hdeep in
theorem covers_block [HasExtents α] {follows : List Kind} {entry : Read α} [Forward entry]
    (hentry : ∀ c, Meets entry c fun one c' => c.Moves (extents one) c') (run : Run) :
    Meets (block scope follows entry) run fun entries run' =>
      run.cursor.Covers (extents entries) run'.cursor := by
  refine .rounds (I := fun entries run' => run.cursor.Covers (extents entries) run'.cursor)
    (.refl _) ?_
  intro entries run₁ hentries
  have hend : ∀ (entries : List α) (run' : Run), run.cursor.Covers (extents entries) run'.cursor →
      Meets (do
        let c := (← get).cursor
        if (← halted) || !(c.isAt .ident && (c.peekAt 1).any follows.contains) then
          return .done entries
        else return .yield entries : Recover (ForInStep (List α))) run'
        (StepKeeps (fun entries last => run.cursor.Covers (extents entries) last.cursor)
          fun entries last => run.cursor.Covers (extents entries) last.cursor) := by
    intro entries run' h
    refine .get (.halted fun stopped => ?_)
    split
    · exact .pure h
    · exact .pure h
  refine .get (.caught (.lift (hentry _))
    (fun one run₂ hone => hend _ run₂ (Moves.snoc hentries hone).covers)
    fun e run₂ honward => .get ?_)
  split
  · exact .throw
  · refine .report fun log => .bind (.onward _ _) fun _ run₃ hskipped => hend _ run₃ ?_
    exact hentries.skip (honward.trans hskipped)

theorem covers_typeBlock (run : Run) :
    Meets (typeBlock deep scope) run fun entries run' =>
      run.cursor.Covers (extents entries) run'.cursor :=
  covers_block (Read.moves_typeEntry hdeep) run

theorem covers_constBlock (run : Run) :
    Meets (constBlock deep scope) run fun entries run' =>
      run.cursor.Covers (extents entries) run'.cursor :=
  covers_block (Read.moves_constEntry hdeep) run

/-! ## Nodes -/

theorem covers_localBlock (run : Run) :
    Meets (localBlock deep scope) run fun block run' =>
      run.cursor.Covers (extents block) run'.cursor := by
  have hpass : run.cursor.Covers [] run.cursor.pass := .of_onward (.pass .here)
  refine .ifEaten (fun _ => ?_) fun _ => .advanced ?_
  · exact .lifted (Read.moves_terminated (Read.moves_varDecl hdeep) _) fun vars c hvars =>
      .pure (hpass.trans hvars.covers)
  · exact .bind (covers_constBlock hdeep _) fun consts run' hconsts => .pure (hpass.trans hconsts)

theorem covers_localBlocks (run : Run) :
    Meets (localBlocks deep scope) run fun blocks run' =>
      run.cursor.Covers (extents blocks) run'.cursor := by
  refine .rounds (I := fun blocks run' => run.cursor.Covers (extents blocks) run'.cursor)
    (.refl _) ?_
  intro blocks run₁ hblocks
  have hblock : run₁.cursor.peek = some .kwVar ∨ run₁.cursor.peek = some .kwConst →
      Meets (do return ForInStep.yield (blocks ++ [← located (localBlock deep scope)])) run₁
        (StepKeeps (fun blocks run' => run.cursor.Covers (extents blocks) run'.cursor)
          fun blocks run' => run.cursor.Covers (extents blocks) run'.cursor) := by
    intro hkind
    have hcovers : Meets (localBlock deep scope) run₁ fun block run' =>
        run₁.cursor.Covers (extents block) run'.cursor := covers_localBlock hdeep run₁
    have hread := moves_located hcovers (meets_located (meets_localBlock_shorter hkind))
    exact .bind hread fun block run₂ hblock => .pure (Moves.snoc hblocks hblock).covers
  refine .lifted (Q := fun kind c => run₁.cursor.peek = kind ∧ c = run₁.cursor)
    (.get (.pure ⟨rfl, rfl⟩)) ?_
  rintro kind c ⟨hkind, rfl⟩
  split
  · exact hblock (.inl hkind)
  · exact hblock (.inr hkind)
  · exact .pure hblocks

omit hadvances in
theorem covers_synonymTarget (c : Cursor) :
    Meets (synonymTarget deep) c fun body c' => c.Covers (extents body) c' := by
  refine .bind (Read.covers_optionalAfter c (Read.moves_nodeUse hdeep)) fun found c₁ htarget => ?_
  cases found with
  | none => exact .pure htarget
  | some target =>
      exact .bind (Read.covers_eat .semi c₁) fun _ c₂ hsemi => .pure (htarget.skip hsemi.onward)

/-- The header of a node, as far as it could be read, behind its head. -/
theorem covers_nodeHeader {c : Cursor} {head : NodeHead} {run : Run}
    (hhead : c.Covers (extents head) run.cursor) :
    Meets (nodeHeader deep head) run fun read run' => c.Covers (extents read.1) run'.cursor := by
  refine .caught (.lift (Read.covers_optionalAt _ (Read.moves_staticParams hdeep _)))
    (fun params run₁ hparams => ?_) fun e run₁ honward => .pure ?_
  · have hparams := hhead.trans hparams
    refine .caught (.lift (Read.covers_optionalAt _ (Read.moves_profile hdeep _)))
      (fun profile run₂ hprofile => ?_) fun e run₂ honward => .pure ?_
    · have hprofile := hparams.trans hprofile
      exact .caught (.lift (covers_synonymTarget hdeep _))
        (fun body run₃ hbody => .pure (hprofile.trans hbody))
        fun e run₃ honward => .pure (hprofile.trans (.of_onward honward))
    · exact (hparams.trans (.refl _)).trans (.of_onward honward)
  · exact ((hhead.trans (.refl _)).trans (.refl _)).trans (.of_onward honward)

/-- The body of a node, behind the rest of it. -/
theorem covers_nodeDefinition {c : Cursor} {decl : NodeDecl} {run : Run}
    (hdecl : c.Covers (extents decl) run.cursor) :
    Meets (nodeDefinition deep scope decl) run fun read run' =>
      c.Covers (extents read.1) run'.cursor := by
  have hlocals : Meets (do
      let _ ← (Read.eat .semi : Read Bool)
      let locals ← localBlocks deep scope
      let _ ← (Read.expect .kwLet : Read Span)
      return locals : Recover (List (Located LocalBlock))) run fun locals run' =>
        run.cursor.Covers (extents locals) run'.cursor := by
    refine .lifted (Read.covers_eat .semi _) fun _ c₁ hsemi => ?_
    refine .bind (covers_localBlocks hdeep _) fun locals run₁ hlocals => ?_
    refine .lifted (Forward.meets_onward _ _) fun _ c₂ honward => .pure ?_
    exact (hsemi.trans hlocals).skip honward
  refine .caught hlocals (fun locals run₁ hlocals => ?_) fun e run₁ honward =>
    .pure (hdecl.skip honward)
  refine .bind (covers_equations hdeep run₁) fun read run₂ hequations => ?_
  -- what the node was without a body
  have hheader := hdecl.left.trans (hlocals.trans hequations)
  obtain ⟨equations, failure⟩ := read
  cases failure with
  | none => exact .bind (.onward _ _) fun _ run₃ honward => .pure (hheader.skip honward)
  | some e => exact .pure hheader

theorem covers_nodeTail {c : Cursor} {decl : NodeDecl} {run : Run}
    (hdecl : c.Covers (extents decl) run.cursor) :
    Meets (nodeTail deep scope decl) run fun read run' =>
      c.Covers (extents read.1) run'.cursor := by
  refine .get ?_
  dsimp only
  split
  · split
    · exact .pure hdecl
    · exact .pure hdecl
  · split
    · exact .pure hdecl
    · exact .pure hdecl
  · exact covers_nodeDefinition hdeep hdecl

theorem covers_node (run : Run) :
    Meets (node deep scope) run fun decl run' => run.cursor.Covers (extents decl) run'.cursor := by
  have hclose : ∀ (read : Partial NodeDecl) (run₁ : Run),
      run.cursor.Covers (extents read.1) run₁.cursor →
      Meets (closeNode scope read) run₁ fun decl run' =>
        run.cursor.Covers (extents decl) run'.cursor := by
    rintro ⟨decl, failure⟩ run₁ hdecl
    cases failure with
    | none => exact .pure hdecl
    | some e =>
        exact .report fun log => .bind (.onward _ _) fun _ run₂ honward =>
          .pure (hdecl.skip honward)
  refine .lifted (Read.moves_nodeHead _) fun head c hhead => ?_
  refine .bind (covers_nodeHeader hdeep hhead.covers) fun read run₁ hdecl => ?_
  obtain ⟨decl, failure⟩ := read
  cases failure with
  | none => exact .bind (covers_nodeTail hdeep hdecl) fun read run₂ hread => hclose read run₂ hread
  | some e =>
      exact .report fun log => .bind (.onward _ _) fun _ run₂ honward => .pure (hdecl.skip honward)

omit hadvances in
theorem covers_externalNode (c : Cursor) :
    Meets (externalNode deep) c fun node c' => c.Covers (extents node) c' := by
  refine .bind (Read.covers_eat .kwUnsafe c) fun isUnsafe c₁ hmark => .expect fun hextern _ => ?_
  refine .bind (Read.moves_nodeKind _) fun kind c₂ hkind => ?_
  refine .bind (Read.moves_ident _) fun name c₃ hname => ?_
  refine .bind (Read.moves_profile hdeep _) fun profile c₄ hprofile => ?_
  refine .bind (Read.covers_eat .semi c₄) fun _ c₅ hsemi => .pure ?_
  have hhead := hmark.trans (Moves.behind hextern (hkind.trans hname.covers).covers).covers
  exact (hhead.trans hprofile.covers).skip hsemi.onward

/-! ## Declarations -/

theorem covers_anyDeclaration (run : Run) :
    Meets (anyDeclaration deep scope) run fun decl run' =>
      run.cursor.Covers (extents decl) run'.cursor := by
  have hpass : run.cursor.Covers [] run.cursor.pass := .of_onward (.pass .here)
  have hnode : Meets (do return Declaration.node (← node deep scope)) run fun decl run' =>
      run.cursor.Covers (extents decl) run'.cursor :=
    .bind (covers_node hdeep run) fun decl run' hdecl => .pure hdecl
  have hexternal : Meets (do return .external (← (externalNode deep : Read ExternalNode)) :
      Recover Declaration) run fun decl run' => run.cursor.Covers (extents decl) run'.cursor :=
    .lifted (covers_externalNode hdeep _) fun node c hnode => .pure hnode
  refine .get ?_
  dsimp only
  split
  · split
    · exact hexternal
    · exact hnode
  · exact hexternal
  · exact hnode
  · exact hnode
  · exact .advanced (.bind (covers_typeBlock hdeep _) fun defs run' hdefs =>
      .pure (hpass.trans hdefs))
  · exact .advanced (.bind (covers_constBlock hdeep _) fun defs run' hdefs =>
      .pure (hpass.trans hdefs))
  · exact .throw

theorem moves_declaration (run : Run) :
    Meets (declaration deep scope) run fun decl run' =>
      run.cursor.Moves (extents decl) run'.cursor :=
  moves_located (covers_anyDeclaration hdeep run) (meets_declaration_shorter run)

/-! ## Packages and models -/

theorem covers_body (run : Run) :
    Meets (body deep) run fun read run' => run.cursor.Covers (extents read.1) run'.cursor := by
  refine .caught (.lift (Forward.meets_onward _ _)) (fun _ run₁ hbody => ?_)
    fun e run₁ honward => .pure (.of_onward honward)
  refine .rounds (I := fun (read : Partial (List (Located Declaration))) run' =>
    run.cursor.Covers (extents read.1) run'.cursor) (.of_onward hbody) ?_
  rintro ⟨done, _⟩ run₂ hdone
  refine .get (.halted fun stopped => ?_)
  split
  · exact .pure hdone
  refine .ifEaten (fun _ => .pure (hdone.skip (.pass .here))) fun _ => ?_
  split
  · exact .pure hdone
  rename_i kind hpeek
  split
  · exact .pure hdone
  have hpos : 0 < run₂.left := Nat.zero_lt_of_lt (Cursor.length_pass hpeek)
  refine .caught (P := fun decl run' => run₂.cursor.Moves (extents decl) run'.cursor) ?_
    (fun decl run₃ hdecl => .pure (Moves.snoc hdone hdecl).covers)
    fun e run₃ honward => .report fun log => ?_
  · split
    · exact moves_declaration hdeep run₂
    · exact .throw
  · refine .bind ((Meets.onward _ _).and (meets_skipDeclaration hpos honward.suffix.length_le))
      fun _ run₄ hskipped => .spanned (.pure ?_)
    exact (Moves.snoc hdone (moves_error (honward.trans hskipped.1) hskipped.2)).covers

omit hadvances in
theorem covers_instantiation {c : Cursor} {name : Ident} {word : InstanceWord} {run : Run}
    (hname : c.Covers (extents name) run.cursor) :
    Meets (instantiation deep name word) run fun package run' =>
      c.Covers (extents package) run'.cursor := by
  refine .lifted (Read.moves_ident _) fun model c₁ hmodel => ?_
  refine .lifted (Read.moves_modelArgs hdeep _) fun args c₂ hargs => ?_
  have hpackage := hname.trans (hmodel.covers.trans hargs.covers)
  obtain ⟨brackets, args⟩ := args
  refine .lifted (Forward.meets_onward _ _) fun _ c₃ hsemi => .get ?_
  dsimp only
  split
  · refine .report fun log => .bind (.onward _ _) fun _ run₁ hskipped => ?_
    refine .lifted (Forward.meets_onward _ _) fun _ c₄ hend => .pure ?_
    exact hpackage.skip (hsemi.trans (hskipped.trans hend))
  · exact .pure (hpackage.skip hsemi)

theorem covers_package (run : Run) :
    Meets (package deep) run fun package run' =>
      run.cursor.Covers (extents package) run'.cursor := by
  refine .lifted (Forward.meets_onward _ _) fun _ c₁ hpackage => ?_
  refine .lifted (Read.moves_ident _) fun name c₂ hname => ?_
  have hname := (Covers.of_onward hpackage).trans hname.covers
  refine .lifted (Forward.meets_onward _ _) fun word c₃ hword => ?_
  cases word with
  | some word => exact covers_instantiation hdeep (hname.skip hword)
  | none =>
      refine .lifted (Read.covers_uses _) fun uses c₄ huses => ?_
      refine .lifted (Read.covers_provides hdeep _) fun provides c₅ hprovides => ?_
      refine .bind (covers_body hdeep _) fun read run₁ hread => ?_
      have hbody := (huses.trans hprovides).trans hread
      refine .bind (.onward _ _) fun _ run₂ honward => .pure ?_
      exact ((hname.skip hword).trans hbody).skip honward

theorem covers_needs (run : Run) :
    Meets (needs deep) run fun read run' => run.cursor.Covers (extents read.1) run'.cursor := by
  refine .rounds (I := fun (read : Partial (List (Located StaticParam))) run' =>
    run.cursor.Covers (extents read.1) run'.cursor) (.refl _) ?_
  rintro ⟨done, _⟩ run₁ hdone
  refine .caught (.lift (Read.moves_staticParam hdeep _)) (fun param run₂ hparam => ?_)
    fun e run₂ honward => .pure (hdone.skip honward)
  have hmore := (Moves.snoc hdone hparam).covers
  refine .caught (.lift (Forward.meets_onward _ _)) (fun _ run₃ hsemi => ?_)
    fun e run₃ honward => .pure (hmore.skip honward)
  refine .lifted (Forward.meets_onward _ _) fun next c₁ hnext => ?_
  have hmore := hmore.skip (hsemi.trans hnext)
  split
  · exact .pure hmore
  · exact .pure hmore

theorem covers_requiredNeeds {name : Ident} (run : Run) :
    Meets (requiredNeeds deep name) run fun read run' =>
      run.cursor.Covers (extents read.1) run'.cursor := by
  refine .ifEaten (fun _ => ?_) fun _ => .report fun log => .pure (.refl _)
  exact (covers_needs hdeep _).mono fun read run' hneeds =>
    (Covers.of_onward (.pass .here)).trans hneeds

/-- What follows the parameters of a model, behind the rest of it. -/
theorem covers_modelContents {c : Cursor} {name : Ident} {uses : List Ident}
    {read : Partial (List (Located StaticParam))} {run : Run}
    (h : c.Covers (extents name ++ extents uses ++ extents read.1) run.cursor) :
    Meets (modelContents deep name uses read) run fun read run' =>
      c.Covers (extents read.1) run'.cursor := by
  obtain ⟨needs, failure⟩ := read
  cases failure with
  | some e => exact .pure ((h.trans (.refl _)).trans (.refl _))
  | none =>
      refine .caught (.lift (Read.covers_provides hdeep _)) (fun provides run₁ hprovides => ?_)
        fun e run₁ honward => .pure ((h.trans (.refl _)).trans (.of_onward honward))
      exact .bind (covers_body hdeep run₁) fun read run₂ hbody =>
        .pure ((h.trans hprovides).trans hbody)

theorem covers_modelTail {c : Cursor} {name : Ident} {run : Run}
    (hname : c.Covers (extents name) run.cursor) :
    Meets (modelTail deep name) run fun read run' => c.Covers (extents read.1) run'.cursor := by
  refine .caught (.lift (Read.covers_uses _)) (fun uses run₁ huses => ?_) fun e run₁ honward =>
    .pure ?_
  · exact .bind (covers_requiredNeeds hdeep run₁) fun read run₂ hneeds =>
      covers_modelContents hdeep ((hname.trans huses).trans hneeds)
  · exact (((hname.trans (.refl _)).trans (.refl _)).trans (.refl _)).trans (.of_onward honward)

theorem covers_model (run : Run) :
    Meets (model deep) run fun model run' => run.cursor.Covers (extents model) run'.cursor := by
  refine .lifted (Forward.meets_onward _ _) fun _ c₁ hmodel => ?_
  refine .lifted (Read.moves_ident _) fun name c₂ hname => ?_
  refine .bind (covers_modelTail hdeep ((Covers.of_onward hmodel).trans hname.covers))
    fun read run₁ hread => ?_
  obtain ⟨model, failure⟩ := read
  cases failure with
  | none => exact .pure hread
  | some e =>
      exact .report fun log => .bind (.onward _ _) fun _ run₂ honward => .pure (hread.skip honward)

/-! ## Programs -/

omit hadvances hdeep in
theorem moves_includeDirective (c : Cursor) :
    Meets includeDirective c fun file c' => c.Moves (extents file) c' := by
  refine Read.moves_located c (.expect fun hinclude _ => .take? (fun token rest _ _ => ?_) fun _ =>
    .missing)
  exact .bind (Read.covers_eat .semi _) fun _ c₁ hsemi =>
    .pure ((Moves.token hinclude).pass.trans hsemi)

omit hadvances hdeep in
theorem covers_includes (run : Run) :
    Meets includes run fun files run' => run.cursor.Covers (extents files) run'.cursor := by
  refine .rounds (I := fun files run' => run.cursor.Covers (extents files) run'.cursor) (.refl _) ?_
  intro done run₁ hdone
  refine .get (.halted fun stopped => ?_)
  split
  · exact .pure hdone
  refine .caught (.lift (moves_includeDirective _))
    (fun file run₂ hfile => .pure (Moves.snoc hdone hfile).covers)
    fun e run₂ honward => .report fun log => ?_
  exact .bind (.onward _ _) fun _ run₃ hskipped => .pure (hdone.skip (honward.trans hskipped))

theorem covers_item {c : Cursor} {kind : Kind} (run : Run) :
    Meets (item deep c kind) run fun one run' => run.cursor.Covers (extents one) run'.cursor := by
  unfold item
  split
  · exact .bind (covers_package hdeep run) fun package run' hpackage => .pure hpackage
  split
  · exact .bind (covers_model hdeep run) fun model run' hmodel => .pure hmodel
  split
  · exact .throw
  split
  · exact .bind (moves_declaration hdeep run) fun decl run' hdecl => .pure hdecl.covers
  · exact .throw

theorem covers_items (run : Run) :
    Meets (items deep) run fun items run' => run.cursor.Covers (extents items) run'.cursor := by
  refine .rounds (I := fun items run' => run.cursor.Covers (extents items) run'.cursor) (.refl _) ?_
  intro done run₁ hdone
  refine .get (.halted fun stopped => ?_)
  split
  · exact .pure hdone
  split
  · exact .pure hdone
  rename_i kind hpeek
  have hpos : 0 < run₁.left := Nat.zero_lt_of_lt (Cursor.length_pass hpeek)
  refine .caught ((covers_item hdeep run₁).and (meets_item_shorter _ kind run₁))
    (fun one run₂ hone => ?_)
    fun e run₂ honward => .report fun log => ?_
  · exact .spanned (.pure (Moves.snoc hdone (Moves.part ⟨hone.1, hone.2⟩)).covers)
  · refine .bind ((Meets.onward _ _).and (meets_skipDeclaration hpos honward.suffix.length_le))
      fun _ run₃ hskipped => .spanned (.pure ?_)
    exact (Moves.snoc hdone (moves_error (honward.trans hskipped.1) hskipped.2)).covers

theorem covers_program (run : Run) :
    Meets (program deep) run fun program run' => run.cursor.Covers (extents program) run'.cursor :=
  .bind (covers_includes run) fun _ run₁ hincludes =>
    .bind (covers_items hdeep run₁) fun _ _ hitems => .pure (hincludes.trans hitems)

theorem covers_standaloneExpr (run : Run) :
    Meets (standaloneExpr deep) run fun found run' =>
      run.cursor.Covers (extents found) run'.cursor := by
  have hwhole : ∀ c, Meets (wholeExpr deep) c fun e c' => c.Covers (extents e) c' := fun c =>
    .bind (Read.moves_expr hdeep c) fun e c₁ he => .get (by
      split
      · exact .pure he.covers
      · exact .missing)
  exact .caught (.lift (hwhole _)) (fun e run₁ he => .pure he)
    fun e run₁ honward => .report fun log => .pure (.of_onward honward)

end Recover

/-- The spans of a tree lie in the text that it was read from, on whole tokens, and they nest: the
span of every node encloses what is inside the node, and what stands side by side is disjoint and in
the order of the text.  This holds for the program of every text, broken or not, whatever the
options, and for single expressions. -/
theorem spans_nest :
    (∀ (text : String) (options : ParseOptions),
      SpansNest text (extents (parse text options).program)) ∧
    ∀ text : String, SpansNest text (extents (parseExpr text).1) := by
  refine ⟨fun text options => ?_, fun text => ?_⟩
  · obtain ⟨program, run', hread, hprogram, -⟩ := parse_eq_run text options
    have hcovers := Recover.covers_program (Nested.spanned_upTo maxNesting) _ program run' hread
    rw [hprogram]
    exact (hcovers.laid (Token.ordered_tokens text)).nested
  · have hnone : SpansNest text (extents (none : Option Expr)) := (Laid.nil : Laid _ 0 [] 0).nested
    have hread : SpansNest text
        (extents ((Run.ofText text (Lexed.ofText text)).expr maxNesting).1) := by
      unfold Run.expr
      split
      · rename_i found run' hread
        have hcovers := Recover.covers_standaloneExpr (Nested.spanned_upTo maxNesting) _ found
          run' hread
        exact (hcovers.laid (Token.ordered_tokens text)).nested
      · exact hnone
    unfold parseExpr
    dsimp only
    split
    · exact hread
    · exact hnone

end Lustre
