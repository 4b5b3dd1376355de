import Lustre.Proofs.Reader.Declaration
import Lustre.Proofs.Reread.Entry
import Lustre.Proofs.Reread.Equation
import Lustre.Proofs.Reread.Restores

/-!
# Declarations, read back

Every loop of these readers ends at a word that was printed behind the last of its parts: the
equations of a node at its `tel`, its local blocks at its `let`, and the entries of a block at
whatever is no further entry.  Behind a declaration another begins, or the body that it stands in
ends, or the text (`EndsDeclaration`).
-/

namespace Lustre

open Chunk

/-! ## What comes behind a declaration -/

/-- Chunks before which a declaration may be printed: if any word is to come, it begins an item or
closes a body. -/
def EndsDeclaration (later : List Chunk) : Prop :=
  ∀ kind, (kinds later).head? = some kind → kind ∈ .kwEnd :: Recover.itemStarts

theorem EndsDeclaration.head_ne {later : List Chunk} (h : EndsDeclaration later) {kind : Kind}
    (hkind : kind ∉ .kwEnd :: Recover.itemStarts) : (kinds later).head? ≠ some kind :=
  fun hhead => hkind (h kind hhead)

theorem Before.endsDeclaration {ends : List Kind} {later : List Chunk} (h : Before ends later)
    (hends : ends ⊆ .kwEnd :: Recover.itemStarts) : EndsDeclaration later := by
  obtain ⟨kind, hmem, hhead⟩ := h
  intro other hother
  rw [hhead] at hother
  exact Option.some.inj hother ▸ hends hmem

theorem Cursor.Shows.isAt_eq_false {c : Cursor} {later : List Chunk} {kind : Kind}
    (h : c.Shows later) (hkind : (kinds later).head? ≠ some kind) : c.isAt kind = false := by
  rw [Cursor.isAt, h.peek]
  simpa using hkind

/-! ## How the parts of a node begin -/

/-- The words that a statement begins with, and the one behind all of them. -/
def equationStarts : List Kind := [.kwAssert, .lParen, .ident, .kwTel]

theorem Equation.Writable.good {equation : Equation} (h : equation.Writable printable) :
    kinds equation.chunks ≠ [] ∧ ∀ more, Before equationStarts (equation.chunks ++ more) :=
  ⟨h.begins.kinds_ne_nil, fun more => (h.begins.append more).mono (by decide)⟩

/-- A name is to come, and then a word of one of some kinds. -/
def NamedThen (follows : List Kind) (chunks : List Chunk) : Prop :=
  ∃ kind ∈ follows, ∃ rest, kinds chunks = .ident :: kind :: rest

theorem NamedThen.append {follows : List Kind} {chunks : List Chunk} (h : NamedThen follows chunks)
    (more : List Chunk) : NamedThen follows (chunks ++ more) := by
  obtain ⟨kind, hmem, rest, hkinds⟩ := h
  exact ⟨kind, hmem, rest ++ kinds more, by rw [kinds_append, hkinds]; rfl⟩

theorem Cursor.Shows.namedThen_iff {c : Cursor} {chunks : List Chunk} (h : c.Shows chunks)
    (follows : List Kind) :
    (c.isAt .ident && (c.peekAt 1).any follows.contains) = true ↔ NamedThen follows chunks := by
  rw [Cursor.isAt, h.peek, h.peekAt]
  rcases hkinds : kinds chunks with _ | ⟨first, _ | ⟨kind, rest⟩⟩
  · simp [NamedThen, hkinds]
  · simp [NamedThen, hkinds]
  · simpa [NamedThen, hkinds] using and_comm

/-- A name is followed by its pragmas. -/
theorem Ident.namedThen (name : Ident) {follows : List Kind} {chunks : List Chunk}
    (hpragma : .pragma ∈ follows) (h : Before follows chunks) :
    NamedThen follows (name.chunks ++ chunks) := by
  obtain ⟨text, place, pragmas⟩ := name
  cases pragmas with
  | nil =>
      obtain ⟨kind, hmem, hhead⟩ := h
      obtain ⟨rest, hkinds⟩ := List.head?_eq_some_iff.mp hhead
      exact ⟨kind, hmem, rest, congrArg (Kind.ident :: ·) hkinds⟩
  | cons pragma pragmas => exact ⟨.pragma, hpragma, _, rfl⟩

/-- The words behind the first name of an entry of a `type` block. -/
def typeFollows : List Kind := [.eq, .semi, .pragma]

/-- The words behind the first name of an entry of a `const` block. -/
def constFollows : List Kind := [.comma, .colon, .eq, .pragma]

theorem TypeDef.namedThen (entry : TypeDef) :
    NamedThen typeFollows (entry.chunks ++ [sign .semi]) := by
  obtain ⟨name, body⟩ := entry
  cases body with
  | none => exact name.namedThen (by decide) ⟨.semi, by decide, rfl⟩
  | some body =>
      rw [TypeDef.chunks, List.append_assoc]
      exact name.namedThen (by decide) ⟨.eq, by decide, rfl⟩

theorem ConstDef.Writable.namedThen {entry : ConstDef} (h : entry.Writable printable) :
    NamedThen constFollows (entry.chunks ++ [sign .semi]) := by
  cases entry with
  | typed names type =>
      obtain ⟨name, names, rfl⟩ := List.exists_cons_of_ne_nil h.1.1
      rw [ConstDef.chunks, List.append_assoc, identChunks, List.map_cons, separate_cons,
        List.append_assoc]
      cases names with
      | nil => exact name.namedThen (by decide) ⟨.colon, by decide, rfl⟩
      | cons next names => exact name.namedThen (by decide) ⟨.comma, by decide, rfl⟩
  | typedValue name type init =>
      rw [ConstDef.chunks, List.append_assoc, List.append_assoc]
      exact name.namedThen (by decide) ⟨.colon, by decide, rfl⟩
  | value name init =>
      rw [ConstDef.chunks, List.append_assoc]
      exact name.namedThen (by decide) ⟨.eq, by decide, rfl⟩

/-- The entries of a block, on the line of its keyword or each on one of its own. -/
theorem exists_listed_block {α : Type} (keyword : Kind) (print : α → List Chunk) (xs : List α) :
    ∃ chunks, block keyword (xs.map print) = sign keyword :: chunks ∧
      Listed (fun x => print x ++ [sign .semi]) xs chunks := by
  rcases xs with _ | ⟨x, _ | ⟨next, xs⟩⟩
  · exact ⟨[newline], rfl, .gap .nil⟩
  · refine ⟨blank :: ((print x ++ [sign .semi]) ++ [newline]), ?_, .gap (.cons (.gap .nil))⟩
    simp [block, line]
  · refine ⟨newline :: ((x :: next :: xs).flatMap fun y => entry (print y)), ?_,
      .gap (.flatMap_entry _)⟩
    simp [block, line, List.flatMap_map]

/-- The words that a local block begins with, and the one behind all of them. -/
def localStarts : List Kind := [.kwVar, .kwConst, .kwLet]

theorem LocalBlock.begins (block : LocalBlock) : Before localStarts block.chunks := by
  cases block with
  | vars => exact ⟨.kwVar, by decide, rfl⟩
  | consts => exact ⟨.kwConst, by decide, rfl⟩

/-- Prints the profile of a node, which may be absent. -/
def profileChunks : Option Profile → List Chunk
  | some profile => profile.chunks
  | none => []

theorem NodeDecl.chunks_eq (decl : NodeDecl) : decl.chunks =
    decl.head.chunks [] ++ (StaticParam.list decl.params ++ (profileChunks decl.profile ++
      decl.body.chunks)) := by
  obtain ⟨head, params, profile, body⟩ := decl
  cases profile <;> simp [NodeDecl.chunks, profileChunks]

/-- The body of a node begins with a semicolon or, if it is an alias, with `=`. -/
theorem NodeBody.begins (body : NodeBody) : Before [.semi, .eq] body.chunks := by
  cases body with
  | definition own => exact ⟨.semi, by decide, rfl⟩
  | synonym target => exact ⟨.eq, by decide, rfl⟩
  | missing => exact ⟨.semi, by decide, rfl⟩

theorem profileChunks_begin (profile : Option Profile) {later : List Chunk}
    (hlater : Before [.semi, .eq] later) :
    Before [.lParen, .semi, .eq] (profileChunks profile ++ later) := by
  cases profile with
  | none => exact hlater.mono (by decide)
  | some profile =>
      exact ⟨.lParen, by decide, by simp [profileChunks, Profile.chunks, Profile.params, between]⟩

theorem StaticParam.list_begin (params : Option (List (Located StaticParam))) {later : List Chunk}
    (hlater : Before [.lParen, .semi, .eq] later) :
    Before [.ltLt, .lParen, .semi, .eq] (StaticParam.list params ++ later) := by
  cases params with
  | none => exact hlater.mono (by decide)
  | some params => exact ⟨.ltLt, by decide, by simp [StaticParam.list, between]⟩

theorem Declaration.Writable.begins {decl : Declaration} (h : decl.Writable printable) :
    Before Recover.declarationStarts decl.chunks := by
  cases decl with
  | node decl =>
      rw [Declaration.chunks, NodeDecl.chunks_eq]
      exact (decl.head.begins.append _).mono (by decide)
  | types defs =>
      obtain ⟨chunks, hblock, -⟩ :=
        exists_listed_block .kwType (fun entry : Located TypeDef => entry.value.chunks) defs
      rw [Declaration.chunks, hblock]
      exact ⟨.kwType, by decide, rfl⟩
  | consts defs =>
      obtain ⟨chunks, hblock, -⟩ :=
        exists_listed_block .kwConst (fun entry : Located ConstDef => entry.value.chunks) defs
      rw [Declaration.chunks, hblock]
      exact ⟨.kwConst, by decide, rfl⟩
  | external node =>
      obtain ⟨⟨isUnsafe, kind, name⟩, profile⟩ := node
      cases isUnsafe with
      | true => exact ⟨.kwUnsafe, by decide, rfl⟩
      | false => exact ⟨.kwExtern, by decide, rfl⟩
  | error => exact h.elim

namespace Recover

variable {deep : Nested} [deep.Advances] {scope : Scope} {c : Cursor} {later : List Chunk}

/-! ## Equations -/

/-- The equations of a node and its `tel`. -/
theorem restores_equations (hdeep : deep.Rereads) {equations : List (Located Equation)}
    (h : ∀ equation ∈ equations, equation.value.Writable printable)
    (hshows : c.Shows ((equations.flatMap fun equation => equation.value.chunks) ++
      (line [sign .kwTel] ++ later))) :
    Restores (Recover.equations deep scope) c (Unbroken (Regains equations later)) := by
  refine restores_listed (fun done => (done, none)) (Before equationStarts) (.flatMap equations)
    (fun equation hmem => (h equation hmem).good) ⟨.kwTel, by decide, rfl⟩ (fun _ _ hgood => hgood)
    ?_ ?_ hshows
  · intro equation hmem done c more hmore hshows
    have hbegin := (h equation hmem).begins.append more
    have htel : c.peek ≠ some .kwTel := hshows.peek ▸ hbegin.head_ne (by decide)
    have hgo : ¬c.peek.all nodeStops.contains = true := by
      obtain ⟨kind, hkind, hhead⟩ := hbegin
      rw [hshows.peek, hhead]
      clear hhead
      revert kind
      decide
    refine .get fun log => .halted (.eat_no htel ?_)
    rw [if_neg hgo]
    exact .caughtRead (gives_equation hdeep (h equation hmem) hshows)
      (fun read c' hread => .pure ⟨read, rfl, hread⟩) fun e c' he => .report he
  · intro read c hread
    have htel : c.Shows (sign .kwTel :: newline :: later) := hread.2
    refine .get fun log => .halted ?_
    exact .eat_yes htel.peek (.pure ⟨hread.1, htel.pass_sign.gap⟩)

/-! ## Blocks of types and constants -/

section

variable {α : Type} [Rebuildable α] {follows : List Kind} {entry : Read α} [Forward entry]
  {print : α → List Chunk}

omit [deep.Advances] in
/-- The entries of a block, up to what is no entry. -/
theorem restores_block {xs : List α} (hnil : xs ≠ []) {chunks : List Chunk}
    (hlisted : Listed (fun x => print x ++ [sign .semi]) xs chunks)
    (hentry : ∀ x ∈ xs, ∀ c more, c.Shows (print x ++ (sign .semi :: more)) →
      Gives entry c (Regains x more))
    (hnamed : ∀ x ∈ xs, NamedThen follows (print x ++ [sign .semi]))
    (hlater : (kinds later).head? ≠ some .ident) (hshows : c.Shows (chunks ++ later)) :
    Restores (Recover.block scope follows entry) c (Regains xs later) := by
  have hstop : ¬NamedThen follows later := by
    rintro ⟨kind, -, rest, hkinds⟩
    exact hlater (by rw [hkinds]; rfl)
  refine (loopRestores_going (fun done => done) (NamedThen follows) (fun _ _ hread => hread) hstop
    (fun _ _ => Iff.rfl) hlisted hnil (fun x hmem => ⟨by simp, (hnamed x hmem).append⟩) ?_ rfl
    hshows).iterate
  intro x hmem done c more hshows
  have hwords : c.Shows (print x ++ (sign .semi :: more)) := by simpa using hshows
  refine .get fun log => .caughtRead (hentry x hmem c _ hwords)
    (fun read c' hread => .bindPure (.get fun log => .halted ?_)) fun e c' he => .get fun log => ?_
  · have hgoes := hread.2.namedThen_iff follows
    by_cases hnext : NamedThen follows more
    · rw [hgoes.mpr hnext, if_neg (by simp)]
      exact .pure ⟨hnext, read, rfl, hread⟩
    · rw [Bool.eq_false_iff.mpr (mt hgoes.mp hnext), if_pos (by simp)]
      exact .pure (.inr ⟨hnext, read, rfl, hread⟩)
  · split
    · exact .throw he
    · exact @Restores.report _ _ _ _ _ he (.after fun _ => .after (regular_blockEnd follows))

end

theorem restores_typeBlock (hdeep : deep.Rereads) {defs : List (Located TypeDef)}
    (h : defs ≠ [] ∧ ∀ entry ∈ defs, entry.value.Writable printable) {chunks : List Chunk}
    (hlisted : Listed (fun entry : Located TypeDef => entry.value.chunks ++
      [sign .semi]) defs chunks)
    (hlater : (kinds later).head? ≠ some .ident) (hshows : c.Shows (chunks ++ later)) :
    Restores (typeBlock deep scope) c (Regains defs later) :=
  restores_block h.1 hlisted (fun entry hmem _ _ hshows =>
    gives_typeEntry hdeep (h.2 entry hmem) hshows)
    (fun entry _ => entry.value.namedThen) hlater hshows

theorem restores_constBlock (hdeep : deep.Rereads) {defs : List (Located ConstDef)}
    (h : defs ≠ [] ∧ ∀ entry ∈ defs, entry.value.Writable printable) {chunks : List Chunk}
    (hlisted : Listed (fun entry : Located ConstDef => entry.value.chunks ++
      [sign .semi]) defs chunks)
    (hlater : (kinds later).head? ≠ some .ident) (hshows : c.Shows (chunks ++ later)) :
    Restores (constBlock deep scope) c (Regains defs later) :=
  restores_block h.1 hlisted (fun entry hmem _ _ hshows => gives_constEntry hdeep
    (h.2 entry hmem) hshows)
    (fun entry hmem => (h.2 entry hmem).namedThen) hlater hshows

/-! ## Nodes -/

theorem restores_localBlock (hdeep : deep.Rereads) {block : LocalBlock}
    (h : block.Writable printable) (hlater : Before localStarts later)
    (hshows : c.Shows (block.chunks ++ later)) :
    Restores (localBlock deep scope) c (Regains block later) := by
  cases block with
  | vars decls =>
      have hwords : c.Shows (sign .kwVar :: newline ::
          ((decls.flatMap fun decl => entry decl.value.chunks) ++ later)) := hshows
      have hend : ∀ kind ∈ [Kind.ident, .lParen], (kinds later).head? ≠ some kind := by
        intro kind hmem
        apply hlater.head_ne
        revert kind
        decide
      refine .eat_yes hwords.peek (.read (P := Regains decls later) ?_ fun read c' hread =>
        .pure ⟨congrArg LocalBlock.vars hread.1, hread.2⟩)
      refine gives_terminated h.1 (fun decl hmem c more hmore hshows => ?_)
        (fun decl hmem => (h.2 decl hmem).begins) hend hwords.pass_sign.gap
      exact gives_varDecl hdeep (h.2 decl hmem) (hmore.mono (by decide)) hshows
  | consts decls =>
      have hwords : c.Shows (sign .kwConst :: newline ::
          ((decls.flatMap fun decl => entry decl.value.chunks) ++ later)) := hshows
      have hvar : c.peek ≠ some .kwVar := by simp [hwords.peek]
      refine .eat_no hvar (.advance (.bind (P := Regains decls later) ?_ fun read c' hread =>
        .pure ⟨congrArg LocalBlock.consts hread.1, hread.2⟩))
      exact restores_constBlock hdeep h (.flatMap_entry decls) (hlater.head_ne (by decide))
        hwords.pass_sign.gap

/-- The local blocks of a node, in front of its `let`. -/
theorem restores_localBlocks (hdeep : deep.Rereads) {blocks : List (Located LocalBlock)}
    (h : ∀ block ∈ blocks, block.value.Writable printable)
    (hlater : (kinds later).head? = some .kwLet)
    (hshows : c.Shows ((blocks.flatMap fun block => block.value.chunks) ++ later)) :
    Restores (localBlocks deep scope) c (Regains blocks later) := by
  refine restores_listed (fun done => done) (Before localStarts) (.flatMap blocks)
    (fun block _ => ⟨block.value.begins.kinds_ne_nil, block.value.begins.append⟩)
    ⟨.kwLet, by decide, hlater⟩ (fun _ _ hgood => hgood) ?_ ?_ hshows
  · intro block hmem done c more hmore hshows
    have hread : Restores
        (do return ForInStep.yield (done ++ [← located (localBlock deep scope)])) c
        (StepKeeps (fun s c' => ∃ read, s = done ++ [read] ∧ Regains block more read c')
          (Regains blocks later)) :=
      .bind (restores_localBlock hdeep (h block hmem) hmore hshows).regainLocated
        fun read c' hread => .pure ⟨read, rfl, hread⟩
    cases hblock : block.value with
    | vars decls =>
        have hpeek : c.peek = some .kwVar := by rw [hshows.peek, hblock]; rfl
        exact .peekAs hpeek hread
    | consts decls =>
        have hpeek : c.peek = some .kwConst := by rw [hshows.peek, hblock]; rfl
        exact .peekAs hpeek hread
  · intro read c hread
    exact .peekAs (hread.2.peek.trans hlater) (.pure hread)

/-- What the header of a node goes on with after its profile. -/
def announced : NodeBody → NodeBody
  | .synonym target => .synonym target
  | _ => .missing

/-- What is left of a node behind its header. -/
def behindHeader : NodeBody → List Chunk
  | .synonym _ => []
  | body => body.chunks

omit [deep.Advances] in
theorem gives_synonymTarget (hdeep : deep.Rereads) {profile : Option Profile} {body : NodeBody}
    (h : body.Writable printable profile) (hshows : c.Shows (body.chunks ++ later)) :
    Gives (synonymTarget deep) c (Regains (announced body) (behindHeader body ++ later)) := by
  cases body with
  | definition own =>
      have hnone : c.peek ≠ some .eq := by simp [hshows.peek, NodeBody.chunks, line]
      refine .bind (P := fun target c' => target = none ∧ c'.Shows _)
        (.optionalAfter_none hnone ⟨rfl, hshows⟩) ?_
      rintro target c' ⟨rfl, hend⟩
      exact .pure ⟨rfl, hend⟩
  | synonym target =>
      have hwords : c.Shows (sign .eq :: blank :: (target.node.chunks ++
          (optionalArgs false target.args ++ (sign .semi :: newline :: later)))) := by
        simpa [NodeBody.chunks, NodeUse.chunks, line, assignment] using hshows.gap
      have huse := gives_nodeUse hdeep target.node target.args
        (fun list hlist arg hmem => h.2 list hlist arg hmem) (by simp) (by simp)
        hwords.pass_sign.blank
      refine .bind (P := Regains (some target) (sign .semi :: newline :: later))
        (.optionalAfter_some hwords.peek (huse.mono fun read c' hread => ⟨?_, hread.2⟩))
        fun read c' hread => ?_
      · show some (NodeUse.mk .nowhere read.node.strip (argsRebuild Expr.keep read.args)) =
          some (NodeUse.mk .nowhere target.node.strip (argsRebuild (Expr.settle false) target.args))
        rw [hread.1.1, hread.1.2]
      · cases read with
        | none => cases hread.1
        | some read =>
            refine .eat_yes hread.2.peek (.pure ⟨?_, hread.2.pass_sign.gap⟩)
            exact congrArg NodeBody.synonym (Option.some.inj hread.1)
  | missing => exact h.elim

omit [deep.Advances] in
/-- The header of a node, which is kept if the limit on nesting breaks it off. -/
theorem restores_nodeHeader (hdeep : deep.Rereads) {decl : NodeDecl} (h : decl.Writable printable)
    (head : NodeHead)
    (hshows : c.Shows (StaticParam.list decl.params ++
      (profileChunks decl.profile ++ (decl.body.chunks ++ later)))) :
    Restores (nodeHeader deep head) c (Unbroken fun read c' => ∃ params profile body,
      read = ⟨head, params, profile, body⟩ ∧
      rebuild Expr.keep params = rebuild (Expr.settle false) decl.params ∧
      rebuild Expr.keep profile = rebuild (Expr.settle false) decl.profile ∧
      Regains (announced decl.body) (behindHeader decl.body ++ later) body c') := by
  have hbody := decl.body.begins.append later
  have hprofile : Before [.lParen, .semi, .eq]
      (profileChunks decl.profile ++ (decl.body.chunks ++ later)) := profileChunks_begin _ hbody
  refine .caughtRead (gives_optionalParams hdeep h.params (hprofile.head_ne (by decide)) hshows)
    (fun params c₁ hparams => ?_) fun e c₁ he => .pure he
  refine .caughtRead (P := Regains decl.profile (decl.body.chunks ++ later)) ?_
    (fun profile c₂ hprofile => ?_) fun e c₂ he => .pure he
  · have hwords := hparams.2
    cases hread : decl.profile with
    | none =>
        rw [hread, profileChunks, List.nil_append] at hwords
        have hopen : c₁.peek ≠ some .lParen := hwords.peek ▸ hbody.head_ne (by decide)
        exact .optionalAt_none hopen ⟨by rw [rebuild_none, rebuild_none], hwords⟩
    | some profile =>
        rw [hread] at hwords
        have hopen : c₁.peek = some .lParen := by
          rw [hwords.peek]
          simp [profileChunks, Profile.chunks, Profile.params, between]
        exact .optionalAt_some hopen ((gives_profile hdeep (h.profile profile hread) hwords).mono
          fun read c₂ hread => ⟨congrArg some hread.1, hread.2⟩)
  · refine .caughtRead (gives_synonymTarget hdeep h.body hprofile.2) (fun body c₃ hbody => ?_)
      fun e c₃ he => .pure he
    exact .pure ⟨params, profile, body, rfl, hparams.1, hprofile.1, hbody⟩

omit [deep.Advances] in
/-- The mark that may stand behind a `tel` is not printed. -/
theorem restores_endMark (hlater : EndsDeclaration later) (hshows : c.Shows later) :
    Restores endMark c fun _ c' => c'.Shows later := by
  have hsemi : c.peek ≠ some .semi := hshows.peek ▸ hlater.head_ne (by decide)
  have hdot : c.peek ≠ some .dot := hshows.peek ▸ hlater.head_ne (by decide)
  exact .eat_no hsemi (.eat_no hdot (.pure hshows))

theorem restores_nodeDefinition (hdeep : deep.Rereads) {own : NodeDefinition}
    (h : own.Writable printable) (head : NodeHead) (params : Option (List (Located StaticParam)))
    (profile : Option Profile) (hlater : EndsDeclaration later)
    (hshows : c.Shows ((NodeBody.definition own).chunks ++ later)) :
    Restores (nodeDefinition deep scope ⟨head, params, profile, .missing⟩) c
      (Unbroken fun read c' => ∃ body, read = ⟨head, params, profile, body⟩ ∧
        Regains (.definition own) later body c') := by
  have hwords : c.Shows (sign .semi :: newline ::
      ((own.locals.flatMap fun block => block.value.chunks) ++ (sign .kwLet :: newline ::
        ((own.equations.flatMap fun equation => equation.value.chunks) ++
          (line [sign .kwTel] ++ later))))) := by
    simpa [NodeBody.chunks, NodeDefinition.chunks, line] using hshows
  refine .caught (P := Regains own.locals ((own.equations.flatMap fun equation =>
    equation.value.chunks) ++ (line [sign .kwTel] ++ later))) ?_ (fun locals c₁ hlocals => ?_)
    fun e c₁ he => .pure he
  · refine .eat_yes hwords.peek
      (.bind (restores_localBlocks hdeep h.locals rfl hwords.pass_sign.gap)
      fun locals c₁ hread => ?_)
    exact .expect hread.2.peek fun _ => .pure ⟨hread.1, hread.2.pass_sign.gap⟩
  · refine .bind (restores_equations hdeep h.equations hlocals.2) fun read c₂ hequations => ?_
    obtain ⟨equations, failure⟩ := read
    cases failure with
    | some e => exact .pure hequations
    | none =>
        refine .bind (restores_endMark hlater hequations.2) fun _ c₃ hend =>
          .pure ⟨_, rfl, ?_, hend⟩
        show NodeBody.definition ⟨rebuild Expr.keep locals, rebuild Expr.keep equations⟩ =
          NodeBody.definition ⟨_, _⟩
        rw [hlocals.1, hequations.1]

/-- What follows the header of a node. -/
theorem restores_nodeTail (hdeep : deep.Rereads) {decl : NodeDecl} (h : decl.Writable printable)
    (head : NodeHead) (params : Option (List (Located StaticParam))) {profile : Option Profile}
    {body : NodeBody}
    (hprofile : rebuild Expr.keep profile = rebuild (Expr.settle false) decl.profile)
    (hlater : EndsDeclaration later)
    (hbody : Regains (announced decl.body) (behindHeader decl.body ++ later) body c) :
    Restores (nodeTail deep scope ⟨head, params, profile, body⟩) c
      (Unbroken fun read c' => ∃ body, read = ⟨head, params, profile, body⟩ ∧
        Regains decl.body later body c') := by
  obtain ⟨hread, hshows⟩ := hbody
  have hform := h.body
  cases hown : decl.body with
  | definition own =>
      rw [hown] at hread hshows hform
      -- the header alone has given no body yet
      obtain rfl : body = .missing := by
        cases body with
        | missing => rfl
        | definition | synonym => cases hread
      cases profile with
      | none =>
          obtain ⟨own, hsome⟩ := Option.isSome_iff_exists.mp hform.1
          rw [hsome] at hprofile
          cases hprofile
      | some profile =>
          exact .get fun log => restores_nodeDefinition hdeep hform.2 head params _ hlater hshows
  | synonym target =>
      rw [hown] at hread hshows
      cases body with
      | synonym own =>
          have hvar : c.isAt .kwVar = false := hshows.isAt_eq_false (hlater.head_ne (by decide))
          have hlet : c.isAt .kwLet = false := hshows.isAt_eq_false (hlater.head_ne (by decide))
          refine .get fun log => ?_
          dsimp only
          rw [if_neg (by simp [hvar, hlet])]
          exact .pure ⟨_, rfl, hread, hshows⟩
      | definition | missing => cases hread
  | missing =>
      rw [hown] at hform
      exact hform.elim

theorem restores_node (hdeep : deep.Rereads) {decl : NodeDecl} (h : decl.Writable printable)
    (hlater : EndsDeclaration later) (hshows : c.Shows (decl.chunks ++ later)) :
    Restores (node deep scope) c (Regains decl later) := by
  rw [NodeDecl.chunks_eq, List.append_assoc, List.append_assoc, List.append_assoc] at hshows
  have hbehind := StaticParam.list_begin decl.params
    (profileChunks_begin decl.profile (decl.body.begins.append later))
  refine .read (gives_nodeHead h.name (hbehind.head_ne (by decide)) hshows) fun head c₁ hhead => ?_
  refine .bind (restores_nodeHeader hdeep h head hhead.2) fun read c₂ hheader => ?_
  obtain ⟨read, failure⟩ := read
  cases failure with
  | some e => exact .report hheader
  | none =>
      obtain ⟨params, profile, body, rfl, hparams, hprofile, hbody⟩ := hheader
      refine .bind (restores_nodeTail hdeep h head params hprofile hlater hbody)
        fun read c₃ htail => ?_
      obtain ⟨read, failure⟩ := read
      cases failure with
      | some e => exact .report htail
      | none =>
          obtain ⟨body, rfl, hbody⟩ := htail
          refine .pure ⟨?_, hbody.2⟩
          show NodeDecl.mk head.strip (rebuild Expr.keep params) (rebuild Expr.keep profile)
            (rebuild Expr.keep body) = NodeDecl.mk decl.head.strip _ _ _
          have hstrip : head.strip = decl.head.strip := hhead.1
          rw [hstrip, hparams, hprofile, hbody.1]

omit [deep.Advances] in
theorem gives_externalNode (hdeep : deep.Rereads) {node : ExternalNode}
    (h : node.Writable printable)
    (hshows : c.Shows (node.chunks ++ later)) :
    Gives (externalNode deep) c (Regains node later) := by
  obtain ⟨⟨isUnsafe, kind, name⟩, profile⟩ := node
  have hwords : c.Shows (unsafeSign isUnsafe ++ (sign .kwExtern :: blank :: sign kind.symbol ::
      blank :: (name.chunks ++ (profile.chunks ++ (sign .semi :: newline :: later))))) := by
    simpa [ExternalNode.chunks, NodeHead.chunks, line] using hshows
  refine .unsafeSign isUnsafe (by simp) hwords fun c₁ hexternal => ?_
  refine .expect hexternal.peek fun _ => ?_
  refine (gives_nodeKind kind hexternal.pass_sign.blank).bind fun readKind c₂ hkind => ?_
  refine (gives_ident h.name (by simp [Profile.chunks, Profile.params, between]) hkind.2.blank).bind
    fun readName c₃ hname => ?_
  refine (gives_profile hdeep h.profile hname.2).bind fun readProfile c₄ hprofile => ?_
  refine .eat_yes hprofile.2.peek (.pure ⟨?_, hprofile.2.pass_sign.gap⟩)
  show ExternalNode.mk ⟨isUnsafe, readKind, readName.strip⟩ (rebuild Expr.keep readProfile) =
    ExternalNode.mk ⟨isUnsafe, kind, name.strip⟩ _
  rw [hkind.1, hname.1, hprofile.1]

/-! ## Declarations -/

theorem restores_declaration (hdeep : deep.Rereads) {decl : Located Declaration}
    (h : decl.value.Writable printable) (hlater : EndsDeclaration later)
    (hshows : c.Shows (decl.value.chunks ++ later)) :
    Restores (declaration deep scope) c (Regains decl later) := by
  obtain ⟨decl, span⟩ := decl
  apply Restores.regainLocated
  have hident : (kinds later).head? ≠ some .ident := hlater.head_ne (by decide)
  refine .get fun log => ?_
  dsimp only
  cases decl with
  | node decl =>
      have hread : Restores (do return Declaration.node (← node deep scope)) c
          (Regains (.node decl) later) :=
        (restores_node hdeep h hlater hshows).bind fun read c' hread =>
          .pure ⟨congrArg Declaration.node hread.1, hread.2⟩
      have hpeek := hshows.peek
      have hahead := hshows.peekAt 1
      obtain ⟨⟨isUnsafe, kind, name⟩, params, profile, body⟩ := decl
      -- an `unsafe` in front hides the word that decides, so the reader looks one word farther
      cases isUnsafe with
      | true =>
          have hdanger : c.peek = some .kwUnsafe := hpeek
          have hexternal : c.peekAt 1 ≠ some .kwExtern := by
            have hkind : c.peekAt 1 = some kind.symbol := hahead
            rw [hkind]
            cases kind <;> decide
          rw [hdanger]
          dsimp only
          rw [if_neg hexternal]
          exact hread
      | false =>
          cases kind with
          | node =>
              have hnode : c.peek = some .kwNode := hpeek
              rw [hnode]
              exact hread
          | function =>
              have hfunction : c.peek = some .kwFunction := hpeek
              rw [hfunction]
              exact hread
  | external node =>
      have hread : Restores
          (do return Declaration.external (← (externalNode deep : Read ExternalNode)))
          c (Regains (.external node) later) :=
        .read (gives_externalNode hdeep h hshows) fun read c' hread =>
          .pure ⟨congrArg Declaration.external hread.1, hread.2⟩
      have hpeek := hshows.peek
      have hahead := hshows.peekAt 1
      obtain ⟨⟨isUnsafe, kind, name⟩, profile⟩ := node
      cases isUnsafe with
      | true =>
          have hdanger : c.peek = some .kwUnsafe := hpeek
          have hexternal : c.peekAt 1 = some .kwExtern := hahead
          rw [hdanger]
          dsimp only
          rw [if_pos hexternal]
          exact hread
      | false =>
          have hexternal : c.peek = some .kwExtern := hpeek
          rw [hexternal]
          exact hread
  | types defs =>
      obtain ⟨chunks, hblock, hlisted⟩ :=
        exists_listed_block .kwType (fun entry : Located TypeDef => entry.value.chunks) defs
      rw [Declaration.chunks, hblock] at hshows
      rw [hshows.peek]
      exact .advance ((restores_typeBlock hdeep h hlisted hident hshows.pass_sign).bind
        fun read c' hread => .pure ⟨congrArg Declaration.types hread.1, hread.2⟩)
  | consts defs =>
      obtain ⟨chunks, hblock, hlisted⟩ :=
        exists_listed_block .kwConst (fun entry : Located ConstDef => entry.value.chunks) defs
      rw [Declaration.chunks, hblock] at hshows
      rw [hshows.peek]
      exact .advance ((restores_constBlock hdeep h hlisted hident hshows.pass_sign).bind
        fun read c' hread => .pure ⟨congrArg Declaration.consts hread.1, hread.2⟩)
  | error => exact h.elim

end Recover

end Lustre
