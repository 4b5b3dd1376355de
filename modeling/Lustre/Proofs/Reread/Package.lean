import Lustre.Proofs.Reader.Program
import Lustre.Proofs.Reread.Declaration
import Lustre.Proofs.Reread.NamedArg

/-!
# Packages and models, read back

A body ends at its `end`, and the parameters of a model where none of the words that begin one is
to come.  An instance of a package has no body, so none may follow it: behind an item
another begins or the text ends.
-/

namespace Lustre

open Chunk

/-! ## How bodies and models are printed -/

theorem Declaration.Writable.isError_eq_false {decl : Declaration} (h : decl.Writable printable) :
    decl.isError = false := by
  cases decl with
  | error => exact h.elim
  | _ => rfl

/-- Every declaration that is printed is read. -/
theorem listed_bodyChunks {decls : List (Located Declaration)}
    (h : ∀ decl ∈ decls, decl.value.Writable printable) :
    Listed (fun decl : Located Declaration => decl.value.chunks) decls (bodyChunks decls) := by
  cases decls with
  | nil => exact .nil
  | cons first rest =>
      have hkept : (rest.filter fun decl => !decl.value.isError) = rest := by
        refine List.filter_eq_self.mpr fun decl hmem => ?_
        rw [(h decl (List.mem_cons_of_mem _ hmem)).isError_eq_false]
        rfl
      rw [bodyChunks, hkept]
      exact .cons (.flatMap_newline rest)

/-- Prints the parameters of a model. -/
def needsChunks (needs : List (Located StaticParam)) : List Chunk :=
  line [sign .kwNeeds] ++ needs.flatMap fun param => entry param.value.chunks

/-- A model has parameters. -/
theorem Model.Writable.chunks_eq {model : Model} (h : model.Writable printable) : model.chunks =
    line ([sign .kwModel, blank] ++ model.name.chunks) ++ (usesChunks model.uses ++
      (needsChunks model.needs ++ (providesChunks model.provides ++ bodyLines model.decls))) := by
  obtain ⟨name, uses, needs, provides, decls⟩ := model
  obtain ⟨param, needs, rfl⟩ := List.exists_cons_of_ne_nil h.nonempty
  simp [Model.chunks, needsChunks]

namespace Recover

variable {deep : Nested} [deep.Advances] {c : Cursor} {later : List Chunk}

/-! ## Bodies -/

/-- The words that a declaration in a body begins with, and the one behind all of them. -/
def bodyStarts : List Kind := .kwEnd :: declarationStarts

/-- The declarations of a body and its `end`. -/
theorem restores_bodyDeclarations (hdeep : deep.Rereads) {decls : List (Located Declaration)}
    (h : ∀ decl ∈ decls, decl.value.Writable printable)
    (hshows : c.Shows (bodyChunks decls ++ (line [sign .kwEnd] ++ later))) :
    Restores (bodyDeclarations deep) c (Unbroken (Regains decls later)) := by
  refine restores_listed (fun done => (done, none)) (Before bodyStarts) (listed_bodyChunks h)
    (fun decl hmem => ⟨(h decl hmem).begins.kinds_ne_nil, fun more =>
      ((h decl hmem).begins.append more).mono (List.subset_cons_self _ _)⟩)
    ⟨.kwEnd, by decide, rfl⟩ (fun _ _ hgood => hgood) ?_ ?_ hshows
  · intro decl hmem done c more hmore hshows
    have hbegin := (h decl hmem).begins.append more
    have hend : c.peek ≠ some .kwEnd := hshows.peek ▸ hbegin.head_ne (by decide)
    obtain ⟨kind, hkind, hhead⟩ := hbegin
    have hplain : ∀ kind ∈ declarationStarts, ¬(kind = .kwPackage ∨ kind = .kwModel) := by decide
    have hstart : declarationStarts.contains kind = true := by simpa using hkind
    refine .get fun log => .halted (.eat_no hend ?_)
    rw [hshows.peek, hhead]
    dsimp only
    rw [if_neg (hplain kind hkind), if_pos hstart]
    refine .caught (restores_declaration hdeep (h decl hmem)
      (hmore.endsDeclaration (by decide)) hshows)
      (fun read c' hread => .pure ⟨read, rfl, hread⟩) fun e c' he => .report he
  · intro read c hread
    have hend : c.Shows (sign .kwEnd :: newline :: later) := hread.2
    refine .get fun log => .halted ?_
    exact .eat_yes hend.peek (.pure ⟨hread.1, hend.pass_sign.gap⟩)

theorem restores_body (hdeep : deep.Rereads) {decls : List (Located Declaration)}
    (h : ∀ decl ∈ decls, decl.value.Writable printable)
    (hshows : c.Shows (bodyLines decls ++ later)) :
    Restores (body deep) c (Unbroken (Regains decls later)) := by
  have hwords : c.Shows (sign .kwBody :: newline ::
      (bodyChunks decls ++ (line [sign .kwEnd] ++ later))) := by
    simpa [bodyLines, line] using hshows
  exact .caughtAfter (Read.expect_of_peek hwords.peek)
    (restores_bodyDeclarations hdeep h hwords.pass_sign.gap)

/-! ## Packages -/

omit [deep.Advances] in
/-- A package that instantiates a model, behind the word that says so. -/
theorem restores_instantiation (hdeep : deep.Rereads) {model : Ident} {brackets : Brackets}
    {args : List (Located NamedArg)} (hmodel : model.Printable)
    (hargs : ∀ arg ∈ args, arg.value.Writable printable) (name : Ident) (linking : InstanceWord)
    (hlater : EndsDeclaration later)
    (hshows : c.Shows (model.chunks ++ (NamedArg.list brackets args ++
      (sign .semi :: newline :: later)))) :
    Restores (instantiation deep name linking) c
      (Regains ⟨name, .instantiated linking model brackets args⟩ later) := by
  have hpragma : (kinds (NamedArg.list brackets args ++
      (sign .semi :: newline :: later))).head? ≠ some .pragma := by
    cases brackets <;> simp [NamedArg.list, between]
  refine .read (gives_ident hmodel hpragma hshows) fun readModel c₁ hread => ?_
  refine .read (gives_modelArgs hdeep hargs hread.2) fun readArgs c₂ hreadArgs => ?_
  obtain ⟨readBrackets, readArgs⟩ := readArgs
  obtain ⟨rfl, hreadArgs⟩ := hreadArgs
  refine .expect hreadArgs.2.peek fun _ => .get fun log => ?_
  have hend : c₂.pass.Shows later := hreadArgs.2.pass_sign.gap
  have hbody : c₂.pass.isAt .kwBody = false := hend.isAt_eq_false (hlater.head_ne (by decide))
  dsimp only
  rw [if_neg (by simp [hbody])]
  refine .pure ⟨?_, hend⟩
  show Package.mk name.strip (.instantiated linking readModel.strip readBrackets
    (rebuild Expr.keep readArgs)) = Package.mk name.strip (.instantiated _ model.strip _ _)
  rw [hread.1, hreadArgs.1]

omit [deep.Advances] in
theorem gives_instanceWord
    (linking : InstanceWord) (hshows : c.Shows (sign linking.symbol :: later)) :
    Gives instanceWord c fun read c' => read = some linking ∧ c'.Shows later := by
  cases linking with
  | eq => exact .eat_yes hshows.peek (.pure ⟨rfl, hshows.pass_sign⟩)
  | isWord =>
      have hother : c.peek ≠ some .eq := by simp [hshows.peek, InstanceWord.symbol]
      exact .eat_no hother (.eat_yes hshows.peek (.pure ⟨rfl, hshows.pass_sign⟩))

/-- The words that what a package or a model holds may begin with. -/
def contentStarts : List Kind := [.kwUses, .kwProvides, .kwBody]

omit [deep.Advances] in
theorem before_provides (provides : Option (List (Located Provide)))
    (decls : List (Located Declaration)) (later : List Chunk) :
    Before [.kwProvides, .kwBody] (providesChunks provides ++ (bodyLines decls ++ later)) := by
  cases provides with
  | none => exact ⟨.kwBody, by decide, rfl⟩
  | some provides => exact ⟨.kwProvides, by decide, rfl⟩

theorem restores_package (hdeep : deep.Rereads) {package : Package} (h : package.Writable printable)
    (hlater : EndsDeclaration later) (hshows : c.Shows (package.chunks ++ later)) :
    Restores (Recover.package deep) c (Regains package later) := by
  obtain ⟨name, body⟩ := package
  have hname : name.Printable := h.name
  have hbody := h.body
  cases body with
  | definition uses provides decls =>
      have hwords : c.Shows (sign .kwPackage :: blank :: (name.chunks ++ (newline ::
          (usesChunks uses ++ (providesChunks provides ++ (bodyLines decls ++ later)))))) := by
        simpa [Package.chunks] using hshows
      have hprovides := before_provides provides decls later
      -- behind the name comes neither `=` nor `is`, so this is no instance of a model
      have huses : Before contentStarts (newline ::
          (usesChunks uses ++ (providesChunks provides ++ (bodyLines decls ++ later)))) := by
        cases uses with
        | nil => exact hprovides.mono (by decide)
        | cons use uses => exact ⟨.kwUses, by decide, rfl⟩
      refine .expect hwords.peek fun _ => ?_
      refine .read (gives_ident hname (huses.head_ne (by decide)) hwords.pass_sign.blank)
        fun readName c₁ hreadName => ?_
      have hinside := hreadName.2.gap
      have heq : c₁.peek ≠ some .eq := hinside.peek ▸ huses.head_ne (by decide)
      have his : c₁.peek ≠ some .kwIs := hinside.peek ▸ huses.head_ne (by decide)
      refine .read (P := fun word c' => word = none ∧ c' = c₁)
        (.eat_no heq (.eat_no his (.pure ⟨rfl, rfl⟩))) ?_
      rintro _ _ ⟨rfl, rfl⟩
      refine .read (gives_uses hbody.1 (hprovides.head_ne (by decide)) hinside)
        fun readUses c₂ hreadUses => ?_
      refine .read (gives_provides hdeep hbody.2.1 rfl hreadUses.2) fun readProvides c₃ hread => ?_
      refine .bind (restores_body hdeep hbody.2.2 hread.2) fun readDecls c₄ hreadDecls => ?_
      obtain ⟨readDecls, failure⟩ := readDecls
      cases failure with
      | some e => exact .report hreadDecls
      | none =>
          refine .bindPure (.pure ⟨?_, hreadDecls.2⟩)
          show Package.mk readName.strip (.definition (rebuild Expr.keep readUses)
            (rebuild Expr.keep readProvides) (rebuild Expr.keep readDecls)) =
              Package.mk name.strip (.definition _ _ _)
          rw [hreadName.1, hreadUses.1, hread.1, hreadDecls.1]
  | instantiated linking model brackets args =>
      have hwords : c.Shows (sign .kwPackage :: blank :: (name.chunks ++ (blank ::
          sign linking.symbol :: blank :: (model.chunks ++ (NamedArg.list brackets args ++
            (sign .semi :: newline :: later)))))) := by
        simpa [Package.chunks, line] using hshows
      have hpragma : linking.symbol ≠ .pragma := by cases linking <;> decide
      refine .expect hwords.peek fun _ => ?_
      refine .read (gives_ident hname (by simpa using hpragma) hwords.pass_sign.blank)
        fun readName c₁ hreadName => ?_
      refine .read (gives_instanceWord linking hreadName.2.blank) ?_
      rintro _ c₂ ⟨rfl, hmodel⟩
      refine (restores_instantiation hdeep hbody.1 hbody.2 readName linking hlater
        hmodel.blank).mono fun read c₃ hread => ⟨?_, hread.2⟩
      have hstrip : readName.strip = name.strip := hreadName.1
      rw [hread.1]
      show Package.mk readName.strip _ = Package.mk name.strip _
      rw [hstrip]
  | missing => exact hbody.elim

/-! ## Models -/

/-- The words that a parameter of a model begins with. -/
def paramStarts : List Kind := [.kwType, .kwConst, .kwNode, .kwFunction, .kwUnsafe]

/-- The parameters of a model, behind the word `needs`. -/
theorem restores_needs (hdeep : deep.Rereads) {params : List (Located StaticParam)}
    (hnil : params ≠ []) (h : ∀ param ∈ params, param.value.Writable printable)
    (hlater : ∀ kind ∈ paramStarts, (kinds later).head? ≠ some kind)
    (hshows : c.Shows ((params.flatMap fun param => entry param.value.chunks) ++ later)) :
    Restores (needs deep) c (Unbroken (Regains params later)) := by
  have hstop : ¬Before paramStarts later := fun ⟨kind, hmem, hhead⟩ => hlater kind hmem hhead
  refine (loopRestores_going (fun done => (done, none)) (Before paramStarts)
    (fun _ _ hread => hread) hstop (fun _ _ => Iff.rfl) (.flatMap_entry params) hnil
    (fun param _ => ⟨by simp, fun more => (param.value.begins.append _).append more⟩) ?_ rfl
    hshows).iterate
  intro param hmem done c more hshows
  have hwords : c.Shows (param.value.chunks ++ (sign .semi :: more)) := by simpa using hshows
  refine .caughtRead (gives_staticParam hdeep (h param hmem) ⟨.semi, by decide, rfl⟩ hwords)
    (fun read c' hread => ?_) fun e c' he => .pure (.inl he)
  refine .caughtAfter (Read.expect_of_peek hread.2.peek) (.peekAs hread.2.pass_sign.peek ?_)
  split
  · rename_i hgo
    exact .pure ⟨(Before.any_iff _ _).mp hgo, read, rfl, hread.1, hread.2.pass_sign⟩
  · rename_i hend
    exact .pure (.inr ⟨mt (Before.any_iff _ _).mpr hend, read, rfl, hread.1, hread.2.pass_sign⟩)

/-- What follows the parameters of a model. -/
theorem restores_modelContents (hdeep : deep.Rereads) {model : Model} (h : model.Writable printable)
    (name : Ident) (uses : List Ident) (needs : List (Located StaticParam))
    (hshows : c.Shows (providesChunks model.provides ++ (bodyLines model.decls ++ later))) :
    Restores (modelContents deep name uses (needs, none)) c (Unbroken fun read c' =>
      ∃ provides decls, read = ⟨name, uses, needs, provides, decls⟩ ∧
        rebuild Expr.keep provides = rebuild (Expr.settle false) model.provides ∧
        Regains model.decls later decls c') := by
  refine .caughtRead (gives_provides hdeep h.provides rfl hshows) (fun provides c₁ hprovides => ?_)
    fun e c₁ he => .pure he
  refine .bind (restores_body hdeep h.decls hprovides.2) fun read c₂ hbody => ?_
  obtain ⟨decls, failure⟩ := read
  cases failure with
  | some e => exact .pure hbody
  | none => exact .pure ⟨provides, decls, rfl, hprovides.1, hbody⟩

theorem restores_modelTail (hdeep : deep.Rereads) {model : Model} (h : model.Writable printable)
    (name : Ident) (hshows : c.Shows (usesChunks model.uses ++ (needsChunks model.needs ++
      (providesChunks model.provides ++ (bodyLines model.decls ++ later))))) :
    Restores (modelTail deep name) c (Unbroken (Regains { model with name := name } later)) := by
  have hinside := before_provides model.provides model.decls later
  have hstop : ∀ kind ∈ paramStarts, (kinds (providesChunks model.provides ++
      (bodyLines model.decls ++ later))).head? ≠ some kind := by
    intro kind hmem
    apply hinside.head_ne
    revert kind
    decide
  refine .caughtRead (gives_uses h.uses (by simp [needsChunks, line]) hshows)
    (fun uses c₁ huses => ?_)
    fun e c₁ he => .pure he
  have hneeds : c₁.Shows (sign .kwNeeds :: newline ::
      ((model.needs.flatMap fun param => entry param.value.chunks) ++
        (providesChunks model.provides ++ (bodyLines model.decls ++ later)))) := huses.2
  refine .bind (.eat_yes hneeds.peek
    (restores_needs hdeep h.nonempty h.needs hstop hneeds.pass_sign.gap)) fun read c₂ hread => ?_
  obtain ⟨needs, failure⟩ := read
  cases failure with
  | some e => exact .pure hread
  | none =>
      refine (restores_modelContents hdeep h name uses needs hread.2).mono fun whole c₃ hwhole => ?_
      obtain ⟨whole, failure⟩ := whole
      cases failure with
      | some e => exact hwhole
      | none =>
          obtain ⟨provides, decls, rfl, hprovides, hdecls⟩ := hwhole
          refine ⟨?_, hdecls.2⟩
          show Model.mk name.strip (rebuild Expr.keep uses) (rebuild Expr.keep needs)
            (rebuild Expr.keep provides) (rebuild Expr.keep decls) = Model.mk name.strip _ _ _ _
          rw [huses.1, hread.1, hprovides, hdecls.1]

theorem restores_model (hdeep : deep.Rereads) {model : Model} (h : model.Writable printable)
    (hshows : c.Shows (model.chunks ++ later)) :
    Restores (Recover.model deep) c (Regains model later) := by
  have hwords : c.Shows (sign .kwModel :: blank :: (model.name.chunks ++ (newline ::
      (usesChunks model.uses ++ (needsChunks model.needs ++
        (providesChunks model.provides ++ (bodyLines model.decls ++ later))))))) := by
    rw [h.chunks_eq] at hshows
    simpa [line] using hshows
  have huses : Before [.kwUses, .kwNeeds] (newline :: (usesChunks model.uses ++
      (needsChunks model.needs ++ (providesChunks model.provides ++
        (bodyLines model.decls ++ later))))) := by
    cases model.uses with
    | nil => exact ⟨.kwNeeds, by decide, rfl⟩
    | cons use uses => exact ⟨.kwUses, by decide, rfl⟩
  refine .expect hwords.peek fun _ => ?_
  refine .read (gives_ident h.name (huses.head_ne (by decide)) hwords.pass_sign.blank)
    fun name c₁ hname => ?_
  refine .bind (restores_modelTail hdeep h name hname.2.gap) fun read c₂ hread => ?_
  obtain ⟨read, failure⟩ := read
  cases failure with
  | some e => exact .report hread
  | none =>
      refine .pure ⟨?_, hread.2⟩
      have hstrip : name.strip = model.name.strip := hname.1
      rw [hread.1]
      show Model.mk name.strip _ _ _ _ = Model.mk model.name.strip _ _ _ _
      rw [hstrip]

end Recover

end Lustre
