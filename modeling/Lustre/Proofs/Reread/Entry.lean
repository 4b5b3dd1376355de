import Lustre.Proofs.Reread.Signature

/-!
# Types, constants and provisions, read back

The entries of blocks end with a semicolon.  Which form an entry has is told by the word behind
its name, or by the word that it begins with.
-/

namespace Lustre

open Chunk

variable {deep : Nested} {later : List Chunk} {c : Cursor}

/-! ## Types and constants -/

/-- A value that may be absent, after `=`. -/
theorem gives_optionalValue (hdeep : deep.Rereads) {value : Option Expr}
    (h : ∀ init, value = some init → init.Printable false) (hlater : Before [.semi, .rBrace] later)
    (hshows : c.Shows (optionalValue value ++ later)) :
    Gives (Read.optionalAfter .eq deep.expr) c (Regains value later) := by
  cases value with
  | none => exact .optionalAfter_none (hshows.peek ▸ hlater.head_ne (by decide)) ⟨rfl, hshows⟩
  | some value =>
      have heq : c.Shows (sign .eq :: blank :: (value.chunks false 0 ++ later)) := hshows.blank
      refine .optionalAfter_some heq.peek ?_
      refine (gives_value hdeep (h value rfl) (hlater.demand_eq (by decide))
        heq.pass_sign.blank).mono
        fun read c' hread => ⟨congrArg some hread.1, hread.2⟩

/-- What follows the type of a declaration that may go on with a value. -/
theorem before_optionalValue (value : Option Expr) (hlater : Before [.semi, .rBrace] later) :
    Before typeEnds (optionalValue value ++ later) := by
  cases value with
  | none => exact hlater.mono (by decide)
  | some value => exact ⟨.eq, by decide, rfl⟩

theorem gives_fieldDecl (hdeep : deep.Rereads) {decl : Located FieldDecl}
    (h : decl.value.Writable printable) (hlater : Before [.semi, .rBrace] later)
    (hshows : c.Shows (decl.value.chunks ++ later)) :
    Gives (Read.fieldDecl deep) c (Regains decl later) := by
  obtain ⟨⟨names, type, value⟩, span⟩ := decl
  apply Gives.regainLocated
  rw [FieldDecl.chunks, List.append_assoc, List.append_assoc] at hshows
  have hcolon : Before [.colon] (typing type ++ (optionalValue value ++ later)) :=
    ⟨.colon, by simp, rfl⟩
  refine (gives_names h.names (by simp) (by simp) hcolon hshows).bind fun readNames c₁ hnames => ?_
  refine .expect hnames.2.peek fun _ => ?_
  refine (gives_type hdeep h.type (before_optionalValue value hlater) hnames.2.pass_sign.blank).bind
    fun readType c₂ htype => ?_
  have hvalue : ∀ init, value = some init → init.Printable false :=
    fun init hinit => (h.default init hinit).1
  cases value with
  | none =>
      have hnone : c₂.peek ≠ some .eq := htype.2.peek ▸ hlater.head_ne (by decide)
      refine .isAt_no hnone (.pure ⟨?_, htype.2⟩)
      show FieldDecl.mk (rebuild Expr.keep readNames) (rebuild Expr.keep readType) none =
        FieldDecl.mk _ _ none
      rw [hnames.1, htype.1]
  | some value =>
      have heq : c₂.Shows (sign .eq :: blank :: (value.chunks false 0 ++ later)) := htype.2.blank
      -- only a single name may have a value
      have hsingle : ¬readNames.length > 1 := by
        have hlength : (readNames.map Ident.strip).length = (names.map Ident.strip).length :=
          congrArg List.length hnames.1
        rw [List.length_map, List.length_map, (h.default value rfl).2] at hlength
        omega
      refine .isAt_yes heq.peek ?_
      rw [if_neg hsingle]
      refine .advance ?_
      refine (gives_value hdeep (hvalue value rfl) (hlater.demand_eq (by decide))
        heq.pass_sign.blank).bind fun read c₃ hread => .pure ⟨?_, hread.2⟩
      show FieldDecl.mk (rebuild Expr.keep readNames) (rebuild Expr.keep readType)
        (some (rebuild Expr.keep read)) = FieldDecl.mk _ _ (some _)
      rw [hnames.1, htype.1, hread.1]

theorem FieldDecl.Writable.begins {decl : FieldDecl} (h : decl.Writable printable) :
    Before [.ident] decl.chunks :=
  (h.names.begins.append _).append _

/-- The fields of a record type, in braces. -/
theorem gives_fieldDecls (hdeep : deep.Rereads) {fields : List (Located FieldDecl)}
    (h : ∀ decl ∈ fields, decl.value.Writable printable)
    (hshows : c.Shows (sign .lBrace :: blank ::
      (separate .semi (fields.map fun decl => decl.value.chunks) ++
        (blank :: sign .rBrace :: later)))) :
    Gives (Read.fieldDecls deep) c (Regains fields later) := by
  refine .expect hshows.peek fun _ => ?_
  refine .bind (gives_separated (rebuild Expr.keep) (rebuild (Expr.settle false)) (by decide)
    (by decide) ?_ ?_ rfl hshows.pass_sign.blank) fun read c' hread => ?_
  · intro decl hmem c more hmore hshows
    exact gives_fieldDecl hdeep (h decl hmem) hmore hshows
  · exact fun decl hmem => (h decl hmem).begins.other (by decide)
  · exact .expect hread.2.peek fun _ => .pure ⟨hread.1, hread.2.blank.pass_sign⟩

theorem gives_typeBody (hdeep : deep.Rereads) {body : Located TypeBody}
    (h : body.value.Writable printable) (hlater : Before [.semi] later)
    (hshows : c.Shows (body.value.chunks ++ later)) :
    Gives (Read.typeBody deep) c (Regains body later) := by
  obtain ⟨body, span⟩ := body
  apply Gives.regainLocated
  cases body with
  | synonym type =>
      have hread : Gives (do return TypeBody.synonym (← Read.typeExpr deep)) c
          (Regains (TypeBody.synonym type) later) :=
        (gives_type hdeep h (hlater.mono (by decide)) hshows).bind fun read c' hread =>
          .pure ⟨congrArg TypeBody.synonym hread.1, hread.2⟩
      -- a type begins with none of the words that begin the other bodies
      obtain ⟨kind, hmem, hhead⟩ := type.begins.append later
      refine .peekAs (hshows.peek.trans hhead) ?_
      simp only [List.mem_cons, List.not_mem_nil, or_false] at hmem
      rcases hmem with rfl | rfl | rfl | rfl <;> exact hread
  | enumeration names =>
      have hwords : c.Shows (sign .kwEnum :: blank :: sign .lBrace :: blank ::
          (identChunks names ++ (blank :: sign .rBrace :: later))) := by
        simpa [TypeBody.chunks] using hshows
      have hopen := hwords.pass_sign.blank
      have hclose : Before [.rBrace] (blank :: sign .rBrace :: later) := ⟨.rBrace, by simp, rfl⟩
      refine .peekAs hwords.peek (.advance (.expect hopen.peek fun _ => ?_))
      refine (gives_names h (by simp) (by simp) hclose hopen.pass_sign.blank).bind
        fun read c' hread => .expect hread.2.peek fun _ => .pure ⟨?_, hread.2.blank.pass_sign⟩
      exact congrArg TypeBody.enumeration hread.1
  | record keyword fields =>
      have hfields : ∀ {c : Cursor}, c.Shows (sign .lBrace :: blank ::
          (separate .semi (fields.map fun decl => decl.value.chunks) ++
            (blank :: sign .rBrace :: later))) →
          Gives (do return TypeBody.record keyword (← Read.fieldDecls deep)) c
            (Regains (TypeBody.record keyword fields) later) := fun hshows =>
        (gives_fieldDecls hdeep h hshows).bind fun read c' hread =>
          .pure ⟨congrArg (TypeBody.record keyword) hread.1, hread.2⟩
      cases keyword with
      | true =>
          have hwords : c.Shows (sign .kwStruct :: blank :: sign .lBrace :: blank ::
              (separate .semi (fields.map fun decl => decl.value.chunks) ++
                (blank :: sign .rBrace :: later))) := by
            simpa [TypeBody.chunks] using hshows
          exact .peekAs hwords.peek (.advance (hfields hwords.pass_sign.blank))
      | false =>
          have hwords : c.Shows (sign .lBrace :: blank ::
              (separate .semi (fields.map fun decl => decl.value.chunks) ++
                (blank :: sign .rBrace :: later))) := by
            simpa [TypeBody.chunks] using hshows
          exact .peekAs hwords.peek (hfields hwords)

theorem gives_typeDef (hdeep : deep.Rereads) {entry : Located TypeDef}
    (h : entry.value.Writable printable) (hlater : Before [.semi] later)
    (hshows : c.Shows (entry.value.chunks ++ later)) :
    Gives (Read.typeDef deep) c (Regains entry later) := by
  obtain ⟨⟨name, body⟩, span⟩ := entry
  apply Gives.regainLocated
  cases body with
  | none =>
      refine (gives_ident h.name (hlater.head_ne (by decide)) hshows).bind fun read c₁ hread => ?_
      have hnone : c₁.peek ≠ some .eq := hread.2.peek ▸ hlater.head_ne (by decide)
      refine .bind (P := fun body c' => body = none ∧ c'.Shows later)
        (.optionalAfter_none hnone ⟨rfl, hread.2⟩) ?_
      rintro body c₂ ⟨rfl, hend⟩
      exact .pure ⟨congrArg (TypeDef.mk · none) hread.1, hend⟩
  | some body =>
      have hwords : c.Shows (name.chunks ++ (blank :: sign .eq :: blank ::
          (body.value.chunks ++ later))) := by
        simpa [TypeDef.chunks, assignment] using hshows
      refine (gives_ident h.name (by simp) hwords).bind fun read c₁ hread => ?_
      have heq := hread.2.blank
      refine .bind (P := Regains (some body) later) (.optionalAfter_some heq.peek ?_)
        fun readBody c₂ hbody => .pure ⟨?_, hbody.2⟩
      · exact (gives_typeBody hdeep (h.body body rfl) hlater heq.pass_sign.blank).mono
          fun readBody c₂ hbody => ⟨congrArg some hbody.1, hbody.2⟩
      · show TypeDef.mk read.strip (rebuild Expr.keep readBody) = TypeDef.mk name.strip _
        rw [hread.1, hbody.1]

/-- An entry of a `type` block. -/
theorem gives_typeEntry (hdeep : deep.Rereads) {entry : Located TypeDef}
    (h : entry.value.Writable printable)
    (hshows : c.Shows (entry.value.chunks ++ (sign .semi :: later))) :
    Gives (Read.typeEntry deep) c (Regains entry later) :=
  (gives_typeDef hdeep h ⟨.semi, by simp, rfl⟩ hshows).bind fun _ _ hread =>
    .expect hread.2.peek fun _ => .pure ⟨hread.1, hread.2.pass_sign⟩

theorem gives_constDef (hdeep : deep.Rereads) {entry : ConstDef} (h : entry.Writable printable)
    (hlater : Before [.semi] later) (hshows : c.Shows (entry.chunks ++ later)) :
    Gives (Read.constDef deep) c (Regains entry later) := by
  have hend : (kinds later).head? ≠ some .eq := hlater.head_ne (by decide)
  cases entry with
  | typed names type =>
      obtain ⟨⟨hnil, hnames⟩, htype⟩ := h
      obtain ⟨name, names, rfl⟩ := List.exists_cons_of_ne_nil hnil
      have hname := hnames name List.mem_cons_self
      rw [ConstDef.chunks, List.append_assoc, identChunks, List.map_cons, separate_cons,
        List.append_assoc] at hshows
      have htyped : ∀ {c : Cursor}, c.Shows (type.chunks false ++ later) →
          Gives (Read.typeExpr deep) c (Regains type later) :=
        gives_type hdeep htype (hlater.mono (by decide))
      -- with one name the word behind it decides, and with more the comma does
      cases names with
      | nil =>
          refine (gives_ident hname (by simp [typing]) hshows).bind fun read c₁ hread => ?_
          have hcolon : c₁.Shows (sign .colon :: blank :: (type.chunks false ++ later)) := hread.2
          refine .peekAs hcolon.peek (.advance ?_)
          refine (htyped hcolon.pass_sign.blank).bind fun readType c₂ htype => ?_
          refine .eat_no (htype.2.peek ▸ hend) (.pure ⟨?_, htype.2⟩)
          show ConstDef.typed [read.strip] (rebuild Expr.keep readType) =
            ConstDef.typed [name.strip] _
          rw [hread.1, htype.1]
      | cons next names =>
          refine (gives_ident hname (by simp) hshows).bind fun read c₁ hread => ?_
          refine .peekAs hread.2.peek ?_
          have hcolon : Before [.colon] (typing type ++ later) := ⟨.colon, by simp, rfl⟩
          -- each further name stands before a comma or the colon
          have hitems : ∀ other ∈ next :: names, ItemGives Read.ident Ident.chunks
              (rebuild Expr.keep) (rebuild (Expr.settle false)) [.comma, .colon] other :=
            fun other hmem c more hmore hshows =>
              gives_ident (hnames other (List.mem_cons_of_mem _ hmem))
                (hmore.head_ne (by decide)) hshows
          refine (loopGives_comma (by decide) hitems hcolon hread.2).iterate.bind
            fun readNames c₂ hrest => ?_
          refine .expect hrest.2.peek fun _ => ?_
          refine (htyped hrest.2.pass_sign.blank).bind fun readType c₃ htype => .pure ⟨?_, htype.2⟩
          have hlist : rebuild Expr.keep readNames = rebuild (Expr.settle false)
              (name :: next :: names) := by
            show readNames.map _ = _
            rw [hrest.1]
            exact congrArg (· :: _) hread.1
          show ConstDef.typed (rebuild Expr.keep readNames) (rebuild Expr.keep readType) =
            ConstDef.typed _ _
          rw [hlist, htype.1]
  | typedValue name type init =>
      have hwords : c.Shows (name.chunks ++ (sign .colon :: blank :: (type.chunks false ++
          (blank :: sign .eq :: blank :: (init.chunks false 0 ++ later))))) := by
        simpa [ConstDef.chunks, typing, assignment] using hshows
      have heq : Before typeEnds (blank :: sign .eq :: blank :: (init.chunks false 0 ++ later)) :=
        ⟨.eq, by decide, rfl⟩
      refine (gives_ident h.1 (by simp) hwords).bind fun read c₁ hread => ?_
      refine .peekAs hread.2.peek (.advance ?_)
      refine (gives_type hdeep h.2.1 heq hread.2.pass_sign.blank).bind fun readType c₂ htype => ?_
      refine .eat_yes htype.2.peek ?_
      refine (gives_value hdeep h.2.2 (hlater.demand_eq (by decide))
        htype.2.blank.pass_sign.blank).bind fun readInit c₃ hinit => .pure ⟨?_, hinit.2⟩
      show ConstDef.typedValue read.strip (rebuild Expr.keep readType)
        (rebuild Expr.keep readInit) =
        ConstDef.typedValue name.strip _ _
      rw [hread.1, htype.1, hinit.1]
  | value name init =>
      have hwords : c.Shows (name.chunks ++ (blank :: sign .eq :: blank ::
          (init.chunks false 0 ++ later))) := by
        simpa [ConstDef.chunks, assignment] using hshows
      refine (gives_ident h.1 (by simp) hwords).bind fun read c₁ hread => ?_
      have heq := hread.2.blank
      refine .peekAs heq.peek (.advance ?_)
      refine (gives_value hdeep h.2 (hlater.demand_eq (by decide)) heq.pass_sign.blank).bind
        fun readInit c₂ hinit => .pure ⟨?_, hinit.2⟩
      show ConstDef.value read.strip (rebuild Expr.keep readInit) = ConstDef.value name.strip _
      rw [hread.1, hinit.1]

/-- An entry of a `const` block. -/
theorem gives_constEntry (hdeep : deep.Rereads) {entry : Located ConstDef}
    (h : entry.value.Writable printable)
    (hshows : c.Shows (entry.value.chunks ++ (sign .semi :: later))) :
    Gives (Read.constEntry deep) c (Regains entry later) := by
  have hread : Gives (Read.located (Read.constDef deep)) c (Regains entry (sign .semi :: later)) :=
    (gives_constDef hdeep h ⟨.semi, by simp, rfl⟩ hshows).regainLocated
  exact hread.bind fun read c' hread => .expect hread.2.peek fun _ =>
    .pure ⟨hread.1, hread.2.pass_sign⟩

/-! ## What packages provide and use -/

/-- The words that something that is provided begins with. -/
def provideStarts : List Kind := [.kwConst, .kwType, .kwNode, .kwFunction, .kwUnsafe]

theorem Provide.begins (provide : Provide) : Before provideStarts provide.chunks := by
  cases provide with
  | const => exact ⟨.kwConst, by decide, rfl⟩
  | node head params profile => exact ((head.begins.append _).append _).mono (by decide)
  | type => exact ⟨.kwType, by decide, rfl⟩

theorem gives_optionalParams (hdeep : deep.Rereads) {params : Option (List (Located StaticParam))}
    (h : StaticParam.ListWritable printable params) (hlater : (kinds later).head? ≠ some .ltLt)
    (hshows : c.Shows (StaticParam.list params ++ later)) :
    Gives (Read.optionalAt .ltLt (Read.staticParams deep)) c (Regains params later) := by
  cases params with
  | none => exact .optionalAt_none (hshows.peek ▸ hlater) ⟨rfl, hshows⟩
  | some params =>
      refine .optionalAt_some hshows.peek ?_
      exact (gives_staticParams hdeep (h params rfl) hshows).mono fun read c' hread =>
        ⟨congrArg some hread.1, hread.2⟩

theorem gives_provide (hdeep : deep.Rereads) {provide : Located Provide}
    (h : provide.value.Writable printable) (hlater : Before [.semi] later)
    (hshows : c.Shows (provide.value.chunks ++ later)) :
    Gives (Read.provide deep) c (Regains provide later) := by
  obtain ⟨provide, span⟩ := provide
  apply Gives.regainLocated
  cases provide with
  | const name range value =>
      have hwords : c.Shows (sign .kwConst :: blank :: (name.chunks ++ (sign .colon :: blank ::
          (range.chunks false ++ (optionalValue value ++ later))))) := by
        simpa [Provide.chunks, typing] using hshows
      have hvalue : Before [.semi, .rBrace] later := hlater.mono (by decide)
      refine .peekAs hwords.peek (.advance ?_)
      refine (gives_ident h.1 (by simp) hwords.pass_sign.blank).bind fun read c₁ hread => ?_
      refine .expect hread.2.peek fun _ => ?_
      refine (gives_type hdeep h.2.1 (before_optionalValue value hvalue)
        hread.2.pass_sign.blank).bind
        fun readType c₂ htype => ?_
      refine (gives_optionalValue hdeep h.2.2 hvalue htype.2).bind fun readValue c₃ hinit =>
        .pure ⟨?_, hinit.2⟩
      show Provide.const read.strip (rebuild Expr.keep readType) (rebuild Expr.keep readValue) =
        Provide.const name.strip _ _
      rw [hread.1, htype.1, hinit.1]
  | node head params profile =>
      have hwords : c.Shows (head.chunks [] ++ (StaticParam.list params ++
          (profile.chunks ++ later))) := by
        simpa [Provide.chunks] using hshows
      have hopen : (kinds (profile.chunks ++ later)).head? = some .lParen := by
        simp [Profile.chunks, Profile.params, between]
      have hpragma : (kinds (StaticParam.list params ++ (profile.chunks ++ later))).head? ≠
          some .pragma := by
        cases params with
        | none => exact hopen.symm ▸ by decide
        | some params => simp [StaticParam.list, between]
      -- the same reader follows all three words that may begin a header
      have hread : Gives (do
          let head ← Read.nodeHead
          let params ← Read.optionalAt .ltLt (Read.staticParams deep)
          return Provide.node head params (← Read.profile deep)) c
            (Regains (Provide.node head params profile) later) := by
        refine (gives_nodeHead h.1 hpragma hwords).bind fun readHead c₁ hhead => ?_
        refine (gives_optionalParams hdeep h.2.1 (by rw [hopen]; decide) hhead.2).bind
          fun readParams c₂ hparams => ?_
        refine (gives_profile hdeep h.2.2 hparams.2).bind fun readProfile c₃ hprofile =>
          .pure ⟨?_, hprofile.2⟩
        show Provide.node (rebuild Expr.keep readHead) (rebuild Expr.keep readParams)
          (rebuild Expr.keep readProfile) = Provide.node (rebuild (Expr.settle false) head) _ _
        rw [hhead.1, hparams.1, hprofile.1]
      obtain ⟨kind, hmem, hhead⟩ := head.begins.append (StaticParam.list params ++
        (profile.chunks ++ later))
      refine .peekAs (hwords.peek.trans hhead) ?_
      simp only [List.mem_cons, List.not_mem_nil, or_false] at hmem
      rcases hmem with rfl | rfl | rfl <;> exact hread
  | type entry =>
      have hwords : c.Shows (sign .kwType :: blank :: (entry.chunks ++ later)) := hshows
      refine .peekAs hwords.peek (.advance ?_)
      have hentry : (⟨entry, span⟩ : Located TypeDef).value.Writable printable := h
      refine (gives_typeDef hdeep hentry hlater hwords.pass_sign.blank).bind fun read c' hread =>
        .pure ⟨congrArg (fun own : Located TypeDef => Provide.type own.value) hread.1, hread.2⟩

/-- What a package provides, if it says so. -/
theorem gives_provides (hdeep : deep.Rereads) {provides : Option (List (Located Provide))}
    (h : Provide.ListWritable printable provides) (hlater : (kinds later).head? = some .kwBody)
    (hshows : c.Shows (providesChunks provides ++ later)) :
    Gives (Read.provides deep) c (Regains provides later) := by
  cases provides with
  | none =>
      exact .optionalAfter_none (by rw [hshows.peek]; simp [providesChunks, hlater]) ⟨rfl, hshows⟩
  | some provides =>
      obtain ⟨hnil, hprovides⟩ := h provides rfl
      have hwords : c.Shows (sign .kwProvides :: newline ::
          ((provides.flatMap fun provide => entry provide.value.chunks) ++ later)) := hshows
      have hend : ∀ kind ∈ provideStarts, (kinds later).head? ≠ some kind := by
        rw [hlater]
        decide
      refine .optionalAfter_some hwords.peek ?_
      refine (gives_terminated hnil ?_ (fun provide _ => provide.value.begins) hend
        hwords.pass_sign.gap).mono fun read c' hread => ⟨congrArg some hread.1, hread.2⟩
      exact fun provide hmem c more hmore hshows =>
        gives_provide hdeep (hprovides provide hmem) hmore hshows

/-- The packages that another uses; it is written only if there are any. -/
theorem gives_uses {names : List Ident} (h : ∀ name ∈ names, name.Printable)
    (hlater : (kinds later).head? ≠ some .kwUses) (hshows : c.Shows (usesChunks names ++ later)) :
    Gives Read.uses c (Regains names later) := by
  cases names with
  | nil => exact .eat_no (hshows.peek ▸ hlater) (.pure ⟨rfl, hshows⟩)
  | cons name names =>
      have hwords : c.Shows (sign .kwUses :: blank :: (identChunks (name :: names) ++
          (sign .semi :: newline :: later))) := by
        simpa [usesChunks, line] using hshows
      have hsemi : Before [.semi] (sign .semi :: newline :: later) := ⟨.semi, by simp, rfl⟩
      refine .eat_yes hwords.peek ?_
      refine (gives_names ⟨by simp, h⟩ (by simp) (by simp) hsemi hwords.pass_sign.blank).bind
        fun read c' hread => .expect hread.2.peek fun _ => .pure ⟨hread.1, hread.2.pass_sign.gap⟩

end Lustre
