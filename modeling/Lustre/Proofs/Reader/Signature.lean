import Lustre.Proofs.Reader.StaticArg
import Lustre.Reader.Signature

/-!
# Reading the parts of declarations passes their words

The readers here stop at the first failure, so each is treated like the readers of
expressions: if it succeeds, it has passed the words of its answer, which is
shaped.  Only a named argument moves a word, the keyword behind its name.
-/

namespace Lustre

open Cursor Lexeme

/-! ## What follows an `=` -/

theorem TypeBody.beginsPlain (body : TypeBody) : BeginsPlain body.words := by
  cases body with
  | synonym type => exact type.beginsPlain
  | enumeration names => exact ⟨_, _, rfl, rfl⟩
  | record keyword fields => cases keyword <;> exact ⟨_, _, rfl, rfl⟩

theorem NodeUse.beginsPlain (target : NodeUse) : BeginsPlain target.words :=
  target.node.beginsPlain.append _

namespace Read

variable {deep : Nested} (hdeep : deep.Faithful)
include hdeep

/-! ## Variables and profiles -/

theorem meets_typedNames (c : Cursor) :
    Meets (typedNames deep) c fun group c' => c.Passes group.words c' ∧ group.Shaped := by
  refine .bind (meets_identList c) fun names c₁ ⟨hnames, hne⟩ => .expect fun hcolon _ => ?_
  refine .bind (meets_typeExpr hdeep _) fun type c₂ ⟨htype, hshaped⟩ => .pure ⟨?_, hne, hshaped⟩
  exact hnames.trans ((Passes.sign hcolon rfl).trans htype)

theorem meets_varGroups (c : Cursor) :
    Meets (varGroups deep) c fun groups c' =>
      c.Passes (groups.flatMap TypedNames.words) c' ∧ groups ≠ [] ∧
      ∀ group ∈ groups, group.Shaped := by
  refine .bind (meets_typedNames hdeep c) fun first c₁ hfirst => ?_
  refine .iterate (I := fun groups c' =>
    c.Passes (groups.flatMap TypedNames.words) c' ∧ groups ≠ [] ∧ ∀ group ∈ groups, group.Shaped)
    ⟨by simpa using hfirst.1, by simp, by simpa using hfirst.2⟩ ?_ fun _ _ h => h
  rintro groups c' ⟨hpasses, hne, hall⟩
  refine .ifEat (fun hsemi => ?_) fun _ => .pure ⟨hpasses, hne, hall⟩
  refine .ifAt (fun _ => .pure ⟨?_, hne, hall⟩) fun _ => ?_
  · simpa using hpasses.trans (Passes.separator hsemi rfl)
  · refine .bind (meets_typedNames hdeep _) fun group c₂ hlast => .pure ⟨?_, by simp, ?_⟩
    · simpa using hpasses.trans ((Passes.separator hsemi rfl).trans hlast.1)
    · exact List.forall_mem_append.mpr ⟨hall, by simpa using hlast.2⟩

theorem meets_varDecl (c : Cursor) :
    Meets (varDecl deep) c fun decl c' => c.Passes decl.value.words c' ∧ decl.value.Shaped := by
  refine .located (.ifEat (fun hopen => ?_) fun _ => ?_)
  · refine .bind (meets_varGroups hdeep _) fun groups c₁ ⟨hgroups, hne, hall⟩ => ?_
    refine .expect fun hclose _ => .expect fun hwhen _ => .bind (meets_clock _)
      fun clock c₂ hclock => .pure fun span => ⟨?_, hne, hall, rfl⟩
    simpa [VarDecl.words, clockWords] using (Passes.sign hopen rfl).trans (hgroups.trans
      ((Passes.sign hclose rfl).trans ((Passes.sign hwhen rfl).trans hclock)))
  · refine .bind (meets_typedNames hdeep c) fun group c₁ ⟨hgroup, hshaped⟩ => ?_
    refine .bind (P := fun clock c' => c₁.Passes (clockWords clock) c') ?_ ?_
    · refine .optionalAfter (fun hwhen => ?_) fun _ => .refl _
      exact (meets_clock _).mono fun clock c' hclock => (Passes.sign hwhen rfl).trans hclock
    · intro clock c₂ hclock
      refine .pure fun span => ⟨?_, by simp, by simpa using hshaped, rfl⟩
      simpa [VarDecl.words] using hgroup.trans hclock

theorem meets_params (c : Cursor) :
    Meets (params deep) c fun params c' =>
      c.Passes (Profile.paramsWords params) c' ∧ ∀ param ∈ params, param.value.Shaped := by
  refine .expect fun hopen _ => ?_
  refine .bind (meets_separated rfl (fun c => (meets_varDecl hdeep c).mono
    fun _ _ h => ⟨h.1, fun _ => h.2⟩) _) fun params c' ⟨hparams, hshaped⟩ => ?_
  refine .expect fun hclose _ => .pure ⟨?_, hshaped hclose⟩
  simpa [Profile.paramsWords] using (Passes.sign hopen rfl).trans (hparams.trans (.sign hclose rfl))

theorem meets_profile (c : Cursor) :
    Meets (profile deep) c fun profile c' => c.Passes profile.words c' ∧ profile.Shaped := by
  refine .bind (meets_params hdeep c) fun inputs c₁ ⟨hinputs, hin⟩ => .expect fun hreturns _ => ?_
  refine .bind (meets_params hdeep _) fun outputs c₂ ⟨houtputs, hout⟩ => .pure ⟨?_, hin, hout⟩
  exact hinputs.trans ((Passes.sign hreturns rfl).trans houtputs)

theorem meets_optionalProfile (c : Cursor) :
    Meets (optionalAt .lParen (profile deep)) c fun profile c' =>
      c.Passes (profile.toList.flatMap Profile.words) c' ∧
        ∀ actual, profile = some actual → actual.Shaped := by
  refine .optionalAt (fun _ => ?_) fun _ => ⟨.refl _, nofun⟩
  refine (meets_profile hdeep c).mono fun profile c' h => ⟨by simpa using h.1, ?_⟩
  rintro actual ⟨⟩
  exact h.2

omit hdeep in
theorem meets_nodeKind (c : Cursor) :
    Meets nodeKind c fun kind c' => c.Passes [sign kind.symbol] c' :=
  .ifEat (fun hnode => .pure (.sign hnode rfl)) fun _ =>
    .ifEat (fun hfunction => .pure (.sign hfunction rfl)) fun _ => .unexpected

omit hdeep in
/-- A keyword that may be absent. -/
theorem meets_eat_explicit {kind : Kind} {c : Cursor}
    (hkind : kind.isSteady = true) :
    Meets (eat kind) c fun found c' => c.Passes (explicitWord found kind) c' := by
  refine .ifAt (fun h => .advance (.pure ?_)) fun _ => .pure (.refl _)
  exact .sign h hkind

omit hdeep in
theorem meets_nodeHead (c : Cursor) :
    Meets nodeHead c fun head c' => c.Passes (head.words []) c' := by
  refine .bind (meets_eat_explicit rfl) fun isUnsafe c₁ hdanger => ?_
  refine .bind (meets_nodeKind c₁) fun kind c₂ hkind => ?_
  refine .bind (meets_ident c₂) fun name c₃ hname => .pure ?_
  simpa [NodeHead.words] using hdanger.trans (hkind.trans hname)

/-! ## Static parameters -/

theorem meets_staticParam (c : Cursor) :
    Meets (staticParam deep) c fun param c' => c.Passes param.value.words c' ∧
    param.value.Shaped := by
  have hnode : Meets (do
      let head ← nodeHead
      return StaticParam.node head (← profile deep)) c
      fun param c' => ∀ span : Span, c.Passes param.words c' ∧ param.Shaped := by
    refine .bind (meets_nodeHead c) fun head c₁ hhead => ?_
    exact .bind (meets_profile hdeep _) fun profile c₂ hprofile =>
      .pure fun _ => ⟨hhead.trans hprofile.1, hprofile.2⟩
  refine .located (.peek ?_)
  split
  · rename_i htype
    exact .advance (.bind (meets_ident _) fun name c₁ hname => .pure fun _ =>
      ⟨(Passes.sign htype rfl).trans hname, trivial⟩)
  · rename_i hconst
    refine .advance (.bind (meets_ident _) fun name c₁ hname => .expect fun hcolon _ => ?_)
    refine .bind (meets_typeExpr hdeep _) fun type c₂ htype => .pure fun _ => ⟨?_, htype.2⟩
    exact (Passes.sign hconst rfl).trans (hname.trans ((Passes.sign hcolon rfl).trans htype.1))
  · exact hnode
  · exact hnode
  · exact hnode
  · exact .unexpected

theorem meets_staticParams (c : Cursor) :
    Meets (staticParams deep) c fun params c' =>
      c.Passes (StaticParam.listWords (some params)) c' ∧ ∀ param ∈ params, param.value.Shaped := by
  refine .expect fun hopen _ => ?_
  refine .bind (meets_separated rfl (fun c => (meets_staticParam hdeep c).mono
    fun _ _ h => ⟨h.1, fun _ => h.2⟩) _) fun params c' ⟨hparams, hshaped⟩ => ?_
  refine .expect fun hclose _ => .pure ⟨?_, hshaped hclose⟩
  simpa [StaticParam.listWords] using (Passes.sign hopen rfl).trans
    (hparams.trans (.sign hclose rfl))

/-- Static parameters, if there are any. -/
theorem meets_optionalParams (c : Cursor) :
    Meets (optionalAt .ltLt (staticParams deep)) c fun params c' =>
      c.Passes (StaticParam.listWords params) c' ∧ StaticParam.listShaped params := by
  refine .optionalAt (fun _ => ?_) fun _ => ⟨.refl _, nofun⟩
  refine (meets_staticParams hdeep c).mono fun params c' h => ⟨h.1, fun list hlist => ?_⟩
  cases hlist
  exact h.2

/-! ## Types and constants -/

/-- A value after an `=`, if there is one. -/
theorem meets_optionalValue (c : Cursor) :
    Meets (optionalAfter .eq deep.expr) c fun value c' =>
      c.Passes (valueWords value) c' ∧ valueShaped value := by
  refine .optionalAfter (fun heq => ?_) fun _ => ⟨.refl _, trivial⟩
  exact (meets_expr hdeep _).mono fun value c' h =>
    ⟨Passes.eq heq h.1 (value.beginsPlain _ h.2), h.2⟩

theorem meets_fieldDecl (c : Cursor) :
    Meets (fieldDecl deep) c fun decl c' => c.Passes decl.value.words c' ∧ decl.value.Shaped := by
  refine .located (.bind (meets_identList c) fun names c₁ ⟨hnames, hne⟩ => ?_)
  refine .expect fun hcolon _ => .bind (meets_typeExpr hdeep _) fun type c₂ ⟨htype, hshaped⟩ => ?_
  have hpasses := hnames.trans ((Passes.sign hcolon rfl).trans htype)
  refine .ifAt (fun heq => ?_) fun _ => .pure fun _ => ⟨?_, hne, hshaped, trivial, nofun⟩
  · split
    · exact .fail
    · rename_i hlength
      refine .advance (.bind (meets_expr hdeep _) fun value c₃ ⟨hvalue, hvalueShaped⟩ => ?_)
      refine .pure fun _ => ⟨?_, hne, hshaped, hvalueShaped, fun _ => ?_⟩
      · exact hpasses.trans (.eq heq hvalue (value.beginsPlain _ hvalueShaped))
      · have := List.length_pos_iff.mpr hne
        exact Nat.le_antisymm (Nat.le_of_not_lt hlength) this
  · simpa [FieldDecl.words, valueWords, typingWords, namesWords] using hpasses

theorem meets_fieldDecls (c : Cursor) :
    Meets (fieldDecls deep) c fun fields c' =>
      c.Passes (sign .lBrace :: (fields.flatMap fun decl => decl.value.words) ++
        [sign .rBrace]) c' ∧
        ∀ decl ∈ fields, decl.value.Shaped := by
  refine .expect fun hopen _ => ?_
  refine .bind (meets_separated rfl (fun c => (meets_fieldDecl hdeep c).mono
    fun _ _ h => ⟨h.1, fun _ => h.2⟩) _) fun fields c' ⟨hfields, hshaped⟩ => ?_
  refine .expect fun hclose _ => .pure ⟨?_, hshaped hclose⟩
  simpa using (Passes.sign hopen rfl).trans (hfields.trans (.sign hclose rfl))

theorem meets_typeBody (c : Cursor) :
    Meets (typeBody deep) c fun body c' => c.Passes body.value.words c' ∧ body.value.Shaped := by
  refine .located (.peek ?_)
  split
  · rename_i henum
    refine .advance (.expect fun hopen _ => .bind (meets_identList _) fun names c₁ hnames =>
      .expect fun hclose _ => .pure fun _ => ⟨?_, hnames.2⟩)
    simpa [TypeBody.words, namesWords] using (Passes.sign henum rfl).trans
      ((Passes.sign hopen rfl).trans
      (hnames.1.trans (.sign hclose rfl)))
  · rename_i hstruct
    refine .advance (.bind (meets_fieldDecls hdeep _) fun fields c₁ hfields =>
      .pure fun _ => ⟨?_, hfields.2⟩)
    exact (Passes.sign hstruct rfl).trans hfields.1
  · exact .bind (meets_fieldDecls hdeep _) fun fields c₁ hfields => .pure fun _ => hfields
  · exact .bind (meets_typeExpr hdeep _) fun type c₁ h => .pure fun _ => h

theorem meets_typeDef (c : Cursor) :
    Meets (typeDef deep) c fun entry c' => c.Passes entry.value.words c' ∧ entry.value.Shaped := by
  refine .located (.bind (meets_ident c) fun name c₁ hname => ?_)
  refine .bind (P := fun body c' => c.Passes (TypeDef.words ⟨name, body⟩) c' ∧
    (TypeDef.mk name body).Shaped) ?_ fun body c₂ h => .pure fun _ => h
  refine .optionalAfter (fun heq => ?_) fun _ => ⟨hname, nofun⟩
  refine (meets_typeBody hdeep _).mono fun body c₂ ⟨hbody, hshaped⟩ => ⟨?_, fun body' hsome => ?_⟩
  · exact hname.trans (.eq heq hbody body.value.beginsPlain)
  · cases hsome
    exact hshaped

theorem meets_typeEntry (c : Cursor) :
    Meets (typeEntry deep) c fun entry c' => c.Passes entry.value.words c' ∧
    entry.value.Shaped := by
  refine .bind (meets_typeDef hdeep c) fun entry c₁ ⟨hentry, hshaped⟩ => ?_
  refine .expect fun hsemi _ => .pure ⟨?_, hshaped⟩
  simpa using hentry.trans (Passes.separator hsemi rfl)

theorem meets_constDef (c : Cursor) :
    Meets (constDef deep) c fun entry c' => c.Passes entry.words c' ∧ entry.Shaped := by
  refine .bind (meets_ident c) fun name c₁ hname => .peek ?_
  split
  · refine .bind (P := fun names c' => c.Passes (namesWords names) c' ∧ names ≠ []) ?_
      fun names c₂ hnames => .expect fun hcolon _ => ?_
    · refine .iterate (I := fun names c' => c.Passes (namesWords names) c' ∧ names ≠ [])
        ⟨by simpa [namesWords] using hname, by simp⟩ ?_ fun _ _ h => h
      rintro names c' ⟨hpasses, hne⟩
      refine .ifEat (fun hcomma => ?_) fun _ => .pure ⟨hpasses, hne⟩
      refine .bind (meets_ident _) fun next c₂ hnext => .pure ⟨?_, by simp⟩
      simpa [namesWords] using hpasses.trans ((Passes.separator hcomma rfl).trans hnext)
    · refine .bind (meets_typeExpr hdeep _) fun type c₃ htype => .pure ⟨?_, hnames.2, htype.2⟩
      exact hnames.1.trans ((Passes.sign hcolon rfl).trans htype.1)
  · rename_i hcolon
    refine .advance (.bind (meets_typeExpr hdeep _) fun type c₂ hread => ?_)
    obtain ⟨htype, hshaped⟩ := hread
    have hpasses := hname.trans ((Passes.sign hcolon rfl).trans htype)
    refine .ifEat (fun heq => ?_) fun _ => .pure ⟨?_, by simp, hshaped⟩
    · refine .bind (meets_expr hdeep _) fun value c₃ hvalue => .pure ⟨?_, hshaped, hvalue.2⟩
      exact hpasses.trans (.eq heq hvalue.1 (value.beginsPlain _ hvalue.2))
    · simpa [ConstDef.words, namesWords, typingWords] using hpasses
  · rename_i heq
    refine .advance (.bind (meets_expr hdeep _) fun value c₂ hvalue => .pure ⟨?_, hvalue.2⟩)
    exact hname.trans (.eq heq hvalue.1 (value.beginsPlain _ hvalue.2))
  · exact .unexpected

theorem meets_constEntry (c : Cursor) :
    Meets (constEntry deep) c fun entry c' =>
      c.Passes entry.value.words c' ∧ entry.value.Shaped := by
  refine .bind (P := fun entry c' => c.Passes entry.value.words c' ∧ entry.value.Shaped)
    (.located ((meets_constDef hdeep c).mono fun _ _ h _ => h))
    fun entry c₁ ⟨hentry, hshaped⟩ => .expect fun hsemi _ => .pure ⟨?_, hshaped⟩
  simpa using hentry.trans (Passes.separator hsemi rfl)

/-! ## What packages show and take -/

theorem meets_provide (c : Cursor) :
    Meets (provide deep) c fun shown c' => c.Passes shown.value.words c' ∧ shown.value.Shaped := by
  have hnode : Meets (do
      let head ← nodeHead
      let params ← optionalAt .ltLt (staticParams deep)
      return Provide.node head params (← profile deep)) c
      fun shown c' => ∀ span : Span, c.Passes shown.words c' ∧ shown.Shaped := by
    refine .bind (meets_nodeHead c) fun head c₁ hhead => ?_
    refine .bind (meets_optionalParams hdeep _) fun params c₂ hparams => ?_
    refine .bind (meets_profile hdeep _) fun profile c₃ hprofile => .pure fun _ => ?_
    refine ⟨?_, hparams.2, hprofile.2⟩
    simpa [Provide.words] using hhead.trans (hparams.1.trans hprofile.1)
  refine .located (.peek ?_)
  split
  · rename_i hconst
    refine .advance (.bind (meets_ident _) fun name c₁ hname => .expect fun hcolon _ => ?_)
    refine .bind (meets_typeExpr hdeep _) fun type c₂ htype => ?_
    refine .bind (meets_optionalValue hdeep _) fun value c₃ hvalue =>
      .pure fun _ => ⟨?_, htype.2, hvalue.2⟩
    simpa [Provide.words, typingWords] using (Passes.sign hconst rfl).trans (hname.trans
      ((Passes.sign hcolon rfl).trans (htype.1.trans hvalue.1)))
  · rename_i htype
    exact .advance (.bind (meets_typeDef hdeep _) fun entry c₁ hentry =>
      .pure fun _ => ⟨(Passes.sign htype rfl).trans hentry.1, hentry.2⟩)
  · exact hnode
  · exact hnode
  · exact hnode
  · exact .unexpected

omit hdeep in
theorem meets_uses (c : Cursor) : Meets uses c fun names c' => c.Passes (usesWords names) c' := by
  refine .ifEat (fun huses => ?_) fun _ => .pure (.refl _)
  refine .bind (meets_identList _) fun names c₁ ⟨hnames, hne⟩ => .expect fun hsemi _ => .pure ?_
  have hpasses := (Passes.sign huses rfl).trans (hnames.trans (.separator hsemi rfl))
  cases names with
  | nil => exact absurd rfl hne
  | cons name names => simpa [usesWords, namesWords] using hpasses

theorem meets_provides (c : Cursor) :
    Meets (provides deep) c fun shown c' =>
      c.Passes (Provide.listWords shown) c' ∧ Provide.listShaped shown := by
  refine .optionalAfter (fun hprovides => ?_) fun _ => ⟨.refl _, nofun⟩
  refine (meets_terminated (meets_provide hdeep) _).mono fun shown c' ⟨hpasses, hne, hall⟩ =>
    ⟨(Passes.sign hprovides rfl).trans hpasses, fun list hlist => ?_⟩
  cases hlist
  exact ⟨hne, hall⟩

omit hdeep in
/-- The tokens of a bound name. -/
theorem meets_ident_tokens (c : Cursor) :
    Meets ident c fun ident c' => ∃ name pragmas, c.rest = name :: (pragmas ++ c'.rest) ∧
      name.kind = .ident ∧ (∀ token ∈ pragmas, token.kind = .pragma) ∧
      ident.words = name.word :: pragmas.map Token.word := by
  refine .take? (fun name rest hrest hkind => ?_) fun _ => .missing
  have hpass : c.pass.rest = rest := by simp [rest_pass, hrest]
  refine .bind (P := fun read c' => ∃ pragmas, rest = pragmas ++ c'.rest ∧
    (∀ token ∈ pragmas, token.kind = .pragma) ∧
    read.map (fun pragma => Lexeme.pragma pragma.key pragma.value) = pragmas.map Token.word) ?_ ?_
  · refine .iterate (I := fun read c' => ∃ pragmas, rest = pragmas ++ c'.rest ∧
      (∀ token ∈ pragmas, token.kind = .pragma) ∧
      read.map (fun pragma => Lexeme.pragma pragma.key pragma.value) = pragmas.map Token.word)
      ⟨[], by simp [hpass], by simp, rfl⟩ ?_ fun _ _ h => h
    rintro read c' ⟨pragmas, hpragmas, hkinds, hwords⟩
    refine .take? (fun token later hlater hpragma => .pure ?_) fun _ =>
      .pure ⟨pragmas, hpragmas, hkinds, hwords⟩
    refine ⟨pragmas ++ [token], by simp [hpragmas, rest_pass, hlater], ?_, ?_⟩
    · exact List.forall_mem_append.mpr ⟨hkinds, by simpa using hpragma⟩
    · simp [hwords, Token.word, hpragma]
  · rintro read c' ⟨pragmas, hpragmas, hkinds, hwords⟩
    refine .pure ⟨name, pragmas, by rw [hrest, hpragmas], hkind, hkinds, ?_⟩
    rw [Ident.words, hwords, Token.word_of_class (by rw [hkind]; rfl) (by simp [hkind]), hkind]

omit hdeep in
/-- The words of a named argument, explicit or not. -/
theorem words_named (name : Ident) (arg : StaticArg) :
    (NamedArg.mk (some name) arg).words =
      match arg.explicit? with
      | some (kind, later) => sign kind :: name.words ++ sign .eq :: later
      | none => name.words ++ sign .eq :: arg.words := by
  cases arg with
  | name | op => rfl
  | type span type explicit => cases explicit <;> rfl
  | const span value explicit => cases explicit <;> rfl
  | node span keyword target node args =>
      cases keyword
      · rfl
      · simp [NamedArg.words, StaticArg.explicit?]

omit hdeep in
/-- An explicit argument with its keyword before its name. -/
theorem meets_keywordArg {kind : Kind} {arg : Nat → Read StaticArg} {c : Cursor}
    (hkind : kind.isArgKeyword = true) (hpeek : c.peek = some kind)
    (harg : ∀ start c, Meets (arg start) c fun arg c' => ∃ later,
      arg.explicit? = some (kind, later) ∧ c.Passes later c' ∧ BeginsPlain later ∧ arg.Shaped) :
    Meets (keywordArg arg) c fun named c' => c.Passes named.words c' ∧ named.Shaped := by
  have hsign : c.Passes [sign kind] c.pass := by
    refine .sign hpeek ?_
    rcases Kind.isArgKeyword_iff.mp hkind with rfl | rfl | rfl | rfl <;> rfl
  refine .advance (.bind (meets_ident _) fun name c₁ hname => .expect fun heq _ =>
    .here fun start => ?_)
  refine .bind (harg start _) fun arg c₂ ⟨later, hlater, hpasses, hbegins, hshaped⟩ =>
    .pure ⟨?_, hshaped, .inl rfl⟩
  rw [words_named, hlater]
  exact hsign.trans (hname.trans (.eq heq hpasses hbegins))

/-- An argument for a model, shaped where its list goes on or ends after it. -/
theorem meets_namedArg {close : Kind} (hclose : close.isArgKeyword = false) (c : Cursor) :
    Meets (namedArg deep close) c fun named c' =>
      c.Passes named.value.words c' ∧ (c'.endsArg 0 close = true → named.value.Shaped) := by
  -- without a name, the argument does not begin like a named one
  have hposition : (c.peek = some .ident → c.namesArgAt 0 = false) →
      (c.peek = some .kwConst → c.namesArgAt 1 = false) →
      Meets (do return (NamedArg.mk none (← staticArg deep close))) c fun named c' =>
        ∀ span : Span, c.Passes named.words c' ∧ (c'.endsArg 0 close = true → named.Shaped) := by
    intro hname hconst
    refine .bind ((meets_staticArg hdeep hclose c).and (meets_staticArg_opens hdeep c))
      fun arg c' hread => .pure fun _ => ⟨hread.1.1, fun hends =>
        ⟨hread.1.2 hends, .inr (Bool.eq_false_iff.mpr fun hequation => ?_)⟩⟩
    rcases hread.2.equation hequation with ⟨h₀, h₁⟩ | ⟨h₀, h₁, h₂⟩
    · exact absurd (hname h₀) (by simp [namesArgAt, peekAt_zero, h₀, h₁])
    · exact absurd (hconst h₀) (by simp [namesArgAt, h₁, h₂])
  -- with a keyword before the name, the tokens are in their normal order already
  have hkeyword : ∀ {kind : Kind} {arg : Nat → Read StaticArg}, kind.isArgKeyword = true →
      c.peek = some kind → (∀ start c, Meets (arg start) c fun arg c' => ∃ later,
        arg.explicit? = some (kind, later) ∧ c.Passes later c' ∧ BeginsPlain later ∧ arg.Shaped) →
      Meets (keywordArg arg) c fun named c' =>
        ∀ span : Span, c.Passes named.words c' ∧ (c'.endsArg 0 close = true → named.Shaped) :=
    fun hkind hpeek harg => (meets_keywordArg hkind hpeek harg).mono fun _ _ h _ =>
      ⟨h.1, fun _ => h.2⟩
  have hnode : ∀ {kind : NodeKind} start c, Meets (nodeArg deep start kind) c fun arg c' => ∃ later,
      arg.explicit? = some (kind.symbol, later) ∧ c.Passes later c' ∧ BeginsPlain later ∧
        arg.Shaped := by
    intro kind start c
    refine (meets_nodeArg hdeep c).mono ?_
    rintro _ c' ⟨span, target, node, args, rfl, hpasses, hshaped⟩
    exact ⟨_, rfl, hpasses, node.beginsPlain.append _, hshaped⟩
  refine .located (.get ?_)
  split
  · rename_i hname
    split
    · refine .bind ((meets_ident c).and (meets_ident_tokens c)) fun name c₁ hread => ?_
      obtain ⟨hname, htokens⟩ := hread
      -- the tokens of the name are needed, since a keyword behind the `=` comes first
      obtain ⟨first, pragmas, hrest, hkind, hkinds, hwords⟩ := htokens
      refine .expect fun heq _ => ?_
      refine .bind ((meets_staticArg hdeep hclose _).and (meets_staticArg_opens hdeep _))
        fun arg c' harg => .pure fun _ => ⟨?_, fun hends => ⟨harg.1.2 hends, .inl rfl⟩⟩
      obtain ⟨⟨hpasses, -⟩, hopens⟩ := harg
      rw [words_named]
      split
      · rename_i kind later hexplicit
        obtain ⟨hpeek, hlater⟩ := hopens.keyword kind later hexplicit
        rw [hwords]
        exact .named hrest hkind hkinds heq hpeek
          (StaticArg.isArgKeyword_of_explicit? hexplicit) hlater
      · rename_i hexplicit
        exact hname.trans (.eq heq hpasses (hopens.plain hexplicit))
    · rename_i hnamed
      exact hposition (fun _ => by simpa using hnamed) (by simp [hname])
  · rename_i htype
    split
    · refine hkeyword rfl htype fun start c => (meets_typeArg hdeep c (.inl rfl)).mono ?_
      rintro _ c' ⟨span, type, rfl, hpasses, hshaped⟩
      exact ⟨_, rfl, hpasses, type.beginsPlain, hshaped⟩
    · exact hposition (by simp [htype]) (by simp [htype])
  · rename_i hconst
    split
    · refine hkeyword rfl hconst fun start c => (meets_constArg hdeep c (.inl rfl)).mono ?_
      rintro _ c' ⟨span, value, rfl, hpasses, hshaped⟩
      exact ⟨_, rfl, hpasses, value.beginsPlain _ hshaped.2, hshaped⟩
    · rename_i hnamed
      exact hposition (by simp [hconst]) fun _ => by simpa using hnamed
  · rename_i h
    split
    · exact hkeyword rfl h hnode
    · exact hposition (by simp [h]) (by simp [h])
  · rename_i h
    split
    · exact hkeyword rfl h hnode
    · exact hposition (by simp [h]) (by simp [h])
  · rename_i hname htype hconst _ _
    exact hposition (fun h => absurd h hname) fun h => absurd h hconst

theorem meets_modelArgs (c : Cursor) :
    Meets (modelArgs deep) c fun read c' =>
      c.Passes (sign read.1.opening :: (read.2.flatMap fun arg => arg.value.words) ++
        [sign read.1.closing]) c' ∧ ∀ arg ∈ read.2, arg.value.Shaped := by
  refine .ifEat (fun hopen => ?_) fun _ => .ifEat (fun hopen => ?_) fun _ => .unexpected
  · refine .bind (meets_separated rfl (meets_namedArg hdeep rfl) _)
      fun args c' ⟨hargs, hshaped⟩ => .expect fun hclose _ => .pure ⟨?_, hshaped hclose⟩
    simpa [Brackets.opening, Brackets.closing] using
      (Passes.sign hopen rfl).trans (hargs.trans (.sign hclose rfl))
  · refine .bind (meets_separated rfl (meets_namedArg hdeep rfl) _)
      fun args c' ⟨hargs, hshaped⟩ => .expect fun hclose _ => .pure ⟨?_, hshaped hclose⟩
    simpa [Brackets.opening, Brackets.closing] using
      (Passes.sign hopen rfl).trans (hargs.trans (.sign hclose rfl))

/-! ## Equations -/

theorem meets_leftExpr (c : Cursor) :
    Meets (leftExpr deep) c fun left c' => c.Passes left.words c' ∧ left.Shaped := by
  refine .bind (meets_ident c) fun name c₁ hname => ?_
  refine .iterate_of_progress (I := fun left c' => c.Passes left.words c' ∧ left.Shaped)
    ⟨hname, trivial⟩ ?_
  rintro left c' ⟨hpasses, hshaped⟩
  refine .ifEat (fun hdot => ?_) fun _ => .ifEat (fun hopen => ?_) fun _ => .pure ⟨hpasses, hshaped⟩
  · refine .bind (meets_ident _) fun field c₂ hfield => .pure ?_
    have hpart := (Passes.sign hdot rfl).trans hfield
    exact ⟨⟨hpasses.trans hpart, hshaped⟩, hpart.shorter (by simp)⟩
  · refine .bind (meets_indexing hdeep _) fun build c₂ hbuild =>
      .expect fun hclose close => .pure ?_
    rcases hbuild with ⟨place, rfl, hplace, hplaceShaped⟩ |
      ⟨first, last, step, rfl, hrange, hrangeShaped⟩
    · have hpart := (Passes.sign hopen rfl).trans (hplace.trans (.sign hclose rfl))
      refine ⟨⟨?_, hshaped, hplaceShaped⟩, hpart.shorter (by simp)⟩
      simpa [LeftExpr.words] using hpasses.trans hpart
    · have hpart := (Passes.sign hopen rfl).trans (hrange.trans (.sign hclose rfl))
      refine ⟨⟨?_, hshaped, hrangeShaped⟩, hpart.shorter (by simp)⟩
      simpa [LeftExpr.words] using hpasses.trans hpart

theorem meets_leftList (c : Cursor) :
    Meets (leftList deep) c fun lhs c' => c.Passes lhs.words c' ∧ lhs.Shaped := by
  have hlist := meets_commaList (meets_leftExpr hdeep)
  refine .ifEat (fun hopen => ?_) fun _ => ?_
  · have hitems : ∀ items c₁, c.pass.Passes (items.flatMap LeftExpr.words) c₁ →
        (∀ item ∈ items, item.Shaped) →
        Meets (do
          let _ ← expect .rParen
          return (⟨items, true⟩ : LeftList)) c₁ fun lhs c' =>
            c.Passes lhs.words c' ∧ lhs.Shaped := by
      intro items c₁ hpasses hshaped
      refine .expect fun hclose _ => .pure ⟨?_, .inl rfl, hshaped⟩
      simpa [LeftList.words] using (Passes.sign hopen rfl).trans (hpasses.trans (.sign hclose rfl))
    refine .ifAt (fun _ => hitems [] _ (.refl _) (by simp)) fun _ => ?_
    exact .bind (hlist _) fun items c₁ h => hitems items c₁ h.1 h.2.2
  · exact .bind (hlist _) fun items c₁ ⟨hpasses, hne, hshaped⟩ =>
      .pure ⟨by simpa [LeftList.words] using hpasses, .inr hne, hshaped⟩

theorem meets_statement (c : Cursor) :
    Meets (statement deep) c fun equation c' => c.Passes equation.words c' ∧ equation.Shaped := by
  refine .ifEat (fun hassert => ?_) fun _ => ?_
  · exact .bind (meets_expr hdeep _) fun condition c₁ ⟨hcondition, hshaped⟩ =>
      .pure ⟨(Passes.sign hassert rfl).trans hcondition, hshaped⟩
  · refine .bind (meets_leftList hdeep c) fun lhs c₁ ⟨hlhs, hlhsShaped⟩ => .expect fun heq _ => ?_
    refine .bind (meets_expr hdeep _) fun rhs c₂ ⟨hrhs, hrhsShaped⟩ =>
      .pure ⟨?_, hlhsShaped, hrhsShaped⟩
    exact hlhs.trans (.eq heq hrhs (rhs.beginsPlain _ hrhsShaped))

theorem meets_equation (c : Cursor) :
    Meets (equation deep) c fun equation c' =>
      c.Passes equation.value.words c' ∧ equation.value.Shaped := by
  refine .bind (P := fun equation c' => c.Passes equation.value.words c' ∧ equation.value.Shaped)
    (.located ((meets_statement hdeep c).mono fun _ _ h _ => h))
    fun equation c₁ ⟨hequation, hshaped⟩ => .expect fun hsemi _ => .pure ⟨?_, hshaped⟩
  simpa using hequation.trans (Passes.separator hsemi rfl)

end Read

end Lustre
