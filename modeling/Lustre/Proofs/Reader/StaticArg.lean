import Lustre.Proofs.Reader.Expr

/-!
# Reading types and static arguments passes their words

A static argument that is read without a keyword is shaped, since the reader
looks ahead for what tells it apart.  The list of arguments of an instance is
tried as the arguments of a node first; what is read then is thrown away, so it
is never passed twice.
-/

namespace Lustre

open Cursor Lexeme

/-- The keyword of an explicit argument and the words after it. -/
def StaticArg.explicit? : StaticArg → Option (Kind × List Lexeme)
  | type _ range true => some (.kwType, range.words)
  | const _ value true => some (.kwConst, value.words)
  | node _ (some kind) _ target args => some (kind.symbol, target.words ++ argsWords args)
  | _ => none

/-- What the tokens from `c` on say about how an argument begins that is read up to `c'`. -/
structure StaticArg.Opens (arg : StaticArg) (c c' : Cursor) : Prop where
  plain : arg.explicit? = none → BeginsPlain arg.words
  keyword : ∀ kind later, arg.explicit? = some (kind, later) →
    c.peek = some kind ∧ c.pass.Passes later c'
  equation : arg.opensEquation = true →
    (c.peek = some .ident ∧ c.peekAt 1 = some .eq) ∨
      (c.peek = some .kwConst ∧ c.peekAt 1 = some .ident ∧ c.peekAt 2 = some .eq)

theorem StaticArg.isArgKeyword_of_explicit? {arg : StaticArg} {kind : Kind} {later : List Lexeme}
    (h : arg.explicit? = some (kind, later)) : kind.isArgKeyword = true := by
  unfold explicit? at h
  split at h
  · cases h
    rfl
  · cases h
    rfl
  · rename_i opening _ _ _
    cases h
    cases opening <;> rfl
  · cases h

theorem TypeExpr.beginsPlain (type : TypeExpr) : BeginsPlain type.words := by
  cases type with
  | bool => exact ⟨_, _, rfl, rfl⟩
  | int => exact ⟨_, _, rfl, rfl⟩
  | real => exact ⟨_, _, rfl, rfl⟩
  | named _ ref => exact ref.beginsPlain
  | table _ element => exact (beginsPlain element).append _

namespace Read

variable {deep : Nested} (hdeep : deep.Faithful)
include hdeep

/-! ## Types -/

omit hdeep in
/-- The part of a type before its lengths, which is one of the types of the language if it begins
with a keyword. -/
theorem meets_simpleType (c : Cursor) :
    Meets simpleType c fun type c' => (c.Passes type.words c' ∧ type.Shaped) ∧
      (c.peek ≠ some .ident → type.isBuiltin = true) := by
  refine .here fun _ => .peek ?_
  split
  · rename_i h
    exact .advance (.spanFrom fun _ => .pure ⟨⟨.sign h rfl, trivial⟩, fun _ => rfl⟩)
  · rename_i h
    exact .advance (.spanFrom fun _ => .pure ⟨⟨.sign h rfl, trivial⟩, fun _ => rfl⟩)
  · rename_i h
    exact .advance (.spanFrom fun _ => .pure ⟨⟨.sign h rfl, trivial⟩, fun _ => rfl⟩)
  · rename_i h
    exact .bind (meets_reference c) fun ref c' hpasses => .spanFrom fun _ =>
      .pure ⟨⟨hpasses.1, trivial⟩, fun hne => absurd h hne⟩
  · exact .missing

theorem meets_typeExpr_of_builtin (c : Cursor) :
    Meets (typeExpr deep) c fun type c' => (c.Passes type.words c' ∧ type.Shaped) ∧
      (c.peek ≠ some .ident → type.isBuiltin = true) := by
  refine .bind (meets_simpleType c) fun first c₁ hfirst => ?_
  refine .iterate_of_progress (I := fun type c' => (c.Passes type.words c' ∧ type.Shaped) ∧
    (c.peek ≠ some .ident → type.isBuiltin = true)) hfirst ?_
  rintro type c' ⟨⟨hpasses, hshaped⟩, hbuiltin⟩
  refine .ifEat (fun hhat => ?_) fun _ => .pure ⟨⟨hpasses, hshaped⟩, hbuiltin⟩
  refine .bind (meets_inner hdeep _ _) fun length c₂ ⟨⟨hlength, hlengthShaped⟩, _⟩ =>
    .pure ⟨?_, ?_⟩
  · exact ⟨⟨hpasses.trans ((Passes.sign hhat rfl).trans hlength), hshaped, hlengthShaped⟩, hbuiltin⟩
  · exact ((Passes.sign hhat rfl).trans hlength).shorter (by simp)

theorem meets_typeExpr (c : Cursor) :
    Meets (typeExpr deep) c fun type c' => c.Passes type.words c' ∧ type.Shaped :=
  (meets_typeExpr_of_builtin hdeep c).mono fun _ _ h => h.1

/-! ## Static arguments -/

theorem meets_nodeUse (c : Cursor) :
    Meets (nodeUse deep) c fun target c' => c.Passes target.words c' ∧ argsShaped target.args ∧
      (c.peekAt c.referenceLength = some .ltLt → target.args.isSome = true) := by
  refine .here fun _ => .bind (meets_reference c) fun node c₁ ⟨hnode, hrest⟩ => ?_
  refine .bind (P := fun args c' => c₁.Passes (argsWords args) c' ∧ argsShaped args ∧
    (c₁.peek = some .ltLt → args.isSome = true)) ?_ ?_
  · refine .optionalAt (fun _ => ?_) fun h => ⟨.refl _, trivial, fun hopen => absurd hopen h⟩
    exact (hdeep.args c₁).mono fun args c' h => ⟨h.1, h.2, fun _ => rfl⟩
  · rintro args c' ⟨hargs, hshaped, hsome⟩
    refine .spanFrom fun _ => .pure ⟨hnode.trans hargs, hshaped, fun hopen => hsome ?_⟩
    rw [peek_eq_peekAt hrest, hopen]

theorem meets_typeArg {start : Nat} {explicit : Bool} (c : Cursor)
    (h : explicit = true ∨ c.peek ≠ some .ident) :
    Meets (typeArg deep start explicit) c fun arg c' =>
      ∃ span type, arg = .type span type explicit ∧ c.Passes type.words c' ∧ arg.Shaped := by
  refine .bind (meets_typeExpr_of_builtin hdeep c) fun type c' ⟨⟨hpasses, hshaped⟩, hbuiltin⟩ => ?_
  exact .spanFrom fun span => .pure ⟨span, type, rfl, hpasses, h.imp id hbuiltin, hshaped⟩

theorem meets_constArg {start : Nat} {explicit : Bool} (c : Cursor)
    (h : explicit = true ∨ c.peek ≠ some .ident) :
    Meets (constArg deep start explicit) c fun arg c' =>
      ∃ span value, arg = .const span value explicit ∧ c.Passes value.words c' ∧ arg.Shaped := by
  refine .bind (P := fun value c' => (c.Passes value.words c' ∧ value.Shaped false) ∧
    (explicit = true ∨ value.isName = false)) ?_ fun value c' ⟨⟨hpasses, hshaped⟩, hname⟩ => ?_
  · refine .and (meets_expr hdeep c) ?_
    rcases h with h | h
    · exact Meets.any.mono fun _ _ _ => .inl h
    · exact (hdeep.opens 0 c).mono fun _ _ hvalue =>
        .inr (Bool.eq_false_iff.mpr fun hname => h (hvalue.name hname))
  · exact .spanFrom fun span => .pure ⟨span, value, rfl, hpasses, hname, hshaped⟩

theorem meets_nodeArg {start : Nat} {kind : NodeKind} (c : Cursor) :
    Meets (nodeArg deep start kind) c fun arg c' =>
      ∃ span target node args, arg = .node span (some kind) target node args ∧
        c.Passes (node.words ++ argsWords args) c' ∧ arg.Shaped := by
  refine .bind (meets_nodeUse hdeep c) fun target c' ⟨hpasses, hshaped, _⟩ => ?_
  exact .spanFrom fun span => .pure ⟨span, _, _, _, rfl, hpasses, .inl rfl, hshaped⟩

/-- A constant that begins with a name.  Where the argument ends, it is no bare name. -/
theorem meets_nameLedConst {close : Kind} {start : Nat} (c : Cursor) :
    Meets (nameLedConst deep close start) c fun arg c' =>
      c.Passes arg.words c' ∧ (c'.endsArg 0 close = true → arg.Shaped) := by
  refine .bind (meets_expr hdeep c) fun value c' ⟨hpasses, hshaped⟩ => ?_
  split
  · refine .get ?_
    split
    · exact .throw
    · rename_i hends
      exact .spanFrom fun _ => .pure ⟨hpasses, fun h => absurd h hends⟩
  · rename_i hname
    refine .spanFrom fun _ => .pure ⟨hpasses, fun _ => ⟨.inr ?_, hshaped⟩⟩
    cases value with
    | name span ref => exact absurd rfl (hname span ref)
    | _ => rfl

/-- An argument that begins with a name. -/
theorem meets_nameLedArg {close : Kind} {start : Nat} (c : Cursor) :
    Meets (nameLedArg deep close start) c fun arg c' =>
      c.Passes arg.words c' ∧ (c'.endsArg 0 close = true → arg.Shaped) := by
  refine .get ?_
  dsimp only
  split
  · exact .bind (meets_reference c) fun ref c' ⟨hpasses, _⟩ => .spanFrom fun _ =>
      .pure ⟨hpasses, fun _ => trivial⟩
  · split
    · rename_i hopen
      refine .bind (meets_nodeUse hdeep c) fun target c' ⟨hpasses, hshaped, hsome⟩ => ?_
      refine .ifAt (fun _ => ?_) fun _ => .spanFrom fun _ =>
        .pure ⟨hpasses, fun _ => ⟨.inr (hsome hopen), hshaped⟩⟩
      exact .set (meets_nameLedConst hdeep c)
    · exact meets_nameLedConst hdeep c

/-- A static argument, shaped where its list goes on or ends after it. -/
theorem meets_staticArg {close : Kind} (hclose : close.isArgKeyword = false) (c : Cursor) :
    Meets (staticArg deep close) c fun arg c' =>
      c.Passes arg.words c' ∧ (c'.endsArg 0 close = true → arg.Shaped) := by
  -- what begins with a type of the language is a type or a cast
  have hbuiltin : c.peek ≠ some .ident →
      Meets (if c.endsArg 1 close = true ∨ c.peekAt 1 = some .caret
        then typeArg deep c.span.start false else constArg deep c.span.start false) c
        fun arg c' => c.Passes arg.words c' ∧ (c'.endsArg 0 close = true → arg.Shaped) := by
    intro hname
    split
    · refine (meets_typeArg hdeep c (.inr hname)).mono ?_
      rintro _ c' ⟨span, type, rfl, hpasses, hshaped⟩
      exact ⟨hpasses, fun _ => hshaped⟩
    · refine (meets_constArg hdeep c (.inr hname)).mono ?_
      rintro _ c' ⟨span, value, rfl, hpasses, hshaped⟩
      exact ⟨hpasses, fun _ => hshaped⟩
  refine .get ?_
  dsimp only
  split
  · rename_i op hop
    obtain ⟨hop, hends⟩ := Option.filter_eq_some_iff.mp hop
    obtain ⟨kind, hkind, hop⟩ := Option.bind_eq_some_iff.mp hop
    obtain rfl := PredefinedOp.symbol_of_ofKind? hop
    refine .advance (.spanFrom fun _ => .pure ⟨?_, fun _ => trivial⟩)
    -- no keyword follows a lone `=`, for the list goes on or ends behind it
    by_cases heq : op = .eq
    · subst heq
      rw [Cursor.endsArg] at hends
      split at hends
      · rename_i next hnext
        refine .eq_alone hkind hnext ?_
        simp only [Bool.or_eq_true, beq_iff_eq] at hends
        rcases hends with (rfl | rfl) | rfl
        · rfl
        · rfl
        · exact hclose
      · cases hends
    · exact .sign hkind (PredefinedOp.symbol_steady heq)
  · -- after a keyword the sort is given, and otherwise the first word decides
    split
    · rename_i h
      refine .advance ((meets_typeArg hdeep _ (.inl rfl)).mono ?_)
      rintro _ c' ⟨span, type, rfl, hpasses, hshaped⟩
      exact ⟨(Passes.sign h rfl).trans hpasses, fun _ => hshaped⟩
    · rename_i h
      refine .advance ((meets_constArg hdeep _ (.inl rfl)).mono ?_)
      rintro _ c' ⟨span, value, rfl, hpasses, hshaped⟩
      exact ⟨(Passes.sign h rfl).trans hpasses, fun _ => hshaped⟩
    · rename_i h
      refine .advance ((meets_nodeArg hdeep _).mono ?_)
      rintro _ c' ⟨span, target, node, args, rfl, hpasses, hshaped⟩
      refine ⟨?_, fun _ => hshaped⟩
      simpa [StaticArg.words, nodeWord, NodeKind.symbol] using (Passes.sign h rfl).trans hpasses
    · rename_i h
      refine .advance ((meets_nodeArg hdeep _).mono ?_)
      rintro _ c' ⟨span, target, node, args, rfl, hpasses, hshaped⟩
      refine ⟨?_, fun _ => hshaped⟩
      simpa [StaticArg.words, nodeWord, NodeKind.symbol] using (Passes.sign h rfl).trans hpasses
    · rename_i h
      exact hbuiltin (by simp [h])
    · rename_i h
      exact hbuiltin (by simp [h])
    · rename_i h
      exact hbuiltin (by simp [h])
    · exact meets_nameLedArg hdeep c
    · rename_i hname
      refine (meets_constArg hdeep c (.inr hname)).mono ?_
      rintro _ c' ⟨span, value, rfl, hpasses, hshaped⟩
      exact ⟨hpasses, fun _ => hshaped⟩

/-- How a static argument begins. -/
theorem meets_staticArg_opens {close : Kind} (c : Cursor) :
    Meets (staticArg deep close) c fun arg c' => arg.Opens c c' := by
  have hvalue : ∀ c, Meets deep.expr c fun value c' =>
      c.Passes value.words c' ∧ BeginsPlain value.words ∧ value.Opens c c' := fun c =>
    ((meets_expr hdeep c).and (hdeep.opens 0 c)).mono fun value _ h =>
      ⟨h.1.1, value.beginsPlain _ h.1.2, h.2⟩
  have hconst : ∀ start, Meets (constArg deep start false) c fun arg c' => arg.Opens c c' := by
    intro start
    exact .bind (hvalue c) fun value c' ⟨_, hbegins, hopens⟩ => .spanFrom fun _ =>
      .pure ⟨fun _ => hbegins, nofun, fun hequation => .inl (hopens.equation hequation)⟩
  have htype : ∀ start, Meets (typeArg deep start false) c fun arg c' => arg.Opens c c' :=
    fun start => .bind .any fun type _ _ => .spanFrom fun _ =>
      .pure ⟨fun _ => type.beginsPlain, nofun, nofun⟩
  have hbuiltin : ∀ start, Meets (if c.endsArg 1 close = true ∨ c.peekAt 1 = some .caret
      then typeArg deep start false else constArg deep start false) c
      fun arg c' => arg.Opens c c' := by
    intro start
    split
    · exact htype start
    · exact hconst start
  have hnode : ∀ start kind, c.peek = some kind.symbol →
      Meets (nodeArg deep start kind) c.pass fun arg c' => arg.Opens c c' := by
    intro start kind hkind
    refine (meets_nodeArg hdeep _).mono ?_
    rintro _ c' ⟨span, target, node, args, rfl, hpasses, -⟩
    refine ⟨nofun, fun kind' later h => ?_, nofun⟩
    cases h
    exact ⟨hkind, hpasses⟩
  -- a constant that begins with a name is an expression like any other
  have hledConst : ∀ start, Meets (nameLedConst deep close start) c fun arg c' =>
      arg.Opens c c' := by
    intro start
    refine .bind (hvalue c) fun value c' ⟨_, hbegins, hopens⟩ => ?_
    have harg : ∀ span, (StaticArg.const span value false).Opens c c' := fun span =>
      ⟨fun _ => hbegins, nofun, fun hequation => .inl (hopens.equation hequation)⟩
    split
    · refine .get ?_
      split
      · exact .throw
      · exact .spanFrom fun _ => .pure (harg _)
    · exact .spanFrom fun _ => .pure (harg _)
  refine .get ?_
  dsimp only
  split
  · -- an operator alone
    rename_i op hop
    exact .advance (.spanFrom fun _ => .pure
      ⟨fun _ => ⟨_, _, rfl, by cases op <;> rfl⟩, nofun, nofun⟩)
  · -- what a keyword or the name of a type begins
    split
    · rename_i h
      refine .advance ((meets_typeArg hdeep _ (.inl rfl)).mono ?_)
      rintro _ c' ⟨span, type, rfl, hpasses, -⟩
      refine ⟨nofun, fun kind later hsome => ?_, nofun⟩
      cases hsome
      exact ⟨h, hpasses⟩
    · rename_i h
      refine .advance (.bind (hvalue _) fun value c' ⟨hpasses, _, hopens⟩ => .spanFrom fun span =>
        .pure ⟨nofun, fun kind later hsome => ?_, fun hequation => .inr ?_⟩)
      · cases hsome
        exact ⟨h, hpasses⟩
      · have := hopens.equation hequation
        rw [← peekAt_zero, peekAt_pass, peekAt_pass] at this
        exact ⟨h, this⟩
    · rename_i h
      exact .advance (hnode _ _ h)
    · rename_i h
      exact .advance (hnode _ _ h)
    · exact hbuiltin _
    · exact hbuiltin _
    · exact hbuiltin _
    · -- what a name begins
      refine .get ?_
      dsimp only
      split
      · exact .bind .any fun ref _ _ => .spanFrom fun _ =>
          .pure ⟨fun _ => ref.beginsPlain, nofun, nofun⟩
      · split
        · refine .bind .any fun target _ _ => .ifAt (fun _ => .set (hledConst _)) fun _ => ?_
          exact .spanFrom fun _ => .pure ⟨fun _ => target.node.beginsPlain.append _, nofun, nofun⟩
        · exact hledConst _
    · exact hconst _

/-- A list of static arguments. -/
theorem meets_staticArgs (c : Cursor) :
    Meets (staticArgs deep) c fun args c' =>
      c.Passes (argsWords (some args)) c' ∧ StaticArg.listShaped args := by
  refine .expect fun hopen _ => ?_
  refine .bind (meets_separated rfl (meets_staticArg hdeep rfl) _)
    fun args c' ⟨hargs, hshaped⟩ => .expect fun hclose _ => .pure ⟨?_, ?_⟩
  · rw [argsWords, StaticArg.listWords_eq]
    simpa using (Passes.sign hopen rfl).trans (hargs.trans (.sign hclose rfl))
  · exact (StaticArg.listShaped_iff args).mpr (hshaped hclose)

end Read

namespace Nested

/-- The readers pass the words of what they answer, however many levels are allowed. -/
theorem faithful_upTo (levels : Nat) : (upTo levels).Faithful := by
  induction levels with
  | zero => exact ⟨fun _ _ => .fail, fun _ _ => .fail, fun _ _ => .fail, fun _ => .fail⟩
  | succ levels ih =>
      exact ⟨fun least c => Read.meets_top ih least c, fun least c => Read.meets_inner ih least c,
        fun least c => Read.meets_top_opens ih least c, fun c => Read.meets_staticArgs ih c⟩

end Nested

end Lustre
