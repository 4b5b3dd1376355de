import Lustre.Proofs.Printer.Settled

/-!
# Printing a program with the parentheses that were printed for it

What a rebuilt program drops of its chunks are the blanks that its expressions drop.  Printing twice
is therefore printing once, up to one blank for each minus that is applied directly to a minus
(`Program.render_rebuild_iff`).
-/

namespace Lustre

open Chunk

/-! ## Lists -/

section

variable {α : Type} [HasExprs α] [Rebuildable α] {w : Nat} {wrap : Nat → Expr → Expr}
  {print : α → List Chunk}
  (h : ∀ item : α, Drops (blanks w (exprs item)) (print item) (print (rebuild wrap item)))

include h

theorem drops_map (items : List α) :
    DropsAll (blanks w (exprs items)) (items.map print) ((rebuild wrap items).map print) := by
  have hsplit : ∀ (item : α) (items : List α), blanks w (exprs (item :: items)) =
      blanks w (exprs item) + blanks w (exprs items) := fun item items =>
    blanks_append w (exprs item) (exprs items)
  exact .map (fun items => blanks w (exprs items)) rfl hsplit h items

theorem drops_separate (separator : Kind) (items : List α) : Drops (blanks w (exprs items))
    (separate separator (items.map print)) (separate separator ((rebuild wrap items).map print)) :=
  (drops_map h items).separate separator

theorem drops_flatMap (items : List α) : Drops (blanks w (exprs items)) (items.flatMap print)
    ((rebuild wrap items).flatMap print) := by
  rw [List.flatMap_def, List.flatMap_def]
  exact (drops_map h items).flatten

end

/-! ## Names -/

@[simp] theorem identChunks_rebuild (wrap : Nat → Expr → Expr) (names : List Ident) :
    identChunks (rebuild wrap names) = identChunks names := by
  have hsame : (rebuild wrap names).map Ident.chunks = names.map Ident.chunks := by
    show (names.map Ident.strip).map Ident.chunks = _
    simp [Function.comp_def]
  rw [identChunks, hsame, identChunks]

@[simp] theorem NodeHead.chunks_strip (head : NodeHead) (keyword : List Chunk) :
    head.strip.chunks keyword = head.chunks keyword := by
  simp [chunks, strip]

theorem Drops.entry {count : Nat} {first second : List Chunk} (h : Drops count first second) :
    Drops count (entry first) (entry second) :=
  .cons _ (h.trail _)

section

variable {w : Nat} {wrap : Nat → Expr → Expr} (h : Settling w wrap)

include h

/-! ## Variables, constants and types -/

theorem Expr.drops (expr : Expr) : Drops (blanks w (Lustre.exprs expr)) (expr.chunks false 0)
    ((Lustre.rebuild wrap expr).chunks false 0) :=
  h.chunks 0 (expr.drops_bare h)

theorem Expr.drops_assignment (expr : Expr) : Drops (blanks w (Lustre.exprs expr))
    (assignment (expr.chunks false 0)) (assignment ((Lustre.rebuild wrap expr).chunks false 0)) :=
  (expr.drops h).lead _

theorem drops_optionalValue (value : Option Expr) : Drops (blanks w (exprs value))
    (optionalValue value) (optionalValue (rebuild wrap value)) := by
  cases value with
  | none => exact .nil
  | some value => exact value.drops_assignment h

theorem TypeExpr.drops_typing (type : TypeExpr) : Drops (blanks w (exprs type)) (typing type)
    (typing (Lustre.rebuild wrap type)) :=
  (type.drops_chunks h).lead [sign .colon, blank]

theorem TypedNames.drops (group : TypedNames) : Drops (blanks w (exprs group)) group.chunks
    (rebuild wrap group).chunks := by
  show Drops _ (identChunks group.names ++ typing group.type)
    (identChunks (rebuild wrap group.names) ++ typing (rebuild wrap group.type))
  rw [identChunks_rebuild]
  exact (group.type.drops_typing h).lead _

theorem VarDecl.drops (decl : VarDecl) : Drops (blanks w (exprs decl)) decl.chunks
    (rebuild wrap decl).chunks := by
  obtain ⟨groups, clock, parenthesized⟩ := decl
  have hgroups := drops_separate (TypedNames.drops h) .semi groups
  have hclock : (rebuild wrap (⟨groups, clock, parenthesized⟩ : VarDecl)).clock =
      clock.map fun clock => .nowhere clock.value.strip := rfl
  unfold chunks
  rw [hclock]
  cases clock with
  | none =>
      cases parenthesized with
      | true => exact (hgroups.between .lParen .rParen).trail []
      | false => exact hgroups.trail []
  | some clock =>
      simp only [Option.map_some, Located.nowhere, Clock.chunks_strip]
      cases parenthesized with
      | true => exact (hgroups.between .lParen .rParen).trail _
      | false => exact hgroups.trail _

theorem Located.drops_varDecl (decl : Located VarDecl) : Drops (blanks w (exprs decl))
    decl.value.chunks (rebuild wrap decl).value.chunks :=
  decl.value.drops h

theorem Profile.drops (profile : Profile) : Drops (blanks w (exprs profile)) profile.chunks
    (rebuild wrap profile).chunks := by
  have hparams : ∀ params : List (Located VarDecl), Drops (blanks w (exprs params))
      (Profile.params params) (Profile.params (rebuild wrap params)) := fun params =>
    (drops_separate (Located.drops_varDecl h) .semi params).between .lParen .rParen
  apply (((hparams profile.inputs).trail _).append (hparams profile.outputs)).cast
  exact (blanks_append w _ _).symm

theorem ConstDef.drops (entry : ConstDef) : Drops (blanks w (exprs entry)) entry.chunks
    (rebuild wrap entry).chunks := by
  cases entry with
  | typed names type =>
      show Drops _ (identChunks names ++ typing type)
        (identChunks (rebuild wrap names) ++ typing (rebuild wrap type))
      rw [identChunks_rebuild]
      exact (type.drops_typing h).lead _
  | typedValue name type init =>
      show Drops _ (name.chunks ++ typing type ++ assignment (init.chunks false 0))
        (name.strip.chunks ++ typing (rebuild wrap type) ++
          assignment ((rebuild wrap init).chunks false 0))
      rw [Ident.chunks_strip]
      apply (((type.drops_typing h).lead _).append (init.drops_assignment h)).cast
      exact (blanks_append w _ _).symm
  | value name init =>
      show Drops _ (name.chunks ++ assignment (init.chunks false 0))
        (name.strip.chunks ++ assignment ((rebuild wrap init).chunks false 0))
      rw [Ident.chunks_strip]
      exact (init.drops_assignment h).lead _

theorem FieldDecl.drops (decl : FieldDecl) : Drops (blanks w (exprs decl)) decl.chunks
    (rebuild wrap decl).chunks := by
  show Drops _ (identChunks decl.names ++ typing decl.type ++ optionalValue decl.default)
    (identChunks (rebuild wrap decl.names) ++ typing (rebuild wrap decl.type) ++
      optionalValue (rebuild wrap decl.default))
  rw [identChunks_rebuild]
  apply (((decl.type.drops_typing h).lead _).append (drops_optionalValue h decl.default)).cast
  exact (blanks_append w _ _).symm

theorem TypeBody.drops (body : TypeBody) : Drops (blanks w (exprs body)) body.chunks
    (rebuild wrap body).chunks := by
  cases body with
  | synonym type => exact type.drops_chunks h
  | enumeration names =>
      show Drops 0 (_ ++ identChunks names ++ _) (_ ++ identChunks (rebuild wrap names) ++ _)
      rw [identChunks_rebuild]
      exact .refl _
  | record keyword fields =>
      have hfields : Drops (blanks w (exprs fields))
          (separate .semi (fields.map fun decl => decl.value.chunks))
          (separate .semi ((rebuild wrap fields).map fun decl => decl.value.chunks)) :=
        drops_separate (fun decl : Located FieldDecl => decl.value.drops h) .semi fields
      exact (hfields.lead _).trail _

theorem TypeDef.drops (entry : TypeDef) : Drops (blanks w (exprs entry)) entry.chunks
    (rebuild wrap entry).chunks := by
  obtain ⟨name, body⟩ := entry
  cases body with
  | none =>
      show Drops 0 name.chunks name.strip.chunks
      rw [Ident.chunks_strip]
      exact .refl _
  | some body =>
      show Drops _ (name.chunks ++ assignment body.value.chunks)
        (name.strip.chunks ++ assignment (rebuild wrap body.value).chunks)
      rw [Ident.chunks_strip]
      exact ((body.value.drops h).lead _).lead _

/-! ## Equations -/

theorem LeftExpr.drops (left : LeftExpr) : Drops (blanks w (exprs left)) left.chunks
    (Lustre.rebuild wrap left).chunks := by
  induction left with
  | name ident =>
      show Drops 0 ident.chunks ident.strip.chunks
      rw [Ident.chunks_strip]
      exact .refl _
  | field span value selected ih =>
      show Drops _ (value.chunks ++ sign .dot :: selected.chunks)
        ((Lustre.rebuild wrap value).chunks ++ sign .dot :: selected.strip.chunks)
      rw [Ident.chunks_strip]
      exact ih.trail _
  | index span value place ih =>
      apply (ih.append ((place.drops h).between .lBracket .rBracket)).cast
      exact (blanks_append w _ _).symm
  | slice span value first last step ih =>
      have hstep : Drops (blanks w (exprs step)) (stepPart false step)
          (stepPart false (Lustre.rebuild wrap step)) := by
        cases step with
        | none => exact .nil
        | some step => exact (step.drops h).lead _
      have hplaces := ((((first.drops h).trail [blank, sign .dotDot, blank]).append
        (last.drops h)).append hstep).between .lBracket .rBracket
      apply (ih.append hplaces).cast
      simp [exprs, LeftExpr.within, Nat.add_assoc]

theorem LeftList.drops (lhs : LeftList) : Drops (blanks w (exprs lhs)) lhs.chunks
    (rebuild wrap lhs).chunks := by
  obtain ⟨items, parenthesized⟩ := lhs
  have hitems := drops_separate (LeftExpr.drops h) .comma items
  cases parenthesized with
  | true => exact hitems.between .lParen .rParen
  | false => exact hitems

theorem Equation.drops (equation : Equation) : Drops (blanks w (exprs equation)) equation.chunks
    (rebuild wrap equation).chunks := by
  cases equation with
  | assertion condition => exact ((condition.drops h).lead _).entry
  | define lhs rhs =>
      apply ((lhs.drops h).append (rhs.drops_assignment h)).entry.cast
      exact (blanks_append w _ _).symm
  | error => exact .nil

/-! ## Nodes -/

theorem StaticParam.drops (param : StaticParam) : Drops (blanks w (exprs param)) param.chunks
    (rebuild wrap param).chunks := by
  cases param with
  | type name =>
      show Drops 0 ([sign .kwType, blank] ++ name.chunks)
        ([sign .kwType, blank] ++ name.strip.chunks)
      rw [Ident.chunks_strip]
      exact .refl _
  | const name range =>
      show Drops _ ([sign .kwConst, blank] ++ name.chunks ++ typing range)
        ([sign .kwConst, blank] ++ name.strip.chunks ++ typing (rebuild wrap range))
      rw [Ident.chunks_strip]
      exact (range.drops_typing h).lead _
  | node head profile =>
      show Drops _ (head.chunks [] ++ profile.chunks)
        (head.strip.chunks [] ++ (rebuild wrap profile).chunks)
      rw [NodeHead.chunks_strip]
      exact (profile.drops h).lead _

theorem StaticParam.drops_list (params : Option (List (Located StaticParam))) :
    Drops (blanks w (exprs params)) (StaticParam.list params)
      (StaticParam.list (rebuild wrap params)) := by
  cases params with
  | none => exact .nil
  | some params =>
      have hparams := drops_separate
        (fun param : Located StaticParam => param.value.drops h) .semi params
      exact hparams.between .ltLt .gtGt

theorem drops_optionalProfile (profile : Option Profile) : Drops (blanks w (exprs profile))
    ((profile.map Profile.chunks).getD [])
    (((rebuild wrap profile).map Profile.chunks).getD []) := by
  cases profile with
  | none => exact .nil
  | some profile => exact profile.drops h

theorem LocalBlock.drops (block : LocalBlock) : Drops (blanks w (exprs block)) block.chunks
    (rebuild wrap block).chunks := by
  cases block with
  | vars decls =>
      exact (drops_flatMap (fun decl : Located VarDecl => (decl.value.drops h).entry) decls).lead _
  | consts decls =>
      exact (drops_flatMap (fun decl : Located ConstDef => (decl.value.drops h).entry) decls).lead _

theorem NodeDefinition.drops (own : NodeDefinition) : Drops (blanks w (exprs own)) own.chunks
    (rebuild wrap own).chunks := by
  have hlocals := drops_flatMap (fun block : Located LocalBlock => block.value.drops h) own.locals
  have hequations := drops_flatMap (fun equation : Located Equation => equation.value.drops h)
    own.equations
  apply (((hlocals.trail (line [sign .kwLet])).append hequations).trail (line [sign .kwTel])).cast
  exact (blanks_append w _ _).symm

theorem NodeUse.drops (target : NodeUse) : Drops (blanks w (exprs target)) target.chunks
    (rebuild wrap target).chunks :=
  (optionalArgs_drops h target.args).lead _

theorem NodeBody.drops (body : NodeBody) : Drops (blanks w (exprs body)) body.chunks
    (rebuild wrap body).chunks := by
  cases body with
  | definition own => exact (own.drops h).lead _
  | synonym target => exact (((target.drops h).lead _).trail _).trail _
  | missing => exact .refl _

theorem NodeDecl.drops (decl : NodeDecl) : Drops (blanks w (exprs decl)) decl.chunks
    (rebuild wrap decl).chunks := by
  obtain ⟨head, params, profile, body⟩ := decl
  have hshape : ∀ decl : NodeDecl, decl.chunks = decl.head.chunks [] ++
    StaticParam.list decl.params ++
      (decl.profile.map Profile.chunks).getD [] ++ decl.body.chunks := by
    rintro ⟨_, _, profile, _⟩
    cases profile <;> rfl
  rw [hshape, hshape]
  show Drops _ (head.chunks [] ++ _ ++ _ ++ _) (head.strip.chunks [] ++ _ ++ _ ++ _)
  rw [NodeHead.chunks_strip]
  apply ((((StaticParam.drops_list h params).lead _).append
    (drops_optionalProfile h profile)).append
    (body.drops h)).cast
  show _ = blanks w (exprs params ++ exprs profile ++ exprs body)
  rw [blanks_append, blanks_append]

theorem ExternalNode.drops (node : ExternalNode) : Drops (blanks w (exprs node)) node.chunks
    (rebuild wrap node).chunks := by
  show Drops _ (line (node.head.chunks _ ++ _ ++ _)) (line (node.head.strip.chunks _ ++ _ ++ _))
  rw [NodeHead.chunks_strip]
  exact (((node.profile.drops h).lead _).trail _).trail _

/-! ## Declarations -/

omit h in
theorem DropsAll.block {count : Nat} {firsts seconds : List (List Chunk)}
    (h : DropsAll count firsts seconds) (keyword : Kind) :
    Drops count (block keyword firsts) (block keyword seconds) := by
  have hlines : Drops count (line [sign keyword] ++ firsts.flatMap Chunk.entry)
      (line [sign keyword] ++ seconds.flatMap Chunk.entry) := by
    apply Drops.lead
    induction h with
    | nil => exact .nil
    | cons head _ ih => exact head.entry.append ih
  cases h with
  | nil => exact hlines
  | cons head later =>
      cases later with
      | nil => exact (((head.lead [sign keyword, blank]).trail [sign .semi]).trail [newline])
      | cons => exact hlines

theorem Declaration.drops (decl : Declaration) : Drops (blanks w (exprs decl)) decl.chunks
    (rebuild wrap decl).chunks := by
  cases decl with
  | node decl => exact decl.drops h
  | types defs =>
      exact (drops_map (fun entry : Located TypeDef => entry.value.drops h) defs).block _
  | consts defs =>
      exact (drops_map (fun entry : Located ConstDef => entry.value.drops h) defs).block _
  | external decl => exact decl.drops h
  | error => exact .nil

end

/-! ## Lines -/

theorem DropsAll.lines {count : Nat} {firsts seconds : List (List Chunk)}
    (h : DropsAll count firsts seconds) :
    Drops count (firsts.flatMap (newline :: ·)) (seconds.flatMap (newline :: ·)) := by
  induction h with
  | nil => exact .nil
  | cons head _ ih => exact .cons _ (head.append ih)

/-- Parts that were skipped are left out, and have nothing to drop. -/
theorem drops_kept {α : Type} [HasExprs α] [Rebuildable α] {w : Nat} {wrap : Nat → Expr → Expr}
    {skipped : α → Bool} {print : α → List Chunk}
    (hskipped : ∀ item, skipped (rebuild wrap item) = skipped item)
    (hnone : ∀ item, skipped item = true → exprs item = [])
    (hprint : ∀ item, Drops (blanks w (exprs item)) (print item) (print (rebuild wrap item)))
    (items : List α) :
    DropsAll (blanks w (exprs items)) ((items.filter fun item => !skipped item).map print)
      (((rebuild wrap items).filter fun item => !skipped item).map print) := by
  induction items with
  | nil => exact .nil
  | cons item items ih =>
      have hsplit : exprs (item :: items) = exprs item ++ exprs items := rfl
      have hrebuild : rebuild wrap (item :: items) = rebuild wrap item :: rebuild wrap items := rfl
      rw [hsplit, blanks_append, hrebuild, List.filter_cons, List.filter_cons, hskipped]
      cases hitem : skipped item with
      | true =>
          rw [hnone item hitem, blanks_nil, Nat.zero_add]
          exact ih
      | false => exact .cons (hprint item) ih

/-- The items of a program behind its `include` directives, each on a line of its own. -/
def programLines (includes : List Chunk) (items : List (List Chunk)) : List Chunk :=
  match includes, items with
  | [], first :: rest => first ++ rest.flatMap (newline :: ·)
  | includes, items => includes ++ items.flatMap (newline :: ·)

theorem Program.chunks_eq (program : Program) : program.chunks =
    programLines (program.includes.flatMap fun file => includeChunks file.value)
      ((program.items.filter fun item => !item.value.isError).map fun item => item.value.chunks) :=
  rfl

theorem DropsAll.programLines {count : Nat} {firsts seconds : List (List Chunk)}
    (h : DropsAll count firsts seconds) (includes : List Chunk) :
    Drops count (programLines includes firsts) (programLines includes seconds) := by
  cases includes with
  | cons chunk includes => exact h.lines.lead _
  | nil =>
      cases h with
      | nil => exact .nil
      | cons head later => exact head.append later.lines

section

variable {w : Nat} {wrap : Nat → Expr → Expr} (h : Settling w wrap)

include h

/-! ## Packages and models -/

theorem drops_body (decls : List (Located Declaration)) : Drops (blanks w (exprs decls))
    (bodyLines decls) (bodyLines (rebuild wrap decls)) := by
  have hdecls : Drops (blanks w (exprs decls)) (bodyChunks decls)
      (bodyChunks (rebuild wrap decls)) := by
    cases decls with
    | nil => exact .nil
    | cons first rest =>
        have hlater : DropsAll (blanks w (exprs rest))
            ((rest.filter fun decl => !decl.value.isError).map fun decl => decl.value.chunks)
            (((rebuild wrap rest).filter fun decl => !decl.value.isError).map
              fun decl => decl.value.chunks) := by
          apply drops_kept
          · rintro ⟨decl, _⟩
            cases decl <;> rfl
          · rintro ⟨decl, _⟩ hskipped
            cases decl <;> first
              | rfl
              | cases hskipped
          · exact fun decl => decl.value.drops h
        have hlines := (first.value.drops h).append hlater.lines
        rw [List.flatMap_map, List.flatMap_map] at hlines
        exact hlines.cast (blanks_append w _ _).symm
  exact (hdecls.lead _).trail _

theorem Provide.drops (provide : Provide) : Drops (blanks w (exprs provide)) provide.chunks
    (rebuild wrap provide).chunks := by
  cases provide with
  | const name range value =>
      show Drops _ ([sign .kwConst, blank] ++ name.chunks ++ typing range ++ optionalValue value)
        ([sign .kwConst, blank] ++ name.strip.chunks ++ typing (rebuild wrap range) ++
          optionalValue (rebuild wrap value))
      rw [Ident.chunks_strip]
      apply (((range.drops_typing h).lead _).append (drops_optionalValue h value)).cast
      exact (blanks_append w _ _).symm
  | node head params profile =>
      show Drops _ (head.chunks [] ++ _ ++ _) (head.strip.chunks [] ++ _ ++ _)
      rw [NodeHead.chunks_strip]
      apply (((StaticParam.drops_list h params).lead _).append (profile.drops h)).cast
      exact (blanks_append w _ _).symm
  | type entry => exact (entry.drops h).lead _

theorem drops_provides (provides : Option (List (Located Provide))) :
    Drops (blanks w (exprs provides)) (providesChunks provides)
      (providesChunks (rebuild wrap provides)) := by
  cases provides with
  | none => exact .nil
  | some provides =>
      have hentries := drops_flatMap
        (fun provide : Located Provide => (provide.value.drops h).entry) provides
      exact hentries.lead _

theorem NamedArg.drops (named : NamedArg) : Drops (blanks w (exprs named)) named.chunks
    (rebuild wrap named).chunks := by
  obtain ⟨name, arg⟩ := named
  cases name with
  | none => exact arg.drops_chunks h
  | some name =>
      -- the name comes first, unless a keyword stands before it
      have hnamed : ∀ {count : Nat} {first second : List Chunk}, Drops count first second →
          ∀ before, Drops count (before ++ name.chunks ++ assignment first)
            (before ++ name.strip.chunks ++ assignment second) := by
        intro count first second hdrops before
        rw [Ident.chunks_strip]
        exact (hdrops.lead [blank, sign .eq, blank]).lead _
      cases arg with
      | name | op => exact hnamed (.refl _) []
      | type _ type explicit =>
          cases explicit with
          | false => exact hnamed (type.drops_chunks h) []
          | true => exact hnamed (type.drops_chunks h) [sign .kwType, blank]
      | const _ value explicit =>
          cases explicit with
          | false => exact hnamed (value.drops h) []
          | true => exact hnamed (value.drops h) [sign .kwConst, blank]
      | node span keyword target node args =>
          cases keyword with
          | none => exact hnamed ((StaticArg.node span none target node args).drops_chunks h) []
          | some kind =>
              exact hnamed ((optionalArgs_drops h args).lead node.chunks) [sign kind.symbol, blank]

theorem NamedArg.drops_list (brackets : Brackets) (args : List (Located NamedArg)) :
    Drops (blanks w (exprs args)) (NamedArg.list brackets args)
      (NamedArg.list brackets (rebuild wrap args)) := by
  have hargs := drops_separate (fun arg : Located NamedArg => arg.value.drops h) .comma args
  cases brackets with
  | paren => exact hargs.between _ _
  | angle =>
      have hclosing : ((rebuild wrap args).getLast?.any fun arg => arg.value.arg.isOp) =
          args.getLast?.any fun arg => arg.value.arg.isOp := by
        rw [rebuild_list, List.getLast?_map, Option.any_map]
        congr 1
        funext arg
        exact StaticArg.isOp_rebuild wrap arg.value.arg
      unfold NamedArg.list
      rw [hclosing]
      exact (hargs.trail _).lead [sign .ltLt]

omit h in
theorem usesChunks_rebuild (names : List Ident) :
    usesChunks (rebuild wrap names) = usesChunks names := by
  cases names with
  | nil => rfl
  | cons name names =>
      show line (_ ++ identChunks (rebuild wrap (name :: names)) ++ _) = _
      rw [identChunks_rebuild]
      rfl

theorem Package.drops (package : Package) : Drops (blanks w (exprs package)) package.chunks
    (rebuild wrap package).chunks := by
  obtain ⟨name, body⟩ := package
  have hbody : ∀ first second : List Chunk, Drops (blanks w (exprs body)) first second →
      Drops (blanks w (exprs body)) ([sign .kwPackage, blank] ++ name.chunks ++ first)
        ([sign .kwPackage, blank] ++ name.strip.chunks ++ second) := by
    intro first second hdrops
    rw [Ident.chunks_strip]
    exact hdrops.lead _
  cases body with
  | definition uses provides decls =>
      apply hbody
      show Drops _ (newline :: usesChunks uses ++ _ ++ _)
        (newline :: usesChunks (rebuild wrap uses) ++ _ ++ _)
      rw [usesChunks_rebuild]
      apply (((drops_provides h provides).lead _).append (drops_body h decls)).cast
      exact (blanks_append w _ _).symm
  | instantiated linking model brackets args =>
      apply hbody
      show Drops _ (line (_ ++ model.chunks ++ _ ++ _)) (line (_ ++ model.strip.chunks ++ _ ++ _))
      rw [Ident.chunks_strip]
      exact (((NamedArg.drops_list h brackets args).lead _).trail _).trail _
  | missing => exact hbody _ _ (.refl _)

theorem Model.drops (model : Model) : Drops (blanks w (exprs model)) model.chunks
    (rebuild wrap model).chunks := by
  obtain ⟨name, uses, needs, provides, decls⟩ := model
  have hwhole : ∀ {count : Nat} {first second : List Chunk}, Drops count first second →
      Drops (count + blanks w (exprs provides) + blanks w (exprs decls))
        (line ([sign .kwModel, blank] ++ name.chunks) ++ usesChunks uses ++ first ++
          providesChunks provides ++ bodyLines decls)
        (line ([sign .kwModel, blank] ++ name.chunks) ++ usesChunks uses ++ second ++
          providesChunks (rebuild wrap provides) ++ bodyLines (rebuild wrap decls)) :=
    fun hneeds => ((hneeds.lead _).append (drops_provides h provides)).append (drops_body h decls)
  have hparams := drops_flatMap (fun param : Located StaticParam =>
    (param.value.drops h).entry) needs
  have hcount : blanks w (exprs needs) + blanks w (exprs provides) + blanks w (exprs decls) =
      blanks w (exprs needs ++ exprs provides ++ exprs decls) := by
    rw [blanks_append, blanks_append]
  refine Drops.cast ?_ hcount
  show Drops _ _ (line (_ ++ name.strip.chunks) ++ usesChunks (rebuild wrap uses) ++ _ ++ _ ++ _)
  rw [Ident.chunks_strip, usesChunks_rebuild]
  cases needs with
  | nil => exact hwhole .nil
  | cons param needs => exact hwhole (hparams.lead (line [sign .kwNeeds]))

/-! ## Programs -/

theorem Item.drops (item : Item) : Drops (blanks w (exprs item)) item.chunks
    (rebuild wrap item).chunks := by
  cases item with
  | decl single => exact single.value.drops h
  | package whole => exact whole.drops h
  | model whole => exact whole.drops h
  | error => exact .nil

theorem Program.drops (program : Program) : Drops (blanks w (exprs program)) program.chunks
    (rebuild wrap program).chunks := by
  obtain ⟨includes, items⟩ := program
  have hitems : DropsAll (blanks w (exprs items))
      ((items.filter fun item => !item.value.isError).map fun item => item.value.chunks)
      (((rebuild wrap items).filter fun item => !item.value.isError).map
        fun item => item.value.chunks) := by
    apply drops_kept
    · rintro ⟨item, _⟩
      cases item <;> rfl
    · rintro ⟨item, _⟩ hskipped
      cases item <;> first
        | rfl
        | cases hskipped
    · exact fun item => item.value.drops h
  have hincludes : ((rebuild wrap includes).flatMap fun file => includeChunks file.value) =
      includes.flatMap fun file => includeChunks file.value := by
    rw [rebuild_list, List.flatMap_map]
    rfl
  rw [Program.chunks_eq, Program.chunks_eq]
  show Drops _ _ (programLines ((rebuild wrap includes).flatMap _) _)
  rw [hincludes]
  exact hitems.programLines _

end

theorem blanks_eq_zero_iff {exprs : List Expr} :
    blanks 1 exprs = 0 ↔ ∀ expr ∈ exprs, expr.doublesMinus = false := by
  induction exprs with
  | nil => simp
  | cons expr exprs ih =>
      rw [blanks_cons, Nat.add_eq_zero_iff, ih, List.forall_mem_cons]
      cases h : expr.doublesMinus <;> simp [Expr.blanksAt, h]

/-- If what was read is what was printed, up to places and the parentheses that printing puts in, it
is printed in the same way, except where a minus is applied directly to a minus. -/
theorem Program.print_eq_iff {read program : Program}
    (h : rebuild Expr.keep read = rebuild (Expr.settle false) program) :
    read.print = program.print ↔ ∀ expr ∈ exprs program, expr.doublesMinus = false := by
  have hkeep : ∀ exprs : List Expr, blanks 0 exprs = 0 := by
    intro exprs
    induction exprs with
    | nil => rfl
    | cons expr exprs ih => rw [blanks_cons, ih, Expr.blanksAt, ite_self]
  have hread : read.chunks = (rebuild Expr.keep read).chunks :=
    ((Program.drops settling_keep read).cast (hkeep _)).eq_of_zero
  have hprogram := Program.drops settling_settle program
  rw [← h, ← hread] at hprogram
  rw [print, print, hprogram.render_eq_iff, blanks_eq_zero_iff]

end Lustre
