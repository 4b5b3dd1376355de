import Lustre.Proofs.Reader.Nesting
import Lustre.Proofs.Reader.Program
import Lustre.Proofs.Tree.Height

/-!
# No expression has more levels than are allowed

The limit on nesting holds for every expression that is read, wherever it stands in a program
and whatever is wrong with the text around it: with `levels` levels allowed, none has more
than `levels` levels inside it.  For expressions, types and static arguments this is what they
cost (`Spends`); everything else holds just the expressions of what it is put together from,
so `Always` follows the readers without regard to what they pass.
-/

namespace Lustre

variable {ε σ α β γ : Type}

/-- Whatever a reader answers, from wherever it starts, has `Q`. -/
def Always (read : EStateM ε σ α) (Q : α → Prop) : Prop :=
  ∀ s, Meets read s fun a _ => Q a

namespace Always

variable {P Q : α → Prop} {R : β → Prop}

theorem any {read : EStateM ε σ α} : Always read fun _ => True := fun _ => .any

theorem mono {read : EStateM ε σ α} (h : Always read P) (hPQ : ∀ a, P a → Q a) : Always read Q :=
  fun s => (h s).mono fun a _ => hPQ a

theorem pure {a : α} (h : Q a) : Always (Pure.pure a : EStateM ε σ α) Q := fun _ => .pure h

theorem throw {e : ε} : Always (MonadExcept.throw e : EStateM ε σ α) Q := fun _ => .throw

theorem bind {read : EStateM ε σ α} {next : α → EStateM ε σ β} (h : Always read P)
    (hnext : ∀ a, P a → Always (next a) R) : Always (read >>= next) R :=
  fun s => (h s).bind fun a s' ha => hnext a ha s'

/-- A step whose answer does not matter. -/
theorem after {read : EStateM ε σ α} {next : α → EStateM ε σ β} (hnext : ∀ a, Always (next a) R) :
    Always (read >>= next) R :=
  any.bind fun a _ => hnext a

theorem ite {p : Prop} [Decidable p] {yes no : EStateM ε σ α} (hyes : Always yes Q)
    (hno : Always no Q) : Always (if p then yes else no) Q := by
  split
  · exact hyes
  · exact hno

theorem iterateUpTo {step : α → EStateM Diagnostic σ (ForInStep α)}
    (hstep : ∀ a, Q a → Always (step a) fun next => Q next.value) (bound : Nat) {a : α} (h : Q a) :
    Always (Lustre.iterateUpTo step bound a) Q := by
  induction bound generalizing a with
  | zero => exact .pure h
  | succ bound ih =>
      refine .bind (hstep a h) fun next hnext => ?_
      cases next with
      | done b => exact .pure hnext
      | yield b => exact ih hnext

end Always

namespace Read

variable {Q : α → Prop}

theorem always_fail {cause : Cause} : Always (fail cause : Read α) Q := fun _ => .fail

theorem always_unexpected {options : List Kind} : Always (unexpected options : Read α) Q :=
  fun _ => .unexpected

/-- A loop answers what all its steps answer. -/
theorem always_iterate {step : α → Read (ForInStep α)} {a : α} (h : Q a)
    (hstep : ∀ a, Q a → Always (step a) fun next => Q next.value) : Always (iterate a step) Q :=
  .after fun _ => .iterateUpTo hstep _ h

theorem always_located {read : Read α} {Q : Located α → Prop}
    (h : Always read fun a => ∀ span, Q ⟨a, span⟩) : Always (located read) Q :=
  .after fun _ => h.bind fun _ ha => .after fun span => .pure (ha span)

end Read

/-! ## Few enough levels -/

section

variable [HasExprs α] [HasExprs β] {levels : Nat}

/-- No expression in a tree has more levels inside it. -/
def FitsIn (levels : Nat) (a : α) : Prop := ∀ e ∈ exprs a, e.depth ≤ levels

theorem FitsIn.nil : FitsIn levels ([] : List α) := fun _ h => by cases h

theorem FitsIn.none : FitsIn levels (none : Option α) := fun _ h => by cases h

theorem FitsIn.snoc {items : List α} {item : α} (h : FitsIn levels items)
    (hitem : FitsIn levels item) : FitsIn levels (items ++ [item]) := by
  intro e he
  rw [exprs_append, exprs_singleton] at he
  rcases List.mem_append.mp he with he | he
  · exact h e he
  · exact hitem e he

theorem FitsIn.singleton {item : α} (h : FitsIn levels item) : FitsIn levels [item] :=
  FitsIn.nil.snoc h

/-- What holds the expressions of two others. -/
theorem FitsIn.both {a : α} {b : β} (ha : FitsIn levels a) (hb : FitsIn levels b) :
    ∀ e ∈ exprs a ++ exprs b, e.depth ≤ levels := by
  intro e he
  rcases List.mem_append.mp he with he | he
  · exact ha e he
  · exact hb e he

end

/-- A full expression has one level fewer inside it than it takes. -/
theorem FitsIn.of_nesting {levels : Nat} {e : Expr} (h : e.nesting ≤ levels) :
    FitsIn levels e := by
  have hdepth : e.depth ≤ levels := Nat.le_of_succ_le h
  intro s hs
  rcases List.mem_cons.mp hs with rfl | hs
  · exact hdepth
  · exact Nat.le_trans (e.depth_within s hs) hdepth

namespace Read

section

variable [HasExprs α] {levels : Nat} {item : Read α}

theorem fits_commaList (h : Always item (FitsIn levels)) :
    Always (commaList item) (FitsIn levels) := by
  refine h.bind fun first hfirst => always_iterate hfirst.singleton fun items hitems => ?_
  refine .after fun found => .ite ?_ (.pure hitems)
  exact h.bind fun next hnext => .pure (hitems.snoc hnext)

theorem fits_separated (h : Always item (FitsIn levels)) {close : Kind} {separators : List Kind} :
    Always (separated close separators item) (FitsIn levels) := by
  refine always_iterate .nil fun items hitems => .after fun found => .ite (.pure hitems) ?_
  refine h.bind fun next hnext => .after fun more => .ite ?_ ?_
  · exact .pure (hitems.snoc hnext)
  · exact .pure (hitems.snoc hnext)

theorem fits_terminated (h : Always item (FitsIn levels)) {starts : List Kind} :
    Always (terminated starts item) (FitsIn levels) := by
  refine always_iterate .nil fun items hitems => h.bind fun next hnext => ?_
  refine .after fun _ => .after fun kind => .ite ?_ ?_
  · exact .pure (hitems.snoc hnext)
  · exact .pure (hitems.snoc hnext)

theorem fits_optionalAt (h : Always item (FitsIn levels)) {kind : Kind} :
    Always (optionalAt kind item) (FitsIn levels) :=
  .after fun _ => .ite (h.bind fun _ ha => .pure ha) (.pure .none)

theorem fits_optionalAfter (h : Always item (FitsIn levels)) {kind : Kind} :
    Always (optionalAfter kind item) (FitsIn levels) :=
  .after fun _ => .ite (h.bind fun _ ha => .pure ha) (.pure .none)

end

/-! ## Expressions, types and static arguments -/

variable {levels : Nat}

theorem fits_expr : Always (Nested.upTo levels).expr (FitsIn levels) := by
  intro c e c' hread
  exact .of_nesting (((Nested.spends_upTo levels levels).top 0).cost_le hread)

theorem fits_typeExpr : Always (typeExpr (.upTo levels)) (FitsIn levels) := by
  intro c type c' hread s hs
  have hle := (spends_typeExpr (Nested.spends_upTo levels levels)).cost_le hread
  exact Nat.le_trans (type.depth_within s hs) hle

theorem fits_nodeUse : Always (nodeUse (.upTo levels)) (FitsIn levels) := by
  intro c target c' hread s hs
  have hle := (spends_nodeUse (Nested.spends_upTo levels levels)).cost_le hread
  exact Nat.le_trans (depth_argsExprs target.args s hs) hle

/-- What every reader of static arguments has in common. -/
theorem fits_of_depth {read : Read StaticArg} (h : Spends levels 0 read read StaticArg.depth) :
    Always read (FitsIn levels) := by
  intro c arg c' hread s hs
  exact Nat.le_trans (arg.depth_within s hs) (h.cost_le hread)

theorem fits_staticArg (close : Kind) :
    Always (staticArg (.upTo levels) close) (FitsIn levels) := by
  have hleads : (Nested.upTo levels).Leads :=
    Nested.leads_of_spends fun limit => Nested.spends_upTo levels limit
  exact fits_of_depth (spends_staticArg (Nested.spends_upTo levels levels) hleads close)

/-! ## Variables and profiles -/

theorem fits_typedNames : Always (typedNames (.upTo levels)) (FitsIn levels) :=
  .after fun _ => .after fun _ => fits_typeExpr.bind fun _ htype => .pure htype

theorem fits_varGroups : Always (varGroups (.upTo levels)) (FitsIn levels) := by
  refine fits_typedNames.bind fun first hfirst => always_iterate hfirst.singleton fun groups h => ?_
  refine .after fun found => .ite (.after fun found => .ite (.pure h) ?_) (.pure h)
  exact fits_typedNames.bind fun group hgroup => .pure (h.snoc hgroup)

theorem fits_varDecl : Always (varDecl (.upTo levels)) (FitsIn levels) := by
  refine always_located (.after fun found => .ite ?_ ?_)
  · refine fits_varGroups.bind fun groups hgroups => .after fun _ => .after fun _ => ?_
    exact .after fun clock => .pure fun _ => hgroups
  · refine fits_typedNames.bind fun group hgroup => .after fun clock => ?_
    exact .pure fun _ => hgroup.singleton

theorem fits_params : Always (params (.upTo levels)) (FitsIn levels) :=
  .after fun _ => (fits_separated fits_varDecl).bind fun _ h => .after fun _ => .pure h

theorem fits_profile : Always (profile (.upTo levels)) (FitsIn levels) :=
  fits_params.bind fun _ hinputs => .after fun _ => fits_params.bind fun _ houtputs =>
    .pure (hinputs.both houtputs)

theorem fits_staticParam : Always (staticParam (.upTo levels)) (FitsIn levels) := by
  have hnode : Always (do
      let head ← nodeHead
      return StaticParam.node head (← profile (.upTo levels)))
      fun param => ∀ span : Span, FitsIn levels (⟨param, span⟩ : Located StaticParam) :=
    .after fun head => fits_profile.bind fun profile hprofile => .pure fun _ => hprofile
  refine always_located (.after fun next => ?_)
  split
  · exact .after fun _ => .after fun name => .pure fun _ _ h => by cases h
  · refine .after fun _ => .after fun name => .after fun _ => ?_
    exact fits_typeExpr.bind fun type htype => .pure fun _ => htype
  · exact hnode
  · exact hnode
  · exact hnode
  · exact always_unexpected

theorem fits_staticParams : Always (staticParams (.upTo levels)) (FitsIn levels) :=
  .after fun _ => (fits_separated fits_staticParam).bind fun _ h => .after fun _ => .pure h

/-! ## Types and constants -/

theorem fits_fieldDecl : Always (fieldDecl (.upTo levels)) (FitsIn levels) := by
  refine always_located (.after fun names => .after fun _ => ?_)
  refine fits_typeExpr.bind fun type htype => .after fun found => .ite (.ite always_fail ?_) ?_
  · exact .after fun _ => fits_expr.bind fun value hvalue => .pure fun _ => htype.both hvalue
  · exact .pure fun _ => htype.both .none

theorem fits_fieldDecls : Always (fieldDecls (.upTo levels)) (FitsIn levels) :=
  .after fun _ => (fits_separated fits_fieldDecl).bind fun _ h => .after fun _ => .pure h

theorem fits_typeBody : Always (typeBody (.upTo levels)) (FitsIn levels) := by
  refine always_located (.after fun next => ?_)
  split
  · refine .after fun _ => .after fun _ => .after fun names => .after fun _ => ?_
    exact .pure fun _ _ h => by cases h
  · exact .after fun _ => fits_fieldDecls.bind fun fields h => .pure fun _ => h
  · exact fits_fieldDecls.bind fun fields h => .pure fun _ => h
  · exact fits_typeExpr.bind fun type h => .pure fun _ => h

theorem fits_typeDef : Always (typeDef (.upTo levels)) (FitsIn levels) := by
  refine always_located (.after fun name => ?_)
  exact (fits_optionalAfter fits_typeBody).bind fun body h => .pure fun _ => h

theorem fits_typeEntry : Always (typeEntry (.upTo levels)) (FitsIn levels) :=
  fits_typeDef.bind fun _ h => .after fun _ => .pure h

theorem fits_constDef : Always (constDef (.upTo levels)) (FitsIn levels) := by
  refine .after fun _ => .after fun next => ?_
  split
  · refine .after fun names => .after fun _ => ?_
    exact fits_typeExpr.bind fun type htype => .pure htype
  · refine .after fun _ => fits_typeExpr.bind fun type htype => .after fun found => .ite ?_ ?_
    · exact fits_expr.bind fun value hvalue => .pure (htype.both hvalue)
    · exact .pure htype
  · exact .after fun _ => fits_expr.bind fun value hvalue => .pure hvalue
  · exact always_unexpected

theorem fits_constEntry : Always (constEntry (.upTo levels)) (FitsIn levels) := by
  have hentry : Always (located (constDef (.upTo levels))) (FitsIn levels) :=
    always_located (fits_constDef.mono fun _ h _ => h)
  exact hentry.bind fun _ h => .after fun _ => .pure h

/-! ## What packages show and take -/

theorem fits_provide : Always (provide (.upTo levels)) (FitsIn levels) := by
  have hnode : Always (do
      let head ← nodeHead
      let params ← optionalAt .ltLt (staticParams (.upTo levels))
      return Provide.node head params (← profile (.upTo levels)))
      fun provide => ∀ span : Span, FitsIn levels (⟨provide, span⟩ : Located Provide) := by
    refine .after fun head => (fits_optionalAt fits_staticParams).bind fun params hparams => ?_
    exact fits_profile.bind fun profile hprofile => .pure fun _ => hparams.both hprofile
  refine always_located (.after fun next => ?_)
  split
  · refine .after fun _ => .after fun name => .after fun _ => ?_
    refine fits_typeExpr.bind fun type htype => ?_
    exact (fits_optionalAfter fits_expr).bind fun value hvalue => .pure fun _ => htype.both hvalue
  · exact .after fun _ => fits_typeDef.bind fun entry h => .pure fun _ => h
  · exact hnode
  · exact hnode
  · exact hnode
  · exact always_unexpected

theorem fits_provides : Always (provides (.upTo levels)) (FitsIn levels) :=
  fits_optionalAfter (fits_terminated fits_provide)

theorem fits_keywordArg {arg : Nat → Read StaticArg}
    (h : ∀ start, Always (arg start) (FitsIn levels)) : Always (keywordArg arg) (FitsIn levels) :=
  .after fun _ => .after fun _ => .after fun _ => .after fun start =>
    (h start).bind fun _ harg => .pure harg

theorem fits_namedArg (close : Kind) : Always (namedArg (.upTo levels) close) (FitsIn levels) := by
  have hspends := Nested.spends_upTo levels levels
  have hplain : Always (do return NamedArg.mk none (← staticArg (.upTo levels) close))
      fun arg => ∀ span : Span, FitsIn levels (⟨arg, span⟩ : Located NamedArg) :=
    (fits_staticArg close).bind fun arg harg => .pure fun _ => harg
  have hkeyword : ∀ arg : Nat → Read StaticArg,
      (∀ start, Spends levels 0 (arg start) (arg start) StaticArg.depth) →
        Always (keywordArg arg) fun arg =>
          ∀ span : Span, FitsIn levels (⟨arg, span⟩ : Located NamedArg) := by
    intro arg h
    have harg := fits_keywordArg fun start => fits_of_depth (h start)
    exact harg.mono fun _ h _ => h
  refine always_located (.after fun c => ?_)
  split
  · refine .ite (.after fun _ => .after fun _ => ?_) hplain
    exact (fits_staticArg close).bind fun arg harg => .pure fun _ => harg
  · exact .ite (hkeyword _ fun start => spends_typeArg hspends start true) hplain
  · exact .ite (hkeyword _ fun start => spends_constArg hspends start true) hplain
  · exact .ite (hkeyword _ fun start => spends_nodeArg hspends start .node) hplain
  · exact .ite (hkeyword _ fun start => spends_nodeArg hspends start .function) hplain
  · exact hplain

theorem fits_modelArgs : Always (modelArgs (.upTo levels)) fun read => FitsIn levels read.2 := by
  refine .after fun found => .ite ?_ (.after fun found => .ite ?_ always_unexpected)
  · exact (fits_separated (fits_namedArg _)).bind fun args h => .after fun _ => .pure h
  · exact (fits_separated (fits_namedArg _)).bind fun args h => .after fun _ => .pure h

/-! ## Equations -/

/-- What is built from the expressions between brackets. -/
theorem always_indexing {index : Expr → α} {slice : Expr → Expr → Option Expr → α} {Q : α → Prop}
    (hindex : ∀ at_, FitsIn levels at_ → Q (index at_))
    (hslice : ∀ first last step, FitsIn levels first → FitsIn levels last → FitsIn levels step →
      Q (slice first last step)) : Always (indexing (.upTo levels) index slice) Q := by
  refine fits_expr.bind fun first hfirst => .after fun found => .ite ?_ ?_
  · refine fits_expr.bind fun last hlast => (fits_optionalAfter fits_expr).bind fun step hstep => ?_
    exact .pure (hslice first last step hfirst hlast hstep)
  · exact .pure (hindex first hfirst)

theorem fits_leftExpr : Always (leftExpr (.upTo levels)) (FitsIn levels) := by
  refine .after fun name => always_iterate (fun _ h => by cases h) fun left hleft => ?_
  refine .after fun found => .ite ?_ (.after fun found => .ite ?_ (.pure hleft))
  · exact .after fun field => .pure hleft
  · refine (always_indexing (Q := fun build => ∀ span, FitsIn levels (build span)) ?_ ?_).bind
      fun build hbuild => .after fun close => .pure (hbuild _)
    · exact fun at_ hat _ => hleft.both hat
    · refine fun first last step hfirst hlast hstep _ => ?_
      have hends : ∀ e ∈ left.within ++ exprs first ++ exprs last, e.depth ≤ levels :=
        List.forall_mem_append.mpr ⟨hleft.both hfirst, hlast⟩
      exact List.forall_mem_append.mpr ⟨hends, hstep⟩

theorem fits_leftList : Always (leftList (.upTo levels)) (FitsIn levels) := by
  refine .after fun found => .ite ?_ ?_
  · have hclose : ∀ items, FitsIn levels items → Always (do
        let _ ← expect .rParen
        return (⟨items, true⟩ : LeftList)) (FitsIn levels) := fun items hitems =>
      .after fun _ => .pure hitems
    exact .after fun found => .ite (hclose [] .nil) ((fits_commaList fits_leftExpr).bind hclose)
  · exact (fits_commaList fits_leftExpr).bind fun items hitems => .pure hitems

theorem fits_equation : Always (equation (.upTo levels)) (FitsIn levels) := by
  have hstatement : Always (statement (.upTo levels)) (FitsIn levels) := by
    refine .after fun found => .ite ?_ ?_
    · exact fits_expr.bind fun condition h => .pure h
    · refine fits_leftList.bind fun lhs hlhs => .after fun _ => ?_
      exact fits_expr.bind fun rhs hrhs => .pure (hlhs.both hrhs)
  have hlocated : Always (located (statement (.upTo levels))) (FitsIn levels) :=
    always_located (hstatement.mono fun _ h _ => h)
  exact hlocated.bind fun _ h => .after fun _ => .pure h

end Read

/-! ## Equations and blocks -/

namespace Recover

section

variable {P Q : α → Prop} {R : β → Prop}

theorem always_lift {read : Read α} (h : Always read Q) :
    Always (monadLift read : Recover α) Q := by
  intro run a run' hok
  rw [lift_run] at hok
  split at hok
  · rename_i hread
    cases hok
    exact h run.cursor _ _ hread
  · cases hok

/-- What follows an answer or a failure that is caught. -/
theorem always_caught {read : Recover α} {next : Except Diagnostic α → Recover β}
    (h : Always read P) (hok : ∀ a, P a → Always (next (.ok a)) R)
    (hfail : ∀ e, Always (next (.error e)) R) : Always (attempt read >>= next) R := by
  have hattempt : Always (attempt read) fun result => ∀ a, result = .ok a → P a := by
    intro run result run' hresult a ha
    subst ha
    unfold attempt at hresult
    split at hresult
    · rename_i hread
      cases hresult
      exact h run _ _ hread
    · cases hresult
  refine hattempt.bind fun result hresult => ?_
  cases result with
  | ok a => exact hok a (hresult a rfl)
  | error e => exact hfail e

theorem always_iterate {step : α → Recover (ForInStep α)} {a : α} (h : Q a)
    (hstep : ∀ a, Q a → Always (step a) fun next => Q next.value) : Always (iterate a step) Q :=
  .after fun _ => .iterateUpTo hstep _ h

theorem always_located {read : Recover α} {Q : Located α → Prop}
    (h : Always read fun a => ∀ span, Q ⟨a, span⟩) : Always (located read) Q :=
  .after fun _ => h.bind fun _ ha => .after fun span => .pure (ha span)

end

variable {levels : Nat} {scope : Scope}

theorem fits_equations :
    Always (equations (.upTo levels) scope) fun read => FitsIn levels read.1 := by
  refine always_iterate .nil fun read hread => .after fun run => .after fun stopped => ?_
  refine .ite (.pure hread) (.after fun found => .ite (.pure hread) (.ite (.pure hread) ?_))
  refine always_caught (always_lift Read.fits_equation) (fun equation h => ?_) fun e => ?_
  · exact .pure (hread.snoc h)
  · refine .after fun _ => .after fun _ => .after fun span => .pure (hread.snoc ?_)
    -- nothing is in a statement that was skipped
    exact fun _ h => by cases h

theorem fits_block [HasExprs α] {follows : List Kind} {entry : Read α}
    (hentry : Always entry (FitsIn levels)) :
    Always (block scope follows entry) (FitsIn levels) := by
  refine always_iterate .nil fun entries hentries => .after fun start => ?_
  -- whether the block goes on makes no difference to what it holds
  have hend : ∀ entries : List α, FitsIn levels entries → Always (do
      let c := (← get).cursor
      if (← halted) || !(c.isAt .ident && (c.peekAt 1).any follows.contains) then
        return .done entries
      else return .yield entries : Recover (ForInStep (List α)))
      fun next => FitsIn levels next.value :=
    fun entries h => .after fun run => .after fun stopped => .ite (.pure h) (.pure h)
  refine always_caught (always_lift hentry) (fun one hone => ?_) fun e => ?_
  · exact hend _ (hentries.snoc hone)
  · refine .after fun left => .ite ?_ ?_
    -- a block that does not even begin is a failure
    · exact .bind (P := fun _ => False) .throw nofun
    · exact .after fun _ => .after fun _ => hend entries hentries

/-! ## Nodes -/

theorem fits_localBlocks : Always (localBlocks (.upTo levels) scope) (FitsIn levels) := by
  have hblock : Always (located (localBlock (.upTo levels) scope)) (FitsIn levels) := by
    refine always_located (.after fun found => .ite ?_ (.after fun _ => ?_))
    · refine (always_lift (Read.fits_terminated Read.fits_varDecl)).bind fun vars h => ?_
      exact .pure fun _ => h
    · exact (fits_block Read.fits_constEntry).bind fun consts h => .pure fun _ => h
  refine always_iterate .nil fun blocks hblocks => .after fun next => ?_
  split
  · exact hblock.bind fun block h => .pure (hblocks.snoc h)
  · exact hblock.bind fun block h => .pure (hblocks.snoc h)
  · exact .pure hblocks

theorem fits_synonymTarget : Always (synonymTarget (.upTo levels)) (FitsIn levels) := by
  refine (Read.fits_optionalAfter Read.fits_nodeUse).bind fun target htarget => ?_
  cases target with
  | none => exact .pure fun _ h => by cases h
  | some target => exact .after fun _ => .pure htarget

theorem fits_nodeHeader (head : NodeHead) :
    Always (nodeHeader (.upTo levels) head) fun read => FitsIn levels read.1 := by
  refine always_caught (always_lift (Read.fits_optionalAt Read.fits_staticParams))
    (fun params hparams => ?_) fun e => .pure fun _ h => by cases h
  refine always_caught (always_lift (Read.fits_optionalAt Read.fits_profile))
    (fun profile hprofile => ?_) fun e => .pure ?_
  · refine always_caught (always_lift fits_synonymTarget) (fun body hbody => ?_) fun e => .pure ?_
    · exact .pure (List.forall_mem_append.mpr ⟨hparams.both hprofile, hbody⟩)
    · exact List.forall_mem_append.mpr ⟨hparams.both hprofile, fun _ h => by cases h⟩
  · exact List.forall_mem_append.mpr ⟨hparams.both .none, fun _ h => by cases h⟩

theorem fits_nodeDefinition {decl : NodeDecl} (h : FitsIn levels decl) :
    Always (nodeDefinition (.upTo levels) scope decl) fun read => FitsIn levels read.1 := by
  have hlocals : Always (do
      let _ ← (Read.eat .semi : Read Bool)
      let locals ← localBlocks (.upTo levels) scope
      let _ ← (Read.expect .kwLet : Read Span)
      return locals : Recover (List (Located LocalBlock))) (FitsIn levels) :=
    .after fun _ => fits_localBlocks.bind fun locals hlocals => .after fun _ => .pure hlocals
  refine always_caught hlocals (fun locals hlocals => ?_) fun e => .pure h
  refine fits_equations.bind fun read hread => ?_
  -- the definition takes the place of a body that is missing
  have hdecl : FitsIn levels { decl with body := .definition ⟨locals, read.1⟩ } :=
    List.forall_mem_append.mpr ⟨(List.forall_mem_append.mp h).1, hlocals.both hread⟩
  dsimp only
  split
  · exact .after fun _ => .pure hdecl
  · exact .pure hdecl

theorem fits_nodeTail {decl : NodeDecl} (h : FitsIn levels decl) :
    Always (nodeTail (.upTo levels) scope decl) fun read => FitsIn levels read.1 := by
  refine .after fun run => ?_
  dsimp only
  split
  · exact .ite (.pure h) (.pure h)
  · exact .ite (.pure h) (.pure h)
  · exact fits_nodeDefinition h

theorem fits_node : Always (node (.upTo levels) scope) (FitsIn levels) := by
  refine .after fun head => (fits_nodeHeader head).bind fun read hread => ?_
  obtain ⟨decl, failure⟩ := read
  cases failure with
  | some e => exact .after fun _ => .after fun _ => .pure hread
  | none =>
      refine (fits_nodeTail hread).bind fun read hread => ?_
      obtain ⟨decl, failure⟩ := read
      cases failure with
      | some e => exact .after fun _ => .after fun _ => .pure hread
      | none => exact .pure hread

/-! ## Declarations -/

theorem fits_externalNode : Always (externalNode (.upTo levels)) (FitsIn levels) := by
  refine .after fun isUnsafe => .after fun _ => .after fun kind => .after fun name => ?_
  exact Read.fits_profile.bind fun profile h => .after fun _ => .pure h

theorem fits_declaration : Always (declaration (.upTo levels) scope) (FitsIn levels) := by
  have hnode : Always (do return Declaration.node (← node (.upTo levels) scope))
      fun decl => ∀ span : Span, FitsIn levels (⟨decl, span⟩ : Located Declaration) :=
    fits_node.bind fun decl h => .pure fun _ => h
  have hexternal : Always (do
      return Declaration.external (← (externalNode (.upTo levels) : Read ExternalNode)) : Recover _)
      fun decl => ∀ span : Span, FitsIn levels (⟨decl, span⟩ : Located Declaration) :=
    (always_lift fits_externalNode).bind fun decl h => .pure fun _ => h
  refine always_located (.after fun run => ?_)
  dsimp only
  split
  · exact .ite hexternal hnode
  · exact hexternal
  · exact hnode
  · exact hnode
  · exact .after fun _ => (fits_block Read.fits_typeEntry).bind fun defs h => .pure fun _ => h
  · exact .after fun _ => (fits_block Read.fits_constEntry).bind fun defs h => .pure fun _ => h
  · exact .throw

/-! ## Packages and models -/

theorem fits_body : Always (body (.upTo levels)) fun read => FitsIn levels read.1 := by
  refine always_caught .any (fun _ _ => ?_) fun e => .pure .nil
  refine always_iterate .nil fun read hread => .after fun run => .after fun stopped => ?_
  refine .ite (.pure hread) (.after fun found => .ite (.pure hread) ?_)
  split
  · exact .pure hread
  · refine .ite (.pure hread) (always_caught (.ite fits_declaration .throw) ?_ fun e => ?_)
    · exact fun decl h => .pure (hread.snoc h)
    · refine .after fun _ => .after fun _ => .after fun span => .pure (hread.snoc ?_)
      exact fun _ h => by cases h

theorem fits_package : Always (package (.upTo levels)) (FitsIn levels) := by
  refine .after fun _ => .after fun name => .after fun introduced => ?_
  cases introduced with
  | some introduced =>
      refine .after fun model => (always_lift Read.fits_modelArgs).bind fun read hargs => ?_
      refine .after fun _ => .after fun run => ?_
      dsimp only
      split
      · exact .after fun _ => .after fun _ => .after fun _ => .pure hargs
      · exact .pure hargs
  | none =>
      refine .after fun uses => (always_lift Read.fits_provides).bind fun provides hprovides => ?_
      exact fits_body.bind fun read hread => .after fun _ => .pure (hprovides.both hread)

theorem fits_requiredNeeds (name : Ident) :
    Always (requiredNeeds (.upTo levels) name) fun read => FitsIn levels read.1 := by
  refine .after fun found => .ite ?_ (.after fun _ => .pure .nil)
  refine always_iterate .nil fun read hread => ?_
  refine always_caught (always_lift Read.fits_staticParam) (fun param hparam => ?_) fun e =>
    .pure hread
  have hmore := hread.snoc hparam
  refine always_caught .any (fun _ _ => ?_) fun e => .pure hmore
  exact .after fun next => .ite (.pure hmore) (.pure hmore)

theorem fits_model : Always (model (.upTo levels)) (FitsIn levels) := by
  have hnothing : ∀ {name uses}, FitsIn levels (⟨name, uses, [], none, []⟩ : Model) :=
    fun _ h => by cases h
  have htail : ∀ name, Always (modelTail (.upTo levels) name) fun read => FitsIn levels read.1 := by
    intro name
    refine always_caught .any (fun uses _ => ?_) fun e => .pure hnothing
    refine (fits_requiredNeeds name).bind fun read hread => ?_
    obtain ⟨needs, failure⟩ := read
    have hneeds : FitsIn levels (⟨name, uses, needs, none, []⟩ : Model) :=
      List.forall_mem_append.mpr ⟨hread.both .none, FitsIn.nil⟩
    cases failure with
    | some e => exact .pure hneeds
    | none =>
        refine always_caught (always_lift Read.fits_provides) (fun provides hprovides => ?_)
          fun e => .pure hneeds
        exact fits_body.bind fun read hbody =>
          .pure (List.forall_mem_append.mpr ⟨hread.both hprovides, hbody⟩)
  refine .after fun _ => .after fun name => (htail name).bind fun read hread => ?_
  obtain ⟨model, failure⟩ := read
  cases failure with
  | some e => exact .after fun _ => .after fun _ => .pure hread
  | none => exact .pure hread

/-! ## Programs -/

theorem fits_program : Always (program (.upTo levels)) (FitsIn levels) := by
  have hitems : Always (items (.upTo levels)) (FitsIn levels) := by
    refine always_iterate .nil fun done hdone => .after fun run => .after fun stopped => ?_
    refine .ite (.pure hdone) ?_
    split
    · exact .pure hdone
    · refine always_caught (P := FitsIn levels) ?_ (fun one hone => ?_) fun e => ?_
      · refine .ite (fits_package.bind fun whole h => .pure h) ?_
        refine .ite (fits_model.bind fun whole h => .pure h) (.ite .throw (.ite ?_ .throw))
        exact fits_declaration.bind fun decl h => .pure h
      · exact .after fun span => .pure (hdone.snoc hone)
      · refine .after fun _ => .after fun _ => .after fun span => .pure (hdone.snoc ?_)
        exact fun _ h => by cases h
  exact .after fun includes => hitems.bind fun items h => .pure h

theorem fits_standaloneExpr : Always (standaloneExpr (.upTo levels)) (FitsIn levels) := by
  have hwhole : Always (wholeExpr (.upTo levels)) (FitsIn levels) :=
    Read.fits_expr.bind fun expr h => .after fun c => .ite (.pure h) fun _ => .missing
  refine always_caught (always_lift hwhole) (fun expr h => .pure h) fun e => ?_
  exact .after fun _ => .pure .none

end Recover

/-! ## The trees of a text -/

/-- Whatever a text is, no expression in what is kept of it has more levels than are allowed. -/
theorem fitsIn_parse (text : String) (options : ParseOptions) :
    FitsIn maxNesting (parse text options).program := by
  obtain ⟨program, run', hread, hprogram, -⟩ := parse_eq_run text options
  rw [hprogram]
  exact Recover.fits_program _ program run' hread

theorem fitsIn_parseExpr (text : String) : FitsIn maxNesting (parseExpr text).1 := by
  unfold parseExpr
  split
  rename_i answer run' hrun
  have hanswer : FitsIn maxNesting answer := by
    unfold Run.expr at hrun
    split at hrun
    · rename_i found run₁ hread
      cases hrun
      exact Recover.fits_standaloneExpr _ _ _ hread
    · cases hrun
      exact .none
  dsimp only
  split
  · exact hanswer
  · exact .none

end Lustre
