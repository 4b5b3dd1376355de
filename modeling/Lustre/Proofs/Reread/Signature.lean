import Lustre.Proofs.Printer.Program
import Lustre.Proofs.Reread.StaticArg
import Lustre.Proofs.Tree.Rebuildable

/-!
# Variables, profiles and static parameters, read back

A printed part of a declaration is read back as the same part, up to places and to the
parentheses that printing puts in (`Regains`), in front of the words that it is printed in front
of: a bound name takes pragmas, a type takes lengths, and a list takes whatever goes on
with it.
-/

namespace Lustre

open Chunk

/-- What is asked of the parts of a program that is read back. -/
abbrev printable : Standard := inherited_printable.standard

section

variable {α : Type} [Rebuildable α]

/-- What was read is what was printed, up to places and to the parentheses that printing puts in,
and `later` is still to come. -/
def Regains (a : α) (later : List Chunk) (read : α) (c : Cursor) : Prop :=
  rebuild Expr.keep read = rebuild (Expr.settle false) a ∧ c.Shows later

theorem Gives.regainLocated {read : Read α} {a : Located α} {c : Cursor} {later : List Chunk}
    (h : Gives read c (Regains a.value later)) : Gives (Read.located read) c (Regains a later) :=
  located (h.mono fun _ _ hread _ => ⟨congrArg Located.nowhere hread.1, hread.2⟩)

end

variable {deep : Nested} {later : List Chunk} {c : Cursor}

/-! ## Names, types and values -/

/-- Some names, in front of what neither goes on with the list nor with its last name. -/
theorem gives_names {names : List Ident} (h : NamesPrintable names) {ends : List Kind}
    (hcomma : .comma ∉ ends) (hpragma : .pragma ∉ ends) (hlater : Before ends later)
    (hshows : c.Shows (identChunks names ++ later)) :
    Gives Read.identList c (Regains names later) := by
  refine gives_commaList h.1 hcomma ?_ hlater hshows
  intro name hmem c more hmore hshows
  exact gives_ident (h.2 name hmem) (hmore.head_ne (by simp [hpragma])) hshows

theorem NamesPrintable.begins {names : List Ident} (h : NamesPrintable names) :
    Before [.ident] (identChunks names) := by
  obtain ⟨name, rest, rfl⟩ := List.exists_cons_of_ne_nil h.1
  rw [identChunks, List.map_cons, separate_cons]
  exact ⟨.ident, by simp, rfl⟩

/-- The words that a type is printed in front of. -/
def typeEnds : List Kind := [.semi, .rParen, .rBrace, .gtGt, .eq, .kwWhen]

theorem endsType_of_before (hlater : Before typeEnds later) : EndsType later := by
  obtain ⟨kind, hmem, hhead⟩ := hlater
  have hdemand : ∀ kind ∈ typeEnds, kind.demand ≤ Prec.hat.level + 1 := by decide
  have houter : ∀ op : BinaryOp, op.symbol ∈ typeEnds → op.tier ≠ .inner := by
    intro op
    cases op <;> decide
  refine ⟨by rw [demand_of_head hhead]; exact hdemand kind hmem, fun op htier hsymbol => ?_,
    fun _ => by decide⟩
  obtain rfl : kind = op.symbol := Option.some.inj (hhead.symm.trans hsymbol)
  exact absurd htier (houter op hmem)

theorem gives_type (hdeep : deep.Rereads) {type : TypeExpr} (htype : type.Printable)
    (hlater : Before typeEnds later) (hshows : c.Shows (type.chunks false ++ later)) :
    Gives (Read.typeExpr deep) c (Regains type later) :=
  gives_typeExpr hdeep htype (endsType_of_before hlater) (hlater.head_ne (by decide)) hshows

/-- A type begins with a keyword of its own or with a name. -/
theorem TypeExpr.begins (type : TypeExpr) :
    Before [.kwBool, .kwInt, .kwReal, .ident] (type.chunks false) := by
  cases type with
  | bool => exact ⟨.kwBool, by simp, rfl⟩
  | int => exact ⟨.kwInt, by simp, rfl⟩
  | real => exact ⟨.kwReal, by simp, rfl⟩
  | named _ ref => exact ⟨.ident, by simp, by simpa [TypeExpr.chunks] using ref.head_chunks []⟩
  | table _ element length => exact element.begins.append _

theorem gives_value (hdeep : deep.Rereads) {value : Expr} (hvalue : value.Printable false)
    (hlater : demand later = 0) (hshows : c.Shows (value.chunks false 0 ++ later)) :
    Gives deep.expr c (Regains value later) :=
  hdeep.whole hvalue hlater hshows

/-! ## Variables and profiles -/

theorem gives_typedNames (hdeep : deep.Rereads) {group : TypedNames} (h : group.Writable printable)
    (hlater : Before [.semi, .rParen, .kwWhen] later) (hshows : c.Shows (group.chunks ++ later)) :
    Gives (Read.typedNames deep) c (Regains group later) := by
  rw [TypedNames.chunks, List.append_assoc] at hshows
  have hcolon : Before [.colon] (typing group.type ++ later) := ⟨.colon, by simp, rfl⟩
  refine (gives_names h.1 (by simp) (by simp) hcolon hshows).bind fun names c' hnames => ?_
  refine .expect hnames.2.peek fun _ => ?_
  have htype : c'.pass.Shows (group.type.chunks false ++ later) := hnames.2.pass_sign.blank
  refine (gives_type hdeep h.2 (hlater.mono (by decide)) htype).bind fun type c'' hread => ?_
  refine .pure ⟨?_, hread.2⟩
  show TypedNames.mk (rebuild Expr.keep names) (rebuild Expr.keep type) = TypedNames.mk _ _
  rw [hnames.1, hread.1]

theorem TypedNames.Writable.begins {group : TypedNames} (h : group.Writable printable) :
    Before [.ident] group.chunks :=
  h.1.begins.append _

/-- Groups in parentheses, after the opening one. -/
theorem gives_varGroups (hdeep : deep.Rereads) {groups : List TypedNames} (hnil : groups ≠ [])
    (h : ∀ group ∈ groups, group.Writable printable)
    (hshows : c.Shows (separate .semi (groups.map TypedNames.chunks) ++ (sign .rParen :: later))) :
    Gives (Read.varGroups deep) c (Regains groups (sign .rParen :: later)) := by
  obtain ⟨group, groups, rfl⟩ := List.exists_cons_of_ne_nil hnil
  rw [List.map_cons, separate_cons, List.append_assoc] at hshows
  have hlater : Before [.rParen] (sign .rParen :: later) := ⟨.rParen, by simp, rfl⟩
  have hread : ∀ other ∈ group :: groups, ∀ c more, Before [.semi, .rParen] more →
      c.Shows (other.chunks ++ more) → Gives (Read.typedNames deep) c (Regains other more) :=
    fun other hmem c more hmore hshows =>
      gives_typedNames hdeep (h other hmem) (hmore.mono (by simp)) hshows
  refine (hread group List.mem_cons_self c _ (before_led .semi hlater _) hshows).bind
    fun first c' hfirst => ?_
  have hloop : LoopGives (Read.groupStep deep) [first] c' fun read c'' =>
      read.map (rebuild Expr.keep) = [first].map (rebuild Expr.keep) ++
        groups.map (rebuild (Expr.settle false)) ∧ c''.Shows (sign .rParen :: later) := by
    refine loopGives_led ?_ ?_ hlater hfirst.2
    · intro other hmem done c more hmore hshows
      have hgroup := hshows.pass_sign.blank
      have hbegin := (h other (List.mem_cons_of_mem _ hmem)).begins.append more
      have hopen : c.pass.peek ≠ some .rParen := hgroup.peek ▸ hbegin.head_ne (by decide)
      refine .eat_yes hshows.peek (.isAt_no hopen ?_)
      exact (hread other (List.mem_cons_of_mem _ hmem) _ _ hmore hgroup).bind fun a c' ha =>
        .pure ⟨a, rfl, ha⟩
    · intro done c hshows
      exact .eat_no (by rw [hshows.peek]; simp) (.pure ⟨rfl, hshows⟩)
  refine hloop.iterate.mono fun read c'' hrest => ⟨?_, hrest.2⟩
  show read.map (rebuild Expr.keep) = (group :: groups).map (rebuild (Expr.settle false))
  rw [hrest.1, List.map_singleton, hfirst.1, List.map_cons, List.singleton_append]

namespace VarDecl

theorem chunks_single (group : TypedNames) (clock : Option (Located Clock)) :
    (⟨[group], clock, false⟩ : VarDecl).chunks = group.chunks ++ clockChunks clock :=
  rfl

theorem chunks_groups (groups : List TypedNames) (clock : Option (Located Clock)) :
    (⟨groups, clock, true⟩ : VarDecl).chunks =
      between .lParen .rParen (separate .semi (groups.map TypedNames.chunks)) ++
        clockChunks clock :=
  rfl

theorem Writable.begins {decl : VarDecl} (h : decl.Writable printable) :
    Before [.ident, .lParen] decl.chunks := by
  obtain ⟨groups, clock, parenthesized⟩ := decl
  cases parenthesized with
  | true =>
      rw [chunks_groups]
      exact ⟨.lParen, by simp, rfl⟩
  | false =>
      obtain ⟨group, rfl⟩ := List.length_eq_one_iff.mp h.form
      rw [chunks_single]
      exact ((h.groups group List.mem_cons_self).begins.append _).mono (by simp)

end VarDecl

/-- The words that a declaration of variables is printed in front of. -/
theorem no_clock_goes_on (hlater : Before [.semi, .rParen] later) :
    ∀ kind ∈ [Kind.pragma, .colonColon, .lParen], (kinds later).head? ≠ some kind := by
  intro kind hmem
  apply hlater.head_ne
  revert kind
  decide

theorem gives_varDecl (hdeep : deep.Rereads) {decl : Located VarDecl}
    (h : decl.value.Writable printable) (hlater : Before [.semi, .rParen] later)
    (hshows : c.Shows (decl.value.chunks ++ later)) :
    Gives (Read.varDecl deep) c (Regains decl later) := by
  obtain ⟨⟨groups, clock, parenthesized⟩, span⟩ := decl
  apply Gives.regainLocated
  cases parenthesized with
  | true =>
      obtain ⟨clock, rfl⟩ := Option.isSome_iff_exists.mp h.form
      rw [VarDecl.chunks_groups, List.append_assoc, between_append] at hshows
      refine .eat_yes hshows.peek ?_
      refine (gives_varGroups hdeep h.nonempty h.groups hshows.pass_sign).bind
        fun read c₁ hgroups => ?_
      have hwhen : c₁.pass.Shows (sign .kwWhen :: blank :: (clock.value.chunks ++ later)) :=
        hgroups.2.pass_sign.blank
      refine .expect hgroups.2.peek fun _ => .expect hwhen.peek fun _ => ?_
      refine (gives_clock (h.clock clock rfl) (no_clock_goes_on hlater) hwhen.pass_sign.blank).bind
        fun readClock c₂ hread => .pure ⟨?_, hread.2⟩
      show VarDecl.mk (rebuild Expr.keep read) (some (.nowhere readClock.value.strip)) true =
        VarDecl.mk _ (some (.nowhere clock.value.strip)) true
      rw [hgroups.1, hread.1]
  | false =>
      obtain ⟨group, rfl⟩ := List.length_eq_one_iff.mp h.form
      have hgroup := h.groups group List.mem_cons_self
      rw [VarDecl.chunks_single, List.append_assoc] at hshows
      have hopen : c.peek ≠ some .lParen :=
        hshows.peek ▸ (hgroup.begins.append _).head_ne (by decide)
      -- behind the type comes the clock or what follows the declaration
      have hbehind : Before [.semi, .rParen, .kwWhen] (VarDecl.clockChunks clock ++ later) := by
        cases clock with
        | none => exact hlater.mono (by simp)
        | some clock => exact ⟨.kwWhen, by simp, rfl⟩
      refine .eat_no hopen ((gives_typedNames hdeep hgroup hbehind hshows).bind
        fun read c₁ hread => ?_)
      refine .bind (P := Regains clock later) ?_ fun readClock c₂ hclock => .pure ⟨?_, hclock.2⟩
      · cases clock with
        | none =>
            have hnone : c₁.peek ≠ some .kwWhen := hread.2.peek ▸ hlater.head_ne (by decide)
            exact .optionalAfter_none hnone ⟨rfl, hread.2⟩
        | some clock =>
            have hwhen : c₁.Shows (sign .kwWhen :: blank :: (clock.value.chunks ++ later)) :=
              hread.2.blank
            refine .optionalAfter_some hwhen.peek ?_
            exact (gives_clock (h.clock clock rfl) (no_clock_goes_on hlater)
              hwhen.pass_sign.blank).mono fun readClock c₂ hclock =>
                ⟨congrArg (fun own => some (Located.nowhere own)) hclock.1, hclock.2⟩
      · show VarDecl.mk [rebuild Expr.keep read] (rebuild Expr.keep readClock) false =
          VarDecl.mk [_] _ false
        rw [hread.1, hclock.1]

/-- The inputs or the outputs of a node, which are in parentheses. -/
theorem gives_params (hdeep : deep.Rereads) {params : List (Located VarDecl)}
    (h : ∀ param ∈ params, param.value.Writable printable)
    (hshows : c.Shows (Profile.params params ++ later)) :
    Gives (Read.params deep) c (Regains params later) := by
  rw [Profile.params, between_append] at hshows
  refine .expect hshows.peek fun _ => ?_
  refine .bind (gives_separated (rebuild Expr.keep) (rebuild (Expr.settle false)) (by decide)
    (by decide) ?_ ?_ rfl hshows.pass_sign) fun read c' hread => ?_
  · intro param hmem c more hmore hshows
    exact gives_varDecl hdeep (h param hmem) hmore hshows
  · exact fun param hmem => (h param hmem).begins.other (by decide)
  · exact .expect hread.2.peek fun _ => .pure ⟨hread.1, hread.2.pass_sign⟩

theorem gives_profile (hdeep : deep.Rereads) {profile : Profile} (h : profile.Writable printable)
    (hshows : c.Shows (profile.chunks ++ later)) :
    Gives (Read.profile deep) c (Regains profile later) := by
  rw [Profile.chunks, List.append_assoc, List.append_assoc] at hshows
  refine (gives_params hdeep h.inputs hshows).bind fun inputs c₁ hinputs => ?_
  have hreturns : c₁.Shows (sign .kwReturns :: blank ::
      (Profile.params profile.outputs ++ later)) :=
    hinputs.2.blank
  refine .expect hreturns.peek fun _ => ?_
  refine (gives_params hdeep h.outputs hreturns.pass_sign.blank).bind fun outputs c₂ houtputs =>
    .pure ⟨?_, houtputs.2⟩
  show Profile.mk (rebuild Expr.keep inputs) (rebuild Expr.keep outputs) = Profile.mk _ _
  rw [hinputs.1, houtputs.1]

/-! ## Heads of nodes and static parameters -/

theorem gives_nodeKind (kind : NodeKind) (hshows : c.Shows (sign kind.symbol :: later)) :
    Gives Read.nodeKind c fun read c' => read = kind ∧ c'.Shows later := by
  cases kind with
  | node => exact .eat_yes hshows.peek (.pure ⟨rfl, hshows.pass_sign⟩)
  | function =>
      have hother : c.peek ≠ some .kwNode := by simp [hshows.peek, NodeKind.symbol]
      exact .eat_no hother (.eat_yes hshows.peek (.pure ⟨rfl, hshows.pass_sign⟩))

/-- The keyword of a node with side effects, which may be absent. -/
theorem Gives.unsafeSign {β : Type} {next : Bool → Read β} {R : β → Cursor → Prop} (isUnsafe : Bool)
    (hlater : (kinds later).head? ≠ some .kwUnsafe)
    (hshows : c.Shows (Lustre.unsafeSign isUnsafe ++ later))
    (h : ∀ c', c'.Shows later → Gives (next isUnsafe) c' R) :
    Gives (Read.eat .kwUnsafe >>= next) c R := by
  cases isUnsafe with
  | true => exact .eat_yes hshows.peek (h _ hshows.pass_sign.blank)
  | false => exact .eat_no (by rw [hshows.peek]; exact hlater) (h _ hshows)

theorem NodeHead.begins (head : NodeHead) :
    Before [.kwUnsafe, .kwNode, .kwFunction] (head.chunks []) := by
  obtain ⟨isUnsafe, kind, name⟩ := head
  cases isUnsafe with
  | true => exact ⟨.kwUnsafe, by simp, rfl⟩
  | false => cases kind <;> exact ⟨_, by simp [NodeKind.symbol], rfl⟩

theorem gives_nodeHead {head : NodeHead} (h : head.name.Printable)
    (hlater : (kinds later).head? ≠ some .pragma) (hshows : c.Shows (head.chunks [] ++ later)) :
    Gives Read.nodeHead c (Regains head later) := by
  rw [NodeHead.chunks, List.append_nil, List.append_assoc, List.append_assoc] at hshows
  have hother : head.kind.symbol ≠ .kwUnsafe := by cases head.kind <;> decide
  refine .unsafeSign head.isUnsafe (by simpa using hother) hshows fun c₁ hkind => ?_
  refine (gives_nodeKind head.kind hkind).bind fun kind c₂ hread => ?_
  refine (gives_ident h hlater hread.2.blank).bind fun name c₃ hname => .pure ⟨?_, hname.2⟩
  show NodeHead.mk head.isUnsafe kind name.strip = NodeHead.mk _ _ head.name.strip
  rw [hread.1, hname.1]

theorem StaticParam.begins (param : StaticParam) :
    Before [.kwType, .kwConst, .kwNode, .kwFunction, .kwUnsafe] param.chunks := by
  cases param with
  | type => exact ⟨.kwType, by simp, rfl⟩
  | const => exact ⟨.kwConst, by simp, rfl⟩
  | node head profile => exact (head.begins.append _).mono (by decide)

theorem gives_staticParam (hdeep : deep.Rereads) {param : Located StaticParam}
    (h : param.value.Writable printable) (hlater : Before [.semi, .gtGt] later)
    (hshows : c.Shows (param.value.chunks ++ later)) :
    Gives (Read.staticParam deep) c (Regains param later) := by
  obtain ⟨param, span⟩ := param
  apply Gives.regainLocated
  cases param with
  | type name =>
      have hname : c.pass.Shows (name.chunks ++ later) := hshows.pass_sign.blank
      refine .peekAs hshows.peek (.advance ?_)
      refine (gives_ident h (hlater.head_ne (by decide)) hname).bind fun read c' hread =>
        .pure ⟨congrArg StaticParam.type hread.1, hread.2⟩
  | const name range =>
      have hname : c.pass.Shows (name.chunks ++ (typing range ++ later)) := by
        simpa [StaticParam.chunks] using hshows.pass_sign.blank
      refine .peekAs hshows.peek (.advance ?_)
      refine (gives_ident h.1 (by simp [typing]) hname).bind fun readName c₁ hread₁ => ?_
      refine .expect hread₁.2.peek fun _ => ?_
      refine (gives_type hdeep h.2 (hlater.mono (by decide)) hread₁.2.pass_sign.blank).bind
        fun readType c₂ hread₂ => .pure ⟨?_, hread₂.2⟩
      show StaticParam.const readName.strip (rebuild Expr.keep readType) =
        StaticParam.const name.strip _
      rw [hread₁.1, hread₂.1]
  | node head profile =>
      have hwords : c.Shows (head.chunks [] ++ (profile.chunks ++ later)) := by
        rw [← List.append_assoc]
        exact hshows
      -- the same reader follows all three words that may begin a header
      have hread : Gives (do
          let head ← Read.nodeHead
          return StaticParam.node head (← Read.profile deep)) c
            (Regains (StaticParam.node head profile) later) := by
        refine (gives_nodeHead h.1 (by simp [Profile.chunks, Profile.params, between]) hwords).bind
          fun readHead c₁ hread₁ => ?_
        refine (gives_profile hdeep h.2 hread₁.2).bind fun readProfile c₂ hread₂ =>
          .pure ⟨?_, hread₂.2⟩
        show StaticParam.node (rebuild Expr.keep readHead) (rebuild Expr.keep readProfile) =
          StaticParam.node (rebuild (Expr.settle false) head) _
        rw [hread₁.1, hread₂.1]
      obtain ⟨kind, hmem, hhead⟩ := head.begins.append (profile.chunks ++ later)
      refine .peekAs (hwords.peek.trans hhead) ?_
      simp only [List.mem_cons, List.not_mem_nil, or_false] at hmem
      rcases hmem with rfl | rfl | rfl <;> exact hread

/-- Static parameters, which are in `<<` and `>>`. -/
theorem gives_staticParams (hdeep : deep.Rereads) {params : List (Located StaticParam)}
    (h : ∀ param ∈ params, param.value.Writable printable)
    (hshows : c.Shows (StaticParam.list (some params) ++ later)) :
    Gives (Read.staticParams deep) c (Regains params later) := by
  rw [StaticParam.list, between_append] at hshows
  refine .expect hshows.peek fun _ => ?_
  refine .bind (gives_separated (rebuild Expr.keep) (rebuild (Expr.settle false)) (by decide)
    (by decide) ?_ ?_ rfl hshows.pass_sign) fun read c' hread => ?_
  · intro param hmem c more hmore hshows
    exact gives_staticParam hdeep (h param hmem) hmore hshows
  · exact fun param hmem => param.value.begins.other (by decide)
  · exact .expect hread.2.peek fun _ => .pure ⟨hread.1, hread.2.pass_sign⟩

end Lustre
