import Lustre.Proofs.Reader.Expr
import Lustre.Proofs.Reread.Operator

/-!
# Types and static arguments, read back

A length after a type binds tighter than `^`, so what is read of a type is again followed by
what comes after it (`ReadsType`).

A static argument without a keyword is told by its first words.  An expression that begins with
a name is the only form that takes a second look: `NameLed` says what stands behind that name,
and that static arguments there are called at once.
-/

namespace Lustre

open Chunk

section

variable {deep : Nested} {full : Bool} {later : List Chunk} {c : Cursor}

/-! ## Types -/

/-- What follows a type ends its last length. -/
structure EndsType (later : List Chunk) : Prop where
  demand_le : demand later ≤ Prec.hat.level + 1
  ends : Ends .inner (Prec.hat.level + 1) later
  unsampled : Unsampled (Prec.hat.level + 1) later

theorem EndsType.of_closed (h : demand later = 0) : EndsType later :=
  ⟨by omega, .of_closed h, .of_lt (by omega)⟩

theorem endsType_caret (later : List Chunk) : EndsType (sign .caret :: later) := by
  refine ⟨by rw [demand_sign]; decide, fun op _ hop => ?_, fun hwhen => by cases hwhen⟩
  have hcaret : op.symbol = .caret := (Option.some.inj hop).symm
  cases op <;> first
    | decide
    | cases hcaret

/-- Chunks of a type: they are read, and so are whatever lengths come after them. -/
structure ReadsType (deep : Nested) (chunks : List Chunk) (tree : TypeExpr) : Prop where
  gives {c : Cursor} {later : List Chunk} {Q : TypeExpr → Cursor → Prop}
    (hshows : c.Shows (chunks ++ later)) (hends : EndsType later)
    (hnext : ∀ read c', read.rebuild Expr.keep = tree ∧ c'.Shows later →
      LoopGives (Read.lengthStep deep) read c' Q) : Gives (Read.typeExpr deep) c Q

/-- What is read as the part of a type before its lengths is a type. -/
theorem ReadsType.of_simple {chunks : List Chunk} {tree : TypeExpr}
    (h : ∀ {c : Cursor} {later : List Chunk}, c.Shows (chunks ++ later) → EndsType later →
      Gives Read.simpleType c fun read c' => read.rebuild Expr.keep = tree ∧ c'.Shows later) :
    ReadsType deep chunks tree :=
  ⟨fun hshows hends hnext => (h hshows hends).bind fun read c' hread =>
    (hnext read c' hread).iterate⟩

theorem readsType_named (ref : Reference) :
    ReadsType deep ref.chunks (.named .nowhere ref.strip) := by
  refine .of_simple fun {c later} hshows hends => ?_
  have hcolons : (kinds later).head? ≠ some .colonColon :=
    head_ne_of_demand (Nat.lt_of_le_of_lt hends.demand_le (by decide))
  refine .here fun _ => .peekAs (hshows.peek.trans (ref.head_chunks later)) ?_
  refine (gives_reference hcolons hshows).bind fun read c' hread => ?_
  refine .spanFrom fun _ => .pure ⟨?_, hread.2⟩
  rw [TypeExpr.rebuild, hread.1]

theorem readsType_table (hdeep : deep.Rereads) {element : TypeExpr} {length : Expr} {span : Span}
    (helement : ReadsType deep (element.chunks full) (element.rebuild (Expr.settle full)))
    (hlength : length.Printable false) :
    ReadsType deep ((TypeExpr.table span element length).chunks full)
      ((TypeExpr.table span element length).rebuild (Expr.settle full)) := by
  refine ⟨fun {c later Q} hshows hends hnext => ?_⟩
  rw [TypeExpr.chunks, List.append_assoc] at hshows
  refine helement.gives hshows (endsType_caret _) fun read c' hread => .next ?_
  have hcaret : c'.Shows (sign .caret :: (length.chunks full (Prec.hat.level + 1) ++ later)) :=
    hread.2
  obtain ⟨rank, hrank, hprinted⟩ :=
    length.printed_chunks full (by decide : Prec.hat.level + 1 ≤ Prec.atom)
  have hlow : Prec.equality.level < rank := Nat.lt_of_lt_of_le (by decide) hrank
  have hread' := hprinted.readsInner hdeep hlength hlow (hlength.readsInner hdeep full)
  refine .eat_yes hcaret.peek (.bind (P := AnswersTree (length.settledAt full (Prec.hat.level + 1))
    later) ?_ fun readLength c'' hanswer => .pure ⟨?_, hnext _ _ ⟨?_, hanswer.2⟩⟩)
  · refine hread'.gives hcaret.pass_sign hrank (Nat.le_trans hends.demand_le hrank)
      fun _ _ hanswer => ?_
    exact loopGives_inner hends.ends hends.unsampled hanswer.2 hanswer
  · have hwords : c'.Shows ((sign .caret :: length.chunks full (Prec.hat.level + 1)) ++ later) :=
      hcaret
    exact hwords.length_lt (by simp) hanswer.2
  · have hfirst : read.rebuild Expr.keep = element.rebuild (Expr.settle full) := hread.1
    have hsecond : readLength.rebuild Expr.keep = length.settledAt full (Prec.hat.level + 1) :=
      hanswer.1
    simp only [TypeExpr.rebuild, Expr.keep, hfirst, hsecond]
    rfl

/-- Every printable type is read back. -/
theorem TypeExpr.Printable.reads (hdeep : deep.Rereads) (full : Bool) {type : TypeExpr}
    (htype : type.Printable) :
    ReadsType deep (type.chunks full) (type.rebuild (Expr.settle full)) := by
  cases htype with
  | bool =>
      refine .of_simple fun hshows _ => .here fun _ => .peekAs hshows.peek ?_
      exact .advance (.spanFrom fun _ => .pure ⟨rfl, hshows.pass_sign⟩)
  | int =>
      refine .of_simple fun hshows _ => .here fun _ => .peekAs hshows.peek ?_
      exact .advance (.spanFrom fun _ => .pure ⟨rfl, hshows.pass_sign⟩)
  | real =>
      refine .of_simple fun hshows _ => .here fun _ => .peekAs hshows.peek ?_
      exact .advance (.spanFrom fun _ => .pure ⟨rfl, hshows.pass_sign⟩)
  | named => exact readsType_named _
  | table helement hlength => exact readsType_table hdeep (helement.reads hdeep full) hlength
termination_by sizeOf type

/-- A type in front of what neither belongs to its last length nor is another length. -/
theorem gives_typeExpr (hdeep : deep.Rereads) {type : TypeExpr} (htype : type.Printable)
    (hends : EndsType later) (hcaret : (kinds later).head? ≠ some .caret)
    (hshows : c.Shows (type.chunks full ++ later)) :
    Gives (Read.typeExpr deep) c fun read c' =>
      read.rebuild Expr.keep = type.rebuild (Expr.settle full) ∧ c'.Shows later :=
  (htype.reads hdeep full).gives hshows hends fun _ _ hread =>
    .next (.eat_no (hread.2.peek ▸ hcaret) (.pure hread))

/-! ## What stands behind a name -/

namespace Kind

/-- Whether a word behind a name neither ends an argument nor belongs to the name. -/
def goesOn (kind : Kind) : Bool :=
  !([comma, semi, gtGt, rParen, ltLt, colonColon].contains kind)

/-- Whether a word closes a list of static arguments. -/
def closesArgs (kind : Kind) : Bool := kind == gtGt || kind == rParen

end Kind

/-- How the chunks of an expression begin that is no name alone: not with a name, or with one that
something stands behind.  They may be a name with static arguments if they are `called` at once. -/
inductive NameLed (full : Bool) : Bool → List Chunk → Prop
  | other {called chunks kind} (hhead : (kinds chunks).head? = some kind) (hkind : kind ≠ .ident) :
      NameLed full called chunks
  | further {called ref rest kind} (hhead : (kinds rest).head? = some kind)
      (hkind : kind.goesOn = true) : NameLed full called (Reference.chunks ref ++ rest)
  | inst {node args} (hargs : ∀ arg ∈ args, StaticArg.Printable arg) :
      NameLed full true (Reference.chunks node ++ StaticArg.enclose args
        (StaticArg.parts full args))
  | called {called node args rest} (hargs : ∀ arg ∈ args, StaticArg.Printable arg)
      (hhead : (kinds rest).head? = some .lParen) :
      NameLed full called
        (Reference.chunks node ++ (StaticArg.enclose args (StaticArg.parts full args) ++ rest))

namespace NameLed

variable {called : Bool} {chunks : List Chunk} {kind : Kind}

/-- Something goes on with the expression. -/
theorem append (h : NameLed full called chunks) (hhead : (kinds later).head? = some kind)
    (hcalled : called = true → kind = .lParen) (called' : Bool) :
    NameLed full called' (chunks ++ later) := by
  cases h with
  | other hfirst hkind => exact .other (by rw [kinds_append, List.head?_append, hfirst]; rfl) hkind
  | further hfirst hkind =>
      rw [List.append_assoc]
      exact .further (by rw [kinds_append, List.head?_append, hfirst]; rfl) hkind
  | inst hargs =>
      rw [List.append_assoc]
      exact .called hargs (hcalled rfl ▸ hhead)
  | called hargs hfirst =>
      rw [List.append_assoc, List.append_assoc]
      exact .called hargs (by rw [kinds_append, List.head?_append, hfirst]; rfl)

end NameLed

/-- The same where the expression may be a name alone, and is put in parentheses if its place
demands it. -/
theorem nameLed_enclose {called called' : Bool} {expr : Expr} (least : Nat)
    (hexpr : expr.isName = false → NameLed full called (expr.bare full)) {kind : Kind}
    (hhead : (kinds later).head? = some kind) (hkind : kind.goesOn = true)
    (hcalled : called = true → kind = .lParen) :
    NameLed full called' (expr.enclose full least (expr.bare full) ++ later) := by
  unfold Expr.enclose
  split
  · exact .other rfl (by decide)
  · cases hname : expr.isName with
    | false => exact (hexpr hname).append hhead hcalled called'
    | true =>
        cases expr with
        | name => exact .further hhead hkind
        | _ => cases hname

/-- A printable expression that is no name alone begins in one of these ways. -/
theorem Expr.Printable.nameLed {called : Bool} {expr : Expr} (h : expr.Printable called)
    (hname : expr.isName = false) : NameLed full called (expr.bare full) := by
  cases h with
  | @bool _ _ value => cases value <;> exact .other rfl (by decide)
  | int => exact .other rfl (by decide)
  | real => exact .other rfl (by decide)
  | name => cases hname
  | inst _ hargs => exact .inst hargs
  | tuple => exact .other rfl (by decide)
  | array => exact .other rfl (by decide)
  | record =>
      rw [Expr.bare_record]
      exact .further rfl (by decide)
  | field hvalue => exact nameLed_enclose _ hvalue.nameLed rfl (by decide) (by simp)
  | index hvalue => exact nameLed_enclose _ hvalue.nameLed rfl (by decide) (by simp)
  | slice hvalue => exact nameLed_enclose _ hvalue.nameLed rfl (by decide) (by simp)
  | call hcallee => exact nameLed_enclose _ hcallee.nameLed rfl (by decide) fun _ => rfl
  | @cond _ _ opening => cases opening <;> exact .other rfl (by decide)
  | merge => exact .other rfl (by decide)
  | sampled hvalue =>
      rw [Expr.bare, List.append_assoc]
      exact nameLed_enclose _ hvalue.nameLed rfl (by decide) (by simp)
  | @unary _ _ op =>
      rw [Expr.bare, UnaryOp.chunks]
      cases op <;> split <;> exact .other rfl (by decide)
  | @binary _ _ op _ _ hlhs =>
      rw [Expr.bare, List.append_assoc]
      exact nameLed_enclose _ hlhs.nameLed rfl (by cases op <;> rfl) (by simp)
  | @list _ _ op => cases op <;> exact .other rfl (by decide)
termination_by sizeOf expr

/-! ## Static arguments -/

/-- What follows a static argument in a list of them. -/
structure EndsArg (close : Kind) (later : List Chunk) : Prop where
  closes : close.closesArgs = true
  head : Before [.comma, close] later

namespace EndsArg

variable {close : Kind} (h : EndsArg close later)

include h

theorem head_ne {kind : Kind} (hcomma : kind ≠ .comma) (hkind : kind.closesArgs = false) :
    (kinds later).head? ≠ some kind := by
  obtain ⟨other, hmem, hhead⟩ := h.head
  rw [hhead]
  rintro heq
  obtain rfl := Option.some.inj heq
  simp only [List.mem_cons, List.not_mem_nil, or_false] at hmem
  rcases hmem with hfirst | rfl
  · exact hcomma hfirst
  · rw [h.closes] at hkind
    cases hkind

theorem demand_eq : demand later = 0 := by
  refine h.head.demand_eq fun kind hmem => ?_
  simp only [List.mem_cons, List.not_mem_nil, or_false] at hmem
  have hcloses := h.closes
  rcases hmem with rfl | rfl
  · rfl
  · simp only [Kind.closesArgs, Bool.or_eq_true, beq_iff_eq] at hcloses
    rcases hcloses with rfl | rfl <;> rfl

end EndsArg

namespace Cursor

variable {close : Kind}

theorem endsArg_yes {ahead : Nat} (h : EndsArg close later)
    (hpeek : c.peekAt ahead = (kinds later).head?) : c.endsArg ahead close = true := by
  obtain ⟨kind, hmem, hhead⟩ := h.head
  simp only [List.mem_cons, List.not_mem_nil, or_false] at hmem
  rcases hmem with rfl | rfl <;> simp [endsArg, hpeek, hhead]

theorem endsArg_no (hclose : close.closesArgs = true) {ahead : Nat} {kind : Kind}
    (hpeek : c.peekAt ahead = some kind) (hkind : kind ∉ [Kind.comma, .semi, .gtGt, .rParen]) :
    c.endsArg ahead close = false := by
  simp only [Kind.closesArgs, Bool.or_eq_true, beq_iff_eq] at hclose
  rcases hclose with rfl | rfl <;> revert hkind <;> simp +contextual [endsArg, hpeek]

/-- What comes next is no operator that makes up an argument. -/
def NoOpArg (c : Cursor) (close : Kind) : Prop :=
  ((c.peek.bind PredefinedOp.ofKind?).filter fun _ => c.endsArg 1 close) = none

theorem noOpArg_of_kind {kind : Kind} (hpeek : c.peek = some kind)
    (hkind : PredefinedOp.ofKind? kind = none) : c.NoOpArg close := by
  rw [NoOpArg, hpeek, Option.bind_some, hkind]
  rfl

end Cursor

section

variable {close : Kind}

theorem gives_constArg (hdeep : deep.Rereads) {value : Expr} (hvalue : value.Printable false)
    (hends : EndsArg close later) (hshows : c.Shows (value.chunks full 0 ++ later)) (start : Nat)
    (explicit : Bool) (span : Span) :
    Gives (Read.constArg deep start explicit) c fun read c' =>
      read.rebuild Expr.keep = (StaticArg.const span value explicit).rebuild (Expr.settle full) ∧
        c'.Shows later := by
  refine (hdeep.whole hvalue hends.demand_eq hshows).bind fun read c' hread => ?_
  refine .spanFrom fun _ => .pure ⟨?_, hread.2⟩
  have hvalue : read.rebuild Expr.keep = value.settledAt full 0 := hread.1
  simp only [StaticArg.rebuild, Expr.keep, hvalue]
  rfl

theorem Expr.isName_rebuild (wrap : Nat → Expr → Expr) (expr : Expr) :
    (expr.rebuild wrap).isName = expr.isName := by
  cases expr <;> rfl

theorem Expr.isName_settledAt {expr : Expr} (h : expr.isName = false) (least : Nat) :
    (expr.settledAt full least).isName = false := by
  unfold settledAt settle
  split
  · rfl
  · rw [settled, isName_rebuild, h]

/-- What is read back of an expression that is no name is none either. -/
theorem gives_nameLedConst (hdeep : deep.Rereads) {value : Expr} (hvalue : value.Printable false)
    (hname : value.isName = false) (hends : EndsArg close later)
    (hshows : c.Shows (value.chunks full 0 ++ later)) (start : Nat) (span : Span) :
    Gives (Read.nameLedConst deep close start) c fun read c' =>
      read.rebuild Expr.keep = (StaticArg.const span value false).rebuild (Expr.settle full) ∧
        c'.Shows later := by
  refine (hdeep.whole hvalue hends.demand_eq hshows).bind fun read c' hread => ?_
  have hvalue : read.rebuild Expr.keep = value.settledAt full 0 := hread.1
  have hplain : read.isName = false := by
    rw [← Expr.isName_rebuild Expr.keep, hvalue, Expr.isName_settledAt hname]
  split
  · cases hplain
  · refine .spanFrom fun _ => .pure ⟨?_, hread.2⟩
    simp only [StaticArg.rebuild, Expr.keep, hvalue]
    rfl

/-- A node with its static arguments, if it has any. -/
theorem gives_nodeUse (hdeep : deep.Rereads) (node : Reference) (args : Option (List StaticArg))
    (hargs : ∀ list, args = some list → ∀ arg ∈ list, arg.Printable)
    (hcolons : (kinds later).head? ≠ some .colonColon)
    (hnone : args = none → (kinds later).head? ≠ some .ltLt)
    (hshows : c.Shows (node.chunks ++ (optionalArgs full args ++ later))) :
    Gives (Read.nodeUse deep) c fun read c' => (read.node.strip = node.strip ∧
      argsRebuild Expr.keep read.args = argsRebuild (Expr.settle full) args) ∧ c'.Shows later := by
  have hbehind : (kinds (optionalArgs full args ++ later)).head? ≠ some .colonColon := by
    cases args with
    | none => exact hcolons
    | some list => simp [optionalArgs, StaticArg.enclose]
  refine .here fun _ => (gives_reference hbehind hshows).bind fun readNode c₁ hnode => ?_
  cases args with
  | none =>
      refine .bind (P := fun read c' => read = none ∧ c'.Shows later) ?_ fun read c₂ hread => ?_
      · exact .optionalAt_none (hnode.2.peek ▸ hnone rfl) ⟨rfl, hnode.2⟩
      · obtain ⟨rfl, hlater⟩ := hread
        exact .spanFrom fun _ => .pure ⟨⟨hnode.1, rfl⟩, hlater⟩
  | some list =>
      have hlist : c₁.Shows (StaticArg.enclose list (StaticArg.parts full list) ++ later) := hnode.2
      refine .bind (P := fun read c' => argsRebuild Expr.keep read =
        argsRebuild (Expr.settle full) (some list) ∧ c'.Shows later) ?_ fun read c₂ hread => ?_
      · refine .optionalAt_some hlist.peek ((hdeep.args (hargs list rfl) hlist).mono ?_)
        intro read c' hread
        refine ⟨?_, hread.2⟩
        rw [argsRebuild, argsRebuild, StaticArg.listRebuild_eq, StaticArg.listRebuild_eq, hread.1]
      · exact .spanFrom fun _ => .pure ⟨⟨hnode.1, hread.1⟩, hread.2⟩

/-- Read back in front of what ends it, a static argument is the one that was printed. -/
def ReadsArg (deep : Nested) (close : Kind) (full : Bool) (arg : StaticArg) : Prop :=
  ItemGives (Read.staticArg deep close) (StaticArg.chunks full) (StaticArg.rebuild Expr.keep)
    (StaticArg.rebuild (Expr.settle full)) [.comma, close] arg

theorem readsArg_op (hclose : close.closesArgs = true) (span : Span) (op : PredefinedOp) :
    ReadsArg deep close full (.op span op) := by
  intro c more hmore hshows
  have hends : EndsArg close more := ⟨hclose, hmore⟩
  have hwords : c.Shows (sign op.symbol :: more) := hshows
  have hop : PredefinedOp.ofKind? op.symbol = some op := by cases op <;> rfl
  have hnext : c.endsArg 1 close = true := by
    refine Cursor.endsArg_yes hends ?_
    rw [hwords.peekAt, List.head?_eq_getElem?]
    rfl
  have hpeek : c.peek = some op.symbol := hwords.peek
  refine .get ?_
  simp only [hpeek, Option.bind_some, hop, hnext, Option.filter_some, if_true]
  exact .advance (.spanFrom fun _ => .pure ⟨rfl, hwords.pass_sign⟩)

/-- An argument that begins with a name. -/
theorem gives_identArg {R : StaticArg → Cursor → Prop} (hpeek : c.peek = some .ident)
    (h : ∀ start, Gives (Read.nameLedArg deep close start) c R) :
    Gives (Read.staticArg deep close) c R := by
  have hnone : c.NoOpArg close := Cursor.noOpArg_of_kind hpeek rfl
  refine .get ?_
  dsimp only
  rw [hnone, hpeek]
  exact h _

theorem readsArg_name (hclose : close.closesArgs = true) (span : Span) (ref : Reference) :
    ReadsArg deep close full (.name span ref) := by
  intro c more hmore hshows
  have hends : EndsArg close more := ⟨hclose, hmore⟩
  have hwords : c.Shows (ref.chunks ++ more) := hshows
  have hpeek : c.peek = some .ident := hwords.peek.trans (ref.head_chunks more)
  have hcolons : (kinds more).head? ≠ some .colonColon := hends.head_ne (by decide) rfl
  have hlength := hwords.referenceLength hcolons
  have hend : c.endsArg ref.length close = true :=
    Cursor.endsArg_yes hends ((hlength.2 0).trans List.head?_eq_getElem?.symm)
  refine gives_identArg hpeek fun start => .get ?_
  simp only [hlength.1, hend, if_true]
  refine (gives_reference hcolons hwords).bind fun read c' hread => ?_
  refine .spanFrom fun _ => .pure ⟨?_, hread.2⟩
  rw [StaticArg.rebuild, hread.1]
  rfl

/-- The reader of an argument behind the keyword for its sort. -/
inductive SortReader (deep : Nested) : Kind → (Nat → Read StaticArg) → Prop
  | type : SortReader deep .kwType (Read.typeArg deep · true)
  | const : SortReader deep .kwConst (Read.constArg deep · true)
  | node : SortReader deep .kwNode (Read.nodeArg deep · .node)
  | function : SortReader deep .kwFunction (Read.nodeArg deep · .function)

theorem SortReader.nodeKind (kind : NodeKind) :
    SortReader deep kind.symbol (Read.nodeArg deep · kind) := by
  cases kind with
  | node => exact .node
  | function => exact .function

/-- An argument with a keyword for its sort. -/
theorem gives_keywordArg {kind : Kind} {arg : Nat → Read StaticArg} {R : StaticArg → Cursor → Prop}
    (hsort : SortReader deep kind arg) (hpeek : c.peek = some kind)
    (h : ∀ start, Gives (arg start) c.pass R) : Gives (Read.staticArg deep close) c R := by
  have hnone : c.NoOpArg close := by
    refine Cursor.noOpArg_of_kind hpeek ?_
    cases hsort <;> rfl
  refine .get ?_
  dsimp only
  rw [hnone, hpeek]
  cases hsort <;> exact .advance (h _)

theorem gives_typeArg (hdeep : deep.Rereads) {type : TypeExpr} (htype : type.Printable)
    (hends : EndsArg close later) (hshows : c.Shows (type.chunks full ++ later)) (start : Nat)
    (explicit : Bool) (span : Span) :
    Gives (Read.typeArg deep start explicit) c fun read c' =>
      read.rebuild Expr.keep = (StaticArg.type span type explicit).rebuild (Expr.settle full) ∧
        c'.Shows later := by
  refine (gives_typeExpr hdeep htype (.of_closed hends.demand_eq) (hends.head_ne (by decide) rfl)
    hshows).bind fun read c' hread => ?_
  refine .spanFrom fun _ => .pure ⟨?_, hread.2⟩
  rw [StaticArg.rebuild, hread.1]
  rfl

/-- A type over a builtin one begins with the keyword for that, and then ends or goes on with a
length. -/
theorem TypeExpr.builtin_words (full : Bool) {type : TypeExpr} (h : type.isBuiltin = true) :
    ∃ kind ∈ [Kind.kwBool, .kwInt, .kwReal], ∃ rest, kinds (type.chunks full) = kind :: rest ∧
      (rest = [] ∨ rest.head? = some .caret) := by
  cases type with
  | bool => exact ⟨.kwBool, by decide, [], rfl, .inl rfl⟩
  | int => exact ⟨.kwInt, by decide, [], rfl, .inl rfl⟩
  | real => exact ⟨.kwReal, by decide, [], rfl, .inl rfl⟩
  | named => cases h
  | table span element length =>
      have hbuiltin : element.isBuiltin = true := h
      obtain ⟨kind, hmem, rest, hkinds, hrest⟩ := TypeExpr.builtin_words full hbuiltin
      rw [TypeExpr.chunks, kinds_append, hkinds, kinds_sign, List.cons_append]
      refine ⟨kind, hmem, _, rfl, .inr ?_⟩
      rcases hrest with rfl | hcaret
      · rfl
      · rw [List.head?_append, hcaret]
        rfl
termination_by sizeOf type

theorem readsArg_type (hdeep : deep.Rereads) (hclose : close.closesArgs = true) {type : TypeExpr}
    (htype : type.Printable) (span : Span) {explicit : Bool}
    (hsort : explicit = true ∨ type.isBuiltin = true) :
    ReadsArg deep close full (.type span type explicit) := by
  intro c more hmore hshows
  have hends : EndsArg close more := ⟨hclose, hmore⟩
  cases explicit with
  | true =>
      have hwords : c.Shows (sign .kwType :: blank :: (type.chunks full ++ more)) := hshows
      refine gives_keywordArg .type hwords.peek fun start => ?_
      exact gives_typeArg hdeep htype hends hwords.pass_sign.blank start true span
  | false =>
      have hwords : c.Shows (type.chunks full ++ more) := hshows
      have hbuiltin : type.isBuiltin = true := by simpa using hsort
      obtain ⟨kind, hmem, rest, hkinds, hrest⟩ := TypeExpr.builtin_words full hbuiltin
      have hpeek : c.peek = some kind := by rw [hwords.peek, kinds_append, hkinds]; rfl
      have hsecond : c.peekAt 1 = (rest ++ kinds more).head? := by
        rw [hwords.peekAt, kinds_append, hkinds, List.head?_eq_getElem?]
        rfl
      -- behind the name of a type the argument ends or a `^` stands
      have hnext : c.endsArg 1 close = true ∨ c.peekAt 1 = some .caret := by
        rcases hrest with rfl | hcaret
        · exact .inl (Cursor.endsArg_yes hends hsecond)
        · exact .inr (by rw [hsecond, List.head?_append, hcaret]; rfl)
      have hnone : c.NoOpArg close := by
        refine Cursor.noOpArg_of_kind hpeek ?_
        revert hmem
        cases kind <;> decide
      have hread := fun start => gives_typeArg hdeep htype hends hwords start false span
      refine .get ?_
      dsimp only
      rw [hnone, hpeek]
      simp only [List.mem_cons, List.not_mem_nil, or_false] at hmem
      rcases hmem with rfl | rfl | rfl <;>
      · dsimp only
        rw [if_pos hnext]
        exact hread _

theorem gives_nodeArg (hdeep : deep.Rereads) (kind : NodeKind) {node : Reference}
    {args : Option (List StaticArg)}
    (hargs : ∀ list, args = some list → ∀ arg ∈ list, arg.Printable) (hends : EndsArg close later)
    (hshows : c.Shows (node.chunks ++ (optionalArgs full args ++ later))) (start : Nat)
    (span target : Span) :
    Gives (Read.nodeArg deep start kind) c fun read c' =>
      read.rebuild Expr.keep =
        (StaticArg.node span (some kind) target node args).rebuild (Expr.settle full) ∧
          c'.Shows later := by
  have hcolons : (kinds later).head? ≠ some .colonColon := hends.head_ne (by decide) rfl
  have hangle : (kinds later).head? ≠ some .ltLt := hends.head_ne (by decide) rfl
  refine (gives_nodeUse hdeep node args hargs hcolons (fun _ => hangle) hshows).bind
    fun read c' hread => .spanFrom fun _ => .pure ⟨?_, hread.2⟩
  rw [StaticArg.rebuild, StaticArg.rebuild, hread.1.1, hread.1.2]

theorem readsArg_node (hdeep : deep.Rereads) (hclose : close.closesArgs = true)
    {keyword : Option NodeKind} (span target : Span) (node : Reference)
    {args : Option (List StaticArg)}
    (hsort : keyword.isSome = true ∨ args.isSome = true)
    (hargs : ∀ list, args = some list → ∀ arg ∈ list, arg.Printable) :
    ReadsArg deep close full (.node span keyword target node args) := by
  intro c more hmore hshows
  have hends : EndsArg close more := ⟨hclose, hmore⟩
  have hcolons : (kinds more).head? ≠ some .colonColon := hends.head_ne (by decide) rfl
  have hangle : (kinds more).head? ≠ some .ltLt := hends.head_ne (by decide) rfl
  have huse : ∀ {c : Cursor}, c.Shows (node.chunks ++ (optionalArgs full args ++ more)) → _ :=
    fun hwords => gives_nodeUse hdeep node args hargs hcolons (fun _ => hangle) hwords
  rw [StaticArg.chunks, List.append_assoc, List.append_assoc] at hshows
  cases keyword with
  | some kind =>
      have hwords : c.Shows (sign kind.symbol :: blank ::
          (node.chunks ++ (optionalArgs full args ++ more))) := hshows
      refine gives_keywordArg (.nodeKind kind) hwords.peek fun start => ?_
      exact gives_nodeArg hdeep kind hargs hends hwords.pass_sign.blank start span target
  | none =>
      obtain ⟨list, rfl⟩ := Option.isSome_iff_exists.mp (by simpa using hsort : args.isSome = true)
      have hwords : c.Shows (node.chunks ++ (optionalArgs full (some list) ++ more)) := hshows
      have hpeek : c.peek = some .ident := hwords.peek.trans (node.head_chunks _)
      have hbehind : (kinds (optionalArgs full (some list) ++ more)).head? ≠ some .colonColon := by
        simp [optionalArgs, StaticArg.enclose]
      have hlength := hwords.referenceLength hbehind
      have hopen : c.peekAt node.length = some .ltLt := hlength.2 0
      have hgoes : c.endsArg node.length close = false := Cursor.endsArg_no hclose hopen (by decide)
      -- the arguments of a node that is not called end the argument
      have hparen : (kinds more).head? ≠ some .lParen := hends.head_ne (by decide) rfl
      refine gives_identArg hpeek fun start => .get ?_
      simp only [hlength.1, hgoes, hopen, Bool.false_eq_true, if_false, if_true]
      refine (huse hwords).bind fun read c' hread => .isAt_no (hread.2.peek ▸ hparen) ?_
      refine .spanFrom fun _ => .pure ⟨?_, hread.2⟩
      rw [StaticArg.rebuild, StaticArg.rebuild, hread.1.1, hread.1.2]

theorem Kind.not_ends_of_opens {kind : Kind} (h : kind.opens = true) :
    kind ∉ [Kind.comma, .semi, .gtGt, .rParen] ∧ kind ≠ .caret := by
  constructor
  · intro hmem
    simp only [List.mem_cons, List.not_mem_nil, or_false] at hmem
    rcases hmem with rfl | rfl | rfl | rfl <;> cases h
  · rintro rfl
    cases h

/-- An operator that can begin an expression is a prefix operator or opens a conditional. -/
theorem PredefinedOp.opensTwice_symbol {op : PredefinedOp} (h : op.symbol.opens = true) :
    op.symbol.opensTwice = true := by
  cases op <;> first
    | rfl
    | cases h

/-- An expression that does not begin with a name goes on after its first word, so it is neither an
operator nor a type alone. -/
theorem gives_plainConst (hdeep : deep.Rereads) {value : Expr} (hvalue : value.Printable false)
    {kind : Kind} (hpeek : c.peek = some kind) (hkind : kind ≠ .ident) (hends : EndsArg close later)
    (hshows : c.Shows (value.chunks full 0 ++ later)) (span : Span) :
    Gives (Read.staticArg deep close) c fun read c' =>
      read.rebuild Expr.keep = (StaticArg.const span value false).rebuild (Expr.settle full) ∧
        c'.Shows later := by
  obtain ⟨first, rest, hkinds, hopens, hnext⟩ :=
    ((hvalue.opens full).enclose full 0 value).append later
  obtain rfl : first = kind := by
    rw [hshows.peek] at hpeek
    rw [Expr.chunks, hkinds] at hpeek
    exact Option.some.inj hpeek
  -- The second word opens an expression if the first could be read as anything else.
  have hgoes : first.opensTwice = true → ∃ next, c.peekAt 1 = some next ∧ next.opens = true := by
    intro htwice
    obtain ⟨next, more, rfl, hsecond⟩ := hnext htwice
    refine ⟨next, ?_, hsecond⟩
    rw [hshows.peekAt, Expr.chunks, hkinds]
    rfl
  have hnone : c.NoOpArg close := by
    cases hop : PredefinedOp.ofKind? first with
    | none => exact Cursor.noOpArg_of_kind hpeek hop
    | some op =>
        obtain rfl := PredefinedOp.symbol_of_ofKind? hop
        obtain ⟨next, hsecond, hnextOpens⟩ := hgoes (PredefinedOp.opensTwice_symbol hopens)
        have hgo := Cursor.endsArg_no hends.closes hsecond (Kind.not_ends_of_opens hnextOpens).1
        rw [Cursor.NoOpArg, hgo]
        simp
  have hread := fun start => gives_constArg hdeep hvalue hends hshows start false span
  -- such a word is no type here, since an expression follows it
  have hcast : first.opensTwice = true →
      ¬(c.endsArg 1 close = true ∨ c.peekAt 1 = some .caret) := by
    intro htwice
    obtain ⟨next, hsecond, hnextOpens⟩ := hgoes htwice
    rw [Cursor.endsArg_no hends.closes hsecond (Kind.not_ends_of_opens hnextOpens).1, hsecond]
    simpa using (Kind.not_ends_of_opens hnextOpens).2
  refine .get ?_
  dsimp only
  rw [hnone, hpeek]
  dsimp only
  split <;> rename_i heq
  · cases heq; cases hopens
  · cases heq; cases hopens
  · cases heq; cases hopens
  · cases heq; cases hopens
  · cases heq; cases hopens
  · cases heq
    rw [if_neg (hcast rfl)]
    exact hread _
  · cases heq
    rw [if_neg (hcast rfl)]
    exact hread _
  · exact absurd (Option.some.inj heq) hkind
  · exact hread _

theorem readsArg_const (hdeep : deep.Rereads) (hclose : close.closesArgs = true) {value : Expr}
    (hvalue : value.Printable false) (span : Span) {explicit : Bool}
    (hsort : explicit = true ∨ value.isName = false) :
    ReadsArg deep close full (.const span value explicit) := by
  intro c more hmore hshows
  have hends : EndsArg close more := ⟨hclose, hmore⟩
  cases explicit with
  | true =>
      have hwords : c.Shows (sign .kwConst :: blank :: (value.chunks full 0 ++ more)) := hshows
      refine gives_keywordArg .const hwords.peek fun start => ?_
      exact gives_constArg hdeep hvalue hends hwords.pass_sign.blank start true span
  | false =>
      have hwords : c.Shows (value.chunks full 0 ++ more) := hshows
      have hname : value.isName = false := by simpa using hsort
      -- what the expression begins with decides how it is read
      have hled : NameLed full false (value.chunks full 0) := by
        unfold Expr.chunks Expr.enclose
        split
        · exact .other rfl (by decide)
        · exact hvalue.nameLed hname
      have hconst := fun start => gives_nameLedConst hdeep hvalue hname hends hwords start span
      generalize value.chunks full 0 = chunks at hwords hled
      cases hled with
      | @other _ _ kind hhead hkind =>
          have hpeek : c.peek = some kind := by
            rw [hwords.peek, kinds_append, List.head?_append, hhead]
            rfl
          exact gives_plainConst hdeep hvalue hpeek hkind hends hshows span
      -- a name goes on as an expression, so it is not the name of a type or a node
      | @further _ ref rest kind hhead hkind =>
          rw [List.append_assoc] at hwords
          have hnext : (kinds (rest ++ more)).head? = some kind := by
            rw [kinds_append, List.head?_append, hhead]
            rfl
          have hgoes : kind ∉ [Kind.comma, .semi, .gtGt, .rParen] ∧ kind ≠ .ltLt ∧
              kind ≠ .colonColon := by
            simpa [Kind.goesOn, and_assoc] using hkind
          have hlength := hwords.referenceLength (by rw [hnext]; simpa using hgoes.2.2)
          have hbehind : c.peekAt ref.length = some kind :=
            (hlength.2 0).trans (List.head?_eq_getElem?.symm.trans hnext)
          have hmore : c.endsArg ref.length close = false :=
            Cursor.endsArg_no hclose hbehind hgoes.1
          refine gives_identArg (hwords.peek.trans (ref.head_chunks _)) fun start => .get ?_
          simp only [hlength.1, hmore, hbehind, Bool.false_eq_true, if_false]
          rw [if_neg (by simpa using hgoes.2.1)]
          exact hconst start
      | @called _ node args rest hargs hhead =>
          rw [List.append_assoc, List.append_assoc] at hwords
          have hbehind : (kinds (optionalArgs full (some args) ++ (rest ++ more))).head? ≠
              some .colonColon := by simp [optionalArgs, StaticArg.enclose]
          have hparen : (kinds (rest ++ more)).head? = some .lParen := by
            rw [kinds_append, List.head?_append, hhead]
            rfl
          have hlength := Cursor.Shows.referenceLength hbehind hwords
          have hopen : c.peekAt node.length = some .ltLt := hlength.2 0
          have hmore : c.endsArg node.length close = false :=
            Cursor.endsArg_no hclose hopen (by decide)
          refine gives_identArg (hwords.peek.trans (node.head_chunks _)) fun start => .get ?_
          simp only [hlength.1, hmore, hopen, Bool.false_eq_true, if_false, if_true]
          have huse := gives_nodeUse hdeep node (some args) (by rintro _ ⟨⟩; exact hargs)
            (by rw [hparen]; decide) (fun h => by cases h) hwords
          refine huse.bind fun read c' hread => .isAt_yes (hread.2.peek.trans hparen) ?_
          -- The node is called, so all of it is read again as an expression.
          exact .set (hconst start)

/-- Every printable static argument is read back. -/
theorem StaticArg.Printable.reads (hdeep : deep.Rereads) (hclose : close.closesArgs = true)
    {arg : StaticArg} (harg : arg.Printable) : ReadsArg deep close full arg := by
  cases harg with
  | name => exact readsArg_name hclose _ _
  | type hsort htype => exact readsArg_type hdeep hclose htype _ hsort
  | const hsort hvalue => exact readsArg_const hdeep hclose hvalue _ hsort
  | node hsort _ hargs => exact readsArg_node hdeep hclose _ _ _ hsort hargs
  | op => exact readsArg_op hclose _ _

/-- The first word does not close a list of static arguments. -/
def BeginsArg (chunks : List Chunk) : Prop :=
  ∃ kind rest, kinds chunks = kind :: rest ∧ kind.closesArgs = false

theorem BeginsArg.of_head {chunks : List Chunk} {kind : Kind}
    (hhead : (kinds chunks).head? = some kind) (hkind : kind.closesArgs = false) :
    BeginsArg chunks := by
  obtain ⟨rest, hkinds⟩ := List.head?_eq_some_iff.mp hhead
  exact ⟨kind, rest, hkinds, hkind⟩

theorem BeginsArg.other {α : Type} {print : α → List Chunk} {x : α} (h : BeginsArg (print x))
    (hclose : close.closesArgs = true) : BeginsOther print close x := by
  obtain ⟨kind, rest, hkinds, hkind⟩ := h
  refine ⟨kind, rest, hkinds, ?_⟩
  rintro rfl
  rw [hclose] at hkind
  cases hkind

theorem StaticArg.Printable.begins {arg : StaticArg} (harg : arg.Printable) :
    BeginsArg (arg.chunks full) := by
  cases harg with
  | @name _ ref => exact .of_head (by simpa [StaticArg.chunks] using ref.head_chunks []) rfl
  | @type _ type explicit hsort =>
      cases explicit with
      | true => exact .of_head rfl (rfl : Kind.kwType.closesArgs = false)
      | false =>
          obtain ⟨kind, hmem, rest, hkinds, -⟩ :=
            TypeExpr.builtin_words full (by simpa using hsort : type.isBuiltin = true)
          refine ⟨kind, rest, hkinds, ?_⟩
          revert hmem
          cases kind <;> decide
  | @const _ value explicit _ hvalue =>
      cases explicit with
      | true => exact .of_head rfl (rfl : Kind.kwConst.closesArgs = false)
      | false =>
          obtain ⟨kind, rest, hkinds, hopens, -⟩ := (hvalue.opens full).enclose full 0 value
          refine ⟨kind, rest, hkinds, ?_⟩
          cases kind <;> first
            | rfl
            | cases hopens
  | @node _ keyword _ node args =>
      cases keyword with
      | some kind => cases kind <;> exact .of_head rfl rfl
      | none => exact .of_head (node.head_chunks _) rfl
  | @op _ op => cases op <;> exact .of_head rfl rfl

end

/-- A printed list of static arguments is read back. -/
theorem gives_staticArgs (hdeep : deep.Rereads) {args : List StaticArg}
    (hargs : ∀ arg ∈ args, arg.Printable)
    (hshows : c.Shows (StaticArg.enclose args (StaticArg.parts full args) ++ later)) :
    Gives (Read.staticArgs deep) c fun read c' =>
      read.map (StaticArg.rebuild Expr.keep) = args.map (StaticArg.rebuild (Expr.settle full)) ∧
        c'.Shows later := by
  -- A blank may stand before the `>>`.
  obtain ⟨closing, hclosing, hopened⟩ : ∃ closing, (kinds closing).head? = some .gtGt ∧
      c.Shows (sign .ltLt :: (separate .comma (args.map (StaticArg.chunks full)) ++ closing)) ∧
      ∀ c' : Cursor, c'.Shows closing → c'.pass.Shows later := by
    rw [StaticArg.parts_eq, StaticArg.enclose] at hshows
    split at hshows
    · refine ⟨[blank, sign .gtGt] ++ later, rfl, by simpa using hshows, fun c' h => ?_⟩
      exact h.blank.pass_sign
    · refine ⟨[sign .gtGt] ++ later, rfl, by simpa using hshows, fun c' h => ?_⟩
      exact h.pass_sign
  refine .expect hopened.1.peek fun _ => ?_
  refine .bind (gives_separated (StaticArg.rebuild Expr.keep) (StaticArg.rebuild (Expr.settle full))
    (by decide) (by decide) (fun arg hmem => (hargs arg hmem).reads hdeep rfl)
    (fun arg hmem => (hargs arg hmem).begins.other rfl) hclosing hopened.1.pass_sign)
    fun read c' hread => ?_
  exact .expect (hread.2.peek.trans hclosing) fun _ => .pure ⟨hread.1, hopened.2 c' hread.2⟩

/-! ## All levels -/

/-- A full expression in front of what it ends at. -/
theorem gives_top (hdeep : deep.Rereads) {expr : Expr} (hexpr : expr.Printable false)
    {chunks : List Chunk} {tree : Expr} {rank least : Nat}
    (hprinted : expr.Printed full chunks tree rank) (hleast : least ≤ rank)
    (hdemand : demand later ≤ rank) (hfull : demand later ≤ Prec.equality.level)
    (hends : Ends .top least later) (hshows : c.Shows (chunks ++ later)) :
    Gives (Read.top deep least) c (AnswersTree tree later) :=
  (hprinted.readsTop hdeep hexpr (hexpr.readsTop hdeep full)).gives hshows hleast hdemand hfull
    fun _ _ hread => loopGives_top hends hread.2 hread

end

/-- The readers of every level give what was printed. -/
theorem Nested.rereads_upTo (levels : Nat) : (Nested.upTo levels).Rereads := by
  induction levels with
  | zero => exact rereads_exhausted
  | succ levels ih =>
      refine ⟨fun hexpr hprinted hleast hdemand hfull hends hshows => ?_,
        fun hexpr hprinted hlow hleast hdemand hends hunsampled hshows => ?_,
        fun hargs hshows => ?_⟩
      · exact gives_top ih hexpr hprinted hleast hdemand hfull hends hshows
      · have hread := hprinted.readsInner ih hexpr (Nat.lt_of_lt_of_le hlow hleast)
          (hexpr.readsInner ih _)
        exact hread.gives hshows hleast hdemand fun _ _ hanswer =>
          loopGives_inner hends hunsampled hanswer.2 hanswer
      · exact gives_staticArgs ih hargs hshows

end Lustre
