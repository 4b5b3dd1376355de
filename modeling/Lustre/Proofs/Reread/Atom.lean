import Lustre.Proofs.Printer.Expr
import Lustre.Proofs.Reread.Edges
import Lustre.Proofs.Reread.Name
import Lustre.Reader.StaticArg

/-!
# Atoms, read back

What is printed of an expression in some place is `Printed`: its bare words, or the same in
parentheses, which is then read back as a tuple of one item.  In both cases there is a rank
that the place may rely on.

An atom and any chain of postfix forms after it are read by the prefixed layer of the
reader (`ReadsAtom`), with the forms that come after as a continuation: `f.x[2]` is read
back as `f.x` is, with `[2]` still to come.  What is nested deeper is known to be read back by
`Nested.Rereads`.
-/

namespace Lustre

open Chunk

/-! ## Printed forms -/

/-- What is printed of an expression in some place, the tree that is read back, and the rank that
its place may rely on. -/
inductive Expr.Printed (full : Bool) (expr : Expr) : List Chunk → Expr → Nat → Prop
  | bare : Expr.Printed full expr (expr.bare full) (expr.settled full) expr.rank
  | enclosed : Expr.Printed full expr (between .lParen .rParen (expr.bare full))
      (.tuple .nowhere [expr.settled full]) Prec.atom

theorem Expr.printed_chunks (expr : Expr) (full : Bool) {least : Nat} (h : least ≤ Prec.atom) :
    ∃ rank, least ≤ rank ∧
      expr.Printed full (expr.chunks full least) (expr.settledAt full least) rank := by
  unfold chunks enclose settledAt settle settled
  rw [rank_rebuild]
  split
  · exact ⟨Prec.atom, h, .enclosed⟩
  · exact ⟨expr.rank, by omega, .bare⟩

theorem Expr.Printed.opens {full : Bool} {expr : Expr} {chunks : List Chunk} {tree : Expr}
    {rank : Nat} (h : expr.Printed full chunks tree rank) (hexpr : expr.Printable false) :
    OpensExpr chunks := by
  cases h with
  | bare => exact hexpr.opens full
  | enclosed => exact .of_head .lParen rfl rfl rfl

/-- The answer is a tree, up to places, and what comes after it is left to come. -/
def AnswersTree (tree : Expr) (later : List Chunk) (read : Expr) (c : Cursor) : Prop :=
  read.strip = tree ∧ c.Shows later

/-! ## What is nested deeper -/

/-- The readers of what is nested deeper give what was printed. -/
structure Nested.Rereads (deep : Nested) : Prop where
  top {full : Bool} {expr : Expr} {chunks : List Chunk} {tree : Expr} {rank least : Nat}
    {later : List Chunk} {c : Cursor} (hexpr : expr.Printable false)
    (hprinted : expr.Printed full chunks tree rank) (hleast : least ≤ rank)
    (hdemand : demand later ≤ rank) (hfull : demand later ≤ Prec.equality.level)
    (hends : Ends .top least later) (hshows : c.Shows (chunks ++ later)) :
    Gives (deep.top least) c (AnswersTree tree later)
  inner {full : Bool} {expr : Expr} {chunks : List Chunk} {tree : Expr} {rank least : Nat}
    {later : List Chunk} {c : Cursor} (hexpr : expr.Printable false)
    (hprinted : expr.Printed full chunks tree rank) (hlow : Prec.equality.level < least)
    (hleast : least ≤ rank) (hdemand : demand later ≤ rank) (hends : Ends .inner least later)
    (hunsampled : Unsampled least later) (hshows : c.Shows (chunks ++ later)) :
    Gives (deep.inner least) c (AnswersTree tree later)
  args {full : Bool} {args : List StaticArg} {later : List Chunk} {c : Cursor}
    (hargs : ∀ arg ∈ args, arg.Printable)
    (hshows : c.Shows (StaticArg.enclose args (StaticArg.parts full args) ++ later)) :
    Gives deep.args c fun read c' =>
      read.map (StaticArg.rebuild Expr.keep) = args.map (StaticArg.rebuild (Expr.settle full)) ∧
        c'.Shows later

/-- Where nothing may be nested deeper, there is nothing to be shown. -/
theorem Nested.rereads_exhausted : Nested.exhausted.Rereads :=
  ⟨fun _ _ _ _ _ _ _ => .nested, fun _ _ _ _ _ _ _ _ => .nested, fun _ _ => .nested⟩

section

variable {deep : Nested} {full : Bool} {expr : Expr} {later : List Chunk} {c : Cursor}

namespace Nested.Rereads

/-- A full expression in front of what closes it. -/
theorem printed (hdeep : deep.Rereads) (hexpr : expr.Printable false) {chunks : List Chunk}
    {tree : Expr} {rank : Nat} (hprinted : expr.Printed full chunks tree rank)
    (hclosed : demand later = 0) (hshows : c.Shows (chunks ++ later)) :
    Gives deep.expr c (AnswersTree tree later) :=
  hdeep.top hexpr hprinted (Nat.zero_le _) (by omega) (by omega) (.of_closed hclosed) hshows

theorem whole (hdeep : deep.Rereads) (hexpr : expr.Printable false) (hclosed : demand later = 0)
    (hshows : c.Shows (expr.chunks full 0 ++ later)) :
    Gives deep.expr c (AnswersTree (expr.settledAt full 0) later) := by
  obtain ⟨rank, -, hprinted⟩ := expr.printed_chunks full (Nat.zero_le Prec.atom)
  exact hdeep.printed hexpr hprinted hclosed hshows

end Nested.Rereads

/-- Some full expressions before a closing bracket. -/
theorem gives_exprList (hdeep : deep.Rereads) {close : Kind}
    (hclose : close = .rParen ∨ close = .rBracket) {items : List Expr}
    {print : Expr → List Chunk} {source : Expr → Expr}
    (hitems : ∀ item ∈ items, item.Printable false ∧
      ∃ rank, item.Printed full (print item) (source item) rank)
    (hshows : c.Shows (separate .comma (items.map print) ++ (sign close :: later))) :
    Gives (Read.exprList deep close) c fun read c' =>
      read.map Expr.strip = items.map source ∧ c'.Shows (sign close :: later) := by
  have hdemand : close.demand = 0 ∧ close.opens = false ∧ close ≠ .comma := by
    rcases hclose with rfl | rfl <;> decide
  cases items with
  | nil => exact .isAt_yes hshows.peek (.pure ⟨rfl, hshows⟩)
  | cons item items =>
      have hother : c.peek ≠ some close := by
        obtain ⟨hitem, rank, hprinted⟩ := hitems item List.mem_cons_self
        rw [List.map_cons, separate_cons, List.append_assoc] at hshows
        rw [hshows.peek]
        exact (hprinted.opens hitem).head_ne hdemand.2.1 _
      have hends : Before [close] (sign close :: later) := ⟨close, by simp, rfl⟩
      refine .isAt_no hother (gives_commaList (by simp) (by simpa using hdemand.2.2.symm) ?_ hends
        hshows)
      intro other hmem c more hmore hshows
      obtain ⟨hprintable, rank, hprinted⟩ := hitems other hmem
      refine hdeep.printed hprintable hprinted (hmore.demand_eq ?_) hshows
      simpa using ⟨rfl, hdemand.1⟩

/-- The same with every item as it is printed in a list. -/
theorem gives_parts (hdeep : deep.Rereads) {close : Kind}
    (hclose : close = .rParen ∨ close = .rBracket) {items : List Expr}
    (hitems : ∀ item ∈ items, item.Printable false)
    (hshows : c.Shows (separate .comma (Expr.parts full items) ++ (sign close :: later))) :
    Gives (Read.exprList deep close) c fun read c' =>
      Expr.listRebuild Expr.keep read = Expr.listRebuild (Expr.settle full) items ∧
        c'.Shows (sign close :: later) := by
  rw [Expr.parts_eq] at hshows
  have hprinted : ∀ item ∈ items, item.Printable false ∧
      ∃ rank, item.Printed full (item.chunks full 0) (item.settledAt full 0) rank := by
    intro item hmem
    obtain ⟨rank, -, hprinted⟩ := item.printed_chunks full (Nat.zero_le Prec.atom)
    exact ⟨hitems item hmem, rank, hprinted⟩
  refine (gives_exprList hdeep hclose hprinted hshows).mono fun read c' hread => ⟨?_, hread.2⟩
  rw [Expr.listRebuild_eq, Expr.listRebuild_eq]
  exact hread.1

end

/-! ## Atoms -/

section

variable {deep : Nested} {full called : Bool} {chunks later : List Chunk} {tree : Expr} {c : Cursor}
  {span : Span} {Q : Expr → Cursor → Prop}

/-- Chunks of an atom that is called at once if `called`: they are read, and so is whatever postfix
forms come after them. -/
structure ReadsAtom (deep : Nested) (called : Bool) (chunks : List Chunk) (tree : Expr) : Prop where
  gives {c : Cursor} {later : List Chunk} {Q : Expr → Cursor → Prop}
    (hshows : c.Shows (chunks ++ later)) (hdemand : demand later ≤ Prec.atom + 1)
    (hcalled : called = true ↔ (kinds later).head? = some .lParen)
    (hnext : ∀ read c', AnswersTree tree later read c' →
      LoopGives (Read.postfixStep deep) read c' Q) : Gives (Read.prefixed deep) c Q

/-- Where no postfix form comes next, the chain of them ends. -/
theorem loopGives_postfix (h : demand later ≤ Prec.atom) {read : Expr} (hshows : c.Shows later)
    (hQ : Q read c) : LoopGives (Read.postfixStep deep) read c Q := by
  have hdot : c.peek ≠ some .dot := hshows.peek ▸ head_ne_of_demand (Nat.lt_succ_of_le h)
  have hbracket : c.peek ≠ some .lBracket := hshows.peek ▸ head_ne_of_demand (Nat.lt_succ_of_le h)
  have hparen : c.peek ≠ some .lParen := hshows.peek ▸ head_ne_of_demand (Nat.lt_succ_of_le h)
  refine .next (.peek ?_)
  split
  · exact absurd ‹_› hdot
  · exact absurd ‹_› hbracket
  · exact absurd ‹_› hparen
  · exact .pure hQ

theorem gives_prefixed {kind : Kind} (hplain : UnaryOp.ofKind? kind = none)
    (hpeek : c.peek = some kind) {P : Expr → Cursor → Prop} (h : Gives (Read.primary deep) c P)
    (hnext : ∀ read c', P read c' → LoopGives (Read.postfixStep deep) read c' Q) :
    Gives (Read.prefixed deep) c Q := by
  refine .peekAs hpeek ?_
  simp only [Option.bind_some, hplain]
  exact h.bind fun read c' hread => (hnext read c' hread).iterate

/-- What is read as a primary expression is an atom. -/
theorem ReadsAtom.of_primary (kind : Kind) (hplain : UnaryOp.ofKind? kind = none)
    (hhead : ∀ later, (kinds (chunks ++ later)).head? = some kind)
    (h : ∀ {c : Cursor} {later : List Chunk}, c.Shows (chunks ++ later) →
      demand later ≤ Prec.atom + 1 → (called = true ↔ (kinds later).head? = some .lParen) →
      c.peek = some kind → Gives (Read.primary deep) c (AnswersTree tree later)) :
    ReadsAtom deep called chunks tree := by
  refine ⟨fun {c later Q} hshows hdemand hcalled hnext => ?_⟩
  have hpeek : c.peek = some kind := hshows.peek.trans (hhead later)
  exact gives_prefixed hplain hpeek (h hshows hdemand hcalled hpeek) hnext

/-! ### Names and literals -/

theorem readsAtom_bool (value : Bool) :
    ReadsAtom deep called [boolSign value] (.bool .nowhere value) := by
  cases value with
  | true =>
      refine .of_primary .kwTrue rfl (fun _ => rfl) fun hshows _ _ hpeek => ?_
      exact .here fun _ => .peekAs hpeek
        (.advance (.spanFrom fun _ => .pure ⟨rfl, hshows.pass_sign⟩))
  | false =>
      refine .of_primary .kwFalse rfl (fun _ => rfl) fun hshows _ _ hpeek => ?_
      exact .here fun _ => .peekAs hpeek
        (.advance (.spanFrom fun _ => .pure ⟨rfl, hshows.pass_sign⟩))

theorem readsAtom_int (digits : String) :
    ReadsAtom deep called [.word .intLit digits] (.int .nowhere digits) := by
  refine .of_primary .intLit rfl (fun _ => rfl) fun hshows _ _ hpeek => ?_
  obtain ⟨start, hrest⟩ := hshows.rest_eq
  refine .here fun _ => .peekAs hpeek (.takeText hrest ?_)
  exact .spanFrom fun _ => .pure ⟨rfl, hshows.pass⟩

theorem readsAtom_real (digits : String) :
    ReadsAtom deep called [.word .realLit digits] (.real .nowhere digits) := by
  refine .of_primary .realLit rfl (fun _ => rfl) fun hshows _ _ hpeek => ?_
  obtain ⟨start, hrest⟩ := hshows.rest_eq
  refine .here fun _ => .peekAs hpeek (.takeText hrest ?_)
  exact .spanFrom fun _ => .pure ⟨rfl, hshows.pass⟩

theorem Reference.head_chunks (ref : Reference) (later : List Chunk) :
    (kinds (ref.chunks ++ later)).head? = some .ident := by
  unfold chunks
  split <;> rfl

theorem readsAtom_name (ref : Reference) :
    ReadsAtom deep called ref.chunks (.name .nowhere ref.strip) := by
  refine .of_primary .ident rfl ref.head_chunks fun {c later} hshows hdemand _ hpeek => ?_
  have hlow : demand later < Prec.atom + 2 := Nat.lt_succ_of_le hdemand
  refine .here fun _ => .peekAs hpeek (.here fun _ => ?_)
  refine (gives_reference (head_ne_of_demand hlow) hshows).bind fun read c' hread => .peek ?_
  split
  · exact absurd ‹_› (hread.2.peek ▸ head_ne_of_demand hlow)
  · exact absurd ‹_› (hread.2.peek ▸ head_ne_of_demand hlow)
  · refine .spanFrom fun _ => .pure ⟨?_, hread.2⟩
    rw [Expr.strip, Expr.rebuild, hread.1]

/-- A node with static arguments, where it is called. -/
theorem readsAtom_inst (hdeep : deep.Rereads) (node : Reference) {args : List StaticArg}
    (hargs : ∀ arg ∈ args, arg.Printable) :
    ReadsAtom deep true ((Expr.inst span node (some args)).bare full)
      ((Expr.inst span node (some args)).settled full) := by
  rw [Expr.bare, optionalArgs]
  refine .of_primary .ident rfl (fun later => by rw [List.append_assoc]; exact node.head_chunks _)
    fun {c later} hshows _ hcalled hpeek => ?_
  rw [List.append_assoc] at hshows
  refine .here fun _ => .peekAs hpeek (.here fun _ => ?_)
  refine (gives_reference (by simp [StaticArg.enclose]) hshows).bind fun readNode c' hnode => ?_
  refine .peekAs hnode.2.peek ?_
  refine (hdeep.args hargs hnode.2).bind fun readArgs c'' hread => ?_
  refine .isAt_yes (hread.2.peek.trans (hcalled.mp rfl)) (.spanFrom fun _ => .pure ⟨?_, hread.2⟩)
  simp only [Expr.strip, Expr.settled, Expr.rebuild, argsRebuild, StaticArg.listRebuild_eq, hnode.1,
    hread.1]

/-! ### Lists in brackets -/

theorem between_append (opening closing : Kind) (chunks later : List Chunk) :
    between opening closing chunks ++ later = sign opening ::
    (chunks ++ sign closing :: later) := by
  simp [between]

/-- One expression in parentheses is read as a tuple. -/
theorem readsAtom_enclosed (hdeep : deep.Rereads) {expr : Expr} (hexpr : expr.Printable false) :
    ReadsAtom deep called (between .lParen .rParen (expr.bare full))
      (.tuple .nowhere [expr.settled full]) := by
  refine .of_primary .lParen rfl (fun _ => rfl) fun {c later} hshows _ _ hpeek => ?_
  rw [between_append] at hshows
  have hitems : c.pass.Shows (separate .comma ([expr].map (Expr.bare full)) ++
      (sign .rParen :: later)) := hshows.pass_sign
  have hprinted : ∀ item ∈ [expr], item.Printable false ∧
      ∃ rank, item.Printed full (item.bare full) (item.settled full) rank := by
    intro item hmem
    obtain rfl := List.mem_singleton.mp hmem
    exact ⟨hexpr, item.rank, .bare⟩
  refine .here fun _ => .peekAs hpeek (.advance ?_)
  refine (gives_exprList hdeep (.inl rfl) hprinted hitems).bind fun read c' hread => ?_
  refine .expect hread.2.peek fun _ => .spanFrom fun _ => .pure ⟨?_, hread.2.pass_sign⟩
  have hlist : read.map Expr.strip = [expr.settled full] := hread.1
  rw [Expr.strip, Expr.rebuild, Expr.listRebuild_eq]
  exact congrArg _ hlist

theorem readsAtom_tuple (hdeep : deep.Rereads) {items : List Expr}
    (hitems : ∀ item ∈ items, item.Printable false) :
    ReadsAtom deep called ((Expr.tuple span items).bare full)
      ((Expr.tuple span items).settled full) := by
  refine .of_primary .lParen rfl (fun _ => rfl) fun {c later} hshows _ _ hpeek => ?_
  rw [Expr.bare, between_append] at hshows
  refine .here fun _ => .peekAs hpeek (.advance ?_)
  refine (gives_parts hdeep (.inl rfl) hitems hshows.pass_sign).bind fun read c' hread => ?_
  refine .expect hread.2.peek fun _ => .spanFrom fun _ => .pure ⟨?_, hread.2.pass_sign⟩
  rw [Expr.strip, Expr.rebuild, hread.1]
  rfl

theorem readsAtom_array (hdeep : deep.Rereads) {items : List Expr}
    (hitems : ∀ item ∈ items, item.Printable false) :
    ReadsAtom deep called ((Expr.array span items).bare full)
      ((Expr.array span items).settled full) := by
  refine .of_primary .lBracket rfl (fun _ => rfl) fun {c later} hshows _ _ hpeek => ?_
  rw [Expr.bare, between_append] at hshows
  refine .here fun _ => .peekAs hpeek (.advance ?_)
  refine (gives_parts hdeep (.inr rfl) hitems hshows.pass_sign).bind fun read c' hread => ?_
  refine .expect hread.2.peek fun _ => .spanFrom fun _ => .pure ⟨?_, hread.2.pass_sign⟩
  rw [Expr.strip, Expr.rebuild, hread.1]
  rfl

theorem gives_operands (hdeep : deep.Rereads) {start : Nat} (op : ListOp) {operands : List Expr}
    (hoperands : ∀ item ∈ operands, item.Printable false)
    (hshows : c.Shows (between .lParen .rParen (separate .comma (Expr.parts full operands)) ++
      later)) :
    Gives (Read.operands deep start op) c
      (AnswersTree ((Expr.list span op operands).settled full) later) := by
  rw [between_append] at hshows
  refine .expect hshows.peek fun _ => ?_
  refine (gives_parts hdeep (.inl rfl) hoperands hshows.pass_sign).bind fun read c' hread => ?_
  refine .expect hread.2.peek fun _ => .spanFrom fun _ => .pure ⟨?_, hread.2.pass_sign⟩
  rw [Expr.strip, Expr.rebuild, hread.1]
  rfl

theorem readsAtom_list (hdeep : deep.Rereads) {op : ListOp} {operands : List Expr}
    (hoperands : ∀ item ∈ operands, item.Printable false) :
    ReadsAtom deep called ((Expr.list span op operands).bare full)
      ((Expr.list span op operands).settled full) := by
  have hprimary : ∀ {c : Cursor} {later : List Chunk},
      c.Shows ((Expr.list span op operands).bare full ++ later) → c.peek = some op.symbol →
      Gives (Read.primary deep) c
      (AnswersTree ((Expr.list span op operands).settled full) later) := by
    intro c later hshows hpeek
    rw [Expr.bare, List.cons_append] at hshows
    have hlist : ∀ start, Gives (Read.operands deep start op) c.pass
        (AnswersTree ((Expr.list span op operands).settled full) later) :=
      fun start => gives_operands hdeep op hoperands hshows.pass_sign
    cases op with
    | atMostOne => exact .here fun start => .peekAs hpeek (.advance (hlist start))
    | noneOf => exact .here fun start => .peekAs hpeek (.advance (hlist start))
  refine .of_primary op.symbol (by cases op <;> rfl) (fun _ => rfl)
    fun hshows _ _ hpeek => hprimary hshows hpeek

/-! ### Merges -/

/-- A pattern ends before whatever does not qualify a name. -/
theorem gives_pattern {pattern : Pattern}
    (hlater : (kinds later).head? ≠ some .colonColon)
    (hshows : c.Shows (pattern.chunks ++ later)) :
    Gives Read.pattern c fun read c' => read.strip = pattern.strip ∧ c'.Shows later := by
  cases pattern with
  | name ref =>
      have hpeek : c.peek = some .ident := by
        rw [hshows.peek, Pattern.chunks]
        unfold Reference.chunks
        split <;> rfl
      refine .peekAs hpeek ?_
      refine (gives_reference hlater hshows).bind fun read c' hread => .pure ⟨?_, hread.2⟩
      rw [Pattern.strip, Pattern.strip, hread.1]
  | bool value =>
      cases value with
      | true => exact .peekAs hshows.peek (.advance (.pure ⟨rfl, hshows.pass_sign⟩))
      | false => exact .peekAs hshows.peek (.advance (.pure ⟨rfl, hshows.pass_sign⟩))

theorem gives_mergeArm (hdeep : deep.Rereads) {arm : MergeArm} (hvalue : arm.value.Printable false)
    (hshows : c.Shows (between .lParen .rParen
      (arm.pattern.chunks ++ [blank, sign .arrow, blank] ++ arm.value.chunks full 0) ++ later)) :
    Gives (Read.mergeArm deep) c fun read c' =>
      read.rebuild Expr.keep = arm.rebuild (Expr.settle full) ∧ c'.Shows later := by
  rw [between_append, List.append_assoc, List.append_assoc] at hshows
  refine .here fun _ => .expect hshows.peek fun _ => ?_
  refine (gives_pattern (by simp) hshows.pass_sign).bind fun pattern c' hpattern => ?_
  have harrow : c'.Shows (sign .arrow :: blank ::
      (arm.value.chunks full 0 ++ sign .rParen :: later)) := hpattern.2.blank
  refine .expect harrow.peek fun _ => ?_
  refine (hdeep.whole hvalue rfl harrow.pass_sign.blank).bind fun value c'' hread => ?_
  refine .expect hread.2.peek fun _ => .spanFrom fun _ => .pure ⟨?_, hread.2.pass_sign⟩
  simp only [MergeArm.rebuild, hpattern.1, Expr.keep]
  exact congrArg _ hread.1

theorem loopGives_mergeArms (hdeep : deep.Rereads) {arms : List MergeArm}
    (hvalues : ∀ arm ∈ arms, arm.value.Printable false)
    (hlater : (kinds later).head? ≠ some .lParen) (done : List MergeArm)
    (hshows : c.Shows (MergeArm.parts full arms ++ later)) :
    LoopGives (Read.mergeStep deep) done c fun read c' =>
      read.map (MergeArm.rebuild Expr.keep) = done.map (MergeArm.rebuild Expr.keep) ++
        arms.map (MergeArm.rebuild (Expr.settle full)) ∧ c'.Shows later := by
  induction arms generalizing done c with
  | nil =>
      refine .next (.isAt_no (hshows.peek ▸ hlater) (.pure ⟨?_, hshows⟩))
      rw [List.map_nil, List.append_nil]
  | cons arm arms ih =>
      rw [MergeArm.parts_cons] at hshows
      have hfirst := hshows.blank
      rw [List.append_eq, List.append_eq, List.append_assoc] at hfirst
      have harm := gives_mergeArm hdeep (hvalues arm List.mem_cons_self) hfirst
      refine .next (.isAt_yes hfirst.peek (harm.bind fun read c' hread => .pure ⟨?_, ?_⟩))
      · exact hfirst.length_lt (by simp [between]) hread.2
      · refine (ih (fun other hother => hvalues other (List.mem_cons_of_mem _ hother)) _
          hread.2).mono fun arms' c'' harms => ⟨?_, harms.2⟩
        rw [harms.1]
        simp [hread.1]

theorem gives_merge (hdeep : deep.Rereads) {start : Nat} {clock : Ident} (hclock : clock.Printable)
    {arms : List MergeArm} (hnil : arms ≠ [])
    (hvalues : ∀ arm ∈ arms, arm.value.Printable false)
    (hlater : (kinds later).head? ≠ some .lParen)
    (hshows : c.Shows (clock.chunks ++ (MergeArm.parts full arms ++ later))) :
    Gives (Read.merge deep start) c
      (AnswersTree ((Expr.merge span clock arms).settled full) later) := by
  have hpragma : (kinds (MergeArm.parts full arms ++ later)).head? ≠ some .pragma := by
    obtain ⟨arm, more, rfl⟩ := List.exists_cons_of_ne_nil hnil
    rw [MergeArm.parts_cons]
    simp [between]
  refine (gives_ident hclock hpragma hshows).bind fun readClock c' hread => ?_
  refine .bind (P := fun (read : List MergeArm) c' => read.map (MergeArm.rebuild Expr.keep) =
      arms.map (MergeArm.rebuild (Expr.settle full)) ∧ c'.Shows later)
    (loopGives_mergeArms hdeep hvalues hlater [] hread.2).iterate
    fun readArms c'' harms => ?_
  have hsome : readArms.isEmpty = false := by
    cases readArms with
    | nil => exact absurd (List.map_eq_nil_iff.mp harms.1.symm) hnil
    | cons _ _ => rfl
  simp only [hsome, Bool.false_eq_true, if_false]
  refine .spanFrom fun _ => .pure ⟨?_, harms.2⟩
  simp only [Expr.strip, Expr.settled, Expr.rebuild, MergeArm.listRebuild_eq, hread.1, harms.1]

theorem readsAtom_merge (hdeep : deep.Rereads) {clock : Ident} (hclock : clock.Printable)
    {arms : List MergeArm} (hnil : arms ≠ [])
    (hvalues : ∀ arm ∈ arms, arm.value.Printable false) :
    ReadsAtom deep false ((Expr.merge span clock arms).bare full)
      ((Expr.merge span clock arms).settled full) := by
  refine .of_primary .kwMerge rfl (fun _ => rfl)
    fun {c later} hshows _ hcalled hpeek => ?_
  rw [Expr.bare, List.append_assoc, List.append_assoc] at hshows
  have hlater : (kinds later).head? ≠ some .lParen := fun heq => by simpa using hcalled.mpr heq
  exact .here fun _ => .peekAs hpeek (.advance
    (gives_merge hdeep hclock hnil hvalues hlater hshows.pass_sign.blank))

/-! ### Records -/

theorem gives_fieldInit (hdeep : deep.Rereads) {init : FieldInit} (hfield : init.field.Printable)
    (hvalue : init.value.Printable false) (hclosed : demand later = 0)
    (hshows : c.Shows (init.field.chunks ++ [blank, sign .eq, blank] ++ init.value.chunks full 0 ++
      later)) :
    Gives (Read.fieldInit deep) c fun read c' =>
      read.rebuild Expr.keep = init.rebuild (Expr.settle full) ∧ c'.Shows later := by
  rw [List.append_assoc, List.append_assoc] at hshows
  refine .here fun _ => (gives_ident hfield (by simp) hshows).bind fun field c' hname => ?_
  have heq : c'.Shows (sign .eq :: blank :: (init.value.chunks full 0 ++ later)) := hname.2.blank
  refine .expect heq.peek fun _ => ?_
  refine (hdeep.whole hvalue hclosed heq.pass_sign.blank).bind fun value c'' hread => ?_
  refine .spanFrom fun _ => .pure ⟨?_, hread.2⟩
  simp only [FieldInit.rebuild, hname.1, Expr.keep]
  exact congrArg _ hread.1

theorem gives_fields (hdeep : deep.Rereads) {fields : List FieldInit}
    (hnames : ∀ init ∈ fields, init.field.Printable)
    (hvalues : ∀ init ∈ fields, init.value.Printable false)
    (hlater : (kinds later).head? = some .rBrace)
    (hshows : c.Shows (fieldsChunks full fields ++ later)) :
    Gives (Read.separated .rBrace [.comma, .semi] (Read.fieldInit deep)) c fun read c' =>
      FieldInit.listRebuild Expr.keep read = FieldInit.listRebuild (Expr.settle full) fields ∧
        c'.Shows later := by
  have hparts : c.Shows (separate .semi (fields.map fun init =>
      init.field.chunks ++ [blank, sign .eq, blank] ++ init.value.chunks full 0) ++ later) := by
    rw [← FieldInit.parts_eq]
    cases fields with
    | nil => exact hshows
    | cons init fields => exact hshows.blank
  refine (gives_separated (FieldInit.rebuild Expr.keep)
    (FieldInit.rebuild (Expr.settle full)) (by simp) (by simp) ?_ ?_ hlater
    hparts).mono fun read c' hread => ⟨?_, hread.2⟩
  · intro init hmem c more hmore hshows
    exact gives_fieldInit hdeep (hnames init hmem) (hvalues init hmem)
      (hmore.demand_eq (by decide)) hshows
  · intro init hmem
    exact ⟨.ident, _, rfl, by simp⟩
  · rw [FieldInit.listRebuild_eq, FieldInit.listRebuild_eq]
    exact hread.1

/-- Without a base, no name before a `with` comes first in the braces. -/
theorem no_base_of_fields {fields : List FieldInit} (hlater : (kinds later).head? = some .rBrace)
    (hshows : c.Shows (fieldsChunks full fields ++ later)) :
    ¬(c.referenceLength > 0 ∧ c.peekAt c.referenceLength = some .kwWith) := by
  cases fields with
  | nil =>
      have hpeek : c.peek = some .rBrace := hshows.peek.trans hlater
      rw [Cursor.referenceLength_of_ne (by rw [hpeek]; simp)]
      simp
  | cons init fields =>
      have hnames : c.Shows (init.field.chunks ++ ([blank, sign .eq, blank] ++
          (init.value.chunks full 0 ++ ((fields.map fun init =>
            init.field.chunks ++ [blank, sign .eq, blank] ++ init.value.chunks full 0).flatMap
              (fun other => sign .semi :: blank :: other) ++ later)))) := by
        have hparts := hshows.blank
        rw [FieldInit.parts_eq, List.map_cons, separate_cons] at hparts
        simpa only [List.append_eq, List.append_assoc] using hparts
      have hlength := hnames.identLength (by simp)
      rw [hlength.1]
      rintro ⟨-, hwith⟩
      rcases hlength.2 with hpragma | hnext
      · rw [hpragma] at hwith
        cases hwith
      · rw [hnext] at hwith
        cases hwith

theorem gives_record (hdeep : deep.Rereads) {start : Nat} {readType type : Reference}
    (htype : readType.strip = type.strip) {base : Option Reference} {fields : List FieldInit}
    (hnames : ∀ init ∈ fields, init.field.Printable)
    (hvalues : ∀ init ∈ fields, init.value.Printable false)
    (hshows : c.Shows (sign .lBrace ::
      (baseChunks base ++ (fieldsChunks full fields ++ (blank :: sign .rBrace :: later))))) :
    Gives (Read.record deep start readType) c
      (AnswersTree ((Expr.record span type base fields).settled full) later) := by
  refine .expect hshows.peek fun _ => .get ?_
  have hopened := hshows.pass_sign
  have hfields : ∀ {c' : Cursor} {readBase : Option Reference},
      readBase.map Reference.strip = base.map Reference.strip →
      c'.Shows (fieldsChunks full fields ++ (blank :: sign .rBrace :: later)) →
      Gives (do
        let fields ← Read.separated .rBrace [.comma, .semi] (Read.fieldInit deep)
        let _ ← Read.expect .rBrace
        return Expr.record (← Read.spanFrom start) readType readBase fields) c'
          (AnswersTree ((Expr.record span type base fields).settled full) later) := by
    intro c' readBase hbase hshows
    refine (gives_fields hdeep hnames hvalues rfl hshows).bind fun read c'' hread => ?_
    refine .expect hread.2.peek fun _ => .spanFrom fun _ => .pure ⟨?_, hread.2.blank.pass_sign⟩
    simp only [Expr.strip, Expr.settled, Expr.rebuild, htype, hbase, hread.1]
  -- what stands before `with` is passed as a name
  cases base with
  | none =>
      have hnone := no_base_of_fields rfl hopened
      simp only [if_neg hnone]
      exact hfields rfl hopened
  | some base =>
      have hbase : c.pass.Shows (base.chunks ++ (blank :: sign .kwWith ::
          (fieldsChunks full fields ++ (blank :: sign .rBrace :: later)))) := by
        simpa [baseChunks] using hopened.blank
      have hlength := hbase.referenceLength (by simp)
      have hpositive : 0 < base.length := by
        unfold Reference.length
        split <;> decide
      have hwith : c.pass.peekAt base.length = some .kwWith := hlength.2 0
      simp only [hlength.1, hpositive, hwith, and_self, if_true]
      refine .bind (gives_reference (by simp) hbase) fun readBase c' hread => ?_
      exact .advance (hfields (congrArg some hread.1) hread.2.blank.pass_sign)

theorem readsAtom_record (hdeep : deep.Rereads) {type : Reference} {base : Option Reference}
    {fields : List FieldInit} (hnames : ∀ init ∈ fields, init.field.Printable)
    (hvalues : ∀ init ∈ fields, init.value.Printable false) :
    ReadsAtom deep called ((Expr.record span type base fields).bare full)
      ((Expr.record span type base fields).settled full) := by
  rw [Expr.bare_record]
  refine .of_primary .ident rfl
    (fun later => by rw [List.append_assoc]; exact type.head_chunks _)
    fun {c later} hshows _ _ hpeek => ?_
  simp only [List.append_assoc, List.cons_append, List.nil_append] at hshows
  refine .here fun _ => .peekAs hpeek (.here fun _ => ?_)
  refine (gives_reference (by simp) hshows).bind fun readType c' htype => ?_
  have hopened := htype.2.blank
  exact .peekAs hopened.peek (gives_record hdeep htype.1 hnames hvalues hopened)

/-! ### Postfix forms -/

section

variable {α : Type} {one : Expr → α} {many : Expr → Expr → Option Expr → α}

/-- One index in brackets. -/
theorem gives_index (hdeep : deep.Rereads) {index : Expr} (hindex : index.Printable false)
    (hshows : c.Shows (index.chunks full 0 ++ (sign .rBracket :: later))) :
    Gives (Read.indexing deep one many) c fun build c' =>
      (∃ read, build = one read ∧ read.strip = index.settledAt full 0) ∧
        c'.Shows (sign .rBracket :: later) := by
  refine (hdeep.whole hindex rfl hshows).bind fun read c' hread => ?_
  exact .eat_no (by rw [hread.2.peek]; simp) (.pure ⟨⟨read, rfl, hread.1⟩, hread.2⟩)

/-- The places of a slice in brackets. -/
theorem gives_slice (hdeep : deep.Rereads) {first last : Expr} {step : Option Expr}
    (hfirst : first.Printable false) (hlast : last.Printable false)
    (hstep : ∀ width, step = some width → width.Printable false)
    (hshows : c.Shows (first.chunks full 0 ++ ([blank, sign .dotDot, blank] ++
      (last.chunks full 0 ++ (stepPart full step ++ (sign .rBracket :: later)))))) :
    Gives (Read.indexing deep one many) c fun build c' =>
      (∃ readFirst readLast readStep, build = many readFirst readLast readStep ∧
        readFirst.strip = first.settledAt full 0 ∧ readLast.strip = last.settledAt full 0 ∧
        stepRebuild Expr.keep readStep = stepRebuild (Expr.settle full) step) ∧
          c'.Shows (sign .rBracket :: later) := by
  refine (hdeep.whole hfirst rfl hshows).bind fun readFirst c₁ hread₁ => ?_
  have hdots : c₁.Shows (sign .dotDot :: blank ::
      (last.chunks full 0 ++ (stepPart full step ++ (sign .rBracket :: later)))) := hread₁.2.blank
  have hclosed : demand (stepPart full step ++ (sign .rBracket :: later)) = 0 := by
    cases step <;> rfl
  refine .eat_yes hdots.peek ?_
  refine (hdeep.whole hlast hclosed hdots.pass_sign.blank).bind fun readLast c₂ hread₂ => ?_
  -- the width is asked for only behind `step`
  have hwidth : Gives (Read.optionalAfter .kwStep deep.expr) c₂ fun read c'' =>
      stepRebuild Expr.keep read = stepRebuild (Expr.settle full) step ∧
        c''.Shows (sign .rBracket :: later) := by
    cases step with
    | none => exact .optionalAfter_none (by rw [hread₂.2.peek]; simp [stepPart]) ⟨rfl, hread₂.2⟩
    | some width =>
        have hkeyword : c₂.Shows (sign .kwStep :: blank ::
            (width.chunks full 0 ++ (sign .rBracket :: later))) := hread₂.2.blank
        refine .optionalAfter_some hkeyword.peek ?_
        refine (hdeep.whole (hstep width rfl) rfl hkeyword.pass_sign.blank).mono
          fun read c'' hread => ⟨?_, hread.2⟩
        exact congrArg some hread.1
  exact hwidth.bind fun readStep c₃ hread₃ =>
    .pure ⟨⟨readFirst, readLast, readStep, rfl, hread₁.1, hread₂.1, hread₃.1⟩, hread₃.2⟩

end

namespace ReadsAtom

theorem field (h : ReadsAtom deep false chunks tree) {name : Ident} (hname : name.Printable) :
    ReadsAtom deep called (chunks ++ sign .dot :: name.chunks)
      (.field .nowhere tree name.strip) := by
  refine ⟨fun {c later Q} hshows hdemand _ hnext => ?_⟩
  rw [List.append_assoc, List.cons_append] at hshows
  refine h.gives hshows (Nat.le_refl _) (by simp) fun value c' hvalue => .next ?_
  have hpragma : (kinds later).head? ≠ some .pragma := head_ne_of_demand (Nat.lt_succ_of_le hdemand)
  refine .peekAs hvalue.2.peek (.advance ?_)
  refine (gives_ident hname hpragma hvalue.2.pass_sign).bind fun read c'' hread => .pure ⟨?_, ?_⟩
  · have hwords : c'.Shows ((sign .dot :: name.chunks) ++ later) := hvalue.2
    exact hwords.length_lt (by simp) hread.2
  · refine hnext _ _ ⟨?_, hread.2⟩
    rw [Expr.strip, Expr.rebuild, hread.1]
    exact congrArg (Expr.field _ · _) hvalue.1

theorem index (hdeep : deep.Rereads) (h : ReadsAtom deep false chunks tree) {index : Expr}
    (hindex : index.Printable false) :
    ReadsAtom deep called (chunks ++ between .lBracket .rBracket (index.chunks full 0))
      (.index .nowhere tree (index.settledAt full 0)) := by
  refine ⟨fun {c later Q} hshows _ _ hnext => ?_⟩
  rw [List.append_assoc] at hshows
  refine h.gives hshows (Nat.le_refl _) (by simp [between]) fun value c' hvalue => .next ?_
  have hwords := hvalue.2
  rw [between_append] at hwords
  refine .peekAs hwords.peek (.advance ?_)
  refine (gives_index hdeep hindex hwords.pass_sign).bind fun build c'' hread => ?_
  obtain ⟨⟨read, rfl, hplace⟩, hclose⟩ := hread
  refine .expect hclose.peek fun _ => .pure ⟨?_, hnext _ _ ⟨?_, hclose.pass_sign⟩⟩
  · exact hvalue.2.length_lt (by simp [between]) hclose.pass_sign
  · have hfirst : value.rebuild Expr.keep = tree := hvalue.1
    have hsecond : read.rebuild Expr.keep = index.settledAt full 0 := hplace
    simp only [Expr.strip, Expr.rebuild, Expr.keep, hfirst, hsecond]

theorem slice (hdeep : deep.Rereads) (h : ReadsAtom deep false chunks tree) {first last : Expr}
    {step : Option Expr} (hfirst : first.Printable false) (hlast : last.Printable false)
    (hstep : ∀ width, step = some width → width.Printable false) :
    ReadsAtom deep called (chunks ++ between .lBracket .rBracket
        (first.chunks full 0 ++ [blank, sign .dotDot, blank] ++ last.chunks full 0 ++
          stepPart full step))
      (.slice .nowhere tree (first.settledAt full 0) (last.settledAt full 0)
        (stepRebuild (Expr.settle full) step)) := by
  refine ⟨fun {c later Q} hshows _ _ hnext => ?_⟩
  rw [List.append_assoc] at hshows
  refine h.gives hshows (Nat.le_refl _) (by simp [between]) fun value c' hvalue => .next ?_
  have hwords := hvalue.2
  simp only [between_append, List.append_assoc] at hwords
  refine .peekAs hwords.peek (.advance ?_)
  refine (gives_slice hdeep hfirst hlast hstep hwords.pass_sign).bind fun build c'' hread => ?_
  obtain ⟨⟨readFirst, readLast, readStep, rfl, hplace, hend, hwidth⟩, hclose⟩ := hread
  refine .expect hclose.peek fun _ => .pure ⟨?_, hnext _ _ ⟨?_, hclose.pass_sign⟩⟩
  · exact hvalue.2.length_lt (by simp [between]) hclose.pass_sign
  · have hvalue : value.rebuild Expr.keep = tree := hvalue.1
    have hfirst : readFirst.rebuild Expr.keep = first.settledAt full 0 := hplace
    have hlast : readLast.rebuild Expr.keep = last.settledAt full 0 := hend
    simp only [Expr.strip, Expr.rebuild, Expr.keep, hvalue, hfirst, hlast, hwidth]

theorem call (hdeep : deep.Rereads) (h : ReadsAtom deep true chunks tree) {args : List Expr}
    (hargs : ∀ arg ∈ args, arg.Printable false) :
    ReadsAtom deep called (chunks ++ between .lParen .rParen
      (separate .comma (Expr.parts full args)))
      (.call .nowhere tree (Expr.listRebuild (Expr.settle full) args)) := by
  refine ⟨fun {c later Q} hshows _ _ hnext => ?_⟩
  rw [List.append_assoc] at hshows
  refine h.gives hshows (Nat.le_refl _) (by simp [between]) fun value c' hvalue => .next ?_
  have hwords := hvalue.2
  rw [between_append] at hwords
  refine .peekAs hwords.peek (.advance ?_)
  refine (gives_parts hdeep (.inl rfl) hargs hwords.pass_sign).bind fun read c'' hread => ?_
  refine .expect hread.2.peek fun _ => .pure ⟨?_, hnext _ _ ⟨?_, hread.2.pass_sign⟩⟩
  · exact hvalue.2.length_lt (by simp [between]) hread.2.pass_sign
  · rw [Expr.strip, Expr.rebuild, hread.1]
    exact congrArg (Expr.call _ · _) hvalue.1

end ReadsAtom

end

end Lustre
