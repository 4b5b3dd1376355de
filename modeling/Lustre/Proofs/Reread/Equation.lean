import Lustre.Proofs.Reread.Signature

/-!
# Equations, read back

A left-hand side is read part by part, so what is read of it is again followed by what comes after
it (`ReadsLeft`).
-/

namespace Lustre

open Chunk

variable {deep : Nested} {c : Cursor}

/-! ## Left-hand sides -/

/-- Chunks of a left-hand side: they are read, and so is whatever part comes after them. -/
structure ReadsLeft (deep : Nested) (chunks : List Chunk) (tree : LeftExpr) : Prop where
  gives {c : Cursor} {later : List Chunk} {Q : LeftExpr → Cursor → Prop}
    (hshows : c.Shows (chunks ++ later)) (hpragma : (kinds later).head? ≠ some .pragma)
    (hnext : ∀ read c', rebuild Expr.keep read = tree ∧ c'.Shows later →
      LoopGives (Read.partStep deep) read c' Q) : Gives (Read.leftExpr deep) c Q

namespace ReadsLeft

variable {chunks : List Chunk} {tree : LeftExpr}

theorem name {ident : Ident} (h : ident.Printable) :
    ReadsLeft deep ident.chunks (.name ident.strip) :=
  ⟨fun hshows hpragma hnext => (gives_ident h hpragma hshows).bind fun _ c' hread =>
    (hnext _ c' ⟨congrArg LeftExpr.name hread.1, hread.2⟩).iterate⟩

theorem field (h : ReadsLeft deep chunks tree) {selected : Ident} (hselected : selected.Printable) :
    ReadsLeft deep (chunks ++ sign .dot :: selected.chunks)
      (.field .nowhere tree selected.strip) := by
  refine ⟨fun hshows hpragma hnext => ?_⟩
  rw [List.append_assoc, List.cons_append] at hshows
  refine h.gives hshows (by simp) fun value c' hvalue => .next ?_
  refine .eat_yes hvalue.2.peek ?_
  refine (gives_ident hselected hpragma hvalue.2.pass_sign).bind fun read c'' hread =>
    .pure ⟨?_, ?_⟩
  · have hwords : c'.Shows ((sign .dot :: selected.chunks) ++ _) := hvalue.2
    exact hwords.length_lt (by simp) hread.2
  · refine hnext _ _ ⟨?_, hread.2⟩
    show LeftExpr.field .nowhere (rebuild Expr.keep value) read.strip = _
    rw [hvalue.1, hread.1]

theorem index (hdeep : deep.Rereads) (h : ReadsLeft deep chunks tree) {place : Expr}
    (hplace : place.Printable false) :
    ReadsLeft deep (chunks ++ between .lBracket .rBracket (place.chunks false 0))
      (.index .nowhere tree (rebuild (Expr.settle false) place)) := by
  refine ⟨fun hshows _ hnext => ?_⟩
  rw [List.append_assoc] at hshows
  refine h.gives hshows (by simp [between]) fun value c' hvalue => .next ?_
  have hwords := hvalue.2
  rw [between_append] at hwords
  refine .eat_no (by simp [hwords.peek]) (.eat_yes hwords.peek ?_)
  refine (gives_index hdeep hplace hwords.pass_sign).bind fun build c'' hread => ?_
  obtain ⟨⟨read, rfl, hread⟩, hclose⟩ := hread
  refine .expect hclose.peek fun _ => .pure ⟨?_, hnext _ _ ⟨?_, hclose.pass_sign⟩⟩
  · exact hvalue.2.length_lt (by simp [between]) hclose.pass_sign
  · have hplace : rebuild Expr.keep read = rebuild (Expr.settle false) place := hread
    show LeftExpr.index .nowhere (rebuild Expr.keep value) (rebuild Expr.keep read) = _
    rw [hvalue.1, hplace]

theorem slice (hdeep : deep.Rereads) (h : ReadsLeft deep chunks tree) {first last : Expr}
    {step : Option Expr} (hfirst : first.Printable false) (hlast : last.Printable false)
    (hstep : ∀ width, step = some width → width.Printable false) :
    ReadsLeft deep (chunks ++ between .lBracket .rBracket
        (first.chunks false 0 ++ [blank, sign .dotDot, blank] ++ last.chunks false 0 ++
          stepPart false step))
      (.slice .nowhere tree (rebuild (Expr.settle false) first) (rebuild (Expr.settle false) last)
        (rebuild (Expr.settle false) step)) := by
  refine ⟨fun hshows _ hnext => ?_⟩
  rw [List.append_assoc] at hshows
  refine h.gives hshows (by simp [between]) fun value c' hvalue => .next ?_
  have hwords := hvalue.2
  rw [between_append] at hwords
  refine .eat_no (by simp [hwords.peek]) (.eat_yes hwords.peek ?_)
  have hinside := hwords.pass_sign
  rw [List.append_assoc, List.append_assoc, List.append_assoc] at hinside
  refine (gives_slice hdeep hfirst hlast hstep hinside).bind fun build c'' hread => ?_
  obtain ⟨⟨readFirst, readLast, readStep, rfl, hreadFirst, hreadLast, hreadStep⟩, hclose⟩ := hread
  refine .expect hclose.peek fun _ => .pure ⟨?_, hnext _ _ ⟨?_, hclose.pass_sign⟩⟩
  · exact hvalue.2.length_lt (by simp [between]) hclose.pass_sign
  · have hplaces : rebuild Expr.keep readFirst = rebuild (Expr.settle false) first ∧
        rebuild Expr.keep readLast = rebuild (Expr.settle false) last := ⟨hreadFirst, hreadLast⟩
    have hwidth : rebuild Expr.keep readStep = rebuild (Expr.settle false) step := by
      cases readStep <;> cases step <;> exact hreadStep
    show LeftExpr.slice .nowhere (rebuild Expr.keep value) (rebuild Expr.keep readFirst)
      (rebuild Expr.keep readLast) (rebuild Expr.keep readStep) = _
    rw [hvalue.1, hplaces.1, hplaces.2, hwidth]

end ReadsLeft

theorem LeftExpr.Writable.reads (hdeep : deep.Rereads) {left : LeftExpr}
    (h : left.Writable printable) :
    ReadsLeft deep left.chunks (Lustre.rebuild (Expr.settle false) left) := by
  induction left with
  | name => exact .name h
  | field _ _ _ ih => exact (ih h.1).field h.2
  | index _ _ _ ih => exact (ih h.1).index hdeep h.2
  | slice _ _ _ _ _ ih => exact (ih h.1).slice hdeep h.2.1 h.2.2.1 h.2.2.2

theorem LeftExpr.begins (left : LeftExpr) : Before [.ident] left.chunks := by
  induction left with
  | name => exact ⟨.ident, by simp, rfl⟩
  | field _ _ _ ih => exact ih.append _
  | index _ _ _ ih => exact ih.append _
  | slice _ _ _ _ _ ih => exact ih.append _

variable {later : List Chunk}

theorem gives_leftExpr (hdeep : deep.Rereads) {left : LeftExpr} (h : left.Writable printable)
    (hlater : Before [.comma, .rParen, .eq] later) (hshows : c.Shows (left.chunks ++ later)) :
    Gives (Read.leftExpr deep) c (Regains left later) := by
  refine (h.reads hdeep).gives hshows (hlater.head_ne (by decide)) fun read c' hread => .next ?_
  have hdot : c'.peek ≠ some .dot := hread.2.peek ▸ hlater.head_ne (by decide)
  have hbracket : c'.peek ≠ some .lBracket := hread.2.peek ▸ hlater.head_ne (by decide)
  exact .eat_no hdot (.eat_no hbracket (.pure hread))

/-- The left-hand sides of an equation, in front of its `=`. -/
theorem gives_leftList (hdeep : deep.Rereads) {lhs : LeftList} (h : lhs.Writable printable)
    (hlater : Before [.eq] later) (hshows : c.Shows (lhs.chunks ++ later)) :
    Gives (Read.leftList deep) c (Regains lhs later) := by
  obtain ⟨items, parenthesized⟩ := lhs
  have hitems : ∀ {ends : List Kind} {later : List Chunk} {c : Cursor}, items ≠ [] → .comma ∉ ends →
      ends ⊆ [.rParen, .eq] → Before ends later →
      c.Shows (separate .comma (items.map LeftExpr.chunks) ++ later) →
      Gives (Read.commaList (Read.leftExpr deep)) c (Regains items later) := by
    intro ends later c hnil hcomma hends hlater hshows
    refine gives_commaList hnil hcomma (fun left hmem c more hmore hshows => ?_) hlater hshows
    exact gives_leftExpr hdeep (h.2 left hmem) (hmore.mono (List.cons_subset_cons _ hends)) hshows
  cases parenthesized with
  | true =>
      have hwords : c.Shows (sign .lParen :: (separate .comma (items.map LeftExpr.chunks) ++
          (sign .rParen :: later))) := by
        simpa [LeftList.chunks, between] using hshows
      have hclose : Before [.rParen] (sign .rParen :: later) := ⟨.rParen, by simp, rfl⟩
      have hend : ∀ (read : List LeftExpr) (c' : Cursor),
        Regains items (sign .rParen :: later) read c' →
          Gives (do
            let _ ← Read.expect .rParen
            return LeftList.mk read true) c' (Regains ⟨items, true⟩ later) :=
        fun read c' hread => .expect hread.2.peek fun _ =>
          .pure ⟨congrArg (LeftList.mk · true) hread.1, hread.2.pass_sign⟩
      refine .eat_yes hwords.peek ?_
      -- between parentheses there may be nothing at all
      cases items with
      | nil => exact .isAt_yes hwords.pass_sign.peek (hend [] _ ⟨rfl, hwords.pass_sign⟩)
      | cons left items =>
          have hother : c.pass.peek ≠ some .rParen := by
            have hinside := hwords.pass_sign
            rw [List.map_cons, separate_cons, List.append_assoc] at hinside
            exact hinside.peek ▸ (left.begins.append _).head_ne (by decide)
          refine .isAt_no hother (.bind ?_ hend)
          exact hitems (by simp) (by decide) (by decide) hclose hwords.pass_sign
  | false =>
      have hnil : items ≠ [] := h.1.resolve_left Bool.false_ne_true
      have hwords : c.Shows (separate .comma (items.map LeftExpr.chunks) ++ later) := hshows
      -- without parentheses, a name comes first
      have hother : c.peek ≠ some .lParen := by
        obtain ⟨left, items, rfl⟩ := List.exists_cons_of_ne_nil hnil
        rw [List.map_cons, separate_cons, List.append_assoc] at hwords
        exact hwords.peek ▸ (left.begins.append _).head_ne (by decide)
      refine .eat_no hother ?_
      exact (hitems hnil (by decide) (by decide) hlater hwords).bind fun read c' hread =>
        .pure ⟨congrArg (LeftList.mk · false) hread.1, hread.2⟩

theorem LeftList.Writable.begins {lhs : LeftList} (h : lhs.Writable printable) :
    Before [.lParen, .ident] lhs.chunks := by
  obtain ⟨items, parenthesized⟩ := lhs
  cases parenthesized with
  | true => exact ⟨.lParen, by simp, rfl⟩
  | false =>
      obtain ⟨left, items, rfl⟩ :=
        List.exists_cons_of_ne_nil (h.1.resolve_left Bool.false_ne_true)
      show Before _ (separate .comma ((left :: items).map LeftExpr.chunks))
      rw [List.map_cons, separate_cons]
      exact (left.begins.append _).mono (by simp)

/-! ## Equations -/

theorem Equation.Writable.begins {equation : Equation} (h : equation.Writable printable) :
    Before [.kwAssert, .lParen, .ident] equation.chunks := by
  cases equation with
  | assertion condition => exact ⟨.kwAssert, by simp, rfl⟩
  | define lhs rhs =>
      obtain ⟨kind, hmem, hhead⟩ :=
        ((h.1.begins.append _).append _).mono (List.subset_cons_self _ _)
      exact ⟨kind, hmem, hhead⟩
  | error => exact h.elim

/-- A statement on a line of its own. -/
theorem gives_equation (hdeep : deep.Rereads) {equation : Located Equation}
    (h : equation.value.Writable printable) (hshows : c.Shows (equation.value.chunks ++ later)) :
    Gives (Read.equation deep) c (Regains equation later) := by
  have hread : Gives (Read.located (Read.statement deep)) c
      (Regains equation (sign .semi :: newline :: later)) := by
    obtain ⟨equation, span⟩ := equation
    apply Gives.regainLocated
    cases equation with
    | assertion condition =>
        have hwords : c.Shows (sign .kwAssert :: blank ::
            (condition.chunks false 0 ++ (sign .semi :: newline :: later))) := hshows.entry
        refine .eat_yes hwords.peek ?_
        refine (gives_value hdeep h rfl hwords.pass_sign.blank).bind fun read c' hread =>
          .pure ⟨congrArg Equation.assertion hread.1, hread.2⟩
    | define lhs rhs =>
        have hwords := hshows.entry
        rw [List.append_assoc] at hwords
        have hother : c.peek ≠ some .kwAssert :=
          hwords.peek ▸ (h.1.begins.append _).head_ne (by decide)
        refine .eat_no hother ?_
        refine (gives_leftList hdeep h.1 ⟨.eq, by simp, rfl⟩ hwords).bind fun readLhs c₁ hlhs => ?_
        have heq : c₁.Shows (sign .eq :: blank :: (rhs.chunks false 0 ++
          (sign .semi :: newline :: later))) := hlhs.2.blank
        refine .expect heq.peek fun _ => ?_
        refine (gives_value hdeep h.2 rfl heq.pass_sign.blank).bind fun readRhs c₂ hrhs =>
          .pure ⟨?_, hrhs.2⟩
        show Equation.define (rebuild Expr.keep readLhs) (rebuild Expr.keep readRhs) =
          Equation.define _ _
        rw [hlhs.1, hrhs.1]
    | error => exact h.elim
  exact hread.bind fun read c' hread => .expect hread.2.peek fun _ =>
    .pure ⟨hread.1, hread.2.pass_sign.gap⟩

end Lustre
