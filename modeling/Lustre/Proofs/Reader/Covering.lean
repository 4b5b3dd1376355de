import Lustre.Proofs.Reader.Progress
import Lustre.Proofs.Tree.Extent

/-!
# What is read covers what was passed

The spans of what a reader answers lie between the next token before it and the last one
passed behind it (`Cursor.Covers`), laid on the tokens between.  A reader that passes a
token (`Cursor.Moves`) may put a span around what it has read.  Such a span ends at the
last token passed, at a closing token, or with the last part inside it, and it begins at
the next token or with the first part.

The lemmas follow the readers in the order of the grammar.
-/

namespace Lustre

variable {α β : Type}

/-! ## Spans around spans -/

namespace Laid

variable {tokens : List Token} {low high : Nat} {first : Span} {parts later : List Extent}

/-- A span over some others, from the beginning of the first of them on. -/
theorem enclose {stop high' : Nat} {file : UInt32}
    (h : Laid tokens low (.part first parts :: later) high)
    (hstop : ∃ token ∈ tokens, token.span.stop = stop) (hbehind : stop ≤ high')
    (hall : ∀ extent ∈ .part first parts :: later, extent.isAside = false →
      extent.span.stop ≤ stop) :
    Laid tokens low [.part ⟨first.start, stop, file⟩ (.part first parts :: later)] high' := by
  have hfirst : first.stop ≤ stop := hall _ List.mem_cons_self rfl
  obtain ⟨hon, hlow, hhigh, hparts, hlater⟩ : first.OnTokens tokens ∧ low ≤ first.start ∧
      first.stop ≤ high ∧ Laid tokens first.start parts first.stop ∧
      Laid tokens first.stop later high := by
    cases h with
    | part hon hlow hhigh hparts hlater => exact ⟨hon, hlow, hhigh, hparts, hlater⟩
  refine .part ⟨Nat.le_trans hon.wide hfirst, hon.start, hstop⟩ hlow hbehind ?_ .nil
  refine .part hon (Nat.le_refl _) hfirst hparts (hlater.upTo fun extent hmem => ?_)
  exact hall extent (List.mem_cons_of_mem _ hmem)

/-- A span that holds nothing. -/
theorem bare (h : Laid tokens low [.part first parts] high) :
    Laid tokens low [.part first []] high := by
  cases h with
  | part hon hlow hhigh => exact .part hon hlow hhigh .nil .nil

end Laid

/-! ## Between two cursors -/

namespace Cursor

/-- The cursor passes tokens on the way to `c'`, and the spans lie on these tokens. -/
structure Covers (c : Cursor) (extents : List Extent) (c' : Cursor) : Prop where
  onward : c.Onward c'
  laid : c.InOrder → Laid c.rest c.span.start extents c'.last

/-- The same, where some token is passed. -/
structure Moves (c : Cursor) (extents : List Extent) (c' : Cursor) : Prop where
  covers : c.Covers extents c'
  shorter : c'.rest.length < c.rest.length

variable {c c₁ c' : Cursor} {first later : List Extent}

theorem Onward.eq_or_pass (h : c.Onward c') : c' = c ∨ c.pass.Onward c' := by
  induction h with
  | here => exact .inl rfl
  | pass _ ih =>
      rcases ih with rfl | ih
      · exact .inr .here
      · exact .inr ih.pass

namespace Covers

theorem of_onward (h : c.Onward c') : c.Covers [] c' := ⟨h, fun _ => .nil⟩

theorem refl (c : Cursor) : c.Covers [] c := .of_onward .here

theorem trans (h₁ : c.Covers first c₁) (h₂ : c₁.Covers later c') :
    c.Covers (first ++ later) c' where
  onward := h₁.onward.trans h₂.onward
  laid hc := by
    have hc₁ := hc.onward h₁.onward
    have hlater := (h₂.laid hc₁).among h₁.onward.suffix.subset
    exact (h₁.laid hc).append hlater hc₁.bounds.1 (h₁.onward.start_mono hc)
      (h₂.onward.last_mono hc₁)

/-- What comes behind is not looked into. -/
theorem skip (h : c.Covers first c₁) (honward : c₁.Onward c') : c.Covers first c' := by
  have hskip := h.trans (.of_onward honward)
  rwa [List.append_nil] at hskip

/-- Some spans without those behind them. -/
theorem left (h : c.Covers (first ++ later) c') : c.Covers first c' :=
  ⟨h.onward, fun hc => (h.laid hc).left⟩

theorem moves (h₁ : c.Covers first c₁) (h₂ : c₁.Moves later c') : c.Moves (first ++ later) c' :=
  ⟨h₁.trans h₂.covers, Nat.lt_of_lt_of_le h₂.shorter h₁.onward.suffix.length_le⟩

end Covers

namespace Moves

theorem trans (h₁ : c.Moves first c₁) (h₂ : c₁.Covers later c') : c.Moves (first ++ later) c' :=
  ⟨h₁.covers.trans h₂, Nat.lt_of_le_of_lt h₂.onward.suffix.length_le h₁.shorter⟩

theorem skip (h : c.Moves first c₁) (honward : c₁.Onward c') : c.Moves first c' :=
  ⟨h.covers.skip honward, Nat.lt_of_le_of_lt honward.suffix.length_le h.shorter⟩

/-- The next token is not looked into. -/
theorem pass (h : c.Moves first c₁) : c.Moves first c₁.pass := h.skip (.pass .here)

/-- A single item. -/
theorem single [HasExtents α] {item : α} (h : c.Moves (extents item) c') :
    c.Moves (extents [item]) c' := by
  simpa using h

/-- One more item behind some others. -/
theorem snoc [HasExtents α] {items : List α} {item : α} (h₁ : c.Covers (extents items) c₁)
    (h₂ : c₁.Moves (extents item) c') : c.Moves (extents (items ++ [item])) c' := by
  simpa using h₁.moves h₂

/-- Passing a token. -/
theorem token {kind : Kind} (hpeek : c.peek = some kind) : c.Moves [] c.pass :=
  ⟨.of_onward (.pass .here), length_pass hpeek⟩

/-- What comes before is a token. -/
theorem behind {kind : Kind} (hpeek : c.peek = some kind) (h : c.pass.Covers later c') :
    c.Moves later c' :=
  (Moves.token hpeek).trans h

/-- The tokens passed begin with the next one and end with the last one. -/
theorem bounds (h : c.Moves first c') (hc : c.InOrder) : c.span.start ≤ c'.last ∧
    (∃ token ∈ c.rest, token.span.start = c.span.start) ∧
    ∃ token ∈ c.rest, token.span.stop = c'.last := by
  -- since a token was passed, the last one passed is one of those to come
  have hne : c' ≠ c := by
    rintro rfl
    exact absurd h.shorter (Nat.lt_irrefl _)
  have hpass := h.covers.onward.eq_or_pass.resolve_left hne
  obtain ⟨rest, last, size⟩ := c
  cases rest with
  | nil => exact absurd h.shorter (Nat.not_lt_zero _)
  | cons token rest =>
      have hlast := hpass.last_mono hc.pass
      have hbounds := hc.bounds
      refine ⟨Nat.le_trans hbounds.2.1 hlast, ⟨token, List.mem_cons_self, rfl⟩, ?_⟩
      rcases hpass.last_eq with rfl | ⟨other, hother, heq⟩
      · exact ⟨token, List.mem_cons_self, rfl⟩
      · exact ⟨other, List.mem_cons_of_mem _ hother, heq.symm⟩

/-- The span of all that was read. -/
theorem spanFrom (h : c.Moves first c') (hc : c.InOrder) :
    c'.spanFrom c.span.start = ⟨c.span.start, c'.last, 0⟩ := by
  rw [Cursor.spanFrom, Nat.max_eq_left (h.bounds hc).1]

/-- Which spans there are does not matter. -/
theorem blank (h : c.Moves first c') : c.Moves [] c' := ⟨.of_onward h.covers.onward, h.shorter⟩

/-- A span around all that was read. -/
theorem part (h : c.Moves first c') : c.Moves [.part (c'.spanFrom c.span.start) first] c' := by
  refine ⟨⟨h.covers.onward, fun hc => ?_⟩, h.shorter⟩
  obtain ⟨hle, hstart, hstop⟩ := h.bounds hc
  rw [h.spanFrom hc]
  exact .part ⟨hle, hstart, hstop⟩ (Nat.le_refl _) (Nat.le_refl _) (h.covers.laid hc) .nil

/-- The span of a token. -/
theorem word {token : Token} {rest : List Token} (hrest : c.rest = token :: rest) :
    c.Moves [.part token.span []] c.pass := by
  have hpeek : c.peek = some token.kind := by simp [Cursor.peek, hrest]
  refine ⟨⟨.pass .here, fun hc => ?_⟩, length_pass hpeek⟩
  have hbounds := hc.bounds
  rw [Cursor.span, hrest] at hbounds
  rw [Cursor.span, Cursor.pass, hrest]
  have hmem : token ∈ token :: rest := List.mem_cons_self
  exact .part ⟨hbounds.2.1, ⟨token, hmem, rfl⟩, token, hmem, rfl⟩ (Nat.le_refl _)
    (Nat.le_refl _) .nil .nil

/-- The span of a pragma. -/
theorem aside {token : Token} {rest : List Token} (hrest : c.rest = token :: rest) :
    c.Moves [.aside token.span] c.pass := by
  have hword := Moves.word hrest
  refine ⟨⟨.pass .here, fun hc => ?_⟩, hword.shorter⟩
  cases hword.covers.laid hc with
  | part hon => exact .aside hon .nil

/-- A span from the first of some parts to a token behind them. -/
theorem closed {span : Span} {parts : List Extent} {kind : Kind}
    (h : c.Moves (.part span parts :: later) c₁) (hpeek : c₁.peek = some kind) :
    c.Moves [.part (span.cover c₁.span) (.part span parts :: later)] c₁.pass := by
  refine ⟨⟨h.covers.onward.pass, fun hc => ?_⟩, h.pass.shorter⟩
  have hlaid := h.covers.laid hc
  have hbounds := (hc.onward h.covers.onward).bounds
  -- the closing token begins where all parts have ended, so the cover of both goes up to its end
  have hall : ∀ extent ∈ .part span parts :: later, extent.isAside = false →
      extent.span.stop ≤ c₁.last := fun extent hmem hpart => ((hlaid.of_mem hmem).2.2 hpart).2
  have hspan : span.stop ≤ c₁.last := hall _ List.mem_cons_self rfl
  have hwide := (hlaid.of_mem List.mem_cons_self).1.wide
  change span.start ≤ span.stop at hwide
  have hcover : span.cover c₁.span = ⟨span.start, c₁.span.stop, span.file⟩ := by
    rw [Span.cover, Nat.min_eq_left (by omega), Nat.max_eq_right (by omega)]
  have hlast : c₁.pass.last = c₁.span.stop ∧ ∃ token ∈ c.rest, token.span.stop = c₁.span.stop := by
    have hsuffix := h.covers.onward.suffix
    obtain ⟨rest, last, size⟩ := c₁
    cases rest with
    | nil => cases hpeek
    | cons token rest => exact ⟨rfl, token, hsuffix.mem List.mem_cons_self, rfl⟩
  rw [hcover]
  refine hlaid.enclose hlast.2 (Nat.le_of_eq hlast.1.symm) fun extent hmem hpart => ?_
  have := hall extent hmem hpart
  omega

/-- A span from one part to another; pragmas may follow. -/
theorem joined {span last : Span} {parts inner asides : List Extent}
    (h : c.Moves (.part span parts :: .part last inner :: asides) c')
    (hasides : ∀ extent ∈ asides, extent.isAside = true) :
    c.Moves [.part (span.cover last) (.part span parts :: .part last inner :: asides)] c' := by
  refine ⟨⟨h.covers.onward, fun hc => ?_⟩, h.shorter⟩
  have hlaid := h.covers.laid hc
  obtain ⟨hwide, hlastOn, hle, hstop⟩ : span.start ≤ span.stop ∧ last.OnTokens c.rest ∧
      span.stop ≤ last.start ∧ last.stop ≤ c'.last := by
    cases hlaid with
    | part hon _ _ _ hlater =>
        cases hlater with
        | part hlastOn hle hstop => exact ⟨hon.wide, hlastOn, hle, hstop⟩
  have hlastWide := hlastOn.wide
  have hcover : span.cover last = ⟨span.start, last.stop, span.file⟩ := by
    rw [Span.cover, Nat.min_eq_left (by omega), Nat.max_eq_right (by omega)]
  rw [hcover]
  refine hlaid.enclose hlastOn.stop hstop fun extent hmem hpart => ?_
  rcases List.mem_cons.mp hmem with rfl | hmem
  · change span.stop ≤ last.stop
    omega
  · rcases List.mem_cons.mp hmem with rfl | hmem
    · exact Nat.le_refl _
    · rw [hasides extent hmem] at hpart
      cases hpart

/-- A span from a token to the end of the part behind it. -/
theorem prefixed {span : Span} {parts : List Extent} {kind : Kind} (hpeek : c.peek = some kind)
    (h : c.pass.Covers [.part span parts] c') :
    c.Moves [.part ⟨c.span.start, span.stop, 0⟩ [.part span parts]] c' := by
  refine ⟨⟨(Onward.pass .here).trans h.onward, fun hc => ?_⟩, (Moves.behind hpeek h).shorter⟩
  have hlaid := (h.laid hc.pass).among (Onward.pass .here : c.Onward c.pass).suffix.subset
  have hstart := hc.start_pass
  have hbegins := ((Moves.token hpeek).bounds hc).2.1
  cases hlaid with
  | part hon hlow hhigh hparts _ =>
      have hwide := hon.wide
      refine .part ⟨?_, hbegins, hon.stop⟩ (Nat.le_refl _) hhigh
        (.part hon (Nat.le_trans hstart hlow) (Nat.le_refl _) hparts .nil) .nil
      exact Nat.le_trans hstart (Nat.le_trans hlow hwide)

/-- A span over a name, which pragmas may follow. -/
theorem named {span : Span} {parts asides : List Extent}
    (h : c.Moves (.part span parts :: asides) c')
    (hasides : ∀ extent ∈ asides, extent.isAside = true) :
    c.Moves [.part span (.part span parts :: asides)] c' := by
  refine ⟨⟨h.covers.onward, fun hc => ?_⟩, h.shorter⟩
  have hlaid := h.covers.laid hc
  obtain ⟨hon, -, hwithin⟩ := hlaid.of_mem List.mem_cons_self
  refine hlaid.enclose hon.stop (hwithin rfl).2 fun extent hmem hpart => ?_
  rcases List.mem_cons.mp hmem with rfl | hmem
  · exact Nat.le_refl _
  · rw [hasides extent hmem] at hpart
    cases hpart

/-- What is inside a span. -/
theorem inside {span : Span} {parts : List Extent} (h : c.Moves [.part span parts] c') :
    c.Moves parts c' := by
  refine ⟨⟨h.covers.onward, fun hc => ?_⟩, h.shorter⟩
  cases h.covers.laid hc with
  | part _ hlow hhigh hparts => exact hparts.mono hlow hhigh

/-- A span that holds nothing. -/
theorem bare {span : Span} {parts : List Extent} (h : c.Moves [.part span parts] c') :
    c.Moves [.part span []] c' :=
  ⟨⟨h.covers.onward, fun hc => (h.covers.laid hc).bare⟩, h.shorter⟩

end Moves

end Cursor

/-! ## Readers that answer spans -/

namespace Meets

variable {c : Cursor} {R : β → Cursor → Prop}

theorem here_eq {next : Nat → Read β} (h : Meets (next c.span.start) c R) :
    Meets (Read.here >>= next) c R :=
  h

theorem spanFrom_eq {start : Nat} {next : Span → Read β} (h : Meets (next (c.spanFrom start)) c R) :
    Meets (Read.spanFrom start >>= next) c R :=
  h

theorem expect_eq {kind : Kind} {next : Span → Read β}
    (h : c.peek = some kind → Meets (next c.span) c.pass R) :
    Meets (Read.expect kind >>= next) c R := by
  refine .bind (P := fun span c' => c.peek = some kind ∧ span = c.span ∧ c' = c.pass) ?_ ?_
  · exact .ifAt (fun hpeek => .get (.advance (.pure ⟨hpeek, rfl, rfl⟩))) fun _ => .unexpected
  · rintro span c' ⟨hpeek, rfl, rfl⟩
    exact h hpeek

theorem located_eq {read : Read α} {R : Located α → Cursor → Prop}
    (h : Meets read c fun a c' => R ⟨a, c'.spanFrom c.span.start⟩ c') :
    Meets (Read.located read) c R :=
  .here_eq (.bind h fun _ _ ha => .spanFrom_eq (.pure ha))

end Meets

namespace Read

open Cursor

variable [HasExtents α] {item : Read α}

theorem moves_located (c : Cursor) (h : Meets item c fun a c' => c.Moves (extents a) c') :
    Meets (located item) c fun a c' => c.Moves (extents a) c' :=
  .located_eq (h.mono fun _ _ hmoves => hmoves.part)

/-! ## Lists -/

/-- One or more items with commas between. -/
theorem moves_commaList (hitem : ∀ c, Meets item c fun a c' => c.Moves (extents a) c')
    (c : Cursor) :
    Meets (commaList item) c fun items c' => c.Moves (extents items) c' := by
  refine .bind (hitem c) fun first c₁ hfirst => ?_
  refine .iterate (I := fun items c' => c.Moves (extents items) c') hfirst.single
    (fun items c' hitems => ?_) fun _ _ h => h
  refine .ifEat (fun hcomma => ?_) fun _ => .pure hitems
  exact .bind (hitem _) fun item c₂ hlast => .pure (.snoc hitems.pass.covers hlast)

theorem covers_eat (kind : Kind) (c : Cursor) : Meets (eat kind) c fun _ c' => c.Covers [] c' :=
  .ifAt (fun h => .advance (.pure (Moves.token h).covers)) fun _ => .pure (.refl c)

/-- Separators hold no spans. -/
theorem covers_eatAny (kinds : List Kind) (c : Cursor) :
    Meets (eatAny kinds) c fun _ c' => c.Covers [] c' := by
  induction kinds with
  | nil => exact .pure (.refl c)
  | cons kind kinds ih => exact .ifEat (fun h => .pure (Moves.token h).covers) fun _ => ih

/-- Any number of items with separators between. -/
theorem covers_separated {close : Kind} {separators : List Kind}
    (hitem : ∀ c, Meets item c fun a c' => c.Moves (extents a) c') (c : Cursor) :
    Meets (separated close separators item) c fun items c' => c.Covers (extents items) c' := by
  refine .iterate (I := fun items c' => c.Covers (extents items) c') (.refl c)
    (fun items c' hitems => ?_) fun _ _ h => h
  refine .ifAt (fun _ => .pure hitems) fun _ => .bind (hitem c') fun item c₁ hlast => ?_
  refine .bind (covers_eatAny separators c₁) fun found c₂ hseparator => ?_
  have hall := (Moves.snoc hitems hlast).skip hseparator.onward
  cases found with
  | true => exact .pure hall.covers
  | false => exact .pure hall.covers

/-- One or more items, each with a semicolon. -/
theorem moves_terminated {starts : List Kind}
    (hitem : ∀ c, Meets item c fun a c' => c.Moves (extents a) c') (c : Cursor) :
    Meets (terminated starts item) c fun items c' => c.Moves (extents items) c' := by
  have hstep : ∀ items c', c.Covers (extents items) c' → Meets (do
      let items := items ++ [← item]
      let _ ← expect .semi
      let next ← peek
      if next.any starts.contains then return .yield items else return .done items) c'
      (StepKeeps (fun items c' => c.Moves (extents items) c') fun items c' =>
        c.Moves (extents items) c') := by
    intro items c' hitems
    refine .bind (hitem c') fun item c₁ hlast => .expect fun _ _ => .peek ?_
    have hall := (Moves.snoc hitems hlast).pass
    split
    · exact .pure hall
    · exact .pure hall
  exact .iterate_of_first (hstep [] c (.refl c)) (fun items c' h => hstep items c' h.covers)
    fun _ _ h => h

theorem covers_optionalAt {kind : Kind} (c : Cursor)
    (h : Meets item c fun a c' => c.Moves (extents a) c') :
    Meets (optionalAt kind item) c fun found c' => c.Covers (extents found) c' :=
  .optionalAt (fun _ => h.mono fun _ _ hmoves => hmoves.covers) fun _ => .refl c

theorem covers_optionalAfter {kind : Kind} (c : Cursor)
    (h : ∀ c, Meets item c fun a c' => c.Moves (extents a) c') :
    Meets (optionalAfter kind item) c fun found c' => c.Covers (extents found) c' :=
  .optionalAfter (fun hkind => (h _).mono fun _ _ hmoves =>
    (Moves.behind hkind hmoves.covers).covers)
    fun _ => .refl c

/-! ## Names and clocks -/

theorem covers_pragmas (c : Cursor) :
    Meets pragmas c fun read c' => c.Covers (extents read) c' := by
  refine .iterate (I := fun read c' => c.Covers (extents read) c') (.refl c) ?_ fun _ _ h => h
  intro read c' hread
  exact .take? (fun token rest hrest hkind => .pure (Moves.snoc hread (.aside hrest)).covers)
    fun _ => .pure hread

theorem moves_ident (c : Cursor) : Meets ident c fun ident c' => c.Moves (extents ident) c' := by
  refine .take? (fun token rest hrest _ => ?_) fun _ => .missing
  exact .bind (covers_pragmas c.pass) fun read c' hread => .pure ((Moves.word hrest).trans hread)

theorem moves_identList (c : Cursor) :
    Meets identList c fun names c' => c.Moves (extents names) c' :=
  moves_commaList moves_ident c

theorem moves_reference (c : Cursor) :
    Meets reference c fun ref c' => c.Moves (extents ref) c' := by
  refine .take? (fun first rest hrest _ => ?_) fun _ => .missing
  have hfirst := Moves.word hrest
  refine .take? (fun separator rest₁ hrest₁ _ => ?_) fun _ => .pure hfirst
  refine .take? (fun member rest₂ hrest₂ _ => ?_) fun _ => .missing
  dsimp only
  split
  · have hboth := hfirst.pass.trans (Moves.word hrest₂).covers
    exact .pure (hboth.joined (List.forall_mem_nil _)).bare
  · exact .throw

theorem moves_clock (c : Cursor) : Meets clock c fun clock c' => c.Moves (extents clock) c' := by
  refine moves_located c (.ifEat (fun hnot => ?_) fun _ => .get ?_)
  · refine .ifEat (fun hopen => ?_) fun _ => ?_
    · refine .bind (moves_ident _) fun name c' hname => .expect fun _ _ => .pure ?_
      exact .behind hnot (Moves.behind hopen hname.pass.covers).covers
    · exact .bind (moves_ident _) fun name c' hname => .pure (.behind hnot hname.covers)
  · dsimp only
    split
    · refine .bind (moves_reference c) fun case c' hcase => .advance ?_
      refine .bind (moves_ident _) fun name c₁ hname => .expect fun _ _ => .pure ?_
      exact (hcase.pass.trans hname.covers).pass
    · exact .bind (moves_ident c) fun name c' hname => .pure hname

end Read

end Lustre
