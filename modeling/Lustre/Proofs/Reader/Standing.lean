import Lustre.Proofs.Reader.Surviving
import Lustre.Proofs.Tree.Subexpr

/-!
# Every expression stands alone

What is read as a part of an expression, with a least level for its operators and with
more tokens behind it, is also read as a whole from its own tokens (`Cursor.Alone`).

A loop that climbs operators or postfix forms makes an expression in every round, which
becomes a part of the next one.  So what is kept is that the loop, started where the tokens
after this round are cut off, comes to the same expression (`Rounds`); there it ends, since
no token is left.  That the least level is higher in the text makes no difference: an
operator that is taken is taken from level zero on as well.

The span of an expression goes from its first token to its last one.  Pragmas would stand
behind it without belonging to it.
-/

namespace Lustre

variable {α β : Type}

/-! ## Expressions that stand alone -/

namespace Cursor

/-- The tokens to come are in order, and none of them is a pragma. -/
structure Plain (c : Cursor) : Prop where
  inOrder : c.InOrder
  pragmas : ∀ token ∈ c.rest, token.kind ≠ .pragma

theorem Plain.onward {c c' : Cursor} (h : c.Plain) (honward : c.Onward c') : c'.Plain :=
  ⟨h.inOrder.onward honward, fun token hmem => h.pragmas token (honward.suffix.mem hmem)⟩

/-- An expression that was read between two cursors has the tokens between them as its span, and
`whole` reads it from these tokens alone. -/
structure Alone (whole : Read Expr) (c : Cursor) (e : Expr) (c' : Cursor) : Prop where
  moves : c.Moves [] c'
  span : e.span = ⟨c.span.start, c'.last, 0⟩
  reads : ∀ d, c.Cut c'.rest d → ∃ d', whole d = .ok e d' ∧ d'.rest = []

/-- Somewhere behind the cursor, the expression stands alone. -/
def Holds (c₀ : Cursor) (whole : Read Expr) (e : Expr) : Prop :=
  ∃ c c', c₀.Onward c ∧ Alone whole c e c'

end Cursor

open Cursor

/-! ## Loops over what was read -/

/-- A loop ends with `result`, whatever its bound, if that exceeds the number of tokens to come. -/
def Settles (step : α → Read (ForInStep α)) (a : α) (c : Cursor)
    (result : EStateM.Result Diagnostic Cursor α) : Prop :=
  ∀ bound, c.rest.length < bound → iterateUpTo step bound a c = result

namespace Settles

variable {step : α → Read (ForInStep α)} {a a' : α} {c c' : Cursor}
  {result : EStateM.Result Diagnostic Cursor α}

theorem done (h : step a c = .ok (.done a') c') : Settles step a c (.ok a' c') := by
  intro bound hbound
  obtain ⟨bound, rfl⟩ := Nat.exists_eq_add_of_lt hbound
  exact bind_of_ok h

theorem next (hadvancing : Advancing step) (h : step a c = .ok (.yield a') c')
    (hnext : Settles step a' c' result) : Settles step a c result := by
  have hshorter : c'.rest.length < c.rest.length := hadvancing a c _ c' h
  intro bound hbound
  obtain ⟨bound, rfl⟩ : ∃ n, bound = n + 1 := ⟨bound - 1, by omega⟩
  exact (bind_of_ok h).trans (hnext bound (by omega))

theorem iterate (h : Settles step a c result) : Read.iterate a step c = result :=
  h _ (Nat.lt_succ_self _)

end Settles

/-- Wherever what comes after `c'` is cut off, `read` comes from `c` to the loop over `step` with
`e` as the expression so far. -/
def Rounds (read : Read Expr) (step : Expr → Read (ForInStep Expr)) (c : Cursor) (e : Expr)
    (c' : Cursor) : Prop :=
  ∀ later d, c.Cut later d → later.length + e.slack ≤ c'.rest.length →
    ∃ d', c'.Cut later d' ∧ ∀ result, Settles step e d' result → read d = result

namespace Rounds

variable {read first whole : Read Expr} {step : Expr → Read (ForInStep Expr)} {c c₁ c' : Cursor}
  {e e' : Expr}

/-- The loop begins with what is read first. -/
theorem start (hread : ∀ d, d.peek = c.peek → read d = (first >>= fun e => Read.iterate e step) d)
    (hfirst : first c = .ok e c') (hshorter : c'.rest.length < c.rest.length)
    (hsurvives : ∀ later d, c.Cut later d → Survives later Expr.slack first c d) :
    Rounds read step c e c' := by
  intro later d hcut hle
  obtain ⟨d', hfirst', hcut'⟩ := hsurvives later d hcut e c' hfirst hle
  have hlength := hcut.length
  have hpeek : d.peek = c.peek := hcut.peek (List.length_pos_iff.mp (by omega))
  refine ⟨d', hcut', fun result hresult => ?_⟩
  rw [hread d hpeek, bind_of_ok hfirst', hresult.iterate]

/-- It goes on as the step does. -/
theorem next (h : Rounds read step c e c₁) (hadvancing : Advancing step)
    (hstep : step e c₁ = .ok (.yield e') c')
    (hsurvives : ∀ later d, c₁.Cut later d → Survives later (fun _ => 0) (step e) c₁ d) :
    Rounds read step c e' c' := by
  intro later d hcut hle
  have hshorter : c'.rest.length < c₁.rest.length := hadvancing e c₁ _ c' hstep
  have hslack := e.slack_le
  obtain ⟨d₁, hcut₁, hread⟩ := h later d hcut (by omega)
  obtain ⟨d', hstep', hcut'⟩ := hsurvives later d₁ hcut₁ _ c' hstep (Nat.le_of_add_right_le hle)
  exact ⟨d', hcut', fun result hresult => hread result (.next hadvancing hstep' hresult)⟩

/-- It ends where no token is left. -/
theorem reads (h : Rounds read step c e c') (hslack : e.slack = 0)
    (hend : ∀ d, d.rest = [] → step e d = .ok (.done e) d)
    (hwhole : ∀ e d d', read d = .ok e d' → d'.rest = [] → whole d = .ok e d') :
    ∀ d, c.Cut c'.rest d → ∃ d', whole d = .ok e d' ∧ d'.rest = [] := by
  intro d hcut
  -- the loop is started where all that follows this round is cut off, so it has nothing left
  obtain ⟨d', hcut', hread⟩ := h c'.rest d hcut (by omega)
  have hlength := hcut'.length
  have hnil : d'.rest = [] := List.length_eq_zero_iff.mp (by omega)
  exact ⟨d', hwhole e d d' (hread _ (.done (hend d' hnil))) hnil, hnil⟩

end Rounds

/-! ## Spans -/

namespace Cursor

variable {c c₁ c₂ c' : Cursor}

theorem last_pass {kind : Kind} (hpeek : c.peek = some kind) : c.pass.last = c.span.stop := by
  obtain ⟨rest, last, size⟩ := c
  cases rest with
  | nil => cases hpeek
  | cons token rest => rfl

/-- The span from what was read first over something behind it, which ends with the last token. -/
theorem cover_spanned {first last : Span} (hc : c.InOrder)
    (hfirst : first = ⟨c.span.start, c₁.last, 0⟩)
    (h₁ : c.Onward c₁) (h₂ : c₁.Onward c₂) (h' : c₂.Onward c') (hstart : c₂.span.start ≤ last.start)
    (hstop : last.stop = c'.last) : first.cover last = ⟨c.span.start, c'.last, 0⟩ := by
  have hbegin := (h₁.trans h₂).start_mono hc
  have hend := (h₂.trans h').last_mono (hc.onward h₁)
  subst hfirst
  change (⟨min c.span.start last.start, max c₁.last last.stop, 0⟩ : Span) = _
  rw [hstop, Nat.min_eq_left (Nat.le_trans hbegin hstart), Nat.max_eq_right hend]

end Cursor

/-- A name without pragmas behind it. -/
theorem Read.meets_ident_plain {c : Cursor} (hc : c.Plain) : Meets Read.ident c fun ident c' =>
    ident.span.start = c.span.start ∧ ident.span.stop = c'.last := by
  refine .take? (fun token rest hrest _ => ?_) fun _ => .missing
  have hpass : c.pass = ⟨rest, token.span.stop, c.size⟩ := by rw [Cursor.pass, hrest]
  refine .bind (P := fun _ c' => c' = c.pass) ?_ fun pragmas c' hc' => .pure ?_
  · refine .iterate (I := fun _ c' => c' = c.pass) rfl (fun read c' hc' => ?_) fun _ _ h => h
    refine .take? (fun pragma later hlater hkind => ?_) fun _ => .pure hc'
    refine absurd hkind (hc.pragmas pragma ?_)
    rw [hc', hpass] at hlater
    rw [hrest, show rest = pragma :: later from hlater]
    exact List.mem_cons_of_mem _ List.mem_cons_self
  · rw [hc', hpass, Cursor.span, hrest]
    exact ⟨rfl, rfl⟩

theorem Read.meets_clock_span {c : Cursor} (hc : c.InOrder) : Meets Read.clock c fun clock c' =>
    clock.span = ⟨c.span.start, c'.last, 0⟩ := by
  have hlocated : Meets Read.clock c fun clock c' => clock.span = c'.spanFrom c.span.start :=
    .located_eq (Meets.any.mono fun _ _ _ => rfl)
  refine (hlocated.and (Read.moves_clock c)).mono fun clock c' h => ?_
  rw [h.1, h.2.spanFrom hc]

/-! ## What is held -/

section

variable (c₀ : Cursor) (whole : Read Expr)

/-- Between two cursors stands an expression, and all expressions in it stand alone. -/
structure Stands (c : Cursor) (e : Expr) (c' : Cursor) : Prop where
  span : e.span = ⟨c.span.start, c'.last, 0⟩
  complete : e.isInst = false
  holds : ∀ s ∈ e.exprs, c₀.Holds whole s

/-- A loop has come to an expression, in which all expressions stand alone. -/
structure Chain (read : Read Expr) (step : Expr → Read (ForInStep Expr)) (c : Cursor) (e : Expr)
    (c' : Cursor) : Prop where
  moves : c.Moves [] c'
  span : e.span = ⟨c.span.start, c'.last, 0⟩
  within : ∀ s ∈ e.within, c₀.Holds whole s
  rounds : Rounds read step c e c'

/-- What is read by a loop of some kind. -/
structure Loop (read : Read Expr) (step : Expr → Read (ForInStep Expr)) : Prop where
  advancing : Advancing step
  forward : ∀ e, Forward (step e)
  survives : ∀ later e c d, c.Cut later d → Survives later (fun _ => 0) (step e) c d
  atEnd : ∀ e d, d.rest = [] → step e d = .ok (.done e) d
  whole : ∀ e d d', read d = .ok e d' → d'.rest = [] → whole d = .ok e d'

end

section

variable {c₀ c c₁ c' : Cursor} {whole read : Read Expr} {step : Expr → Read (ForInStep Expr)}
  {e e' : Expr}

theorem Stands.within (h : Stands c₀ whole c e c') : ∀ s ∈ e.within, c₀.Holds whole s :=
  fun s hs => h.holds s (List.mem_cons_of_mem _ hs)

theorem Chain.stands (h : Chain c₀ whole read step c e c') (hloop : Loop whole read step)
    (hc : c₀.Onward c) (hinst : e.isInst = false) : Stands c₀ whole c e c' := by
  refine ⟨h.span, hinst, fun s hs => ?_⟩
  rcases List.mem_cons.mp hs with rfl | hs
  · exact ⟨c, c', hc, h.moves, h.span,
      h.rounds.reads (Expr.slack_eq_zero hinst) (hloop.atEnd _) hloop.whole⟩
  · exact h.within s hs

/-- A loop begins with an expression that stands alone. -/
theorem Chain.start {first : Read Expr} (hmoves : Meets first c fun e c₁ => c.Moves (extents e) c₁)
    (hfirst : Meets first c (Stands c₀ whole c))
    (hsurvives : ∀ later d, c.Cut later d → Survives later (fun _ => 0) first c d) :
    Meets first c fun e c₁ =>
      Chain c₀ whole (first >>= fun e => Read.iterate e step) step c e c₁ ∧ e.isInst = false := by
  intro e c₁ hread
  have hmoves := hmoves e c₁ hread
  have hstands := hfirst e c₁ hread
  refine ⟨⟨hmoves.blank, hstands.span, hstands.within, ?_⟩, hstands.complete⟩
  refine .start (fun _ _ => rfl) hread hmoves.shorter fun later d hcut => ?_
  exact (hsurvives later d hcut).loosen

/-- The next round of a loop makes an expression of the one before. -/
theorem Chain.next (h : Chain c₀ whole read step c e c₁) (hloop : Loop whole read step)
    (hstep : step e c₁ = .ok (.yield e') c') (hspan : e'.span = ⟨c.span.start, c'.last, 0⟩)
    (hwithin : ∀ s ∈ e'.within, c₀.Holds whole s) :
    Chain c₀ whole read step c e' c' where
  moves := h.moves.skip ((hloop.forward e).onward c₁ |> fun honward => by rwa [hstep] at honward)
  span := hspan
  within := hwithin
  rounds := h.rounds.next hloop.advancing hstep fun later d => hloop.survives later e c₁ d

/-- What a step of a loop does to an expression that stands between `c` and `c₁`. -/
def Links (c₀ : Cursor) (whole : Read Expr) (step step' : Expr → Read (ForInStep Expr)) (c : Cursor)
    (e : Expr) (c₁ : Cursor) : Prop :=
  Meets (step' e) c₁ (StepKeeps
    (fun e' c' => step e c₁ = .ok (.yield e') c' ∧ e'.span = ⟨c.span.start, c'.last, 0⟩ ∧
      e'.isInst = false ∧ ∀ s ∈ e'.within, c₀.Holds whole s)
    fun e' c' => e' = e ∧ c' = c₁ ∧ e.isInst = false)

theorem Links.of {step' : Expr → Read (ForInStep Expr)}
    (hsame : ∀ e' c', step' e c₁ = .ok (.yield e') c' → step e c₁ = .ok (.yield e') c')
    (h : Meets (step' e) c₁ (StepKeeps
      (fun e' c' => e'.span = ⟨c.span.start, c'.last, 0⟩ ∧ e'.isInst = false ∧
        ∀ s ∈ e'.within, c₀.Holds whole s)
      fun e' c' => e' = e ∧ c' = c₁ ∧ e.isInst = false)) : Links c₀ whole step step' c e c₁ := by
  intro next c' hstep
  have hnext := h next c' hstep
  cases next with
  | done e' => exact hnext
  | yield e' => exact ⟨hsame e' c' hstep, hnext⟩

/-- A loop, whose first expression may be of a sort that no later one is of. -/
theorem Chain.iterate {K : Expr → Cursor → Prop} {step' : Expr → Read (ForInStep Expr)}
    (h : Chain c₀ whole read step c e c₁) (hloop : Loop whole read step) (hc : c₀.Onward c)
    (hfirst : K e c₁) (hlater : ∀ e c₁, e.isInst = false → K e c₁)
    (hlinks : ∀ e c₁, Chain c₀ whole read step c e c₁ → K e c₁ → Links c₀ whole step step' c e c₁) :
    Meets (Read.iterate e step') c₁ (Stands c₀ whole c) := by
  refine .iterate_of_progress (I := fun e c₁ => Chain c₀ whole read step c e c₁ ∧ K e c₁)
    ⟨h, hfirst⟩ fun e c₁ h => (hlinks e c₁ h.1 h.2).mono fun next c' hnext => ?_
  cases next with
  | done e' =>
      obtain ⟨rfl, rfl, hinst⟩ := hnext
      exact h.1.stands hloop hc hinst
  | yield e' =>
      obtain ⟨hstep, hspan, hinst, hwithin⟩ := hnext
      exact ⟨⟨h.1.next hloop hstep hspan hwithin, hlater e' c' hinst⟩,
        hloop.advancing e c₁ _ c' hstep⟩

end

/-- What is read before a cut, and is read as a whole if nothing follows it, stands alone. -/
theorem Meets.stands {c₀ c : Cursor} {whole read : Read Expr} (hc : c₀.Onward c)
    (hmoves : Meets read c fun e c' => c.Moves (extents e) c')
    (hsurvives : ∀ later d, c.Cut later d → Survives later (fun _ => 0) read c d)
    (hwhole : ∀ e d d', read d = .ok e d' → d'.rest = [] → whole d = .ok e d')
    (h : Meets read c fun e c' => e.span = ⟨c.span.start, c'.last, 0⟩ ∧ e.isInst = false ∧
      ∀ s ∈ e.within, c₀.Holds whole s) : Meets read c (Stands c₀ whole c) := by
  intro e c' hread
  obtain ⟨hspan, hinst, hwithin⟩ := h e c' hread
  refine ⟨hspan, hinst, fun s hs => ?_⟩
  rcases List.mem_cons.mp hs with rfl | hs
  · refine ⟨c, c', hc, (hmoves _ c' hread).blank, hspan, fun d hcut => ?_⟩
    obtain ⟨d', hread', hcut'⟩ := hsurvives _ d hcut _ c' hread (Nat.le_refl _)
    have hlength := hcut'.length
    have hend : d'.rest = [] := List.length_eq_zero_iff.mp (by omega)
    exact ⟨d', hwhole _ d d' hread' hend, hend⟩
  · exact hwithin s hs

/-! ## Readers -/

/-- One reader after another, neither of which goes back. -/
theorem Meets.onwards {c₀ c : Cursor} {read : Read α} {next : α → Read β} {P : α → Cursor → Prop}
    {R : β → Cursor → Prop} [Forward read] (hc : c₀.Onward c) (h : Meets read c P)
    (hnext : ∀ a c', P a c' → c₀.Onward c' → Meets (next a) c' R) : Meets (read >>= next) c R :=
  .bind (h.and (Forward.meets_onward read c)) fun a c' ha => hnext a c' ha.1 (hc.trans ha.2)

/-- What the readers of a level answer stands alone, and so do all expressions in it. -/
structure Nested.Standing (c₀ : Cursor) (whole : Read Expr) (deep : Nested) : Prop where
  top : ∀ least c, c₀.Onward c → Meets (deep.top least) c (Stands c₀ whole c)
  inner : ∀ least c, c₀.Onward c → Meets (deep.inner least) c (Stands c₀ whole c)
  args : ∀ c, c₀.Onward c → Meets deep.args c fun args _ =>
    ∀ s ∈ StaticArg.listExprs args, c₀.Holds whole s

/-- A level whose expressions stand alone where `whole` reads whatever the next level reads. -/
structure Nested.Base (c₀ : Cursor) (whole : Read Expr) (deep : Nested) : Prop where
  plain : c₀.Plain
  survives : ∀ later, deep.Survives later
  reads : ∀ e d d', Read.top deep 0 d = .ok e d' → whole d = .ok e d'
  standing : deep.Standing c₀ whole

namespace Read

variable {c₀ c : Cursor} {whole : Read Expr}

/-! ### Lists -/

section

variable {P : α → Prop} {item : Read α} [Forward item]
  (hitem : ∀ c, c₀.Onward c → Meets item c fun a _ => P a)
include hitem

theorem all_commaList (hc : c₀.Onward c) :
    Meets (commaList item) c fun items _ => ∀ a ∈ items, P a := by
  refine .onwards hc (hitem c hc) fun first c₁ hfirst h₁ => ?_
  refine .mono (.iterate (I := fun items c' => c₀.Onward c' ∧ ∀ a ∈ items, P a)
    (Q := fun items c' => c₀.Onward c' ∧ ∀ a ∈ items, P a) ⟨h₁, by simpa using hfirst⟩
    (fun items c' h => ?_) fun _ _ h => h) fun _ _ h => h.2
  refine .ifEat (fun _ => ?_) fun _ => .pure h
  refine .onwards h.1.pass (hitem _ h.1.pass) fun next c₂ hnext h₂ => .pure ⟨h₂, ?_⟩
  exact List.forall_mem_append.mpr ⟨h.2, by simpa using hnext⟩

theorem all_separated {close : Kind} {separators : List Kind} (hc : c₀.Onward c) :
    Meets (separated close separators item) c fun items _ => ∀ a ∈ items, P a := by
  refine .mono (.iterate (I := fun items c' => c₀.Onward c' ∧ ∀ a ∈ items, P a)
    (Q := fun items c' => c₀.Onward c' ∧ ∀ a ∈ items, P a) ⟨hc, by simp⟩
    (fun items c' h => ?_) fun _ _ h => h) fun _ _ h => h.2
  refine .ifAt (fun _ => .pure h) fun _ => ?_
  refine .onwards h.1 (hitem _ h.1) fun next c₁ hnext h₁ => ?_
  refine .onwards h₁ .any fun found c₂ _ h₂ => ?_
  have hall : ∀ a ∈ items ++ [next], P a := List.forall_mem_append.mpr ⟨h.2, by simpa using hnext⟩
  cases found with
  | true => exact .pure ⟨h₂, hall⟩
  | false => exact .pure ⟨h₂, hall⟩

end

/-! ### Postfix forms -/

section

variable {deep : Nested} [deep.Advances] (hdeep : deep.Standing c₀ whole)
include hdeep

omit [deep.Advances] in
theorem stands_expr (hc : c₀.Onward c) : Meets deep.expr c (Stands c₀ whole c) := hdeep.top 0 c hc

theorem holds_exprList {close : Kind} (hc : c₀.Onward c) :
    Meets (exprList deep close) c fun exprs _ => ∀ s ∈ Expr.listExprs exprs, c₀.Holds whole s := by
  refine .ifAt (fun _ => .pure (by simp [Expr.listExprs])) fun _ => ?_
  refine (all_commaList (P := fun e => ∀ s ∈ e.exprs, c₀.Holds whole s) (fun c hc => ?_) hc).mono
    fun exprs _ h s hs => ?_
  · exact (stands_expr hdeep hc).mono fun _ _ h => h.holds
  · obtain ⟨e, he, hs⟩ := Expr.mem_listExprs.mp hs
    exact h e he s hs

theorem holds_indexing {index : Expr → α} {slice : Expr → Expr → Option Expr → α}
    (hc : c₀.Onward c) : Meets (indexing deep index slice) c fun built _ =>
      (∃ place, built = index place ∧ ∀ s ∈ place.exprs, c₀.Holds whole s) ∨
        ∃ first last step, built = slice first last step ∧
          ∀ s ∈ first.exprs ++ last.exprs ++ stepExprs step, c₀.Holds whole s := by
  refine .onwards hc (stands_expr hdeep hc) fun first c₁ hfirst h₁ => ?_
  refine .ifEat (fun _ => ?_) fun _ => .pure (.inl ⟨first, rfl, hfirst.holds⟩)
  refine .onwards h₁.pass (stands_expr hdeep h₁.pass) fun last c₂ hlast h₂ => ?_
  refine .bind (P := fun step _ => ∀ s ∈ stepExprs step, c₀.Holds whole s) ?_
    fun step c₃ hstep => ?_
  · refine .optionalAfter (fun _ => ?_) fun _ => by simp [stepExprs]
    exact (stands_expr hdeep h₂.pass).mono fun _ _ h => h.holds
  · refine .pure (.inr ⟨first, last, step, rfl, fun s hs => ?_⟩)
    rcases List.mem_append.mp hs with hs | hs
    · exact List.forall_mem_append.mpr ⟨hfirst.holds, hlast.holds⟩ s hs
    · exact hstep s hs

/-! ### Primary expressions -/

omit [deep.Advances] in
theorem holds_fieldInit (hc : c₀.Onward c) :
    Meets (fieldInit deep) c fun init _ => ∀ s ∈ init.value.exprs, c₀.Holds whole s := by
  refine .here fun _ => .onwards hc .any fun field c₁ _ h₁ => .expect fun _ _ => ?_
  refine .bind (stands_expr hdeep h₁.pass) fun value c₂ hvalue => .spanFrom fun _ => .pure ?_
  exact hvalue.holds

theorem holds_record {start : Nat} {type : Reference} (hc : c₀.Onward c) :
    Meets (record deep start type) c fun e c' =>
      e.span = c'.spanFrom start ∧ ∀ s ∈ e.within, c₀.Holds whole s := by
  have hfields : ∀ base c, c₀.Onward c → Meets (do
      let fields ← separated .rBrace [.comma, .semi] (fieldInit deep)
      let _ ← expect .rBrace
      return Expr.record (← spanFrom start) type base fields) c fun e c' =>
        e.span = c'.spanFrom start ∧ ∀ s ∈ e.within, c₀.Holds whole s := by
    intro base c hc
    refine .bind (all_separated (fun _ => holds_fieldInit hdeep) hc) fun fields c₁ hfields => ?_
    refine .expect fun _ _ => .spanFrom_eq (.pure ⟨rfl, fun s hs => ?_⟩)
    obtain ⟨init, hinit, hs⟩ := FieldInit.mem_listExprs.mp hs
    exact hfields init hinit s hs
  refine .expect fun _ _ => .get ?_
  dsimp only
  split
  · exact .onwards hc.pass .any fun base c₁ _ h₁ => .advance (hfields (some base) _ h₁.pass)
  · exact hfields none _ hc.pass

theorem holds_nameExpr (hc : c₀.Onward c) : Meets (nameExpr deep) c fun e c' =>
    e.span = c'.spanFrom c.span.start ∧ ∀ s ∈ e.within, c₀.Holds whole s := by
  refine .here_eq (.onwards hc .any fun name c₁ _ h₁ => .peek ?_)
  split
  · refine .bind (hdeep.args c₁ h₁) fun args c₂ hargs => .ifAt (fun _ => ?_) fun _ => ?_
    · exact .spanFrom_eq (.pure ⟨rfl, hargs⟩)
    · exact .spanFrom fun _ => .throw
  · exact holds_record hdeep h₁
  · exact .spanFrom_eq (.pure ⟨rfl, by simp [Expr.within]⟩)

omit [deep.Advances] in
theorem holds_mergeArm (hc : c₀.Onward c) :
    Meets (mergeArm deep) c fun arm _ => ∀ s ∈ arm.value.exprs, c₀.Holds whole s := by
  refine .here fun _ => .expect fun _ _ => .onwards hc.pass .any fun pattern c₁ _ h₁ => ?_
  refine .expect fun _ _ => .bind (stands_expr hdeep h₁.pass) fun value c₂ hvalue => ?_
  exact .expect fun _ _ => .spanFrom fun _ => .pure hvalue.holds

theorem holds_merge {start : Nat} (hc : c₀.Onward c) : Meets (merge deep start) c fun e c' =>
    e.span = c'.spanFrom start ∧ ∀ s ∈ e.within, c₀.Holds whole s := by
  refine .onwards hc .any fun clock c₁ _ h₁ => ?_
  have harms : Meets (iterate [] (mergeStep deep)) c₁ fun arms c' => c₀.Onward c' ∧
      ∀ arm ∈ arms, ∀ s ∈ arm.value.exprs, c₀.Holds whole s := by
    refine .iterate (I := fun arms c' => c₀.Onward c' ∧
      ∀ arm ∈ arms, ∀ s ∈ arm.value.exprs, c₀.Holds whole s) ⟨h₁, by simp⟩
      (fun arms c' h => ?_) fun _ _ h => h
    refine .ifAt (fun _ => ?_) fun _ => .pure h
    refine .onwards h.1 (holds_mergeArm hdeep h.1) fun arm c₂ harm h₂ => .pure ⟨h₂, ?_⟩
    exact List.forall_mem_append.mpr ⟨h.2, by simpa using harm⟩
  refine .bind harms fun arms c₂ harms => ?_
  split
  · exact .missing
  · refine .spanFrom_eq (.pure ⟨rfl, fun s hs => ?_⟩)
    obtain ⟨arm, harm, hs⟩ := MergeArm.mem_listExprs.mp hs
    exact harms.2 arm harm s hs

theorem holds_conditional {start : Nat} {word : CondWord} (hc : c₀.Onward c) :
    Meets (conditional deep start word) c fun e c' =>
      e.span = c'.spanFrom start ∧ ∀ s ∈ e.within, c₀.Holds whole s := by
  refine .onwards hc (stands_expr hdeep hc) fun condition c₁ hcondition h₁ => .expect fun _ _ => ?_
  refine .onwards h₁.pass (stands_expr hdeep h₁.pass) fun yes c₂ hyes h₂ => .expect fun _ _ => ?_
  refine .bind (stands_expr hdeep h₂.pass) fun no c₃ hno => .spanFrom_eq (.pure ⟨rfl, ?_⟩)
  have hboth := List.forall_mem_append.mpr ⟨hcondition.holds, hyes.holds⟩
  exact List.forall_mem_append.mpr ⟨hboth, hno.holds⟩

theorem holds_operands {start : Nat} {op : ListOp} (hc : c₀.Onward c) :
    Meets (operands deep start op) c fun e c' =>
      e.span = c'.spanFrom start ∧ ∀ s ∈ e.within, c₀.Holds whole s := by
  refine .expect fun _ _ => .bind (holds_exprList hdeep hc.pass) fun exprs c₁ hexprs => ?_
  exact .expect fun _ _ => .spanFrom_eq (.pure ⟨rfl, hexprs⟩)

/-- The span of an expression that no operator splits covers what was passed. -/
theorem holds_primary (hc : c₀.Onward c) : Meets (primary deep) c fun e c' =>
    e.span = c'.spanFrom c.span.start ∧ ∀ s ∈ e.within, c₀.Holds whole s := by
  refine .here_eq (.peek ?_)
  split
  · exact .bind .any fun _ _ _ => .spanFrom_eq (.pure ⟨rfl, by simp [Expr.within]⟩)
  · exact .bind .any fun _ _ _ => .spanFrom_eq (.pure ⟨rfl, by simp [Expr.within]⟩)
  · exact .advance (.spanFrom_eq (.pure ⟨rfl, by simp [Expr.within]⟩))
  · exact .advance (.spanFrom_eq (.pure ⟨rfl, by simp [Expr.within]⟩))
  · exact holds_nameExpr hdeep hc
  · refine .advance (.bind (holds_exprList hdeep hc.pass) fun items c₁ hitems => ?_)
    exact .expect fun _ _ => .spanFrom_eq (.pure ⟨rfl, hitems⟩)
  · refine .advance (.bind (holds_exprList hdeep hc.pass) fun items c₁ hitems => ?_)
    exact .expect fun _ _ => .spanFrom_eq (.pure ⟨rfl, hitems⟩)
  · exact .advance (holds_conditional hdeep hc.pass)
  · exact .advance (holds_conditional hdeep hc.pass)
  · exact .advance (holds_merge hdeep hc.pass)
  · exact .advance (holds_operands hdeep hc.pass)
  · exact .advance (holds_operands hdeep hc.pass)
  · exact .missing

end

/-! ### The three loops -/

section

variable {deep : Nested} {d d' : Cursor} {e : Expr}

/-- Where no token is left, no operator follows. -/
theorem inner_at_end (h : prefixed deep d = .ok e d') (hend : d'.rest = []) :
    inner deep 0 d = .ok e d' :=
  (bind_of_ok h).trans (Settles.done (innerStep_at_end hend)).iterate

theorem comparison_at_end (h : inner deep 0 d = .ok e d') (hend : d'.rest = []) :
    comparison deep d = .ok e d' :=
  (bind_of_ok h).trans (peek_at_end hend)

theorem top_at_end (h : comparison deep d = .ok e d') (hend : d'.rest = []) :
    top deep 0 d = .ok e d' :=
  (bind_of_ok h).trans (Settles.done (topStep_at_end hend)).iterate

/-- A round of a loop that goes on was not kept from it by the level of its operator. -/
theorem yield_of_ite {p : Prop} [Decidable p] {lhs : Expr} {read : Read (ForInStep Expr)}
    (h : (if p then return .done lhs else read) d = .ok (.yield e) d') :
    read d = .ok (.yield e) d' := by
  split at h
  · cases h
  · exact h

/-- An operator that is taken is taken from level zero on as well. -/
theorem innerStep_zero {least : Nat} {lhs : Expr}
    (h : innerStep deep least lhs d = .ok (.yield e) d') :
    innerStep deep 0 lhs d = .ok (.yield e) d' := by
  unfold innerStep at h ⊢
  by_cases hwhen : d.peek = some .kwWhen
  · rw [bind_of_ok (isAt_of_peek hwhen), if_pos rfl] at h ⊢
    rw [if_neg (Nat.not_lt_zero _)]
    exact yield_of_ite h
  · rw [bind_of_ok (isAt_of_ne hwhen), if_neg Bool.false_ne_true, peek_as rfl] at h ⊢
    cases hop : d.peek.bind (BinaryOp.inTier? .inner) with
    | none =>
        rw [hop] at h
        cases h
    | some op =>
        rw [hop] at h
        dsimp only at h ⊢
        rw [if_neg (Nat.not_lt_zero _)]
        exact yield_of_ite h

theorem topStep_zero {least : Nat} {lhs : Expr} (h : topStep deep least lhs d = .ok (.yield e) d') :
    topStep deep 0 lhs d = .ok (.yield e) d' := by
  unfold topStep at h ⊢
  rw [peek_as rfl] at h ⊢
  cases hop : d.peek.bind (BinaryOp.inTier? .top) with
  | none =>
      rw [hop] at h
      cases h
  | some op =>
      rw [hop] at h
      dsimp only at h ⊢
      rw [if_neg (Nat.not_lt_zero _)]
      exact yield_of_ite h

variable [deep.Advances] (hbase : deep.Base c₀ whole)
include hbase

theorem loop_postfixes : Loop whole (prefixed deep) (postfixStep deep) where
  advancing := advancing_postfixStep deep
  forward := forward_postfixStep deep
  survives later _ _ _ hcut := survives_postfixStep (hbase.survives later) hcut
  atEnd _ _ := postfixStep_at_end
  whole e d d' h hend :=
    hbase.reads e d d' (top_at_end (comparison_at_end (inner_at_end h hend) hend) hend)

theorem loop_inner : Loop whole (inner deep 0) (innerStep deep 0) where
  advancing := advancing_innerStep deep 0
  forward := forward_innerStep deep 0
  survives later _ _ _ hcut := survives_innerStep (hbase.survives later) hcut
  atEnd _ _ := innerStep_at_end
  whole e d d' h hend := hbase.reads e d d' (top_at_end (comparison_at_end h hend) hend)

theorem loop_top : Loop whole (top deep 0) (topStep deep 0) where
  advancing := advancing_topStep deep 0
  forward := forward_topStep deep 0
  survives later _ _ _ hcut := survives_topStep (hbase.survives later) hcut
  atEnd _ _ := topStep_at_end
  whole e d d' h _ := hbase.reads e d d' h

/-! ### Operators -/

theorem links_postfixStep {c₁ : Cursor} (hc : c₀.Onward c)
    (h : Chain c₀ whole (prefixed deep) (postfixStep deep) c e c₁)
    (hcalled : e.isInst = false ∨ c₁.peek = some .lParen) :
    Links c₀ whole (postfixStep deep) (postfixStep deep) c e c₁ := by
  have hplain := hbase.plain.onward hc
  have h₁ := h.moves.covers.onward
  have honward := hc.trans h₁
  -- unless the next form is a call, what came before is no instance and stands alone itself
  have hexprs (hpeek : c₁.peek ≠ some .lParen) : ∀ s ∈ e.exprs, c₀.Holds whole s :=
    (h.stands (loop_postfixes hbase) hc (hcalled.resolve_right hpeek)).holds
  refine .of (fun _ _ h => h) (.peek ?_)
  split
  · -- a field, whose name ends with the last token, since no pragma follows it
    rename_i hdot
    refine .advance (.bind ((meets_ident_plain (hplain.onward h₁.pass)).and
      (Forward.meets_onward ident _)) fun field c' hfield => .pure ⟨?_, rfl, ?_⟩)
    · exact cover_spanned hplain.inOrder h.span h₁ (.pass .here) hfield.2
        (Nat.le_of_eq hfield.1.1.symm) hfield.1.2
    · exact hexprs (by rw [hdot]; simp)
  · -- an index or a range, up to its closing bracket
    rename_i hbracket
    have hvalue := hexprs (by rw [hbracket]; simp)
    refine .advance (.bind ((holds_indexing hbase.standing honward.pass).and
      (Forward.meets_onward _ _))
      fun build c₂ hbuild => .expect_eq fun hclose => .pure ?_)
    have hspan : e.span.cover c₂.span = ⟨c.span.start, c₂.pass.last, 0⟩ :=
      cover_spanned hplain.inOrder h.span h₁ ((Onward.pass .here).trans hbuild.2) (.pass .here)
        (Nat.le_refl _) (last_pass hclose).symm
    rcases hbuild.1 with ⟨place, rfl, hplace⟩ | ⟨first, last, step, rfl, hrange⟩
    · exact ⟨hspan, rfl, List.forall_mem_append.mpr ⟨hvalue, hplace⟩⟩
    · obtain ⟨hends, hstep⟩ := List.forall_mem_append.mp hrange
      obtain ⟨hfirst, hlast⟩ := List.forall_mem_append.mp hends
      have hranged := List.forall_mem_append.mpr ⟨hvalue, hfirst⟩
      refine ⟨hspan, rfl, List.forall_mem_append.mpr ⟨?_, hstep⟩⟩
      exact List.forall_mem_append.mpr ⟨hranged, hlast⟩
  · -- a call, in which an instance is the callee
    refine .advance (.bind ((holds_exprList hbase.standing honward.pass).and
      (Forward.meets_onward _ _))
      fun args c₂ hargs => .expect_eq fun hclose => .pure ⟨?_, rfl, ?_⟩)
    · exact cover_spanned hplain.inOrder h.span h₁ ((Onward.pass .here).trans hargs.2) (.pass .here)
        (Nat.le_refl _) (last_pass hclose).symm
    · refine List.forall_mem_append.mpr ⟨?_, hargs.1⟩
      split
      · exact h.within
      · rename_i hinst
        exact (h.stands (loop_postfixes hbase) hc (Bool.not_eq_true _ ▸ hinst)).holds
  · rename_i hnot
    exact .pure ⟨rfl, rfl, hcalled.resolve_right hnot⟩

theorem stands_prefixed (hc : c₀.Onward c) : Meets (prefixed deep) c (Stands c₀ whole c) := by
  have hspanned := (hbase.survives []).spanned
  refine .stands hc (moves_prefixed hspanned c)
    (fun later d hcut => survives_prefixed (hbase.survives later) hcut)
    (loop_postfixes hbase).whole (.peek ?_)
  split
  · refine .here_eq (.advance
      (.bind (hbase.standing.inner _ _ hc.pass) fun operand c' hoperand => ?_))
    refine .pure ⟨?_, rfl, hoperand.holds⟩
    rw [Expr.span, hoperand.span]
  · rename_i hnone
    have hread : ∀ d, d.peek = c.peek →
        prefixed deep d = (primary deep >>= fun e => iterate e (postfixStep deep)) d := by
      intro d hpeek
      refine (peek_as hpeek).trans ?_
      rw [hnone]
      rfl
    have hprimary : Meets (primary deep) c fun e c₁ =>
        Chain c₀ whole (prefixed deep) (postfixStep deep) c e c₁ := by
      intro e c₁ hfirst
      have hmoves := (moves_primary hspanned c) e c₁ hfirst
      obtain ⟨hspan, hwithin⟩ := (holds_primary hbase.standing hc) e c₁ hfirst
      refine ⟨hmoves.blank, ?_, hwithin, ?_⟩
      · rw [hspan, hmoves.spanFrom (hbase.plain.onward hc).inOrder]
      · exact .start hread hfirst hmoves.shorter fun later d hcut =>
          survives_primary (hbase.survives later) hcut
    refine .bind (hprimary.and (called_of_primary c)) fun e c₁ h => ?_
    -- an instance comes first only before the parenthesis of its call, and the call is none
    refine (h.1.iterate (K := fun e c₁ => e.isInst = false ∨ c₁.peek = some .lParen)
      (loop_postfixes hbase) hc h.2 (fun _ _ => .inl) fun e c₁ h hcalled => ?_).mono
      fun e c' h => ?_
    · exact links_postfixStep hbase hc h hcalled
    · exact ⟨h.span, h.complete, h.within⟩

omit [deep.Advances] hbase in
/-- The span of an operator over its operands. -/
theorem span_binary {c₁ c' : Cursor} {op : BinaryOp} {lhs rhs : Expr} (hc : c.InOrder)
    (h₁ : c.Onward c₁) (hlhs : lhs.span = ⟨c.span.start, c₁.last, 0⟩)
    (hrhs : rhs.span = ⟨c₁.pass.span.start, c'.last, 0⟩) (h' : c₁.pass.Onward c') :
    (binary op lhs rhs).span = ⟨c.span.start, c'.last, 0⟩ := by
  refine cover_spanned hc hlhs h₁ (.pass .here) h' (Nat.le_of_eq ?_) ?_ <;> rw [hrhs]

/-- One more operand or clock is joined to an expression of the inner tier. -/
theorem links_innerStep {least : Nat} {c₁ : Cursor} (hc : c₀.Onward c)
    (h : Chain c₀ whole (inner deep 0) (innerStep deep 0) c e c₁) (hinst : e.isInst = false) :
    Links c₀ whole (innerStep deep 0) (innerStep deep least) c e c₁ := by
  have hplain := hbase.plain.onward hc
  have h₁ := h.moves.covers.onward
  have honward := hc.trans h₁
  have hexprs := (h.stands (loop_inner hbase) hc hinst).holds
  refine .of (fun _ _ => innerStep_zero) (.ifAt (fun _ => ?_) fun _ => .peek ?_)
  · split
    · exact .pure ⟨rfl, rfl, hinst⟩
    · refine .advance (.bind ((meets_clock_span (hplain.onward h₁.pass).inOrder).and
        (Forward.meets_onward clock _)) fun clock c' hclock => .pure ⟨?_, rfl, hexprs⟩)
      refine cover_spanned hplain.inOrder h.span h₁ (.pass .here) hclock.2 (Nat.le_of_eq ?_) ?_ <;>
        rw [hclock.1]
  · split
    · split
      · exact .pure ⟨rfl, rfl, hinst⟩
      · refine .advance (.bind ((hbase.standing.inner _ _ honward.pass).and
          (Forward.meets_onward _ _))
          fun rhs c' hrhs => .pure ⟨?_, rfl, ?_⟩)
        · exact span_binary hplain.inOrder h₁ h.span hrhs.1.span hrhs.2
        · exact List.forall_mem_append.mpr ⟨hexprs, hrhs.1.holds⟩
    · exact .pure ⟨rfl, rfl, hinst⟩

theorem stands_inner (least : Nat) (hc : c₀.Onward c) :
    Meets (inner deep least) c (Stands c₀ whole c) := by
  have hprefixed : Meets (prefixed deep) c fun e c₁ =>
      Chain c₀ whole (inner deep 0) (innerStep deep 0) c e c₁ ∧ e.isInst = false :=
    Chain.start (moves_prefixed (hbase.survives []).spanned c) (stands_prefixed hbase hc)
      fun later d hcut => survives_prefixed (hbase.survives later) hcut
  refine .bind hprefixed fun e c₁ h => ?_
  refine h.1.iterate (K := fun e _ => e.isInst = false) (loop_inner hbase) hc h.2
    (fun _ _ => id) fun e c₁ h hinst => ?_
  exact links_innerStep hbase hc h hinst

theorem stands_comparison (hc : c₀.Onward c) : Meets (comparison deep) c (Stands c₀ whole c) := by
  have hspanned := (hbase.survives []).spanned
  refine .stands hc (moves_comparison hspanned c)
    (fun later d hcut => survives_comparison (hbase.survives later) hcut)
    (fun e d d' h hend => hbase.reads e d d' (top_at_end h hend)) ?_
  refine .bind ((stands_inner hbase 0 hc).and (Forward.meets_onward _ c))
    fun lhs c₁ hlhs => .peek ?_
  split
  · refine .advance (.bind ((stands_inner hbase 0 (hc.trans hlhs.2).pass).and
      (Forward.meets_onward _ _)) fun rhs c' hrhs => .peek ?_)
    split
    · exact .fail
    · refine .pure ⟨?_, rfl, List.forall_mem_append.mpr ⟨hlhs.1.holds, hrhs.1.holds⟩⟩
      exact span_binary (hbase.plain.onward hc).inOrder hlhs.2 hlhs.1.span hrhs.1.span hrhs.2
  · exact .pure ⟨hlhs.1.span, hlhs.1.complete, hlhs.1.within⟩

/-- One more operand is joined to an expression of the top tier. -/
theorem links_topStep {least : Nat} {c₁ : Cursor} (hc : c₀.Onward c)
    (h : Chain c₀ whole (top deep 0) (topStep deep 0) c e c₁) (hinst : e.isInst = false) :
    Links c₀ whole (topStep deep 0) (topStep deep least) c e c₁ := by
  have hplain := hbase.plain.onward hc
  have h₁ := h.moves.covers.onward
  have hexprs := (h.stands (loop_top hbase) hc hinst).holds
  refine .of (fun _ _ => topStep_zero) (.peek ?_)
  split
  · split
    · exact .pure ⟨rfl, rfl, hinst⟩
    · refine .advance (.bind ((hbase.standing.top _ _ (hc.trans h₁).pass).and
        (Forward.meets_onward _ _))
        fun rhs c' hrhs => .pure ⟨?_, rfl, ?_⟩)
      · exact span_binary hplain.inOrder h₁ h.span hrhs.1.span hrhs.2
      · exact List.forall_mem_append.mpr ⟨hexprs, hrhs.1.holds⟩
  · exact .pure ⟨rfl, rfl, hinst⟩

theorem stands_top (least : Nat) (hc : c₀.Onward c) :
    Meets (top deep least) c (Stands c₀ whole c) := by
  have hcomparison : Meets (comparison deep) c fun e c₁ =>
      Chain c₀ whole (top deep 0) (topStep deep 0) c e c₁ ∧ e.isInst = false :=
    Chain.start (moves_comparison (hbase.survives []).spanned c)
      (stands_comparison hbase hc)
      fun later d hcut => survives_comparison (hbase.survives later) hcut
  refine .bind hcomparison fun e c₁ h => ?_
  refine h.1.iterate (K := fun e _ => e.isInst = false) (loop_top hbase) hc h.2
    (fun _ _ => id) fun e c₁ h hinst => ?_
  exact links_topStep hbase hc h hinst

/-! ### Types and static arguments -/

theorem holds_typeExpr (hc : c₀.Onward c) :
    Meets (typeExpr deep) c fun type _ => ∀ s ∈ type.within, c₀.Holds whole s := by
  have hsimple : Meets simpleType c fun type _ => ∀ s ∈ type.within, c₀.Holds whole s := by
    refine .here fun _ => .peek ?_
    split
    · exact .advance (.spanFrom fun _ => .pure (by simp [TypeExpr.within]))
    · exact .advance (.spanFrom fun _ => .pure (by simp [TypeExpr.within]))
    · exact .advance (.spanFrom fun _ => .pure (by simp [TypeExpr.within]))
    · exact .bind .any fun _ _ _ => .spanFrom fun _ => .pure (by simp [TypeExpr.within])
    · exact .missing
  refine .onwards hc hsimple fun type c₁ htype h₁ => ?_
  refine .mono (.iterate (I := fun type c' => c₀.Onward c' ∧ ∀ s ∈ type.within, c₀.Holds whole s)
    (Q := fun type c' => c₀.Onward c' ∧ ∀ s ∈ type.within, c₀.Holds whole s) ⟨h₁, htype⟩
    (fun type c' h => ?_) fun _ _ h => h) fun _ _ h => h.2
  refine .ifEat (fun _ => ?_) fun _ => .pure h
  refine .onwards h.1.pass (stands_inner hbase _ h.1.pass)
    fun length c₂ hlength h₂ => .pure ⟨h₂, ?_⟩
  exact List.forall_mem_append.mpr ⟨h.2, hlength.holds⟩

omit [deep.Advances] in
theorem holds_nodeUse (hc : c₀.Onward c) :
    Meets (nodeUse deep) c fun target _ => ∀ s ∈ argsExprs target.args, c₀.Holds whole s := by
  refine .here fun _ => .onwards hc .any fun node c₁ _ h₁ => ?_
  refine .bind (P := fun args _ => ∀ s ∈ argsExprs args, c₀.Holds whole s) ?_ fun args c₂ hargs =>
    .spanFrom fun _ => .pure hargs
  exact .optionalAt (fun _ => hbase.standing.args c₁ h₁) fun _ => by simp [argsExprs]

theorem holds_typeArg {start : Nat} {explicit : Bool} (hc : c₀.Onward c) :
    Meets (typeArg deep start explicit) c fun arg _ => ∀ s ∈ arg.within, c₀.Holds whole s :=
  .bind (holds_typeExpr hbase hc) fun _ _ htype => .spanFrom fun _ => .pure htype

omit [deep.Advances] in
theorem holds_constArg {start : Nat} {explicit : Bool} (hc : c₀.Onward c) :
    Meets (constArg deep start explicit) c fun arg _ => ∀ s ∈ arg.within, c₀.Holds whole s :=
  .bind (stands_expr hbase.standing hc) fun _ _ hvalue => .spanFrom fun _ => .pure hvalue.holds

omit [deep.Advances] in
theorem holds_nodeArg {start : Nat} {kind : NodeKind} (hc : c₀.Onward c) :
    Meets (nodeArg deep start kind) c fun arg _ => ∀ s ∈ arg.within, c₀.Holds whole s :=
  .bind (holds_nodeUse hbase hc) fun _ _ htarget => .spanFrom fun _ => .pure htarget

omit [deep.Advances] in
theorem holds_nameLedArg {close : Kind} {start : Nat} (hc : c₀.Onward c) :
    Meets (nameLedArg deep close start) c fun arg _ => ∀ s ∈ arg.within, c₀.Holds whole s := by
  have hconst : Meets (nameLedConst deep close start) c fun arg _ =>
      ∀ s ∈ arg.within, c₀.Holds whole s := by
    refine .bind (stands_expr hbase.standing hc) fun value c₁ hvalue => ?_
    split
    · refine .get ?_
      split
      · exact .throw
      · exact .spanFrom fun _ => .pure hvalue.holds
    · exact .spanFrom fun _ => .pure hvalue.holds
  refine .get ?_
  dsimp only
  split
  · exact .bind .any fun _ _ _ => .spanFrom fun _ => .pure (by simp [StaticArg.within])
  · split
    · refine .bind (holds_nodeUse hbase hc) fun target c₁ htarget => .ifAt (fun _ => ?_) fun _ => ?_
      · exact .set hconst
      · exact .spanFrom fun _ => .pure htarget
    · exact hconst

theorem holds_staticArg {close : Kind} (hc : c₀.Onward c) :
    Meets (staticArg deep close) c fun arg _ => ∀ s ∈ arg.within, c₀.Holds whole s := by
  have htype {start : Nat} {explicit : Bool} {c : Cursor} (hc : c₀.Onward c) :
      Meets (typeArg deep start explicit) c fun arg _ => ∀ s ∈ arg.within, c₀.Holds whole s :=
    holds_typeArg hbase hc
  refine .get ?_
  dsimp only
  split
  · exact .advance (.spanFrom fun _ => .pure (by simp [StaticArg.within]))
  · have hbuiltin : ∀ start, Meets (if c.endsArg 1 close = true ∨ c.peekAt 1 = some .caret
        then typeArg deep start false else constArg deep start false) c fun arg _ =>
          ∀ s ∈ arg.within, c₀.Holds whole s := by
      intro start
      split
      · exact htype hc
      · exact holds_constArg hbase hc
    split
    · exact .advance (htype hc.pass)
    · exact .advance (holds_constArg hbase hc.pass)
    · exact .advance (holds_nodeArg hbase hc.pass)
    · exact .advance (holds_nodeArg hbase hc.pass)
    · exact hbuiltin _
    · exact hbuiltin _
    · exact hbuiltin _
    · exact holds_nameLedArg hbase hc
    · exact holds_constArg hbase hc

theorem holds_staticArgs (hc : c₀.Onward c) : Meets (staticArgs deep) c fun args _ =>
    ∀ s ∈ StaticArg.listExprs args, c₀.Holds whole s := by
  refine .expect fun _ _ =>
    .bind (all_separated (P := fun arg => ∀ s ∈ arg.within, c₀.Holds whole s)
    (fun c hc => holds_staticArg hbase hc) hc.pass) fun args c₁ hargs => ?_
  refine .expect fun _ _ => .pure fun s hs => ?_
  obtain ⟨arg, harg, hs⟩ := StaticArg.mem_listExprs.mp hs
  exact hargs arg harg s hs

end

end Read

/-- All expressions that are read with some levels stand alone where they are read with as many. -/
theorem Nested.standing_upTo {c₀ : Cursor} {whole : Read Expr} (hplain : c₀.Plain) (levels : Nat)
    (hwhole : ∀ e d d', (upTo levels).expr d = .ok e d' → whole d = .ok e d') :
    (upTo levels).Standing c₀ whole := by
  induction levels with
  | zero => exact ⟨fun _ _ _ => .fail, fun _ _ _ => .fail, fun _ _ => .fail⟩
  | succ levels ih =>
      -- what these levels read, one more reads in the same way
      have hdeep : (upTo levels).Standing c₀ whole := ih fun e d d' h =>
        hwhole e d d' (top_of_le (Nat.le_succ levels) h)
      have hbase : (upTo levels).Base c₀ whole :=
        ⟨hplain, fun later => survives_upTo later levels, hwhole, hdeep⟩
      exact ⟨fun least c hc => Read.stands_top hbase least hc,
        fun least c hc => Read.stands_inner hbase least hc, fun c hc =>
          Read.holds_staticArgs hbase hc⟩

end Lustre
