import Lustre.Proofs.Reader.Meets
import Lustre.Proofs.Tree.Shape
import Lustre.Reader.StaticArg

/-!
# Reading expressions passes their words

A reader that succeeds has passed exactly the words of the tree that it answers,
and the tree is shaped.  The readers of one level are treated under the
assumption that those of the levels below do so (`Nested.Faithful`), and an
induction on the number of levels closes the circle (`faithful_upTo`).
-/

namespace Lustre

open Cursor Lexeme

/-! ## Symbols of operators -/

theorem UnaryOp.symbol_of_ofKind? {kind : Kind} {op : UnaryOp} (h : ofKind? kind = some op) :
    kind = op.symbol := by
  have hsymbol := List.find?_some h
  exact (beq_iff_eq.mp hsymbol).symm

theorem BinaryOp.symbol_of_inTier? {tier : Tier} {kind : Kind} {op : BinaryOp}
    (h : inTier? tier kind = some op) : kind = op.symbol ∧ op.tier = tier := by
  obtain ⟨hfound, htier⟩ := Option.filter_eq_some_iff.mp h
  have hsymbol := List.find?_some hfound
  exact ⟨(beq_iff_eq.mp hsymbol).symm, beq_iff_eq.mp htier⟩

theorem PredefinedOp.symbol_of_ofKind? {kind : Kind} {op : PredefinedOp}
    (h : ofKind? kind = some op) : kind = op.symbol := by
  have hsymbol := List.find?_some h
  exact (beq_iff_eq.mp hsymbol).symm

/-- The symbol of an operator matters for none of its neighbours, apart from `=`. -/
theorem BinaryOp.symbol_steady {op : BinaryOp} (h : op ≠ .eq) : op.symbol.isSteady = true := by
  cases op
  case eq => exact absurd rfl h
  all_goals rfl

theorem UnaryOp.symbol_steady (op : UnaryOp) : op.symbol.isSteady = true := by
  cases op <;> rfl

theorem PredefinedOp.symbol_steady {op : PredefinedOp} (h : op ≠ .eq) :
    op.symbol.isSteady = true := by
  cases op
  case eq => exact absurd rfl h
  all_goals rfl

namespace Read

/-! ## Names and clocks -/

theorem meets_pragmas (c : Cursor) :
    Meets pragmas c fun read c' =>
      c.Passes (read.map fun pragma => .pragma pragma.key pragma.value) c' := by
  refine .iterate (I := fun read c' =>
    c.Passes (read.map fun pragma => .pragma pragma.key pragma.value) c') (.refl c) ?_
    fun _ _ h => h
  intro read c' hread
  refine .take? (fun token rest hrest hkind => .pure ?_) fun _ => .pure hread
  have hword : token.word = .pragma (Pragma.ofToken token).key (Pragma.ofToken token).value := by
    rw [Token.word, if_pos hkind]
  simpa [hword] using hread.trans (.pragma hrest hkind)

/-- Passing a name. -/
theorem passes_name {c : Cursor} {token : Token} {rest : List Token}
    (hrest : c.rest = token :: rest)
    (hkind : token.kind = .ident) : c.Passes [plain .ident token.text] c.pass := by
  have hword : token.word = plain .ident token.text := by
    rw [Token.word_of_class (by rw [hkind]; rfl) (by simp [hkind]), hkind]
  rw [← hword]
  exact .token hrest (by simp [hkind, Kind.isSeparator]) (by simp [hkind]) (by simp [hkind])
    (by simp [hkind])

theorem meets_ident (c : Cursor) :
    Meets ident c fun ident c' => c.Passes ident.words c' := by
  refine .take? (fun token rest hrest hkind => ?_) fun _ => .missing
  refine .bind (meets_pragmas c.pass) fun read c' hread => .pure ?_
  exact (passes_name hrest hkind).trans hread

/-- One or more items with commas between. -/
theorem meets_commaList {α : Type} {item : Read α} {words : α → List Lexeme} {P : α → Prop}
    (hitem : ∀ c, Meets item c fun a c' => c.Passes (words a) c' ∧ P a) (c : Cursor) :
    Meets (commaList item) c fun items c' =>
      c.Passes (items.flatMap words) c' ∧ items ≠ [] ∧ ∀ a ∈ items, P a := by
  refine .bind (hitem c) fun first c₁ hfirst => ?_
  refine .iterate (I := fun items c' =>
    c.Passes (items.flatMap words) c' ∧ items ≠ [] ∧ ∀ a ∈ items, P a)
    ⟨by simpa using hfirst.1, by simp, by simpa using hfirst.2⟩ ?_ fun _ _ h => h
  rintro items c' ⟨hpasses, hne, hall⟩
  refine .ifEat (fun hcomma => ?_) fun _ => .pure ⟨hpasses, hne, hall⟩
  refine .bind (hitem c'.pass) fun item c₂ hlast => .pure ⟨?_, by simp, ?_⟩
  · simpa using hpasses.trans ((Passes.separator hcomma rfl).trans hlast.1)
  · intro a ha
    rcases List.mem_append.mp ha with ha | ha
    · exact hall a ha
    · simpa [List.mem_singleton.mp ha] using hlast.2

/-- Whether the next token ends a static argument. -/
theorem endsArg_eq (c : Cursor) (close : Kind) :
    c.endsArg 0 close =
      c.peek.any fun kind => kind == .comma || kind == .semi || kind == close := by
  have hpeek : c.peekAt 0 = c.peek := by simp [peekAt, Cursor.peek, List.head?_eq_getElem?]
  rw [Cursor.endsArg, hpeek]
  cases c.peek <;> rfl

/-- Separators that are passed leave nothing behind. -/
theorem meets_eatAny {kinds : List Kind} (hkinds : kinds.all Kind.isSeparator = true)
    (c : Cursor) :
    Meets (eatAny kinds) c fun found c' => c.Passes [] c' ∧
      (found = true → ∀ close, c.endsArg 0 close = true) ∧ (found = false → c' = c) := by
  induction kinds with
  | nil => exact .pure ⟨.refl c, by simp, fun _ => rfl⟩
  | cons kind kinds ih =>
      obtain ⟨hkind, hlater⟩ := Bool.and_eq_true_iff.mp hkinds
      refine .ifEat (fun h => ?_) fun _ => ih hlater
      refine .pure ⟨.separator h hkind, fun _ close => ?_, by simp⟩
      have hends : kind = .comma ∨ kind = .semi := by
        unfold Kind.isSeparator at hkind
        split at hkind <;> simp_all
      simp [endsArg_eq, h, hends]

/-- Any number of items with separators between.  What makes an item good may depend on the token
after it. -/
theorem meets_separated {α : Type} {item : Read α} {words : α → List Lexeme} {P : α → Prop}
    {close : Kind} {separators : List Kind}
    (hseparators : separators.all Kind.isSeparator = true)
    (hitem : ∀ c, Meets item c fun a c' =>
      c.Passes (words a) c' ∧ (c'.endsArg 0 close = true → P a)) (c : Cursor) :
    Meets (separated close separators item) c fun items c' =>
      c.Passes (items.flatMap words) c' ∧ (c'.peek = some close → ∀ a ∈ items, P a) := by
  refine .iterate (I := fun items c' => c.Passes (items.flatMap words) c' ∧ ∀ a ∈ items, P a)
    ⟨.refl c, by simp⟩ ?_ fun _ _ h => ⟨h.1, fun _ => h.2⟩
  rintro items c' ⟨hpasses, hall⟩
  refine .ifAt (fun _ => .pure ⟨hpasses, fun _ => hall⟩) fun _ => ?_
  refine .bind (hitem c') fun item c₁ ⟨hlast, hgood⟩ => ?_
  have hgood₁ : c₁.endsArg 0 close = true → ∀ a ∈ items ++ [item], P a := by
    intro hends a ha
    rcases List.mem_append.mp ha with ha | ha
    · exact hall a ha
    · exact List.mem_singleton.mp ha ▸ hgood hends
  refine .bind (meets_eatAny hseparators c₁) fun found c₂ ⟨hseparator, hfound, hlost⟩ => ?_
  have hpasses₁ : c.Passes ((items ++ [item]).flatMap words) c₂ := by
    simpa using hpasses.trans (hlast.trans hseparator)
  cases found with
  | true => exact .pure ⟨hpasses₁, hgood₁ (hfound rfl close)⟩
  | false =>
      refine .pure ⟨hpasses₁, fun hclose => hgood₁ ?_⟩
      rw [hlost rfl] at hclose
      simp [endsArg_eq, hclose]

/-- One or more items, each with a semicolon. -/
theorem meets_terminated {α : Type} {item : Read α} {words : α → List Lexeme} {P : α → Prop}
    {starts : List Kind} (hitem : ∀ c, Meets item c fun a c' => c.Passes (words a) c' ∧ P a)
    (c : Cursor) :
    Meets (terminated starts item) c fun items c' =>
      c.Passes (items.flatMap words) c' ∧ items ≠ [] ∧ ∀ a ∈ items, P a := by
  have hstep : ∀ items c', (c.Passes (items.flatMap words) c' ∧ ∀ a ∈ items, P a) →
      Meets (do
        let items := items ++ [← item]
        let _ ← expect .semi
        let next ← peek
        if next.any starts.contains then return .yield items else return .done items) c'
        (StepKeeps
          (fun items c' => c.Passes (items.flatMap words) c' ∧ items ≠ [] ∧ ∀ a ∈ items, P a)
          fun items c' => c.Passes (items.flatMap words) c' ∧ items ≠ [] ∧ ∀ a ∈ items, P a) := by
    rintro items c' ⟨hpasses, hall⟩
    refine .bind (hitem c') fun item c₁ hlast => .expect fun hsemi _ => .peek ?_
    have hresult : c.Passes ((items ++ [item]).flatMap words) c₁.pass ∧ items ++ [item] ≠ [] ∧
        ∀ a ∈ items ++ [item], P a := by
      refine ⟨?_, by simp, ?_⟩
      · simpa using hpasses.trans (hlast.1.trans (.separator hsemi rfl))
      · intro a ha
        rcases List.mem_append.mp ha with ha | ha
        · exact hall a ha
        · simpa [List.mem_singleton.mp ha] using hlast.2
    split
    · exact .pure hresult
    · exact .pure hresult
  exact .iterate_of_first (hstep [] c ⟨.refl c, by simp⟩)
    (fun items c' h => hstep items c' ⟨h.1, h.2.2⟩) fun _ _ h => h

theorem meets_identList (c : Cursor) :
    Meets identList c fun names c' => c.Passes (names.flatMap Ident.words) c' ∧ names ≠ [] :=
  (meets_commaList (P := fun _ => True) (fun c => (meets_ident c).mono fun _ _ h => ⟨h, trivial⟩)
    c).mono fun _ _ h => ⟨h.1, h.2.1⟩

/-- A used name takes as many tokens as the cursor foresees. -/
theorem meets_reference (c : Cursor) :
    Meets reference c fun ref c' =>
      c.Passes ref.words c' ∧ c'.rest = c.rest.drop c.referenceLength := by
  refine .take? (fun first rest hrest hkind => ?_) fun _ => .missing
  have hfirst := passes_name hrest hkind
  have hpass : c.pass.rest = rest := by simp [rest_pass, hrest]
  refine .take? (fun separator rest₁ hrest₁ hkind₁ => ?_) fun hnext => .pure ⟨hfirst, ?_⟩
  · refine .take? (fun member rest₂ hrest₂ hkind₂ => ?_) fun _ => .missing
    have hseparator : c.pass.peek = some .colonColon := by simp [Cursor.peek, hrest₁, hkind₁]
    have hall : c.rest = first :: separator :: member :: rest₂ := by
      rw [rest_pass, hrest₁] at hrest₂
      rw [hrest, ← hpass, hrest₁, ← hrest₂, List.tail_cons]
    have hlength : c.referenceLength = 3 := by
      simp [referenceLength, Cursor.isAt, Cursor.peek, peekAt, hall, hkind, hkind₁, hkind₂]
    dsimp only
    split
    · refine .pure ⟨?_, by simp [rest_pass, hlength, hall]⟩
      exact hfirst.trans ((Passes.sign hseparator rfl).trans (passes_name hrest₂ hkind₂))
    · exact .throw
  · have hlength : c.referenceLength = 1 := by
      have : rest[0]?.map Token.kind ≠ some .colonColon := by
        simpa [Cursor.peek, hpass, List.head?_eq_getElem?] using hnext
      simp [referenceLength, Cursor.isAt, Cursor.peek, peekAt, hrest, hkind, this]
    simp [rest_pass, hlength, hrest]

theorem meets_reference_ident (c : Cursor) :
    Meets reference c fun _ _ => c.peek = some .ident := by
  refine .take? (fun first rest hrest hkind => ?_) fun _ => .missing
  have hpeek : c.peek = some .ident := by simp [Cursor.peek, hrest, hkind]
  exact Meets.any.mono fun _ _ _ => hpeek

/-- A used name without a package takes one token. -/
theorem meets_reference_plain (c : Cursor) :
    Meets reference c fun ref c' => ref.isQualified = false → c'.rest = c.rest.drop 1 := by
  refine .take? (fun first rest hrest hkind => ?_) fun _ => .missing
  refine .take? (fun separator rest₁ hrest₁ hkind₁ => ?_) fun hnext => .pure fun _ => ?_
  · refine .take? (fun member rest₂ hrest₂ hkind₂ => ?_) fun _ => .missing
    dsimp only
    split
    · exact .pure nofun
    · exact .throw
  · rw [rest_pass, List.drop_one]

theorem peek_eq_peekAt {c c' : Cursor} {count : Nat} (h : c'.rest = c.rest.drop count) :
    c'.peek = c.peekAt count := by
  simp [Cursor.peek, peekAt, h, List.head?_drop]

theorem meets_clock (c : Cursor) :
    Meets clock c fun clock c' => c.Passes clock.value.words c' := by
  refine .located ?_
  refine .ifEat (fun hnot => ?_) fun _ => .get ?_
  · refine .ifEat (fun hopen => ?_) fun _ => ?_
    · refine .bind (meets_ident _) fun name c' hname => .expect fun hclose _ => .pure fun _ => ?_
      exact (Passes.sign hnot rfl).trans
        ((Passes.sign hopen rfl).trans (hname.trans (.sign hclose rfl)))
    · refine .bind (meets_ident _) fun name c' hname => .pure fun _ => ?_
      exact (Passes.sign hnot rfl).trans hname
  · dsimp only
    split
    · rename_i hcase
      refine .bind (meets_reference c) fun case c' ⟨hpattern, hrest⟩ => ?_
      have hopen : c'.peek = some .lParen := (peek_eq_peekAt hrest).trans hcase.2
      refine .advance (.bind (meets_ident _) fun name c₁ hname => .expect fun hclose _ =>
        .pure fun _ => ?_)
      simpa [Clock.words] using
        hpattern.trans ((Passes.sign hopen rfl).trans (hname.trans (.sign hclose rfl)))
    · exact .bind (meets_ident c) fun name c' hname => .pure fun _ => hname

end Read

/-- From `c`, where `value` has been read, a step of a loop passes the words by which `e` goes on
after `value`. -/
structure Extends (value : Expr) (c : Cursor) (e : Expr) (c' : Cursor) : Prop where
  passed : ∃ extra, extra ≠ [] ∧ e.words = value.words ++ extra ∧ c.Passes extra c'
  nameless : e.isName = false
  equation : e.opensEquation = true → value.opensEquation = true

namespace Extends

variable {c₀ c c' : Cursor} {value e : Expr}

theorem passes (h : Extends value c e c') (hvalue : c₀.Passes value.words c) :
    c₀.Passes e.words c' := by
  obtain ⟨extra, -, hwords, hpasses⟩ := h.passed
  exact hwords ▸ hvalue.trans hpasses

theorem progress (h : Extends value c e c') : c'.rest.length < c.rest.length := by
  obtain ⟨extra, hne, -, hpasses⟩ := h.passed
  exact hpasses.shorter hne

end Extends

/-- Neither a name nor built by a binary operator. -/
structure Expr.Atomic (e : Expr) : Prop where
  nameless : e.isName = false
  equation : e.opensEquation = false
  inner : e.isInner = true

/-- What the tokens from `c` on say about how an expression begins that is read up to `c'`. -/
structure Expr.Opens (e : Expr) (c c' : Cursor) : Prop where
  name : e.isName = true → c.peek = some .ident
  whole : e.isName = true → c'.rest = c.rest.drop c.referenceLength
  plain : e.isPlainName = true → c'.rest = c.rest.drop 1
  equation : e.opensEquation = true → c.peek = some .ident ∧ c.peekAt 1 = some .eq

namespace Expr.Opens

variable {c c' c₁ : Cursor} {e extended : Expr}

theorem isName_of_isPlainName (h : e.isPlainName = true) : e.isName = true := by
  cases e <;> first | rfl | cases h

/-- Nothing is to be said of what is no name and does not begin like a named argument. -/
theorem of_atomic (h : e.Atomic) : e.Opens c c' where
  name hname := absurd hname (by simp [h.nameless])
  whole hname := absurd hname (by simp [h.nameless])
  plain hplain := absurd (isName_of_isPlainName hplain) (by simp [h.nameless])
  equation hequation := absurd hequation (by simp [h.equation])

/-- What goes on after an expression begins like it. -/
theorem extend (h : e.Opens c c') (hextends : Extends e c' extended c₁) : extended.Opens c c₁ where
  name hname := absurd hname (by simp [hextends.nameless])
  whole hname := absurd hname (by simp [hextends.nameless])
  plain hplain := absurd (isName_of_isPlainName hplain) (by simp [hextends.nameless])
  equation hequation := h.equation (hextends.equation hequation)

/-- A comparison begins like its left operand. -/
theorem binary {op : BinaryOp} {rhs : Expr} (h : e.Opens c c') (hop : c'.peek = some op.symbol) :
    (Read.binary op e rhs).Opens c c₁ where
  name := nofun
  whole := nofun
  plain := nofun
  equation hequation := by
    simp only [Read.binary, Expr.opensEquation, Bool.or_eq_true, Bool.and_eq_true,
      beq_iff_eq] at hequation
    rcases hequation with ⟨rfl, hplain⟩ | hequation
    · refine ⟨h.name (isName_of_isPlainName hplain), ?_⟩
      rw [← Read.peek_eq_peekAt (h.plain hplain), hop]
      rfl
    · exact h.equation hequation

end Expr.Opens

namespace Nested

/-- The readers of a level pass the words of what they answer, which is shaped. -/
structure Faithful (deep : Nested) : Prop where
  top : ∀ least c, Meets (deep.top least) c fun e c' => c.Passes e.words c' ∧ e.Shaped false
  inner : ∀ least c, Meets (deep.inner least) c fun e c' =>
    (c.Passes e.words c' ∧ e.Shaped false) ∧ e.isInner = true
  opens : ∀ least c, Meets (deep.top least) c fun e c' => e.Opens c c'
  args : ∀ c, Meets deep.args c fun args c' =>
    c.Passes (argsWords (some args)) c' ∧ StaticArg.listShaped args

end Nested

namespace Read

variable {deep : Nested}

section

variable (hdeep : deep.Faithful)
include hdeep

theorem meets_expr (c : Cursor) :
    Meets deep.expr c fun e c' => c.Passes e.words c' ∧ e.Shaped false :=
  hdeep.top 0 c

/-- Comma-separated expressions. -/
theorem meets_exprList (close : Kind) (c : Cursor) :
    Meets (exprList deep close) c fun exprs c' =>
      c.Passes (Expr.listWords exprs) c' ∧ Expr.listShaped exprs := by
  refine .ifAt (fun _ => .pure ⟨.refl c, trivial⟩) fun _ => ?_
  refine (meets_commaList (meets_expr hdeep) c).mono fun exprs c' h => ?_
  rw [Expr.listWords_eq, Expr.listShaped_iff]
  exact ⟨h.1, h.2.2⟩

/-! ## Postfix forms -/

/-- What stands between brackets, whatever is built of it. -/
theorem meets_indexing {α : Type} {index : Expr → α} {slice : Expr → Expr → Option Expr → α}
    (c : Cursor) :
    Meets (indexing deep index slice) c fun built c' =>
      (∃ place, built = index place ∧ c.Passes place.words c' ∧ place.Shaped false) ∨
        ∃ first last step, built = slice first last step ∧
          c.Passes (first.words ++ sign .dotDot :: last.words ++ stepWords step) c' ∧
          first.Shaped false ∧ last.Shaped false ∧ stepShaped step := by
  refine .bind (meets_expr hdeep c) fun first c₁ ⟨hfirst, hshaped⟩ => ?_
  refine .ifEat (fun hdots => ?_) fun _ => .pure (.inl ⟨first, rfl, hfirst, hshaped⟩)
  refine .bind (meets_expr hdeep c₁.pass) fun last c₂ ⟨hlast, hshaped₁⟩ => ?_
  refine .bind (P := fun step c₃ => c₂.Passes (stepWords step) c₃ ∧ stepShaped step) ?_ ?_
  · refine .optionalAfter (fun hstep => ?_) fun _ => ⟨.refl c₂, trivial⟩
    exact (meets_expr hdeep c₂.pass).mono fun step c₃ h => ⟨(Passes.sign hstep rfl).trans h.1, h.2⟩
  · rintro step c₃ ⟨hstep, hshaped₂⟩
    refine .pure (.inr ⟨first, last, step, rfl, ?_, hshaped, hshaped₁, hshaped₂⟩)
    simpa using hfirst.trans ((Passes.sign hdots rfl).trans (hlast.trans hstep))

/-- A postfix form after a value, or the end of the chain: an instance stands only before
arguments, and then it is called. -/
theorem meets_postfixStep (value : Expr) (c : Cursor) :
    Meets (postfixStep deep value) c (StepKeeps
      (fun e c' => Extends value c e c' ∧ e.isInner = true ∧
        (value.Shaped (c.isAt .lParen) → ∀ called, e.Shaped called))
      fun e c' => e = value ∧ c' = c ∧ c.isAt .lParen = false) := by
  -- a field, an index or a range, a call, or nothing more
  refine .peek ?_
  split
  · rename_i hdot
    refine .advance (.bind (meets_ident _) fun field c' hfield =>
      .pure ⟨?_, rfl, fun hshaped _ => ?_⟩)
    · exact ⟨⟨_, by simp, rfl, (Passes.sign hdot rfl).trans hfield⟩, rfl, nofun⟩
    · rwa [isAt_of_peek hdot] at hshaped
  · rename_i hopen
    refine .advance (.bind (meets_indexing hdeep _) fun build c' hbuild => ?_)
    refine .expect fun hclose close => .pure ?_
    rcases hbuild with ⟨place, rfl, hplace, hplaceShaped⟩ |
      ⟨first, last, step, rfl, hrange, hrangeShaped⟩
    · refine ⟨⟨⟨_, ?_, by simp [Expr.words], (Passes.sign hopen rfl).trans
        (hplace.trans (.sign hclose rfl))⟩, rfl, nofun⟩, rfl, fun hshaped _ => ?_⟩
      · simp
      · rw [isAt_of_peek hopen] at hshaped
        exact ⟨hshaped, hplaceShaped⟩
    · refine ⟨⟨⟨_, ?_, by simp [Expr.words], (Passes.sign hopen rfl).trans
        (hrange.trans (.sign hclose rfl))⟩, rfl, nofun⟩, rfl, fun hshaped _ => ?_⟩
      · simp
      · rw [isAt_of_peek hopen] at hshaped
        exact ⟨hshaped, hrangeShaped⟩
  · rename_i hopen
    refine .advance (.bind (meets_exprList hdeep _ _) fun args c' hargs => ?_)
    refine .expect fun hclose close => .pure ⟨⟨⟨_, ?_, by simp [Expr.words],
      (Passes.sign hopen rfl).trans (hargs.1.trans (.sign hclose rfl))⟩, rfl, nofun⟩, rfl,
      fun hshaped _ => ?_⟩
    · simp
    · rw [isAt_of_peek hopen] at hshaped
      exact ⟨hshaped, hargs.2⟩
  · rename_i hopen
    exact .pure ⟨rfl, rfl, by simpa [Cursor.isAt] using hopen⟩

theorem meets_postfixes {c₀ c : Cursor} {value : Expr} (hvalue : c₀.Passes value.words c)
    (hshaped : value.Shaped (c.isAt .lParen)) :
    Meets (postfixes deep value) c fun e c' => c₀.Passes e.words c' ∧ e.Shaped false := by
  refine .iterate_of_progress (I := fun e c' =>
    c₀.Passes e.words c' ∧ e.Shaped (c'.isAt .lParen)) ⟨hvalue, hshaped⟩ ?_
  rintro e c' ⟨hpasses, hshaped⟩
  refine (meets_postfixStep hdeep e c').mono fun next c₁ hnext => ?_
  cases next with
  | done e => 
      obtain ⟨rfl, rfl, hopen⟩ := hnext
      exact ⟨hpasses, hopen ▸ hshaped⟩
  | yield e => exact ⟨⟨hnext.1.passes hpasses, hnext.2.2 hshaped _⟩, hnext.1.progress⟩

/-! ## Primary expressions -/

theorem meets_fieldInit (c : Cursor) :
    Meets (fieldInit deep) c fun init c' => c.Passes init.words c' ∧ init.value.Shaped false := by
  refine .here fun _ => .bind (meets_ident c) fun field c₁ hfield => .expect fun heq _ => ?_
  refine .bind (meets_expr hdeep _) fun value c₂ ⟨hvalue, hshaped⟩ => .spanFrom fun _ =>
    .pure ⟨?_, hshaped⟩
  exact hfield.trans (.eq heq hvalue (value.beginsPlain _ hshaped))

/-- A record, whose type has been passed. -/
theorem meets_record {c₀ c : Cursor} {start : Nat} {type : Reference}
    (htype : c₀.Passes type.words c) :
    Meets (record deep start type) c fun e c' =>
      c₀.Passes e.words c' ∧ ∀ called, e.Shaped called := by
  refine .expect fun hopen _ => .get ?_
  have hfields : ∀ base c₁, c.pass.Passes (baseWords base) c₁ →
      Meets (do
        let fields ← separated .rBrace [.comma, .semi] (fieldInit deep)
        let _ ← expect .rBrace
        return Expr.record (← spanFrom start) type base fields) c₁ fun e c' =>
          c₀.Passes e.words c' ∧ ∀ called, e.Shaped called := by
    intro base c₁ hbase
    refine .bind (meets_separated rfl (fun c => (meets_fieldInit hdeep c).mono
      fun _ _ h => ⟨h.1, fun _ => h.2⟩) c₁) fun fields c₂ hfields => ?_
    refine .expect fun hclose _ => .spanFrom fun _ => .pure ⟨?_, fun _ => ?_⟩
    · rw [Expr.words, FieldInit.listWords_eq]
      simpa using htype.trans ((Passes.sign hopen rfl).trans (hbase.trans
        (hfields.1.trans (.sign hclose rfl))))
    · exact (FieldInit.listShaped_iff fields).mpr (hfields.2 hclose)
  dsimp only
  split
  · rename_i hwith
    refine .bind (meets_reference _) fun base c₁ ⟨hbase, hrest⟩ =>
      .advance (hfields (some base) _ ?_)
    exact hbase.trans (.sign ((peek_eq_peekAt hrest).trans hwith.2) rfl)
  · exact hfields none _ (.refl _)

theorem meets_nameExpr (c : Cursor) :
    Meets (nameExpr deep) c fun e c' => c.Passes e.words c' ∧ e.Shaped (c'.isAt .lParen) := by
  refine .here fun _ => .bind (meets_reference c) fun name c₁ ⟨hname, _⟩ => .peek ?_
  split
  · refine .bind (hdeep.args c₁) fun args c₂ ⟨hargs, hshaped⟩ => ?_
    refine .ifAt (fun hopen => .spanFrom fun _ => .pure ⟨hname.trans hargs, ?_⟩) fun _ =>
      .spanFrom fun _ => .throw
    exact ⟨isAt_of_peek hopen _, rfl, hshaped⟩
  · exact (meets_record hdeep hname).mono fun e c' h => ⟨h.1, h.2 _⟩
  · exact .spanFrom fun _ => .pure ⟨hname, trivial⟩

omit hdeep in
theorem meets_pattern (c : Cursor) :
    Meets pattern c fun pattern c' => c.Passes pattern.words c' := by
  refine .peek ?_
  split
  · rename_i htrue
    exact .advance (.pure (.sign htrue rfl))
  · rename_i hfalse
    exact .advance (.pure (.sign hfalse rfl))
  · exact .bind (meets_reference c) fun ref c' h => .pure h.1
  · exact .missing

theorem meets_mergeArm (c : Cursor) :
    Meets (mergeArm deep) c fun arm c' => c.Passes arm.words c' ∧ arm.value.Shaped false := by
  refine .here fun _ => .expect fun hopen _ => .bind (meets_pattern _) fun pattern c₁ hpattern => ?_
  refine .expect fun harrow _ => .bind (meets_expr hdeep _) fun value c₂ ⟨hvalue, hshaped⟩ => ?_
  refine .expect fun hclose _ => .spanFrom fun _ => .pure ⟨?_, hshaped⟩
  simpa [MergeArm.words] using (Passes.sign hopen rfl).trans
    (hpattern.trans ((Passes.sign harrow rfl).trans
    (hvalue.trans (.sign hclose rfl))))

/-- A merge, whose keyword has been passed.  No parenthesis follows it, since that would have begun
another arm. -/
theorem meets_merge {c₀ c : Cursor} {start : Nat} (hmerge : c₀.Passes [sign .kwMerge] c) :
    Meets (merge deep start) c fun e c' => c₀.Passes e.words c' ∧ e.Shaped (c'.isAt .lParen) := by
  refine .bind (meets_ident c) fun clock c₁ hclock => ?_
  refine .bind (P := fun arms c' => (c₁.Passes (MergeArm.listWords arms) c' ∧
    MergeArm.listShaped arms) ∧ c'.isAt .lParen = false) ?_ ?_
  · refine .iterate_of_progress (I := fun arms c' => c₁.Passes (MergeArm.listWords arms) c' ∧
      MergeArm.listShaped arms) ⟨.refl _, trivial⟩ ?_
    rintro arms c' ⟨hpasses, hshaped⟩
    refine .ifAt (fun hopen => ?_) fun hopen =>
      .pure ⟨⟨hpasses, hshaped⟩, by simpa [Cursor.isAt] using hopen⟩
    refine .bind (meets_mergeArm hdeep c') fun arm c₂ hread => .pure ⟨⟨?_, ?_⟩, ?_⟩ <;>
      obtain ⟨harm, hvalue⟩ := hread
    · rw [MergeArm.listWords_eq] at hpasses ⊢
      simpa using hpasses.trans harm
    · rw [MergeArm.listShaped_iff] at hshaped ⊢
      intro other hother
      rcases List.mem_append.mp hother with hother | hother
      · exact hshaped other hother
      · rwa [List.mem_singleton.mp hother]
    · exact harm.shorter (by simp [MergeArm.words])
  · rintro arms c' ⟨⟨hpasses, hshaped⟩, hopen⟩
    split
    · exact .missing
    · rename_i hne
      refine .spanFrom fun _ => .pure ⟨hmerge.trans (hclock.trans hpasses), hopen, ?_, hshaped⟩
      simpa using hne

theorem meets_conditional {c₀ c : Cursor} {start : Nat} {opening : CondWord}
    (hopening : c₀.Passes [opening.word] c) :
    Meets (conditional deep start opening) c fun e c' =>
      c₀.Passes e.words c' ∧ ∀ called, e.Shaped called := by
  refine .bind (meets_expr hdeep c) fun condition c₁ ⟨hcondition, hshaped⟩ => ?_
  refine .expect fun hthen _ => .bind (meets_expr hdeep _) fun yes c₂ ⟨hyes, hshaped₁⟩ => ?_
  refine .expect fun helse _ => .bind (meets_expr hdeep _) fun no c₃ ⟨hno, hshaped₂⟩ => ?_
  refine .spanFrom fun _ => .pure ⟨?_, fun _ => ⟨hshaped, hshaped₁, hshaped₂⟩⟩
  simpa [Expr.words] using hopening.trans (hcondition.trans ((Passes.sign hthen rfl).trans
    (hyes.trans ((Passes.sign helse rfl).trans hno))))

theorem meets_operands {c₀ c : Cursor} {start : Nat} {op : ListOp}
    (hop : c₀.Passes [sign op.symbol] c) :
    Meets (operands deep start op) c fun e c' =>
      c₀.Passes e.words c' ∧ ∀ called, e.Shaped called := by
  refine .expect fun hopen _ => .bind (meets_exprList hdeep _ _) fun exprs c₁ hexprs => ?_
  refine .expect fun hclose _ => .spanFrom fun _ => .pure ⟨?_, fun _ => hexprs.2⟩
  simpa [Expr.words] using hop.trans
    ((Passes.sign hopen rfl).trans (hexprs.1.trans (.sign hclose rfl)))

omit hdeep in
/-- Passing a literal number. -/
theorem meets_takeText {c : Cursor} {kind : Kind} (hpeek : c.peek = some kind)
    (hkind : kind = .intLit ∨ kind = .realLit) :
    Meets takeText c fun text c' => c.Passes [plain kind text] c' := by
  rcases hrest : c.rest with _ | ⟨token, rest⟩
  · simp [Cursor.peek, hrest] at hpeek
  · have htoken : token.kind = kind := by simpa [Cursor.peek, hrest] using hpeek
    subst htoken
    refine .get (.advance (.pure ?_))
    have hword : token.word = plain token.kind token.text :=
      Token.word_of_class (by rcases hkind with h | h <;> rw [h] <;> rfl)
        (by rcases hkind with h | h <;> simp [h])
    have hpasses := Passes.token hrest (by rcases hkind with h | h <;> rw [h] <;> rfl)
      (by rcases hkind with h | h <;> simp [h]) (by rcases hkind with h | h <;> simp [h])
      (by rcases hkind with h | h <;> simp [h])
    simpa [hrest, hword] using hpasses

/-- A primary expression.  It may be followed by a parenthesis only if it may be called. -/
theorem meets_primary (c : Cursor) :
    Meets (primary deep) c fun e c' => c.Passes e.words c' ∧ e.Shaped (c'.isAt .lParen) := by
  refine .here fun _ => .peek ?_
  split
  · rename_i h
    exact .bind (meets_takeText h (.inl rfl)) fun digits c' hpasses =>
      .spanFrom fun _ => .pure ⟨hpasses, trivial⟩
  · rename_i h
    exact .bind (meets_takeText h (.inr rfl)) fun digits c' hpasses =>
      .spanFrom fun _ => .pure ⟨hpasses, trivial⟩
  · rename_i h
    exact .advance (.spanFrom fun _ => .pure ⟨.sign h rfl, trivial⟩)
  · rename_i h
    exact .advance (.spanFrom fun _ => .pure ⟨.sign h rfl, trivial⟩)
  · exact meets_nameExpr hdeep c
  · rename_i h
    refine .advance (.bind (meets_exprList hdeep _ _) fun items c₁ hitems => ?_)
    refine .expect fun hclose _ => .spanFrom fun _ => .pure ⟨?_, hitems.2⟩
    simpa [Expr.words] using (Passes.sign h rfl).trans (hitems.1.trans (.sign hclose rfl))
  · rename_i h
    refine .advance (.bind (meets_exprList hdeep _ _) fun items c₁ hitems => ?_)
    refine .expect fun hclose _ => .spanFrom fun _ => .pure ⟨?_, hitems.2⟩
    simpa [Expr.words] using (Passes.sign h rfl).trans (hitems.1.trans (.sign hclose rfl))
  · rename_i h
    exact .advance ((meets_conditional hdeep (.sign h rfl)).mono fun _ _ h => ⟨h.1, h.2 _⟩)
  · rename_i h
    exact .advance ((meets_conditional hdeep (.sign h rfl)).mono fun _ _ h => ⟨h.1, h.2 _⟩)
  · rename_i h
    exact .advance (meets_merge hdeep (.sign h rfl))
  · rename_i h
    exact .advance ((meets_operands hdeep (.sign h rfl)).mono fun _ _ h => ⟨h.1, h.2 _⟩)
  · rename_i h
    exact .advance ((meets_operands hdeep (.sign h rfl)).mono fun _ _ h => ⟨h.1, h.2 _⟩)
  · exact .missing

/-! ## Operators -/

theorem meets_prefixed (c : Cursor) :
    Meets (prefixed deep) c fun e c' => c.Passes e.words c' ∧ e.Shaped false := by
  refine .peek ?_
  split
  · rename_i op hop
    obtain ⟨kind, hkind, hop⟩ := Option.bind_eq_some_iff.mp hop
    obtain rfl := UnaryOp.symbol_of_ofKind? hop
    refine .here fun _ => .advance (.bind (hdeep.inner _ _)
      fun operand c' ⟨⟨hoperand, hshaped⟩, hinner⟩ => .pure ⟨?_, hinner, hshaped⟩)
    exact (Passes.sign hkind op.symbol_steady).trans hoperand
  · exact .bind (meets_primary hdeep c) fun e c' ⟨he, hshaped⟩ => meets_postfixes hdeep he hshaped

omit hdeep in
/-- A primary expression that is no name is none of those that matter for what follows. -/
theorem meets_primary_opens (c : Cursor) :
    Meets (primary deep) c fun e c' => e.Opens c c' ∧ e.isInner = true := by
  have hatomic : ∀ {e : Expr} {c c' : Cursor}, e.Atomic → e.Opens c c' ∧ e.isInner = true :=
    fun h => ⟨.of_atomic h, h.inner⟩
  have hconditional : ∀ start opening c,
      Meets (conditional deep start opening) c fun e _ => e.Atomic := fun _ _ _ =>
    .bind .any fun _ _ _ => .bind .any fun _ _ _ => .bind .any fun _ _ _ => .bind .any fun _ _ _ =>
      .bind .any fun _ _ _ => .spanFrom fun _ => .pure ⟨rfl, rfl, rfl⟩
  have hoperands : ∀ start op c, Meets (operands deep start op) c fun e _ => e.Atomic :=
    fun _ _ _ => .bind .any fun _ _ _ => .bind .any fun _ _ _ => .bind .any fun _ _ _ =>
      .spanFrom fun _ => .pure ⟨rfl, rfl, rfl⟩
  -- a record begins with the name of its type, which is passed already
  have hrecord : ∀ start type c, Meets (record deep start type) c fun e _ => e.Atomic := by
    intro start type c
    refine .bind .any fun _ _ _ => .get ?_
    have hfields : ∀ base c, Meets (do
        let fields ← separated .rBrace [.comma, .semi] (fieldInit deep)
        let _ ← expect .rBrace
        return Expr.record (← spanFrom start) type base fields) c fun e _ => e.Atomic := fun _ _ =>
      .bind .any fun _ _ _ => .bind .any fun _ _ _ => .spanFrom fun _ => .pure ⟨rfl, rfl, rfl⟩
    dsimp only
    split
    · exact .bind .any fun _ _ _ => .advance (hfields _ _)
    · exact hfields _ _
  -- only a name says more than that it is atomic
  refine .here fun _ => .peek ?_
  split
  · exact .bind .any fun _ _ _ => .spanFrom fun _ => .pure (hatomic ⟨rfl, rfl, rfl⟩)
  · exact .bind .any fun _ _ _ => .spanFrom fun _ => .pure (hatomic ⟨rfl, rfl, rfl⟩)
  · exact .advance (.spanFrom fun _ => .pure (hatomic ⟨rfl, rfl, rfl⟩))
  · exact .advance (.spanFrom fun _ => .pure (hatomic ⟨rfl, rfl, rfl⟩))
  · rename_i hname
    refine .here fun _ => .bind ((meets_reference c).and (meets_reference_plain c))
      fun ref c₁ ⟨⟨_, hwhole⟩, hplain⟩ => .peek ?_
    split
    · refine .bind .any fun _ _ _ => .isAt (fun _ => ?_) fun _ => ?_
      · exact .spanFrom fun _ => .pure (hatomic ⟨rfl, rfl, rfl⟩)
      · exact .spanFrom fun _ => .throw
    · exact (hrecord _ _ _).mono fun _ _ h => hatomic h
    · refine .spanFrom fun _ =>
        .pure ⟨⟨fun _ => hname, fun _ => hwhole, fun h => hplain ?_, nofun⟩, rfl⟩
      simpa [Expr.isPlainName] using h
  · exact .advance (.bind .any fun _ _ _ => .bind .any fun _ _ _ => .spanFrom fun _ =>
      .pure (hatomic ⟨rfl, rfl, rfl⟩))
  · exact .advance (.bind .any fun _ _ _ => .bind .any fun _ _ _ => .spanFrom fun _ =>
      .pure (hatomic ⟨rfl, rfl, rfl⟩))
  · exact .advance ((hconditional _ _ _).mono fun _ _ h => hatomic h)
  · exact .advance ((hconditional _ _ _).mono fun _ _ h => hatomic h)
  · refine .advance (.bind .any fun _ _ _ => .bind .any fun arms _ _ => ?_)
    split
    · exact .missing
    · exact .spanFrom fun _ => .pure (hatomic ⟨rfl, rfl, rfl⟩)
  · exact .advance ((hoperands _ _ _).mono fun _ _ h => hatomic h)
  · exact .advance ((hoperands _ _ _).mono fun _ _ h => hatomic h)
  · exact .missing

theorem meets_prefixed_opens (c : Cursor) :
    Meets (prefixed deep) c fun e c' => e.Opens c c' ∧ e.isInner = true := by
  refine .peek ?_
  split
  · exact .here fun _ => .advance (.bind .any fun _ _ _ =>
      .pure ⟨.of_atomic ⟨rfl, rfl, rfl⟩, rfl⟩)
  · refine .bind (meets_primary_opens c) fun value c₁ hvalue => ?_
    refine .iterate (I := fun e c' => e.Opens c c' ∧ e.isInner = true) hvalue (fun e c' he => ?_)
      fun _ _ h => h
    refine (meets_postfixStep hdeep e c').mono fun next c₂ hnext => ?_
    cases next with
    | done e => exact hnext.1 ▸ hnext.2.1 ▸ he
    | yield e => exact ⟨he.1.extend hnext.1, hnext.2.1⟩

/-- An operator with its right operand, or a clock, after a left operand, or the end of the
chain. -/
theorem meets_innerStep (min : Nat) (lhs : Expr) (c : Cursor) :
    Meets (innerStep deep min lhs) c (StepKeeps
      (fun e c' => Extends lhs c e c' ∧ e.isInner = true ∧
        (lhs.isInner = true → lhs.Shaped false → e.Shaped false))
      fun e c' => e = lhs ∧ c' = c) := by
  refine .ifAt (fun hwhen => ?_) fun _ => .peek ?_
  · split
    · exact .pure ⟨rfl, rfl⟩
    · refine .advance (.bind (meets_clock _) fun clock c' hclock => .pure ⟨?_, rfl, .intro⟩)
      exact ⟨⟨_, by simp, rfl, (Passes.sign hwhen rfl).trans hclock⟩, rfl, nofun⟩
  · split
    · rename_i op hop
      obtain ⟨kind, hkind, hop⟩ := Option.bind_eq_some_iff.mp hop
      obtain ⟨rfl, htier⟩ := BinaryOp.symbol_of_inTier? hop
      split
      · exact .pure ⟨rfl, rfl⟩
      · refine .advance (.bind (hdeep.inner _ _)
          fun rhs c' ⟨⟨hrhs, hshaped⟩, hinner⟩ => .pure ⟨?_, beq_iff_eq.mpr htier,
            fun hlhs hlhsShaped => ⟨.inr ⟨hlhs, hinner⟩, hlhsShaped, hshaped⟩⟩)
        have hne : op ≠ .eq := by
          rintro rfl
          cases htier
        exact ⟨⟨_, by simp, rfl, (Passes.sign hkind (BinaryOp.symbol_steady hne)).trans hrhs⟩,
          rfl, by simp [binary, Expr.opensEquation, hne]⟩
    · exact .pure ⟨rfl, rfl⟩

theorem meets_inner (min : Nat) (c : Cursor) :
    Meets (inner deep min) c fun e c' => (c.Passes e.words c' ∧ e.Shaped false) ∧
    e.isInner = true := by
  refine .bind ((meets_prefixed hdeep c).and (meets_prefixed_opens hdeep c))
    fun first c₁ hfirst => ?_
  refine .iterate_of_progress (I := fun e c' =>
    (c.Passes e.words c' ∧ e.Shaped false) ∧ e.isInner = true) ⟨hfirst.1, hfirst.2.2⟩ ?_
  rintro e c' ⟨⟨hpasses, hshaped⟩, hinner⟩
  refine (meets_innerStep hdeep min e c').mono fun next c₂ hnext => ?_
  cases next with
  | done e =>
      obtain ⟨rfl, rfl⟩ := hnext
      exact ⟨⟨hpasses, hshaped⟩, hinner⟩
  | yield e =>
      exact ⟨⟨⟨hnext.1.passes hpasses, hnext.2.2 hinner hshaped⟩, hnext.2.1⟩, hnext.1.progress⟩

theorem meets_comparison (c : Cursor) :
    Meets (comparison deep) c fun e c' => c.Passes e.words c' ∧ e.Shaped false := by
  refine .bind (meets_inner hdeep 0 c) fun lhs c₁ ⟨⟨hlhs, hlhsShaped⟩, hlhsInner⟩ => .peek ?_
  split
  · rename_i op hop
    obtain ⟨kind, hkind, hop⟩ := Option.bind_eq_some_iff.mp hop
    obtain ⟨rfl, htier⟩ := BinaryOp.symbol_of_inTier? hop
    refine .advance (.bind (meets_inner hdeep 0 _) fun rhs c₂ ⟨⟨hrhs, hrhsShaped⟩, hrhsInner⟩ =>
      .peek ?_)
    split
    · exact .fail
    · refine .pure ⟨?_, .inr ⟨hlhsInner, hrhsInner⟩, hlhsShaped, hrhsShaped⟩
      by_cases heq : op = .eq
      · subst heq
        exact hlhs.trans (.eq hkind hrhs (rhs.beginsPlain _ hrhsShaped))
      · exact hlhs.trans ((Passes.sign hkind (BinaryOp.symbol_steady heq)).trans hrhs)
  · exact .pure ⟨hlhs, hlhsShaped⟩

/-- An operator of the top tier with its right operand after a left operand, or the end of the
chain. -/
theorem meets_topStep (min : Nat) (lhs : Expr) (c : Cursor) :
    Meets (topStep deep min lhs) c (StepKeeps
      (fun e c' => Extends lhs c e c' ∧ (lhs.Shaped false → e.Shaped false))
      fun e c' => e = lhs ∧ c' = c) := by
  refine .peek ?_
  split
  · rename_i op hop
    obtain ⟨kind, hkind, hop⟩ := Option.bind_eq_some_iff.mp hop
    obtain ⟨rfl, htier⟩ := BinaryOp.symbol_of_inTier? hop
    split
    · exact .pure ⟨rfl, rfl⟩
    · refine .advance (.bind (hdeep.top _ _) fun rhs c' ⟨hrhs, hshaped⟩ =>
        .pure ⟨?_, fun hlhs => ⟨.inl htier, hlhs, hshaped⟩⟩)
      have hne : op ≠ .eq := by
        rintro rfl
        cases htier
      exact ⟨⟨_, by simp, rfl, (Passes.sign hkind (BinaryOp.symbol_steady hne)).trans hrhs⟩,
        rfl, by simp [binary, Expr.opensEquation, hne]⟩
  · exact .pure ⟨rfl, rfl⟩

theorem meets_top (min : Nat) (c : Cursor) :
    Meets (top deep min) c fun e c' => c.Passes e.words c' ∧ e.Shaped false := by
  refine .bind (meets_comparison hdeep c) fun first c₁ hfirst => ?_
  refine .iterate_of_progress (I := fun e c' => c.Passes e.words c' ∧ e.Shaped false) hfirst ?_
  rintro e c' ⟨hpasses, hshaped⟩
  refine (meets_topStep hdeep min e c').mono fun next c₂ hnext => ?_
  cases next with
  | done e =>
      obtain ⟨rfl, rfl⟩ := hnext
      exact ⟨hpasses, hshaped⟩
  | yield e => exact ⟨⟨hnext.1.passes hpasses, hnext.2 hshaped⟩, hnext.1.progress⟩

/-! ## What expressions begin with -/

theorem meets_inner_opens (min : Nat) (c : Cursor) :
    Meets (inner deep min) c fun e c' => e.Opens c c' := by
  refine .bind (meets_prefixed_opens hdeep c) fun first c₁ hfirst => ?_
  refine .iterate (I := fun e c' => e.Opens c c') hfirst.1 (fun e c' he => ?_) fun _ _ h => h
  refine (meets_innerStep hdeep min e c').mono fun next c₂ hnext => ?_
  cases next with
  | done e => exact hnext.1 ▸ hnext.2 ▸ he
  | yield e => exact he.extend hnext.1

theorem meets_top_opens (min : Nat) (c : Cursor) :
    Meets (top deep min) c fun e c' => e.Opens c c' := by
  refine .bind (P := fun e c' => e.Opens c c') ?_ fun first c₁ hfirst => ?_
  · refine .bind (meets_inner_opens hdeep 0 c) fun lhs c₁ hlhs => .peek ?_
    split
    · rename_i op hop
      obtain ⟨kind, hkind, hop⟩ := Option.bind_eq_some_iff.mp hop
      obtain ⟨rfl, htier⟩ := BinaryOp.symbol_of_inTier? hop
      refine .advance (.bind .any fun _ _ _ => .peek ?_)
      split
      · exact .fail
      · exact .pure (hlhs.binary hkind)
    · exact .pure hlhs
  · refine .iterate (I := fun e c' => e.Opens c c') hfirst (fun e c' he => ?_) fun _ _ h => h
    refine (meets_topStep hdeep min e c').mono fun next c₂ hnext => ?_
    cases next with
    | done e => exact hnext.1 ▸ hnext.2 ▸ he
    | yield e => exact he.extend hnext.1

end

end Read

end Lustre
