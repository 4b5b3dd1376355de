import Lustre.Parse
import Lustre.Proofs.Reader.Sparing
import Mathlib.Data.List.Chain

/-!
# The words of an expression stand as in its text

In general the words of a tree are those of its text in normal form, where the keyword in
`n = type t` has moved before the name.  In an expression no such keyword moves: it stands only
where a static argument begins, and before that is `<<` or a separator, never an `=`.

What the readers of expressions pass is therefore `Unmoved`.  A static argument alone may begin
with a keyword, so its tokens are only `Explicit`; they are unmoved again behind the `<<` or the
separator before it (`Opened`).
-/

namespace Lustre

variable {α β : Type}

/-! ## Tokens in normal form -/

/-- Not an `=` and the keyword of an explicit argument. -/
def StaysBehind (first second : Token) : Prop :=
  first.kind = .eq → second.kind.isArgKeyword = false

/-- No keyword stands directly behind an `=`. -/
def Explicit (tokens : List Token) : Prop := tokens.IsChain StaysBehind

/-- No keyword does, nor would one if an `=` came before all of them. -/
structure Unmoved (tokens : List Token) : Prop where
  explicit : Explicit tokens
  head : ∀ token ∈ tokens.head?, token.kind.isArgKeyword = false

/-- A keyword may come next. -/
structure Opened (tokens : List Token) : Prop where
  unmoved : Unmoved tokens
  last : ∃ token, tokens.getLast? = some token ∧ token.kind ≠ .eq

theorem Explicit.append {first last : List Token} (hfirst : Explicit first) (hlast : Explicit last)
    (hjoin : ∀ token ∈ first.getLast?, ∀ next ∈ last.head?, StaysBehind token next) :
    Explicit (first ++ last) :=
  List.isChain_append.mpr ⟨hfirst, hlast, hjoin⟩

theorem Kind.isArgKeyword_of_not_marked {kind : Kind} (h : kind.isMarked = false) :
    kind.isArgKeyword = false := by
  cases kind <;> first | rfl | cases h

theorem Unmoved.single {token : Token} (h : token.kind.isArgKeyword = false) : Unmoved [token] := by
  refine ⟨.singleton _, fun other hmem => ?_⟩
  cases hmem
  exact h

instance : Lenient Unmoved where
  nil := ⟨.nil, fun _ hmem => by cases hmem⟩
  append {first last} hfirst hlast := by
    refine ⟨hfirst.explicit.append hlast.explicit fun _ _ next hnext _ => hlast.head next hnext,
      fun token hmem => ?_⟩
    cases first with
    | nil => exact hlast.head token hmem
    | cons head first => exact hfirst.head token hmem
  plain h := .single (Kind.isArgKeyword_of_not_marked h)

instance : (Course.passing Unmoved).Admits .gtGt :=
  ⟨fun hpeek => .of_pass hpeek fun _ htoken => .single (htoken ▸ rfl)⟩

/-- Where no keyword is about to move, none does. -/
theorem settled_of_explicit {token : Token} {rest : List Token} (h : Explicit (token :: rest))
    (htoken : token.kind ≠ .eq) : Settled rest := by
  induction rest generalizing token with
  | nil => rfl
  | cons next rest ih =>
      have hlater : Explicit (next :: rest) := (List.isChain_cons_cons.mp h).2
      rw [Settled, argKeyword?]
      split
      · rename_i hpragma
        exact ih hlater (by rw [hpragma]; decide)
      · split
        · rename_i heq
          refine Option.filter_eq_none_iff.mpr fun keyword hmem => ?_
          rw [(List.isChain_cons.mp hlater).1 keyword hmem heq]
          exact Bool.false_ne_true
        · rfl

theorem keywordsFirst_of_explicit {tokens : List Token} (h : Explicit tokens) :
    keywordsFirst .nothing tokens = tokens := by
  induction tokens with
  | nil => rfl
  | cons token rest ih =>
      have hrest := ih (List.isChain_cons.mp h).2
      by_cases hident : token.kind = .ident
      · rw [keywordsFirst_ident (settled_of_explicit h (by rw [hident]; decide)), hrest]
      · rw [keywordsFirst_cons hident, hrest]

theorem withoutSeparators_of_none {tokens : List Token} (h : NoneOf .kwTel tokens) :
    withoutSeparators tokens = tokens.filter fun token => !token.kind.isSeparator := by
  induction tokens with
  | nil => rfl
  | cons token rest ih =>
      have hrest := ih fun other hmem => h other (List.mem_cons_of_mem _ hmem)
      by_cases hseparator : token.kind.isSeparator = true
      · rw [withoutSeparators_separator hseparator, hrest, List.filter_cons_of_neg
          (by simp [hseparator])]
      · have htel : token.kind ≠ .kwTel := h token List.mem_cons_self
        rw [withoutSeparators_cons (Bool.eq_false_iff.mpr hseparator) fun heq =>
          absurd heq htel, hrest, List.filter_cons_of_pos (by simp [hseparator])]

/-- Only the separators are lost then. -/
theorem normal_of_explicit {tokens : List Token} (h : Explicit tokens)
    (htel : NoneOf .kwTel tokens) :
    normal tokens = tokens.filter fun token => !token.kind.isSeparator := by
  rw [normal, keywordsFirst_of_explicit h, withoutSeparators_of_none htel]

/-! ## Static arguments -/

theorem Opened.unmoved_append {first last : List Token} (hfirst : Opened first)
    (hlast : Explicit last) : Unmoved (first ++ last) := by
  obtain ⟨before, hbefore, hne⟩ := hfirst.last
  refine ⟨hfirst.unmoved.explicit.append hlast fun token htoken next _ heq => ?_,
    fun token htoken => ?_⟩
  · obtain rfl : token = before := Option.some.inj (htoken.symm.trans hbefore)
    exact absurd heq hne
  · cases first with
    | nil => cases hbefore
    | cons head first => exact hfirst.unmoved.head token htoken

theorem Unmoved.opened_concat {tokens : List Token} (h : Unmoved tokens) {token : Token}
    (hmarked : token.kind.isMarked = false) (heq : token.kind ≠ .eq) : Opened (tokens ++ [token]) :=
  ⟨Lenient.append h (Lenient.plain hmarked), token, by simp, heq⟩

namespace Cursor.Past

variable {start c c₁ : Cursor}

/-- Over a static argument behind the `<<` or the separator. -/
theorem argument (h : start.Past Opened c) (harg : c.Past Explicit c₁) : start.Past Unmoved c₁ := by
  refine (h.append harg).mono fun passed h => ?_
  obtain ⟨first, last, rfl, hfirst, hlast⟩ := h
  exact hfirst.unmoved_append hlast

/-- Over the `<<` or a separator. -/
theorem opened {kind : Kind} (h : start.Past Unmoved c) (hpeek : c.peek = some kind)
    (hmarked : kind.isMarked = false) (heq : kind ≠ .eq) : start.Past Opened c.pass := by
  refine (h.append (of_pass (P := fun passed => ∃ token, passed = [token] ∧ token.kind = kind) hpeek
    fun token htoken => ⟨token, rfl, htoken⟩)).mono fun passed h => ?_
  obtain ⟨first, last, rfl, hfirst, token, rfl, rfl⟩ := h
  exact hfirst.opened_concat hmarked heq

end Cursor.Past

namespace Spares

variable {c : Cursor}

/-- Steps that leave off where another may begin. -/
theorem iterate {J : Course} {start : Cursor} {step : α → Read (ForInStep α)} {a : α}
    {I : Cursor → Prop} (hI : ∀ c, I c → J start none c)
    (hstep : ∀ a c, I c → Spares J start (step a) c ∧
      Meets (step a) c (StepKeeps (fun _ => I) fun _ _ => True)) (h : I c) :
    Spares J start (Read.iterate a step) c := by
  have hloop : ∀ bound a c, I c → Spares J start (iterateUpTo step bound a) c := by
    intro bound
    induction bound with
    | zero => exact fun a c hc => hI c hc
    | succ bound ih =>
        intro a c hc
        obtain ⟨hspares, hmeets⟩ := hstep a c hc
        refine hspares.bind fun next c' hread hpast => ?_
        cases next with
        | done a => exact hpast
        | yield a => exact ih a c' (hmeets _ _ hread)
  exact hloop _ a c h

/-- What begins with a keyword goes on without one. -/
theorem keyword {next : Unit → Read β} {kind : Kind} (hpeek : c.peek = some kind)
    (hkind : kind ≠ .eq) [hnext : Sparing (.passing Unmoved) (next ())] :
    Spares (.passing Explicit) c (Read.advance >>= next) c := by
  have hpass : c.Past (fun passed => ∃ token, passed = [token] ∧ token.kind = kind) c.pass :=
    .of_pass hpeek fun token htoken => ⟨token, rfl, htoken⟩
  refine (hpass.append (hnext.spares c.pass)).mono fun passed h => ?_
  obtain ⟨first, last, rfl, ⟨token, rfl, rfl⟩, hlast⟩ := h
  refine Explicit.append (.singleton _) hlast.explicit fun other hother next _ heq => ?_
  cases hother
  exact absurd heq hkind

theorem explicit {read : Read α} (h : Spares (.passing Unmoved) c read c) :
    Spares (.passing Explicit) c read c :=
  Cursor.Past.mono h fun _ hpassed => hpassed.explicit

end Spares

namespace Read

variable (deep : Nested) [hdeep : deep.Sparing (.passing Unmoved)]

theorem explicit_staticArg (close : Kind) (c : Cursor) :
    Spares (.passing Explicit) c (staticArg deep close) c := by
  refine .get ?_
  dsimp only
  split
  · rename_i op hop
    obtain ⟨kind, hpeek, hkind⟩ := Option.bind_eq_some_iff.mp (Option.filter_eq_some_iff.mp hop).1
    have : IsFalse kind.isMarked := ⟨PredefinedOp.isMarked_of_ofKind? hkind⟩
    exact .explicit (.advance hpeek)
  · split
    · exact .keyword ‹_› (by decide)
    · exact .keyword ‹_› (by decide)
    · exact .keyword ‹_› (by decide)
    · exact .keyword ‹_› (by decide)
    · exact .explicit (Sparing.spares c)
    · exact .explicit (Sparing.spares c)
    · exact .explicit (Sparing.spares c)
    · exact .explicit (Sparing.spares c)
    · exact .explicit (Sparing.spares c)

/-- The separators of static arguments. -/
theorem opened_eatAny {start c c' : Cursor} (h : start.Past Unmoved c)
    (hread : eatAny [.comma, .semi] c = .ok true c') : start.Past Opened c' := by
  by_cases hcomma : c.peek = some .comma
  · rw [eatAny_of_peek hcomma (by decide)] at hread
    cases hread
    exact h.opened hcomma rfl (by decide)
  · by_cases hsemi : c.peek = some .semi
    · rw [eatAny_of_peek hsemi (by decide)] at hread
      cases hread
      exact h.opened hsemi rfl (by decide)
    · rw [eatAny_of_ne fun kind hmem => by
        simp only [List.mem_cons, List.not_mem_nil, or_false] at hmem
        rcases hmem with rfl | rfl
        · exact hcomma
        · exact hsemi] at hread
      cases hread

/-- Static arguments up to the `>>`, behind the `<<`. -/
theorem unmoved_separated {start c : Cursor} (h : start.Past Opened c) :
    Spares (.passing Unmoved) start (separated .gtGt [.comma, .semi] (staticArg deep .gtGt)) c := by
  refine .iterate (I := fun c' => start.Past Opened c')
    (fun c' hc' => hc'.mono fun _ hpassed => hpassed.unmoved) (fun args c' hc' => ?_) h
  have hunmoved : start.Past Unmoved c' := hc'.mono fun _ hpassed => hpassed.unmoved
  constructor
  · refine .ifAt (fun _ => hunmoved) ?_
    refine Spares.bind (hc'.argument (explicit_staticArg deep .gtGt c')) fun arg c₁ _ hpast => ?_
    refine Spares.bind (.later hpast) fun found c₂ _ hpast₂ => ?_
    cases found <;> exact hpast₂
  · refine .ifAt (fun _ => .pure trivial) fun _ => ?_
    refine .bind (P := fun _ c₁ => start.Past Unmoved c₁) (fun arg c₁ hread => ?_)
      fun arg c₁ hpast => ?_
    · have harg := hc'.argument (explicit_staticArg deep .gtGt c')
      rwa [hread] at harg
    · refine .bind (P := fun found c₂ => found = true → start.Past Opened c₂)
        (fun found c₂ hread => ?_)
        fun found c₂ hfound => ?_
      · rintro rfl
        exact opened_eatAny hpast hread
      · cases found
        · exact .pure trivial
        · exact .pure (hfound rfl)

instance unmoved_staticArgs : Sparing (.passing Unmoved) (staticArgs deep) where
  spares c := by
    by_cases hpeek : c.peek = some .ltLt
    · have hopened : c.Past Opened c.pass :=
        (Cursor.Past.refl c).opened hpeek rfl (by decide)
      refine Spares.bind (by rw [Spares, expect_of_peek hpeek]; exact Course.Lenient.pass hpeek rfl)
        fun span c₁ hread _ => ?_
      rw [expect_of_peek hpeek] at hread
      cases hread
      exact (unmoved_separated deep hopened).bind fun args c₂ _ hpast => .later hpast
    · change c.Past Unmoved (finalState ((expect .ltLt >>= _) c))
      rw [bind_of_error (expect_of_ne hpeek)]
      exact .refl c

end Read

instance Nested.unmoved_upTo (levels : Nat) : (upTo levels).Sparing (.passing Unmoved) := by
  induction levels with
  | zero => exact sparing_exhausted
  | succ levels ih =>
      exact ⟨Read.sparing_top _, Read.sparing_inner _, Read.unmoved_staticArgs _⟩

/-- An expression that no token follows is flattened to the tokens before it, less the
separators. -/
theorem Recover.meets_wholeExpr (levels : Nat) (c : Cursor) :
    Meets (wholeExpr (.upTo levels)) c fun expr _ => expr.Shaped false ∧
      expr.words = (c.rest.filter fun token => !token.kind.isSeparator).map Token.word := by
  have hmoved : Meets (Nested.upTo levels).expr c fun _ c' => c.Past Unmoved c' := by
    intro expr c' hread
    have hspares := (Read.sparing_deepExpr (.upTo levels)).spares c (J := .passing Unmoved)
    rwa [Spares, hread] at hspares
  have htel : Meets (Nested.upTo levels).expr c fun _ c' => c.Past (NoneOf .kwTel) c' := by
    intro expr c' hread
    have hspares := (Read.sparing_deepExpr (.upTo levels)).spares c (J := .passing (NoneOf .kwTel))
    rwa [Spares, hread] at hspares
  refine .bind ((Read.meets_expr (Nested.faithful_upTo levels) c).and (hmoved.and htel))
    fun expr c' h => .get ?_
  obtain ⟨⟨hpasses, hshaped⟩, ⟨tokens, hrest, hunmoved⟩, others, hrest', hnone⟩ := h
  split
  · rename_i hend
    have hend : c'.rest = [] := List.isEmpty_iff.mp hend
    rw [hend, List.append_nil] at hrest hrest'
    have hspelt := hpasses.spelt (by rw [hend]; exact settled_nil)
    have hlast : c'.words = [] := by rw [Cursor.words, hend]; rfl
    rw [hlast, List.append_nil, Cursor.words, hrest,
      normal_of_explicit hunmoved.explicit (hrest ▸ hrest' ▸ hnone)] at hspelt
    exact .pure ⟨hshaped, by rw [hrest]; exact hspelt.symm⟩
  · exact .missing

end Lustre
