import Lustre.Proofs.Reader.Sparing

/-!
# Nothing is read beyond a semicolon

A semicolon stands in an expression only between the fields of a record or between static
arguments.  Where none of these can begin, the readers of expressions and of left-hand sides stop
at the first semicolon to come, whether they succeed or fail, and do not look farther.

So two cursors with the same tokens up to such a semicolon, whatever stands behind it, are read in
the same way (`Fence.Beside`, `Fenced`), and the semicolon is still to come for both of them.
-/

namespace Lustre

variable {α β : Type}

/-! ## Two cursors before the same semicolon -/

/-- A semicolon and what may stand behind it. -/
structure Fence where
  close : Token
  semi : close.kind = .semi
  later : List Token
  later' : List Token

/-- Whether a token is a semicolon. -/
@[reducible]
def Kind.isSemi : Kind → Bool
  | .semi => true
  | _ => false

/-- Whether a token is no semicolon and opens nothing in which one can stand. -/
@[reducible]
def Kind.isPlain : Kind → Bool
  | .semi | .lBrace | .ltLt => false
  | _ => true

namespace Fence

variable {F : Fence} {c d : Cursor}

/-- The same plain tokens are to come for both cursors, and then the fence. -/
structure Beside (F : Fence) (c d : Cursor) : Prop where
  rest : ∃ words, c.rest = words ++ F.close :: F.later ∧ d.rest = words ++ F.close :: F.later' ∧
    ∀ token ∈ words, token.kind.isPlain = true
  last : d.last = c.last

/-- The answer or the failure is the same, before the fence. -/
inductive Same (F : Fence) :
    EStateM.Result Diagnostic Cursor α → EStateM.Result Diagnostic Cursor α → Prop
  | ok (a : α) {c d : Cursor} (h : F.Beside c d) : F.Same (.ok a c) (.ok a d)
  | error (e : Diagnostic) {c d : Cursor} (h : F.Beside c d) : F.Same (.error e c) (.error e d)

/-- A reader does the same from both cursors. -/
def Agree (F : Fence) (read : Read α) (c d : Cursor) : Prop := F.Same (read c) (read d)

namespace Beside

variable (h : F.Beside c d)
include h

/-- The next token is the same, and there is one. -/
theorem head : ∃ token rest rest', c.rest = token :: rest ∧ d.rest = token :: rest' ∧
    (token.kind = .semi ∨ token.kind.isPlain = true ∧ F.Beside c.pass d.pass) := by
  obtain ⟨⟨words, hc, hd, hplain⟩, -⟩ := h
  cases words with
  | nil => exact ⟨F.close, _, _, hc, hd, .inl F.semi⟩
  | cons token words =>
      refine ⟨token, _, _, hc, hd, .inr ⟨hplain token List.mem_cons_self, ?_⟩⟩
      have hpass : c.pass = ⟨words ++ F.close :: F.later, token.span.stop, c.size⟩ := by
        rw [Cursor.pass, hc]
        rfl
      have hpass' : d.pass = ⟨words ++ F.close :: F.later', token.span.stop, d.size⟩ := by
        rw [Cursor.pass, hd]
        rfl
      rw [hpass, hpass']
      exact ⟨⟨words, rfl, rfl, fun other hmem => hplain other (List.mem_cons_of_mem _ hmem)⟩, rfl⟩

theorem peek : d.peek = c.peek := by
  obtain ⟨token, rest, rest', hc, hd, -⟩ := h.head
  rw [Cursor.peek, Cursor.peek, hc, hd]
  rfl

theorem isAt (kind : Kind) : d.isAt kind = c.isAt kind := by
  rw [Cursor.isAt, Cursor.isAt, h.peek]

theorem span : d.span = c.span := by
  obtain ⟨token, rest, rest', hc, hd, -⟩ := h.head
  rw [Cursor.span, Cursor.span, hc, hd]

theorem found : d.found = c.found := by
  obtain ⟨token, rest, rest', hc, hd, -⟩ := h.head
  rw [Cursor.found, Cursor.found, hc, hd]
  rfl

theorem spanFrom (start : Nat) : d.spanFrom start = c.spanFrom start := by
  rw [Cursor.spanFrom, Cursor.spanFrom, h.last]

theorem unexpected (options : List Kind) : d.unexpected options = c.unexpected options := by
  rw [Cursor.unexpected, Cursor.unexpected, h.found, h.span]

theorem missing (wanted : Wanted) : d.missing wanted = c.missing wanted := by
  rw [Cursor.missing, Cursor.missing, h.found, h.span]

theorem pass {kind : Kind} (hpeek : c.peek = some kind) (hkind : kind ≠ .semi) :
    F.Beside c.pass d.pass := by
  obtain ⟨token, rest, rest', hc, -, hnext⟩ := h.head
  have htoken : token.kind = kind := by simpa [Cursor.peek, hc] using hpeek
  rcases hnext with hsemi | ⟨-, hpass⟩
  · exact absurd (htoken.symm.trans hsemi) hkind
  · exact hpass

/-- Nothing begins here in which a semicolon can stand. -/
theorem isPlain_of_peek {kind : Kind} (hpeek : c.peek = some kind) (hkind : kind ≠ .semi) :
    kind.isPlain = true := by
  obtain ⟨token, rest, rest', hc, -, hnext⟩ := h.head
  have htoken : token.kind = kind := by simpa [Cursor.peek, hc] using hpeek
  rcases hnext with hsemi | ⟨hplain, -⟩
  · exact absurd (htoken.symm.trans hsemi) hkind
  · rwa [htoken] at hplain

/-- The first semicolon to come is the fence. -/
theorem at_close (hpeek : c.peek = some .semi) :
    c.rest = F.close :: F.later ∧ d.rest = F.close :: F.later' := by
  obtain ⟨⟨words, hc, hd, hplain⟩, -⟩ := h
  cases words with
  | nil => exact ⟨hc, hd⟩
  | cons token words =>
      have htoken : token.kind = .semi := by simpa [Cursor.peek, hc] using hpeek
      have hbare := hplain token List.mem_cons_self
      rw [htoken] at hbare
      cases hbare

/-- Used names go equally far, and the same token follows them. -/
theorem referenceLength : d.referenceLength = c.referenceLength ∧
    d.peekAt c.referenceLength = c.peekAt c.referenceLength := by
  obtain ⟨⟨words, hc, hd, -⟩, -⟩ := h
  -- three tokens decide how far a name goes, and a semicolon among them ends it
  rcases words with _ | ⟨first, _ | ⟨second, _ | ⟨third, words⟩⟩⟩ <;>
    simp only [Cursor.referenceLength, Cursor.isAt, Cursor.peek, Cursor.peekAt, hc, hd] <;>
    simp [F.semi]
  case cons.nil => split <;> rfl
  case cons.cons.nil => split <;> rfl
  case cons.cons.cons =>
    split
    · split
      · cases words <;> rfl
      · rfl
    · rfl

end Beside

/-! ## Readers one after another -/

namespace Agree

/-- What follows may differ in what it looks like, as long as it does the same. -/
theorem bind {read : Read α} {next next' : α → Read β} (h : F.Agree read c d)
    (hnext : ∀ a c₁ d₁, read c = .ok a c₁ → read d = .ok a d₁ → F.Beside c₁ d₁ →
      F.Same (next a c₁) (next' a d₁)) : F.Same ((read >>= next) c) ((read >>= next') d) := by
  unfold Agree at h
  cases hc : read c with
  | ok a c₁ =>
      cases hd : read d with
      | ok b d₁ =>
          rw [hc, hd] at h
          cases h with
          | ok _ hbeside =>
              rw [bind_of_ok hc, bind_of_ok hd]
              exact hnext a c₁ d₁ hc hd hbeside
      | error e d₁ =>
          rw [hc, hd] at h
          cases h
  | error e c₁ =>
      cases hd : read d with
      | ok b d₁ =>
          rw [hc, hd] at h
          cases h
      | error e' d₁ =>
          rw [hc, hd] at h
          cases h with
          | error _ hbeside =>
              rw [bind_of_error hc, bind_of_error hd]
              exact .error e hbeside

end Agree

end Fence

/-- Before a fence, a reader does the same whatever stands behind it, and stays before it. -/
class Fenced (read : Read α) : Prop where
  agrees : ∀ {F : Fence} {c d : Cursor}, F.Beside c d → F.Agree read c d

namespace Fenced

instance instPure (a : α) : Fenced (pure a : Read α) := ⟨fun h => .ok a h⟩

instance instThrow (d : Diagnostic) : Fenced (throw d : Read α) := ⟨fun h => .error d h⟩

instance instBind (read : Read α) (next : α → Read β) [h : Fenced read]
    [hnext : ∀ a, Fenced (next a)] :
    Fenced (read >>= next) :=
  ⟨fun hbeside => Fence.Agree.bind (h.agrees hbeside) fun a _ _ _ _ hbeside₁ =>
    (hnext a).agrees hbeside₁⟩

instance instIte (p : Prop) [Decidable p] (yes no : Read α) [hyes : Fenced yes] [hno : Fenced no] :
    Fenced (if p then yes else no) := by
  split
  · exact hyes
  · exact hno

theorem after {read : Read α} {next : α → Read β} [Fenced read] (hnext : ∀ a, Fenced (next a)) :
    Fenced (read >>= next) :=
  instBind read next

/-- A look at the next token, which is the same for both cursors. -/
theorem peek {next : Option Kind → Read β}
    (h : ∀ {F : Fence} {c d : Cursor}, F.Beside c d → F.Agree (next c.peek) c d) :
    Fenced (Read.peek >>= next) := by
  refine ⟨fun {F c d} hbeside => ?_⟩
  change F.Same (next c.peek c) (next d.peek d)
  rw [hbeside.peek]
  exact h hbeside

end Fenced

namespace Fence.Agree

variable {F : Fence} {c d : Cursor}

/-- A look at more than the next token, where what counts is the same for both cursors. -/
theorem get {next : Cursor → Read β} (hnext : next d = next c)
    (h : F.Agree (next c) c d) : F.Agree (MonadState.get >>= next) c d := by
  change F.Same (next c c) (next d d)
  rw [hnext]
  exact h

theorem ifAt {kind : Kind} {yes no : Read β} (hbeside : F.Beside c d)
    (hyes : c.peek = some kind → F.Agree yes c d) (hno : F.Agree no c d) :
    F.Agree (Read.isAt kind >>= fun found => if found = true then yes else no) c d := by
  change F.Same ((if c.isAt kind = true then yes else no) c)
    ((if d.isAt kind = true then yes else no) d)
  rw [hbeside.isAt]
  by_cases hpeek : c.peek = some kind
  · have hat : c.isAt kind = true := by simp [Cursor.isAt, hpeek]
    rw [if_pos hat]
    exact hyes hpeek
  · have hat : ¬c.isAt kind = true := by simp [Cursor.isAt, hpeek]
    rw [if_neg hat]
    exact hno

/-- A token may be passed whose kind is known. -/
theorem advance {next : Unit → Read β} (hbeside : F.Beside c d) {kind : Kind}
    (hpeek : c.peek = some kind) (hkind : kind ≠ .semi) [hnext : Fenced (next ())] :
    F.Agree (Read.advance >>= next) c d :=
  hnext.agrees (hbeside.pass hpeek hkind)

theorem takeText {next : String → Read β} (hbeside : F.Beside c d)
    {kind : Kind} (hpeek : c.peek = some kind) (hkind : kind ≠ .semi)
    [hnext : ∀ text, Fenced (next text)] : F.Agree (Read.takeText >>= next) c d := by
  obtain ⟨token, rest, rest', hc, hd, -⟩ := hbeside.head
  change F.Same (next ((c.rest.head?.map Token.text).getD "") c.pass)
    (next ((d.rest.head?.map Token.text).getD "") d.pass)
  rw [hc, hd]
  exact (hnext _).agrees (hbeside.pass hpeek hkind)

end Fence.Agree

namespace Fenced

/-- A loop that passes tokens ends before its bound, and so in the same round for both cursors. -/
theorem iterate {step : α → Read (ForInStep α)} (hadvancing : Advancing step)
    [h : ∀ a, Fenced (step a)] (a : α) : Fenced (Read.iterate a step) := by
  refine ⟨fun {F c d} hbeside => ?_⟩
  -- the bounds differ, for more may stand behind one fence than behind the other
  have hloop : ∀ bound bound' a c d, F.Beside c d → c.rest.length < bound → d.rest.length < bound' →
      F.Same (iterateUpTo step bound a c) (iterateUpTo step bound' a d) := by
    intro bound
    induction bound with
    | zero => exact fun _ _ _ _ _ hbound => absurd hbound (Nat.not_lt_zero _)
    | succ bound ih =>
        intro bound' a c d hbeside hbound hbound'
        obtain ⟨bound', rfl⟩ : ∃ n, bound' = n + 1 := ⟨bound' - 1, by omega⟩
        refine Fence.Agree.bind ((h a).agrees hbeside) fun next c₁ d₁ hc hd hbeside₁ => ?_
        cases next with
        | done a => exact .ok a hbeside₁
        | yield a =>
            have hshorter : c₁.rest.length < c.rest.length := hadvancing _ c _ c₁ hc
            have hshorter' : d₁.rest.length < d.rest.length := hadvancing _ d _ d₁ hd
            exact ih bound' a c₁ d₁ hbeside₁ (by omega) (by omega)
  exact hloop _ _ a c d hbeside (Nat.lt_succ_self _) (Nat.lt_succ_self _)

end Fenced

namespace Read

/-! ## Readers of one token -/

instance fenced_peek : Fenced peek :=
  ⟨fun {F c d} h => by
    change F.Same (.ok c.peek c) (.ok d.peek d)
    rw [h.peek]
    exact .ok _ h⟩

instance fenced_isAt (kind : Kind) : Fenced (isAt kind) :=
  ⟨fun {F c d} h => by
    change F.Same (.ok (c.isAt kind) c) (.ok (d.isAt kind) d)
    rw [h.isAt]
    exact .ok _ h⟩

instance fenced_here : Fenced here :=
  ⟨fun {F c d} h => by
    change F.Same (.ok c.span.start c) (.ok d.span.start d)
    rw [h.span]
    exact .ok _ h⟩

instance fenced_spanFrom (start : Nat) : Fenced (spanFrom start) :=
  ⟨fun {F c d} h => by
    change F.Same (.ok (c.spanFrom start) c) (.ok (d.spanFrom start) d)
    rw [h.spanFrom]
    exact .ok _ h⟩

instance fenced_fail (cause : Cause) : Fenced (fail cause : Read α) :=
  ⟨fun {F c d} h => by
    change F.Same (.error ⟨cause, c.span⟩ c) (.error ⟨cause, d.span⟩ d)
    rw [h.span]
    exact .error _ h⟩

instance fenced_unexpected (options : List Kind) : Fenced (unexpected options : Read α) :=
  ⟨fun {F c d} h => by
    change F.Same (.error (c.unexpected options) c) (.error (d.unexpected options) d)
    rw [h.unexpected]
    exact .error _ h⟩

instance fenced_missing (wanted : Wanted) : Fenced (missing wanted : Read α) :=
  ⟨fun {F c d} h => by
    change F.Same (.error (c.missing wanted) c) (.error (d.missing wanted) d)
    rw [h.missing]
    exact .error _ h⟩

section

variable (kind : Kind) [hkind : IsFalse kind.isSemi]

omit hkind in
theorem ne_semi [hkind : IsFalse kind.isSemi] : kind ≠ .semi := by
  rintro rfl
  exact absurd hkind.eq_false (by decide)

instance fenced_eat : Fenced (eat kind) :=
  ⟨fun {F c d} h => by
    unfold Fence.Agree
    by_cases hpeek : c.peek = some kind
    · rw [eat_of_peek hpeek, eat_of_peek (h.peek.trans hpeek)]
      exact .ok _ (h.pass hpeek (ne_semi kind))
    · rw [eat_of_ne hpeek, eat_of_ne (h.peek ▸ hpeek)]
      exact .ok _ h⟩

instance fenced_expect : Fenced (expect kind) :=
  ⟨fun {F c d} h => by
    unfold Fence.Agree
    by_cases hpeek : c.peek = some kind
    · rw [expect_of_peek hpeek, expect_of_peek (h.peek.trans hpeek), h.span]
      exact .ok _ (h.pass hpeek (ne_semi kind))
    · rw [expect_of_ne hpeek, expect_of_ne (h.peek ▸ hpeek), h.unexpected]
      exact .error _ h⟩

instance fenced_take? : Fenced (take? kind) :=
  ⟨fun {F c d} h => by
    obtain ⟨token, rest, rest', hc, hd, -⟩ := h.head
    unfold Fence.Agree
    by_cases hpeek : c.peek = some kind
    · have htoken : token.kind = kind := by simpa [Cursor.peek, hc] using hpeek
      rw [take?_of_rest hc htoken, take?_of_rest hd htoken]
      exact .ok _ (h.pass hpeek (ne_semi kind))
    · rw [take?_of_ne hpeek, take?_of_ne (h.peek ▸ hpeek)]
      exact .ok _ h⟩

end

/-! ## Lists and options -/

section

variable (read : Read α) [Fenced read]

instance fenced_located : Fenced (located read) := by
  unfold located
  infer_instance

instance fenced_commaList [Forward read] : Fenced (commaList read) := by
  rw [commaList_eq]
  refine .after fun first => ?_
  have hstep : ∀ items, Fenced (commaStep read items) := by
    intro items
    unfold commaStep
    infer_instance
  exact .iterate (advancing_commaStep read) _

instance fenced_optionalAfter (kind : Kind) [IsFalse kind.isSemi] :
    Fenced (optionalAfter kind read) := by
  unfold optionalAfter
  infer_instance

end

/-! ## Names and clocks -/

instance fenced_pragmas : Fenced pragmas := by
  rw [pragmas_eq]
  have hstep : ∀ read, Fenced (pragmaStep read) := fun read => .after fun found => by
    cases found <;> infer_instance
  exact .iterate advancing_pragmaStep _

instance fenced_ident : Fenced ident := by
  refine .after fun found => ?_
  cases found <;> infer_instance

instance fenced_reference : Fenced reference := by
  refine .after fun first => ?_
  cases first with
  | none => infer_instance
  | some first =>
      refine .after fun separator => ?_
      cases separator with
      | none => infer_instance
      | some separator =>
          refine .after fun member => ?_
          cases member <;> infer_instance

instance fenced_clock : Fenced clock := by
  refine @fenced_located _ _ (.after fun negated => ?_)
  refine @Fenced.instIte _ _ _ _ _ inferInstance ⟨fun {F c d} h => ?_⟩
  -- what follows the name tells whether it is a case
  obtain ⟨hlength, hnext⟩ := h.referenceLength
  refine .get (by dsimp only; rw [hlength, hnext]) ?_
  dsimp only
  split
  · rename_i hcase
    refine Fence.Agree.bind (Fenced.agrees h) fun case c₁ d₁ hc _ h₁ => ?_
    have hopen : c₁.peek = some .lParen :=
      (peek_eq_peekAt (meets_reference c case c₁ hc).2).trans hcase.2
    exact Fence.Agree.advance h₁ hopen Kind.noConfusion
  · exact Fenced.agrees h

end Read

/-! ## Expressions -/

/-- The readers of what is nested deeper stop at a fence.  Static arguments are not asked to, since
semicolons stand between them. -/
class Nested.Fenced (deep : Nested) : Prop where
  top : ∀ least, Lustre.Fenced (deep.top least)
  inner : ∀ least, Lustre.Fenced (deep.inner least)

namespace Read

variable (deep : Nested) [hdeep : deep.Fenced]

instance fenced_deepTop (least : Nat) : Fenced (deep.top least) := hdeep.top least

instance fenced_deepInner (least : Nat) : Fenced (deep.inner least) := hdeep.inner least

instance fenced_deepExpr : Fenced deep.expr := hdeep.top 0

instance fenced_indexing (index : Expr → α) (slice : Expr → Expr → Option Expr → α) :
    Fenced (indexing deep index slice) := by
  unfold indexing
  infer_instance

variable [deep.Advances]

instance fenced_exprList (close : Kind) : Fenced (exprList deep close) := by
  unfold exprList
  infer_instance

instance fenced_postfixStep (value : Expr) : Fenced (postfixStep deep value) := by
  refine .peek fun {F c d} h => ?_
  split
  · exact .advance h ‹_› Kind.noConfusion
  · exact .advance h ‹_› Kind.noConfusion
  · exact .advance h ‹_› Kind.noConfusion
  · exact Fenced.agrees h

instance fenced_postfixes (value : Expr) : Fenced (postfixes deep value) :=
  .iterate (advancing_postfixStep deep) value

/-- Neither static arguments nor a record follow a name. -/
instance fenced_nameExpr : Fenced (nameExpr deep) := by
  refine .after fun start => .after fun name => .peek fun {F c d} h => ?_
  split
  · rename_i hpeek
    cases h.isPlain_of_peek hpeek Kind.noConfusion
  · rename_i hpeek
    cases h.isPlain_of_peek hpeek Kind.noConfusion
  · exact Fenced.agrees h

instance fenced_pattern : Fenced pattern := by
  refine .peek fun {F c d} h => ?_
  split
  · exact .advance h ‹_› Kind.noConfusion
  · exact .advance h ‹_› Kind.noConfusion
  · exact Fenced.agrees h
  · exact Fenced.agrees h

omit [deep.Advances] in
instance fenced_mergeArm : Fenced (mergeArm deep) := by
  unfold mergeArm
  infer_instance

instance fenced_merge (start : Nat) : Fenced (merge deep start) := by
  have hstep : ∀ arms, Fenced (mergeStep deep arms) := by
    intro arms
    unfold mergeStep
    infer_instance
  refine .after fun clock => ?_
  have harms : Fenced (iterate [] (mergeStep deep)) := .iterate (advancing_mergeStep deep) []
  exact @Fenced.instBind _ _ _ _ harms fun arms => inferInstance

omit [deep.Advances] in
instance fenced_conditional (start : Nat) (word : CondWord) :
    Fenced (conditional deep start word) := by
  unfold conditional
  infer_instance

instance fenced_operands (start : Nat) (op : ListOp) : Fenced (operands deep start op) := by
  unfold operands
  infer_instance

instance fenced_primary : Fenced (primary deep) := by
  refine .after fun start => .peek fun {F c d} h => ?_
  split
  · exact .takeText h ‹_› Kind.noConfusion
  · exact .takeText h ‹_› Kind.noConfusion
  · exact .advance h ‹_› Kind.noConfusion
  · exact .advance h ‹_› Kind.noConfusion
  · exact Fenced.agrees h
  · exact .advance h ‹_› Kind.noConfusion
  · exact .advance h ‹_› Kind.noConfusion
  · exact .advance h ‹_› Kind.noConfusion
  · exact .advance h ‹_› Kind.noConfusion
  · exact .advance h ‹_› Kind.noConfusion
  · exact .advance h ‹_› Kind.noConfusion
  · exact .advance h ‹_› Kind.noConfusion
  · exact Fenced.agrees h

instance fenced_prefixed : Fenced (prefixed deep) := by
  refine .peek fun {F c d} h => ?_
  split
  · rename_i op hop
    obtain ⟨kind, hpeek, hkind⟩ := Option.bind_eq_some_iff.mp hop
    have hsemi : kind ≠ .semi := by
      rintro rfl
      cases hkind
    refine Fence.Agree.bind (fenced_here.agrees h) fun place c₁ d₁ hc hd h₁ => ?_
    cases hc
    exact Fence.Agree.advance h₁ hpeek hsemi
  · exact Fenced.agrees h

omit hdeep [deep.Advances] in
/-- An operator of a tier and what follows it. -/
theorem fenced_operator {tier : Tier} {op : BinaryOp} {next : Unit → Read β} [Fenced (next ())]
    {F : Fence} {c d : Cursor} (h : F.Beside c d)
    (hop : c.peek.bind (BinaryOp.inTier? tier) = some op) :
    F.Agree (advance >>= next) c d := by
  obtain ⟨kind, hpeek, hkind⟩ := Option.bind_eq_some_iff.mp hop
  refine .advance h hpeek ?_
  rintro rfl
  cases hkind

omit [deep.Advances] in
instance fenced_innerStep (least : Nat) (lhs : Expr) : Fenced (innerStep deep least lhs) where
  agrees {F c d} h := by
    refine .ifAt h (fun hwhen => ?_) ((Fenced.peek fun {F c d} h => ?_).agrees h)
    · split
      · exact Fenced.agrees h
      · exact .advance h hwhen Kind.noConfusion
    · split
      · rename_i op hop
        split
        · exact Fenced.agrees h
        · exact fenced_operator h hop
      · exact Fenced.agrees h

instance fenced_inner (least : Nat) : Fenced (inner deep least) :=
  .after fun first => .iterate (advancing_innerStep deep least) first

instance fenced_comparison : Fenced (comparison deep) := by
  refine .after fun lhs => .peek fun {F c d} h => ?_
  split
  · rename_i op hop
    refine @fenced_operator _ _ _ _ (.after fun rhs => .after fun next => ?_) _ _ _ h hop
    split <;> infer_instance
  · exact Fenced.agrees h

omit [deep.Advances] in
instance fenced_topStep (least : Nat) (lhs : Expr) : Fenced (topStep deep least lhs) := by
  refine .peek fun {F c d} h => ?_
  split
  · rename_i op hop
    split
    · exact Fenced.agrees h
    · exact fenced_operator h hop
  · exact Fenced.agrees h

instance fenced_top (least : Nat) : Fenced (top deep least) :=
  .after fun first => .iterate (advancing_topStep deep least) first

end Read

instance Nested.fenced_upTo (levels : Nat) : (upTo levels).Fenced := by
  induction levels with
  | zero => exact ⟨fun _ => Read.fenced_fail _, fun _ => Read.fenced_fail _⟩
  | succ levels ih => exact ⟨Read.fenced_top _, Read.fenced_inner _⟩

namespace Read

/-! ## Equations -/

variable (deep : Nested) [deep.Fenced] [deep.Advances]

omit [deep.Advances] in
instance fenced_partStep (left : LeftExpr) : Fenced (partStep deep left) := by
  unfold partStep
  infer_instance

instance fenced_leftExpr : Fenced (leftExpr deep) :=
  .after fun name => .iterate (advancing_partStep deep) (.name name)

instance fenced_leftList : Fenced (leftList deep) := by
  unfold leftList
  infer_instance

instance fenced_statement : Fenced (statement deep) := by
  unfold statement
  infer_instance

/-- An equation is read up to the fence and with it, or fails before it. -/
theorem equation_before_fence {F : Fence} {c d : Cursor} (h : F.Beside c d) :
    (∃ found, equation deep c = .ok found ⟨F.later, F.close.span.stop, c.size⟩ ∧
        equation deep d = .ok found ⟨F.later', F.close.span.stop, d.size⟩) ∨
      ∃ e c' d', equation deep c = .error e c' ∧ equation deep d = .error e d' ∧
      F.Beside c' d' := by
  have hread : F.Same (located (statement deep) c) (located (statement deep) d) := Fenced.agrees h
  have honward : ∀ c : Cursor, c.Onward (finalState (located (statement deep) c)) :=
    (inferInstance : Forward (located (statement deep))).onward
  have hsize := (honward c).size
  have hsize' := (honward d).size
  cases hc : located (statement deep) c with
  | error e c₁ =>
      cases hd : located (statement deep) d with
      | ok found d₁ => rw [hc, hd] at hread; cases hread
      | error e' d₁ =>
          rw [hc, hd] at hread
          cases hread with
          | error _ h₁ => exact .inr ⟨e, c₁, d₁, bind_of_error hc, bind_of_error hd, h₁⟩
  | ok found c₁ =>
      cases hd : located (statement deep) d with
      | error e' d₁ => rw [hc, hd] at hread; cases hread
      | ok found' d₁ =>
          rw [hc] at hsize
          rw [hd] at hsize'
          rw [hc, hd] at hread
          cases hread with
          | ok _ h₁ =>
              unfold equation
              rw [bind_of_ok hc, bind_of_ok hd]
              -- the semicolon that is expected is the fence, if it comes next
              by_cases hpeek : c₁.peek = some .semi
              · obtain ⟨hrest, hrest'⟩ := h₁.at_close hpeek
                rw [bind_of_ok (expect_of_peek hpeek),
                  bind_of_ok (expect_of_peek (h₁.peek.trans hpeek))]
                refine .inl ⟨found, ?_, ?_⟩
                · rw [Cursor.pass, hrest, ← show c₁.size = c.size from hsize]
                  rfl
                · rw [Cursor.pass, hrest', ← show d₁.size = d.size from hsize']
                  rfl
              · rw [bind_of_error (expect_of_ne hpeek),
                  bind_of_error (expect_of_ne (h₁.peek ▸ hpeek)), h₁.unexpected]
                exact .inr ⟨_, c₁, d₁, rfl, rfl, h₁⟩

end Read

end Lustre
