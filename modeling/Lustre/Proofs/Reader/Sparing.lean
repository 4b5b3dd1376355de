import Lustre.Proofs.Reader.Progress

/-!
# What is passed in reading something whole

Some words matter for where they stand.  The words `tel` and `end` close the
equations of a node or a body, and belong to the readers that can go on after a
failure.  The keywords `type`, `const`, `node` and `function` make a static argument
explicit, and like some others they begin declarations.  The other readers never pass
a word of the first sort, whether they succeed or fail, and the readers of expressions
pass one of the second only at the beginning of a static argument, before the `>>` that
closes the arguments.

A `Course` says how a reader may get on, and a reader keeps to it wherever it begins
(`Sparing`) if the course allows what readers are put together from: to do nothing,
to fail, to pass a word that has no mark, and to go on.  The readers of declarations
ask that the keywords of arguments may be passed too (`Course.Tolerant`).

Like `Forward`, this is found by instance search along the way in which a reader
is put together.  Only where a reader passes a token without asking for its kind
the look before has to be remembered (`Spares`).
-/

namespace Lustre

variable {α β : Type}

/-! ## Tokens between two cursors -/

/-- From one cursor to another, the tokens passed are as `P` says. -/
def Cursor.Past (P : List Token → Prop) (c c' : Cursor) : Prop :=
  ∃ passed, c.rest = passed ++ c'.rest ∧ P passed

namespace Cursor.Past

variable {P Q : List Token → Prop} {c c₁ c₂ : Cursor}

theorem mono (h : c.Past P c₁) (hPQ : ∀ passed, P passed → Q passed) : c.Past Q c₁ := by
  obtain ⟨passed, hrest, hpassed⟩ := h
  exact ⟨passed, hrest, hPQ passed hpassed⟩

theorem append (h₁ : c.Past P c₁) (h₂ : c₁.Past Q c₂) :
    c.Past (fun passed => ∃ first last, passed = first ++ last ∧ P first ∧ Q last) c₂ := by
  obtain ⟨first, hfirst, hP⟩ := h₁
  obtain ⟨last, hlast, hQ⟩ := h₂
  exact ⟨first ++ last, by rw [hfirst, hlast, List.append_assoc], first, last, rfl, hP, hQ⟩

theorem suffix (h : c.Past P c₁) : c₁.rest <:+ c.rest := by
  obtain ⟨passed, hrest, -⟩ := h
  exact ⟨passed, hrest.symm⟩

/-- Over a single token. -/
theorem of_pass {kind : Kind} (hpeek : c.peek = some kind)
    (hP : ∀ token, token.kind = kind → P [token]) : c.Past P c.pass := by
  cases hrest : c.rest with
  | nil => simp [peek, hrest] at hpeek
  | cons token rest =>
      have hkind : token.kind = kind := by simpa [peek, hrest] using hpeek
      refine ⟨[token], ?_, hP token hkind⟩
      rw [Cursor.rest_pass, hrest]
      rfl

end Cursor.Past

/-! ## What may be passed -/

/-- What is false, for instance search. -/
class IsFalse (b : Bool) : Prop where
  eq_false : b = false

instance : IsFalse false := ⟨rfl⟩

/-- Whether a word closes the equations of a node or a body. -/
@[reducible]
def Kind.isClosing : Kind → Bool
  | .kwTel | .kwEnd => true
  | _ => false

/-- Whether a word closes something, is the keyword of an explicit argument or begins a
declaration. -/
@[reducible]
def Kind.isMarked : Kind → Bool
  | .kwTel | .kwEnd | .gtGt | .kwType | .kwConst | .kwNode | .kwFunction | .kwUnsafe | .kwExtern
  | .kwPackage | .kwModel | .kwInclude => true
  | _ => false

theorem Kind.isClosing_of_not_marked {kind : Kind} (h : kind.isMarked = false) :
    kind.isClosing = false := by
  cases kind <;> first | rfl | cases h

/-- What may be passed in one go may be passed in two, and a word that is not marked always. -/
class Lenient (P : List Token → Prop) : Prop where
  nil : P []
  append : ∀ {first last : List Token}, P first → P last → P (first ++ last)
  plain : ∀ {token : Token}, token.kind.isMarked = false → P [token]

/-- The same, and the keywords of explicit arguments may be passed too. -/
class Tolerant (P : List Token → Prop) : Prop where
  nil : P []
  append : ∀ {first last : List Token}, P first → P last → P (first ++ last)
  single : ∀ {token : Token}, token.kind.isClosing = false → P [token]

instance {P : List Token → Prop} [hP : Tolerant P] : Lenient P where
  nil := hP.nil
  append := hP.append
  plain h := hP.single (Kind.isClosing_of_not_marked h)

namespace Cursor.Past

variable {P : List Token → Prop} [hP : Lenient P] {c c₁ c₂ : Cursor}

theorem refl (c : Cursor) : c.Past P c := ⟨[], rfl, hP.nil⟩

theorem trans (h₁ : c.Past P c₁) (h₂ : c₁.Past P c₂) : c.Past P c₂ := by
  refine (h₁.append h₂).mono fun passed h => ?_
  obtain ⟨first, last, rfl, hfirst, hlast⟩ := h
  exact hP.append hfirst hlast

end Cursor.Past

/-- None of some tokens is of one kind. -/
def NoneOf (kind : Kind) (tokens : List Token) : Prop := ∀ token ∈ tokens, token.kind ≠ kind

theorem NoneOf.nil {kind : Kind} : NoneOf kind [] := fun _ hmem => absurd hmem List.not_mem_nil

theorem NoneOf.single {kind : Kind} {token : Token} (h : token.kind ≠ kind) :
    NoneOf kind [token] := by
  intro other hmem
  rw [List.mem_singleton.mp hmem]
  exact h

theorem NoneOf.of_not_closing {kind : Kind} (hkind : kind.isClosing = true) {token : Token}
    (h : token.kind.isClosing = false) : NoneOf kind [token] := by
  refine .single fun heq => ?_
  rw [heq, hkind] at h
  cases h

theorem NoneOf.append {kind : Kind} {first last : List Token} (hfirst : NoneOf kind first)
    (hlast : NoneOf kind last) : NoneOf kind (first ++ last) := by
  intro token hmem
  rcases List.mem_append.mp hmem with hmem | hmem
  · exact hfirst token hmem
  · exact hlast token hmem

instance : Tolerant (NoneOf .kwTel) where
  nil := .nil
  append hfirst hlast := hfirst.append hlast
  single h := .of_not_closing rfl h

/-! ## Courses that a reader may take -/

/-- How a reader gets on: from a cursor to another, where it may fail for some cause. -/
abbrev Course := Cursor → Option Cause → Cursor → Prop

/-- The cause for which a reader failed, if it did. -/
def failure : EStateM.Result Diagnostic Cursor α → Option Cause
  | .ok _ _ => none
  | .error e _ => some e.cause

/-- A cause other than that something is nested too deeply, for instance search. -/
class Shallow (cause : Cause) : Prop where
  ne : cause ≠ .nestedTooDeeply

namespace Shallow

instance (options : List Kind) (found : Option String) : Shallow (.unexpected options found) :=
  ⟨Cause.noConfusion⟩

instance (wanted : Wanted) (found : Option String) : Shallow (.missing wanted found) :=
  ⟨Cause.noConfusion⟩

instance : Shallow .spacedQualifiedName := ⟨Cause.noConfusion⟩

instance (first second : BinaryOp) : Shallow (.chainedComparison first second) :=
  ⟨Cause.noConfusion⟩

instance (name : String) : Shallow (.unappliedInstance name) := ⟨Cause.noConfusion⟩

instance (name : String) : Shallow (.ambiguousArgument name) := ⟨Cause.noConfusion⟩

instance : Shallow .sharedDefault := ⟨Cause.noConfusion⟩

end Shallow

namespace Course

/-- A reader may do nothing, fail, pass a word that is not marked, and go on. -/
class Lenient (J : Course) : Prop where
  stay : ∀ c, J c none c
  fail : ∀ c (cause : Cause), cause ≠ .nestedTooDeeply → J c (some cause) c
  pass : ∀ {c : Cursor} {kind : Kind}, c.peek = some kind → kind.isMarked = false → J c none c.pass
  trans : ∀ {start c : Cursor} {cause : Option Cause} {c' : Cursor}, J start none c → J c cause c' →
    J start cause c'

/-- The same, and it may also pass the keywords of explicit arguments. -/
class Tolerant (J : Course) : Prop extends Lenient J where
  keyword : ∀ {c : Cursor} {kind : Kind}, c.peek = some kind →
    kind.isClosing = false → J c none c.pass

/-- A reader may pass a word of a kind. -/
class Admits (J : Course) (kind : Kind) : Prop where
  pass : ∀ {c : Cursor}, c.peek = some kind → J c none c.pass

instance {J : Course} [hJ : Lenient J] {kind : Kind} [hkind : IsFalse kind.isMarked] :
    Admits J kind :=
  ⟨fun hpeek => hJ.pass hpeek hkind.eq_false⟩

instance {J : Course} [hJ : Tolerant J] {kind : Kind} [hkind : IsFalse kind.isClosing] :
    Admits J kind :=
  ⟨fun hpeek => hJ.keyword hpeek hkind.eq_false⟩

/-- What is passed is as `P` says. -/
def passing (P : List Token → Prop) : Course := fun c _ c' => c.Past P c'

instance {P : List Token → Prop} [hP : Lustre.Lenient P] : Lenient (passing P) where
  stay := .refl
  fail c _ _ := .refl c
  pass hpeek hkind := .of_pass hpeek fun _ htoken => hP.plain (htoken ▸ hkind)
  trans h₁ h₂ := Cursor.Past.trans h₁ h₂

instance {P : List Token → Prop} [hP : Lustre.Tolerant P] : Tolerant (passing P) where
  keyword hpeek hkind := .of_pass hpeek fun _ htoken => hP.single (htoken ▸ hkind)

end Course

/-! ## Readers that keep to a course -/

/-- From `c` on, a reader gets on as `J` says, if everything since `start` counts. -/
def Spares (J : Course) (start : Cursor) (read : Read α) (c : Cursor) : Prop :=
  J start (failure (read c)) (finalState (read c))

/-- Wherever it begins, a reader gets on as `J` says. -/
class Sparing (J : Course) (read : Read α) : Prop where
  spares : ∀ c, Spares J c read c

variable {J : Course}

namespace Spares

variable {start c : Cursor}

theorem bind {read : Read α} {next : α → Read β} (h : Spares J start read c)
    (hnext : ∀ a c', read c = .ok a c' → J start none c' → Spares J start (next a) c') :
    Spares J start (read >>= next) c := by
  unfold Spares at h ⊢
  change J start (failure (EStateM.bind read next c)) (finalState (EStateM.bind read next c))
  rw [EStateM.bind]
  -- a failure keeps the course that was taken as far as that
  cases hread : read c with
  | ok a c' =>
      rw [hread] at h
      exact hnext a c' hread h
  | error e c' =>
      rw [hread] at h
      exact h

theorem get {next : Cursor → Read β} (h : Spares J start (next c) c) :
    Spares J start (MonadState.get >>= next) c :=
  h

theorem peek {next : Option Kind → Read β} (h : Spares J start (next c.peek) c) :
    Spares J start (Read.peek >>= next) c :=
  h

theorem here {next : Nat → Read β} (h : ∀ place, Spares J start (next place) c) :
    Spares J start (Read.here >>= next) c :=
  h _

theorem ifAt {kind : Kind} {yes no : Read β} (hyes : c.peek = some kind → Spares J start yes c)
    (hno : Spares J start no c) :
    Spares J start (Read.isAt kind >>= fun found => if found = true then yes else no) c := by
  change Spares J start (if c.isAt kind = true then yes else no) c
  by_cases hpeek : c.peek = some kind
  · have hat : c.isAt kind = true := by simp [Cursor.isAt, hpeek]
    rw [if_pos hat]
    exact hyes hpeek
  · have hat : c.isAt kind = false := by simp [Cursor.isAt, hpeek]
    rw [if_neg (by simp [hat])]
    exact hno

variable [hJ : J.Lenient]

/-- A reader from farther on. -/
theorem later {read : Read α} [h : Sparing J read] (hstart : J start none c) :
    Spares J start read c :=
  hJ.trans hstart (h.spares c)

/-- A token may be passed whose kind is known. -/
theorem advance {next : Unit → Read β} {kind : Kind} (hpeek : c.peek = some kind)
    [hkind : J.Admits kind] [hnext : Sparing J (next ())] :
    Spares J c (Read.advance >>= next) c :=
  hJ.trans (hkind.pass hpeek) (hnext.spares c.pass)

theorem takeText {next : String → Read β} {kind : Kind} (hpeek : c.peek = some kind)
    [hkind : J.Admits kind] [hnext : ∀ text, Sparing J (next text)] :
    Spares J c (Read.takeText >>= next) c :=
  hJ.trans (hkind.pass hpeek) ((hnext _).spares c.pass)

end Spares

namespace Sparing

variable [hJ : J.Lenient]

instance instPure (a : α) : Sparing J (pure a : Read α) := ⟨fun c => hJ.stay c⟩

instance instThrow (cause : Cause) (span : Span) [h : Shallow cause] :
    Sparing J (throw ⟨cause, span⟩ : Read α) :=
  ⟨fun c => hJ.fail c cause h.ne⟩

instance instGet : Sparing J (get : Read Cursor) := ⟨fun c => hJ.stay c⟩

instance instBind (read : Read α) (next : α → Read β) [h : Sparing J read]
    [hnext : ∀ a, Sparing J (next a)] : Sparing J (read >>= next) where
  spares c := (h.spares c).bind fun _ _ _ hpast => .later hpast

instance instIte (p : Prop) [Decidable p] (yes no : Read α) [hyes : Sparing J yes]
    [hno : Sparing J no] : Sparing J (if p then yes else no) := by
  split
  · exact hyes
  · exact hno

theorem after {read : Read α} {next : α → Read β} [Sparing J read]
    (hnext : ∀ a, Sparing J (next a)) :
    Sparing J (read >>= next) :=
  instBind read next

omit hJ in
theorem peek {next : Option Kind → Read β} (h : ∀ c : Cursor, Spares J c (next c.peek) c) :
    Sparing J (Read.peek >>= next) :=
  ⟨h⟩

omit hJ in
theorem get {next : Cursor → Read β} (h : ∀ c : Cursor, Spares J c (next c) c) :
    Sparing J (MonadState.get >>= next) :=
  ⟨h⟩

instance instIterateUpTo (step : α → Read (ForInStep α)) [h : ∀ a, Sparing J (step a)] (bound : Nat)
    (a : α) : Sparing J (iterateUpTo step bound a) := by
  induction bound generalizing a with
  | zero => exact instPure a
  | succ bound ih =>
      refine .after fun next => ?_
      cases next with
      | done a => exact instPure a
      | yield a => exact ih a

instance instIterate (a : α) (step : α → Read (ForInStep α)) [∀ a, Sparing J (step a)] :
    Sparing J (Read.iterate a step) := by
  unfold Read.iterate
  infer_instance

end Sparing

namespace Read

variable [hJ : J.Lenient]

/-! ## Readers of one token -/

instance sparing_peek : Sparing J peek := by
  unfold peek
  infer_instance

instance sparing_isAt (kind : Kind) : Sparing J (isAt kind) := by
  unfold isAt
  infer_instance

instance sparing_here : Sparing J here := by
  unfold here
  infer_instance

instance sparing_spanFrom (start : Nat) : Sparing J (spanFrom start) := by
  unfold spanFrom
  infer_instance

instance sparing_fail (cause : Cause) [Shallow cause] : Sparing J (fail cause : Read α) := by
  unfold fail
  infer_instance

instance sparing_unexpected (options : List Kind) : Sparing J (unexpected options : Read α) :=
  ⟨fun c => hJ.fail c (c.unexpected options).cause Cause.noConfusion⟩

instance sparing_missing (wanted : Wanted) : Sparing J (missing wanted : Read α) :=
  ⟨fun c => hJ.fail c (c.missing wanted).cause Cause.noConfusion⟩

section

variable (kind : Kind) [hkind : J.Admits kind]

instance sparing_eat : Sparing J (eat kind) where
  spares c := by
    unfold Spares
    by_cases hpeek : c.peek = some kind
    · rw [eat_of_peek hpeek]
      exact hkind.pass hpeek
    · rw [eat_of_ne hpeek]
      exact hJ.stay c

instance sparing_eatAny_nil : Sparing J (eatAny []) := Sparing.instPure false

instance sparing_eatAny_cons (kinds : List Kind) [Sparing J (eatAny kinds)] :
    Sparing J (eatAny (kind :: kinds)) := by
  unfold eatAny
  infer_instance

instance sparing_expect : Sparing J (expect kind) where
  spares c := by
    unfold Spares
    by_cases hpeek : c.peek = some kind
    · rw [expect_of_peek hpeek]
      exact hkind.pass hpeek
    · rw [expect_of_ne hpeek]
      exact hJ.fail c _ Cause.noConfusion

instance sparing_take? : Sparing J (take? kind) where
  spares c := by
    unfold Spares
    by_cases hpeek : c.peek = some kind
    · cases hrest : c.rest with
      | nil => simp [Cursor.peek, hrest] at hpeek
      | cons token rest =>
          have htoken : token.kind = kind := by simpa [Cursor.peek, hrest] using hpeek
          rw [take?_of_rest hrest htoken]
          exact hkind.pass hpeek
    · rw [take?_of_ne hpeek]
      exact hJ.stay c

end

/-! ## Lists and options -/

section

variable (read : Read α) [Sparing J read]

instance sparing_located : Sparing J (located read) := by
  unfold located
  infer_instance

instance sparing_commaList : Sparing J (commaList read) := by
  unfold commaList
  infer_instance

instance sparing_separated (close : Kind) (separators : List Kind) [Sparing J (eatAny separators)] :
    Sparing J (separated close separators read) := by
  unfold separated
  infer_instance

instance sparing_terminated (starts : List Kind) : Sparing J (terminated starts read) := by
  unfold terminated
  infer_instance

instance sparing_optionalAt (kind : Kind) : Sparing J (optionalAt kind read) := by
  unfold optionalAt
  infer_instance

instance sparing_optionalAfter (kind : Kind) [J.Admits kind] :
    Sparing J (optionalAfter kind read) := by
  unfold optionalAfter
  infer_instance

end

/-! ## Names and clocks -/

instance sparing_pragmaStep (read : List Pragma) : Sparing J (pragmaStep read) := by
  refine .after fun found => ?_
  cases found <;> infer_instance

instance sparing_pragmas : Sparing J pragmas := by
  rw [pragmas_eq]
  infer_instance

instance sparing_ident : Sparing J ident := by
  refine .after fun found => ?_
  cases found <;> infer_instance

instance sparing_identList : Sparing J identList := by
  unfold identList
  infer_instance

instance sparing_reference : Sparing J reference := by
  refine .after fun first => ?_
  cases first with
  | none => infer_instance
  | some first =>
      refine .after fun separator => ?_
      cases separator with
      | none => infer_instance
      | some separator =>
          refine .after fun member => ?_
          cases member <;> infer_instance

/-- A used name, and after it the token that was seen to follow it. -/
theorem spares_reference {next : Reference → Read β} [∀ ref, Sparing J (next ref)] {c : Cursor}
    {kind : Kind} (hpeek : c.peekAt c.referenceLength = some kind) [J.Admits kind] :
    Spares J c (reference >>= fun ref => advance >>= fun _ => next ref) c := by
  refine (Sparing.spares c).bind fun ref c' hread hpast => ?_
  have hnext : c'.peek = some kind :=
    (peek_eq_peekAt (meets_reference c ref c' hread).2).trans hpeek
  have hadvance : Spares J c' (advance >>= fun _ => next ref) c' := .advance hnext
  exact hJ.trans hpast hadvance

instance sparing_clock : Sparing J clock := by
  refine @sparing_located _ _ _ _ (.after fun negated => ?_)
  refine @Sparing.instIte _ _ _ _ _ _ inferInstance (.get fun c => ?_)
  dsimp only
  split
  · rename_i hcase
    exact spares_reference hcase.2
  · exact Sparing.spares c

end Read

/-! ## Expressions -/

/-- The readers of what is nested deeper keep to `P`. -/
class Nested.Sparing (J : Course) (deep : Nested) : Prop where
  top : ∀ least, Lustre.Sparing J (deep.top least)
  inner : ∀ least, Lustre.Sparing J (deep.inner least)
  args : Lustre.Sparing J deep.args

/-- No operator is marked. -/
theorem UnaryOp.isMarked_of_ofKind?
    {kind : Kind} {op : UnaryOp} (h : UnaryOp.ofKind? kind = some op) :
    kind.isMarked = false := by
  cases kind <;> first | rfl | cases h

theorem BinaryOp.isMarked_of_inTier? {tier : Tier} {kind : Kind} {op : BinaryOp}
    (h : BinaryOp.inTier? tier kind = some op) : kind.isMarked = false := by
  cases kind <;> first | rfl | cases h

theorem PredefinedOp.isMarked_of_ofKind? {kind : Kind} {op : PredefinedOp}
    (h : PredefinedOp.ofKind? kind = some op) : kind.isMarked = false := by
  cases kind <;> first | rfl | cases h

namespace Read

variable (deep : Nested) [hdeep : deep.Sparing J]

instance sparing_deepTop (least : Nat) : Sparing J (deep.top least) := hdeep.top least

instance sparing_deepInner (least : Nat) : Sparing J (deep.inner least) := hdeep.inner least

instance sparing_deepArgs : Sparing J deep.args := hdeep.args

instance sparing_deepExpr : Sparing J deep.expr := hdeep.top 0

variable [hJ : J.Lenient]

instance sparing_exprList (close : Kind) : Sparing J (exprList deep close) := by
  unfold exprList
  infer_instance

instance sparing_indexing (index : Expr → α) (slice : Expr → Expr → Option Expr → α) :
    Sparing J (indexing deep index slice) := by
  unfold indexing
  infer_instance

instance sparing_postfixStep (value : Expr) : Sparing J (postfixStep deep value) := by
  refine .peek fun c => ?_
  split
  · exact .advance ‹_›
  · exact .advance ‹_›
  · exact .advance ‹_›
  · exact Sparing.spares c

instance sparing_postfixes (value : Expr) : Sparing J (postfixes deep value) := by
  unfold postfixes
  infer_instance

instance sparing_fieldInit : Sparing J (fieldInit deep) := by
  unfold fieldInit
  infer_instance

instance sparing_record (start : Nat) (type : Reference) : Sparing J (record deep start type) := by
  have hfields : ∀ base, Sparing J (do
      let fields ← separated .rBrace [.comma, .semi] (fieldInit deep)
      let _ ← expect .rBrace
      return Expr.record (← spanFrom start) type base fields) := by
    intro base
    infer_instance
  refine .after fun _ => .get fun c => ?_
  dsimp only
  split
  · rename_i hbase
    exact spares_reference hbase.2
  · exact Sparing.spares c

instance sparing_nameExpr : Sparing J (nameExpr deep) := by
  refine .after fun start => .after fun name => .after fun next => ?_
  split <;> infer_instance

instance sparing_pattern : Sparing J pattern := by
  refine .peek fun c => ?_
  split
  · exact .advance ‹_›
  · exact .advance ‹_›
  · exact Sparing.spares c
  · exact Sparing.spares c

instance sparing_mergeArm : Sparing J (mergeArm deep) := by
  refine .after fun start => .after fun _ => .after fun pattern => ?_
  infer_instance

instance sparing_merge (start : Nat) : Sparing J (merge deep start) := by
  unfold merge
  infer_instance

instance sparing_conditional (start : Nat) (word : CondWord) :
    Sparing J (conditional deep start word) := by
  unfold conditional
  infer_instance

instance sparing_operands (start : Nat) (op : ListOp) : Sparing J (operands deep start op) := by
  unfold operands
  infer_instance

instance sparing_primary : Sparing J (primary deep) := by
  refine .after fun start => .peek fun c => ?_
  split
  · exact .takeText ‹_›
  · exact .takeText ‹_›
  · exact .advance ‹_›
  · exact .advance ‹_›
  · exact Sparing.spares c
  · exact .advance ‹_›
  · exact .advance ‹_›
  · exact .advance ‹_›
  · exact .advance ‹_›
  · exact .advance ‹_›
  · exact .advance ‹_›
  · exact .advance ‹_›
  · exact Sparing.spares c

instance sparing_prefixed : Sparing J (prefixed deep) := by
  refine .peek fun c => ?_
  split
  · rename_i op hop
    obtain ⟨kind, hpeek, hkind⟩ := Option.bind_eq_some_iff.mp hop
    have : IsFalse kind.isMarked := ⟨UnaryOp.isMarked_of_ofKind? hkind⟩
    exact .here fun place => .advance hpeek
  · exact Sparing.spares c

/-- An operator of a tier and what follows it. -/
theorem spares_operator {tier : Tier} {op : BinaryOp} {next : Unit → Read β}
    [h : Sparing J (next ())]
    {c : Cursor} (hop : c.peek.bind (BinaryOp.inTier? tier) = some op) :
    Spares J c (advance >>= next) c := by
  obtain ⟨kind, hpeek, hkind⟩ := Option.bind_eq_some_iff.mp hop
  have : IsFalse kind.isMarked := ⟨BinaryOp.isMarked_of_inTier? hkind⟩
  exact .advance hpeek

instance sparing_innerStep (least : Nat) (lhs : Expr) : Sparing J (innerStep deep least lhs) where
  spares c := by
    refine .ifAt (fun hwhen => ?_) (.peek ?_)
    · split
      · exact Sparing.spares c
      · exact .advance hwhen
    · split
      · rename_i op hop
        split
        · exact Sparing.spares c
        · exact spares_operator hop
      · exact Sparing.spares c

instance sparing_inner (least : Nat) : Sparing J (inner deep least) := by
  unfold inner
  infer_instance

omit hdeep in
/-- Both operands of a comparison are read on the same level. -/
theorem sparing_comparison_of [Sparing J (inner deep 0)] : Sparing J (comparison deep) := by
  refine .after fun lhs => .peek fun c => ?_
  split
  · rename_i op hop
    refine spares_operator (h := .after fun rhs => .after fun next => ?_) hop
    split <;> infer_instance
  · exact Sparing.spares c

instance sparing_comparison : Sparing J (comparison deep) := sparing_comparison_of deep

instance sparing_topStep (least : Nat) (lhs : Expr) : Sparing J (topStep deep least lhs) := by
  refine .peek fun c => ?_
  split
  · rename_i op hop
    split
    · exact Sparing.spares c
    · exact spares_operator hop
  · exact Sparing.spares c

instance sparing_top (least : Nat) : Sparing J (top deep least) := by
  unfold top
  infer_instance

/-! ## Types and static arguments -/

instance sparing_simpleType : Sparing J simpleType := by
  refine .after fun start => .peek fun c => ?_
  split
  · exact .advance ‹_›
  · exact .advance ‹_›
  · exact .advance ‹_›
  · exact Sparing.spares c
  · exact Sparing.spares c

instance sparing_lengthStep (type : TypeExpr) : Sparing J (lengthStep deep type) := by
  unfold lengthStep
  infer_instance

instance sparing_typeExpr : Sparing J (typeExpr deep) := by
  unfold typeExpr
  infer_instance

instance sparing_nodeUse : Sparing J (nodeUse deep) := by
  unfold nodeUse
  infer_instance

instance sparing_typeArg (start : Nat) (explicit : Bool) :
    Sparing J (typeArg deep start explicit) := by
  unfold typeArg
  infer_instance

instance sparing_constArg (start : Nat) (explicit : Bool) :
    Sparing J (constArg deep start explicit) := by
  unfold constArg
  infer_instance

instance sparing_nodeArg (start : Nat) (kind : NodeKind) : Sparing J (nodeArg deep start kind) := by
  unfold nodeArg
  infer_instance

instance sparing_nameLedConst (close : Kind) (start : Nat) :
    Sparing J (nameLedConst deep close start) := by
  refine .after fun value => ?_
  split <;> infer_instance

/-- The second look at `f<<...>>` begins where the first one did. -/
instance sparing_nameLedArg (close : Kind) (start : Nat) :
    Sparing J (nameLedArg deep close start) := by
  refine .get fun c => ?_
  dsimp only
  split
  · exact Sparing.spares c
  split
  · refine (Sparing.spares c).bind fun target c' _ hpast => ?_
    refine Spares.bind (.later hpast) fun found c'' _ hpast' => ?_
    split
    · exact (sparing_nameLedConst deep close start).spares c
    · exact .later hpast'
  · exact Sparing.spares c

section

variable [J.Admits .kwType] [J.Admits .kwConst] [J.Admits .kwNode] [J.Admits .kwFunction]

instance sparing_staticArg (close : Kind) : Sparing J (staticArg deep close) := by
  refine .get fun c => ?_
  dsimp only
  split
  · rename_i op hop
    obtain ⟨kind, hpeek, hkind⟩ := Option.bind_eq_some_iff.mp (Option.filter_eq_some_iff.mp hop).1
    have : IsFalse kind.isMarked := ⟨PredefinedOp.isMarked_of_ofKind? hkind⟩
    exact .advance hpeek
  · split
    · exact .advance ‹_›
    · exact .advance ‹_›
    · exact .advance ‹_›
    · exact .advance ‹_›
    · exact Sparing.spares c
    · exact Sparing.spares c
    · exact Sparing.spares c
    · exact Sparing.spares c
    · exact Sparing.spares c

instance sparing_staticArgs [J.Admits .gtGt] : Sparing J (staticArgs deep) := by
  unfold staticArgs
  infer_instance

end

/-! ## Statements -/

instance sparing_partStep (left : LeftExpr) : Sparing J (partStep deep left) := by
  refine .after fun dot => @Sparing.instIte _ _ _ _ _ _ inferInstance (.after fun bracket => ?_)
  infer_instance

instance sparing_leftExpr : Sparing J (leftExpr deep) := by
  unfold leftExpr
  infer_instance

instance sparing_leftList : Sparing J (leftList deep) := by
  refine .after fun found => @Sparing.instIte _ _ _ _ _ _ (.after fun empty => ?_) inferInstance
  infer_instance

instance sparing_statement : Sparing J (statement deep) := by
  unfold statement
  infer_instance

instance sparing_equation : Sparing J (equation deep) := by
  unfold equation
  infer_instance

end Read

/-! ## Declarations -/

instance Nested.sparing_exhausted {P : List Token → Prop} [Lenient P] :
    exhausted.Sparing (.passing P) :=
  ⟨fun _ => ⟨fun c => .refl c⟩, fun _ => ⟨fun c => .refl c⟩, ⟨fun c => .refl c⟩⟩

instance Nested.sparing_upTo {P : List Token → Prop} [Tolerant P] (levels : Nat) :
    (upTo levels).Sparing (.passing P) := by
  induction levels with
  | zero => exact sparing_exhausted
  | succ levels ih =>
      exact ⟨Read.sparing_top _, Read.sparing_inner _, Read.sparing_staticArgs _⟩

namespace Read

variable [hJ : J.Tolerant] (deep : Nested) [hdeep : deep.Sparing J]

/-! ## Parts of declarations -/

instance sparing_typedNames : Sparing J (typedNames deep) := by
  unfold typedNames
  infer_instance

instance sparing_varGroups : Sparing J (varGroups deep) := by
  refine .after fun first => @Sparing.instIterate _ _ _ _ _ fun groups => .after fun found => ?_
  infer_instance

instance sparing_varDecl : Sparing J (varDecl deep) := by
  refine @sparing_located _ _ _ _ (.after fun found => @Sparing.instIte _ _ _ _ _ _ ?_ ?_)
  · infer_instance
  · infer_instance

instance sparing_params : Sparing J (params deep) := by
  unfold params
  infer_instance

instance sparing_profile : Sparing J (profile deep) := by
  unfold profile
  infer_instance

instance sparing_nodeKind : Sparing J nodeKind := by
  unfold nodeKind
  infer_instance

instance sparing_nodeHead : Sparing J nodeHead := by
  unfold nodeHead
  infer_instance

instance sparing_staticParam : Sparing J (staticParam deep) := by
  refine @sparing_located _ _ _ _ (.peek fun c => ?_)
  split
  · exact .advance ‹_›
  · exact .advance ‹_›
  · exact Sparing.spares c
  · exact Sparing.spares c
  · exact Sparing.spares c
  · exact Sparing.spares c

instance sparing_staticParams : Sparing J (staticParams deep) := by
  unfold staticParams
  infer_instance

instance sparing_fieldDecl : Sparing J (fieldDecl deep) := by
  refine @sparing_located _ _ _ _ (.after fun names => .after fun _ =>
    .after fun type => ⟨fun c => ?_⟩)
  refine .ifAt (fun heq => ?_) (Sparing.spares c)
  split
  · exact Sparing.spares c
  · exact .advance heq

instance sparing_fieldDecls : Sparing J (fieldDecls deep) := by
  unfold fieldDecls
  infer_instance

instance sparing_typeBody : Sparing J (typeBody deep) := by
  refine @sparing_located _ _ _ _ (.peek fun c => ?_)
  split
  · exact .advance ‹_›
  · exact .advance ‹_›
  · exact Sparing.spares c
  · exact Sparing.spares c

instance sparing_typeDef : Sparing J (typeDef deep) := by
  unfold typeDef
  infer_instance

instance sparing_typeEntry : Sparing J (typeEntry deep) := by
  unfold typeEntry
  infer_instance

instance sparing_constDef : Sparing J (constDef deep) := by
  refine .after fun name => .peek fun c => ?_
  split
  · exact Sparing.spares c
  · exact .advance ‹_›
  · exact .advance ‹_›
  · exact Sparing.spares c

instance sparing_constEntry : Sparing J (constEntry deep) := by
  unfold constEntry
  infer_instance

end Read

end Lustre
