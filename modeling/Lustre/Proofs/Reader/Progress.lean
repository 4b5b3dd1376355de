import Lustre.Proofs.Reader.StaticArg
import Lustre.Reader.Signature

/-!
# Readers move forward

No reader goes back behind the token where it was started, whether it succeeds or
fails, and it fails only because of the grammar, at a place that it has seen
(`Forward`).  A reader of something
that takes up a token fails where no token is left (`Starved`).  Both are found by
instance search along the way in which a reader is put together.

Of the causes that readers can give, one is left out: that an argument is ambiguous.
An expression that is a bare name takes as many tokens as the name was foreseen to
take (`Expr.Opens`), and where these are followed by the end of an argument, the name
has been taken for a name before.

The bound of a loop is then a matter of its steps alone: if every step that asks for
another has passed a token (`Advancing`), any bound above the number of tokens to
come gives the same answer.
-/

namespace Lustre

variable {α β : Type}

/-- The state in which a reader ends. -/
def finalState {ε σ : Type} : EStateM.Result ε σ α → σ
  | .ok _ s | .error _ s => s

/-! ## Only for reasons of grammar -/

/-- Whether a cause is a matter of the grammar: the words of a text are fine, but not in this
order. -/
def Cause.isGrammatical : Cause → Bool
  | .unterminatedComment | .unterminatedString | .unknownCharacter _ | .ambiguousArgument _
  | .tooManyErrors | .cutShort _ | .stated _ _ _ => false
  | _ => true

/-- The causes that readers give, for instance search. -/
class Grammatical (cause : Cause) : Prop where
  isGrammatical : cause.isGrammatical = true

namespace Grammatical

instance (options : List Kind) (found : Option String) : Grammatical (.unexpected options found) :=
  ⟨rfl⟩

instance (wanted : Wanted) (found : Option String) : Grammatical (.missing wanted found) := ⟨rfl⟩

instance : Grammatical .nestedTooDeeply := ⟨rfl⟩

instance : Grammatical .spacedQualifiedName := ⟨rfl⟩

instance (first second : BinaryOp) : Grammatical (.chainedComparison first second) := ⟨rfl⟩

instance (name : String) : Grammatical (.unappliedInstance name) := ⟨rfl⟩

instance : Grammatical .sharedDefault := ⟨rfl⟩

end Grammatical

/-! ## Readers that move forward -/

/-- From `c`, a reader does not go back behind `start`.  It fails only because of the grammar, and
points at a place that it has seen. -/
structure Proceeds (start : Cursor) (read : Read α) (c : Cursor) : Prop where
  onward : start.Onward (finalState (read c))
  grammatical : ∀ e c', read c = .error e c' → e.cause.isGrammatical = true
  marks : start.InOrder → ∀ e c', read c = .error e c' → start.Marks e.span c'

namespace Proceeds

variable {start c : Cursor}

/-- A reader that is started later does not go back farther. -/
theorem earlier {read : Read α} (h : Proceeds c read c) (hstart : start.Onward c) :
    Proceeds start read c where
  onward := hstart.trans h.onward
  grammatical := h.grammatical
  marks horder e c' herror :=
    (h.marks (horder.onward hstart) e c' herror).earlier horder hstart

/-- All that matters is what comes out. -/
theorem of_eq {read read' : Read α} {c' : Cursor} (h : Proceeds start read c)
    (heq : read' c' = read c) : Proceeds start read' c' :=
  ⟨heq ▸ h.onward, heq ▸ h.grammatical, heq ▸ h.marks⟩

theorem of_ok {read : Read α} {a : α} {c' : Cursor} (hok : read c = .ok a c')
    (honward : start.Onward c') : Proceeds start read c := by
  refine ⟨by rw [hok]; exact honward, fun e c'' herror => ?_, fun _ e c'' herror => ?_⟩ <;>
    rw [hok] at herror <;> cases herror

theorem of_error {read : Read α} {d : Diagnostic} {c' : Cursor} (herror : read c = .error d c')
    (honward : start.Onward c') (hgrammatical : d.cause.isGrammatical = true)
    (hmarks : start.InOrder → start.Marks d.span c') : Proceeds start read c := by
  refine ⟨by rw [herror]; exact honward, fun e c'' heq => ?_, fun horder e c'' heq => ?_⟩ <;>
    rw [herror] at heq <;> cases heq
  · exact hgrammatical
  · exact hmarks horder

theorem bind {read : Read α} {next : α → Read β} (h : Proceeds start read c)
    (hnext : ∀ a c', read c = .ok a c' → start.Onward c' → Proceeds start (next a) c') :
    Proceeds start (read >>= next) c := by
  obtain ⟨honward, hgrammatical, hmarks⟩ := h
  cases hread : read c with
  | ok a c' =>
      rw [hread] at honward
      exact (hnext a c' hread honward).of_eq (bind_of_ok hread)
  | error e c' =>
      rw [hread] at honward
      exact .of_error (bind_of_error hread) honward (hgrammatical e c' hread)
        fun horder => hmarks horder e c' hread

end Proceeds

/-- A reader that never goes back behind the token where it was started, and that fails only because
of the grammar, at a place that it has seen. -/
class Forward (read : Read α) : Prop where
  proceeds : ∀ c : Cursor, Proceeds c read c

namespace Forward

theorem onward {read : Read α} (h : Forward read) (c : Cursor) : c.Onward (finalState (read c)) :=
  (h.proceeds c).onward

theorem suffix (read : Read α) [h : Forward read] (c : Cursor) :
    (finalState (read c)).rest <:+ c.rest :=
  (h.onward c).suffix

theorem meets_onward (read : Read α) [h : Forward read] (c : Cursor) :
    Meets read c fun _ c' => c.Onward c' := by
  intro a c' hok
  have honward := h.onward c
  rwa [hok] at honward

theorem meets (read : Read α) [Forward read] (c : Cursor) :
    Meets read c fun _ c' => c'.rest.length ≤ c.rest.length :=
  (meets_onward read c).mono fun _ _ h => h.suffix.length_le

/-- A reader that does not fail. -/
theorem of_ok {read : Read α} (h : ∀ c : Cursor, ∃ a c', read c = .ok a c' ∧ c.Onward c') :
    Forward read where
  proceeds c := by
    obtain ⟨a, c', hok, honward⟩ := h c
    exact .of_ok hok honward

/-- A reader that fails at the next token. -/
theorem of_error {read : Read α} (h : ∀ c : Cursor, ∃ cause : Cause,
    read c = .error ⟨cause, c.span⟩ c ∧ cause.isGrammatical = true) : Forward read where
  proceeds c := by
    obtain ⟨cause, herror, hcause⟩ := h c
    exact .of_error herror .here hcause fun horder => .here horder

instance instPure (a : α) : Forward (pure a : Read α) := of_ok fun c => ⟨a, c, rfl, .here⟩

instance instGet : Forward (get : Read Cursor) := of_ok fun c => ⟨c, c, rfl, .here⟩

instance instBind (read : Read α) (next : α → Read β) [h : Forward read]
    [hnext : ∀ a, Forward (next a)] : Forward (read >>= next) where
  proceeds c := (h.proceeds c).bind fun a c' _ honward => ((hnext a).proceeds c').earlier honward

instance instIte (p : Prop) [Decidable p] (yes no : Read α) [hyes : Forward yes]
    [hno : Forward no] : Forward (if p then yes else no) := by
  split
  · exact hyes
  · exact hno

theorem after {read : Read α} {next : α → Read β} [Forward read] (hnext : ∀ a, Forward (next a)) :
    Forward (read >>= next) :=
  instBind read next

instance instIterateUpTo (step : α → Read (ForInStep α)) [h : ∀ a, Forward (step a)] (bound : Nat)
    (a : α) : Forward (iterateUpTo step bound a) := by
  induction bound generalizing a with
  | zero => exact instPure a
  | succ bound ih =>
      -- induction on the bound, which only says how often a step may be taken
      refine .after fun next => ?_
      cases next with
      | done a => exact instPure a
      | yield a => exact ih a

instance instIterate (a : α) (step : α → Read (ForInStep α)) [∀ a, Forward (step a)] :
    Forward (Read.iterate a step) := by
  unfold Read.iterate
  infer_instance

end Forward

/-! ## Nothing out of nothing -/

/-- A reader that fails where no token is left. -/
class Starved (read : Read α) : Prop where
  fails : ∀ c : Cursor, c.rest = [] → ∃ e c', read c = .error e c' ∧ c'.rest = []

namespace Starved

theorem of_end {read : Read α}
    (h : ∀ last size, ∃ e c', read ⟨[], last, size⟩ = .error e c' ∧ c'.rest = []) :
    Starved read where
  fails c hrest := by
    rcases c with ⟨rest, last, size⟩
    cases hrest
    exact h last size

instance instThrow (d : Diagnostic) : Starved (throw d : Read α) :=
  ⟨fun c hrest => ⟨d, c, rfl, hrest⟩⟩

theorem meets {read : Read α} [h : Starved read] {c : Cursor} {Q : α → Cursor → Prop}
    (hrest : c.rest = []) : Meets read c Q := by
  obtain ⟨e, c', herror, -⟩ := h.fails c hrest
  intro a c'' hok
  rw [herror] at hok
  cases hok

/-- Nothing makes up for a first reader that fails. -/
instance (priority := low) instBind (read : Read α) (next : α → Read β) [h : Starved read] :
    Starved (read >>= next) where
  fails c hrest := by
    obtain ⟨e, c', herror, hrest'⟩ := h.fails c hrest
    refine ⟨e, c', ?_, hrest'⟩
    rw [bind_of_error herror]

/-- A look at the next token, which is not there, goes before the failure. -/
theorem look {next : Cursor → Read β}
    (h : ∀ c : Cursor, c.rest = [] → ∃ e c', next c c = .error e c' ∧ c'.rest = []) :
    Starved (get >>= next) :=
  ⟨h⟩

theorem peek {next : Option Kind → Read β} (h : Starved (next none)) :
    Starved (Read.peek >>= next) where
  fails c hrest := by
    change ∃ e c', next c.peek c = .error e c' ∧ c'.rest = []
    rw [Cursor.peek, hrest]
    exact h.fails c hrest

instance instHere (next : Nat → Read β) [h : ∀ start, Starved (next start)] :
    Starved (Read.here >>= next) :=
  ⟨fun c hrest => (h _).fails c hrest⟩

theorem eat {kind : Kind} {next : Bool → Read β} (h : Starved (next false)) :
    Starved (Read.eat kind >>= next) where
  fails c hrest := by
    have hno : Read.eat kind c = .ok false c := by
      rcases c with ⟨rest, last, size⟩
      cases hrest
      rfl
    rw [bind_of_ok hno]
    exact h.fails c hrest

end Starved

/-! ## Loops -/

theorem Cursor.length_pass {c : Cursor} {kind : Kind} (h : c.peek = some kind) :
    c.pass.rest.length < c.rest.length := by
  rcases hrest : c.rest with _ | ⟨token, rest⟩
  · simp [Cursor.peek, hrest] at h
  · simp [Cursor.rest_pass, hrest]

/-- A step of a loop that passes a token before it asks for another step. -/
def Advancing (step : α → Read (ForInStep α)) : Prop :=
  ∀ a c, Meets (step a) c (StepKeeps (fun _ c' => c'.rest.length < c.rest.length) fun _ _ => True)

namespace Read

/-! ## Readers of one token -/

section

variable {c : Cursor} {kind : Kind}

theorem isAt_of_peek (h : c.peek = some kind) : isAt kind c = .ok true c := by
  change EStateM.Result.ok (c.isAt kind) c = _
  simp [Cursor.isAt, h]

theorem isAt_of_ne (h : c.peek ≠ some kind) : isAt kind c = .ok false c := by
  change EStateM.Result.ok (c.isAt kind) c = _
  simp [Cursor.isAt, h]

theorem eat_of_peek (h : c.peek = some kind) : eat kind c = .ok true c.pass := by
  have hat : c.isAt kind = true := by simp [Cursor.isAt, h]
  change (if c.isAt kind = true then _ else _ : Read Bool) c = _
  rw [if_pos hat]
  rfl

theorem eat_of_ne (h : c.peek ≠ some kind) : eat kind c = .ok false c := by
  have hat : c.isAt kind = false := by simp [Cursor.isAt, h]
  change (if c.isAt kind = true then _ else _ : Read Bool) c = _
  rw [if_neg (by simp [hat])]
  rfl

theorem eatAny_of_peek {options : List Kind} (h : c.peek = some kind) (hmem : kind ∈ options) :
    eatAny options c = .ok true c.pass := by
  induction options with
  | nil => cases hmem
  | cons option options ih =>
      change (eat option >>= _) c = _
      -- options that are not there are passed over
      by_cases heq : option = kind
      · rw [bind_of_ok (eat_of_peek (heq ▸ h))]
        rfl
      · have hne : c.peek ≠ some option := by
          rw [h]
          simpa using fun h => heq h.symm
        rw [bind_of_ok (eat_of_ne hne)]
        exact ih ((List.mem_cons.mp hmem).resolve_left fun h => heq h.symm)

theorem eatAny_of_ne {options : List Kind} (h : ∀ kind ∈ options, c.peek ≠ some kind) :
    eatAny options c = .ok false c := by
  induction options with
  | nil => rfl
  | cons option options ih =>
      change (eat option >>= _) c = _
      rw [bind_of_ok (eat_of_ne (h option List.mem_cons_self))]
      exact ih fun kind hmem => h kind (List.mem_cons_of_mem _ hmem)

theorem expect_of_peek (h : c.peek = some kind) : expect kind c = .ok c.span c.pass := by
  have hat : c.isAt kind = true := by simp [Cursor.isAt, h]
  change (if c.isAt kind = true then _ else _ : Read Span) c = _
  rw [if_pos hat]
  rfl

theorem expect_of_ne (h : c.peek ≠ some kind) :
    expect kind c = .error (c.unexpected [kind]) c := by
  have hat : c.isAt kind = false := by simp [Cursor.isAt, h]
  change (if c.isAt kind = true then _ else _ : Read Span) c = _
  rw [if_neg (by simp [hat])]
  rfl

theorem take?_of_rest {token : Token} {rest : List Token} (hrest : c.rest = token :: rest)
    (hkind : token.kind = kind) : take? kind c = .ok (some token) c.pass := by
  obtain ⟨_, size, last⟩ := c
  cases hrest
  change (if token.kind = kind then _ else _ : Read (Option Token)) _ = _
  rw [if_pos hkind]
  rfl

theorem take?_eq_some {token : Token} {c' : Cursor} (h : take? kind c = .ok (some token) c') :
    ∃ rest, c.rest = token :: rest ∧ c' = c.pass := by
  obtain ⟨rest, last, size⟩ := c
  cases rest with
  | nil => cases h
  | cons first rest =>
      change (if first.kind = kind then _ else _ : Read (Option Token)) _ = _ at h
      split at h
      · cases h
        exact ⟨rest, rfl, rfl⟩
      · cases h

theorem take?_of_ne (h : c.peek ≠ some kind) : take? kind c = .ok none c := by
  obtain ⟨rest, size, last⟩ := c
  cases rest with
  | nil => rfl
  | cons token rest =>
      have hne : token.kind ≠ kind := by simpa [Cursor.peek] using h
      change (if token.kind = kind then _ else _ : Read (Option Token)) _ = _
      rw [if_neg hne]
      rfl

end

instance forward_peek : Forward peek := by
  unfold peek
  infer_instance

instance forward_isAt (kind : Kind) : Forward (isAt kind) := by
  unfold isAt
  infer_instance

instance forward_here : Forward here := by
  unfold here
  infer_instance

instance forward_spanFrom (start : Nat) : Forward (spanFrom start) := by
  unfold spanFrom
  infer_instance

instance forward_advance : Forward advance := .of_ok fun c => ⟨(), c.pass, rfl, .pass .here⟩

instance forward_eat (kind : Kind) : Forward (eat kind) := by
  unfold eat
  infer_instance

instance forward_eatAny (kinds : List Kind) : Forward (eatAny kinds) := by
  induction kinds with
  | nil => exact Forward.instPure false
  | cons kind kinds ih =>
      unfold eatAny
      infer_instance

instance forward_fail (cause : Cause) [h : Grammatical cause] : Forward (fail cause : Read α) :=
  .of_error fun _ => ⟨cause, rfl, h.isGrammatical⟩

instance forward_unexpected (options : List Kind) : Forward (unexpected options : Read α) :=
  .of_error fun c => ⟨.unexpected options c.found, rfl, rfl⟩

instance forward_missing (wanted : Wanted) : Forward (missing wanted : Read α) :=
  .of_error fun c => ⟨.missing wanted c.found, rfl, rfl⟩

instance forward_expect (kind : Kind) : Forward (expect kind) := by
  unfold expect
  infer_instance

instance forward_take? (kind : Kind) : Forward (take? kind) := by
  refine .after fun c => ?_
  split <;> infer_instance

instance forward_takeText : Forward takeText := by
  unfold takeText
  infer_instance

instance starved_fail (cause : Cause) :
    Starved (fail cause : Read α) := .look fun _ hrest => ⟨_, _, rfl, hrest⟩

instance starved_unexpected (options : List Kind) : Starved (unexpected options : Read α) :=
  .look fun _ hrest => ⟨_, _, rfl, hrest⟩

instance starved_missing (wanted : Wanted) : Starved (missing wanted : Read α) :=
  .look fun _ hrest => ⟨_, _, rfl, hrest⟩

instance starved_expect (kind : Kind) : Starved (expect kind) :=
  .of_end fun _ _ => ⟨_, _, rfl, rfl⟩

/-! ## Lists and options -/

section

variable (read : Read α) [Forward read]

instance forward_located : Forward (located read) := by
  unfold located
  infer_instance

instance starved_located [Starved read] : Starved (located read) := by
  unfold located
  infer_instance

instance forward_commaList : Forward (commaList read) := by
  unfold commaList
  infer_instance

instance starved_commaList [Starved read] : Starved (commaList read) := by
  unfold commaList
  infer_instance

instance forward_separated (close : Kind) (separators : List Kind) :
    Forward (separated close separators read) := by
  unfold separated
  infer_instance

instance forward_terminated (starts : List Kind) : Forward (terminated starts read) := by
  unfold terminated
  infer_instance

instance forward_optionalAt (kind : Kind) : Forward (optionalAt kind read) := by
  unfold optionalAt
  infer_instance

instance forward_optionalAfter (kind : Kind) : Forward (optionalAfter kind read) := by
  unfold optionalAfter
  infer_instance

end

/-! ## The steps of loops -/

/-- The step of `commaList`. -/
def commaStep (item : Read α) (items : List α) : Read (ForInStep (List α)) := do
  if ← eat .comma then return .yield (items ++ [← item]) else return .done items

instance forward_commaStep (item : Read α) [Forward item] (items : List α) :
    Forward (commaStep item items) := by
  unfold commaStep
  infer_instance

theorem commaList_eq (item : Read α) :
    commaList item = item >>= fun first => iterate [first] (commaStep item) := rfl

/-- The step of `separated`. -/
def separatedStep (close : Kind) (separators : List Kind) (item : Read α) (items : List α) :
    Read (ForInStep (List α)) := do
  if ← isAt close then return .done items
  else
    let items := items ++ [← item]
    if ← eatAny separators then return .yield items else return .done items

instance forward_separatedStep
    (close : Kind) (separators : List Kind) (item : Read α) [Forward item]
    (items : List α) : Forward (separatedStep close separators item items) := by
  unfold separatedStep
  infer_instance

theorem separated_eq (close : Kind) (separators : List Kind) (item : Read α) :
    separated close separators item = iterate [] (separatedStep close separators item) := rfl

/-- The step of `terminated`. -/
def terminatedStep (starts : List Kind) (item : Read α) (items : List α) :
    Read (ForInStep (List α)) := do
  let items := items ++ [← item]
  let _ ← expect .semi
  let next ← peek
  if next.any starts.contains then return .yield items else return .done items

instance forward_terminatedStep (starts : List Kind) (item : Read α) [Forward item]
    (items : List α) : Forward (terminatedStep starts item items) := by
  unfold terminatedStep
  infer_instance

theorem advancing_commaStep (item : Read α) [Forward item] : Advancing (commaStep item) := by
  intro items c
  refine .ifEat (fun hcomma => .bind (Forward.meets item _) fun a c' hle => .pure ?_) fun _ =>
    .pure trivial
  exact Nat.lt_of_le_of_lt hle (Cursor.length_pass hcomma)

theorem meets_eatAny_shorter (kinds : List Kind) (c : Cursor) :
    Meets (eatAny kinds) c fun found c' => found = true → c'.rest.length < c.rest.length := by
  induction kinds with
  | nil => exact .pure nofun
  | cons kind kinds ih =>
      exact .ifEat (fun hkind => .pure fun _ => Cursor.length_pass hkind) fun _ => ih

theorem advancing_separatedStep (close : Kind) (separators : List Kind) (item : Read α)
    [Forward item] : Advancing (separatedStep close separators item) := by
  intro items c
  refine .ifAt (fun _ => .pure trivial) fun _ => ?_
  refine .bind (Forward.meets item c) fun a c₁ hle => ?_
  refine .bind (meets_eatAny_shorter separators c₁) fun found c₂ hshorter => ?_
  split
  · rename_i hfound
    exact .pure (Nat.lt_of_lt_of_le (hshorter hfound) hle)
  · exact .pure trivial

theorem advancing_terminatedStep (starts : List Kind) (item : Read α) [Forward item] :
    Advancing (terminatedStep starts item) := by
  intro items c
  refine .bind (Forward.meets item c) fun a c₁ hle => .expect fun hsemi _ => .peek ?_
  split
  · exact .pure (Nat.lt_of_lt_of_le (Cursor.length_pass hsemi) hle)
  · exact .pure trivial

/-! ## Names and clocks -/

/-- The step of `pragmas`. -/
def pragmaStep (read : List Pragma) : Read (ForInStep (List Pragma)) := do
  match ← take? .pragma with
  | some token => return .yield (read ++ [.ofToken token])
  | none => return .done read

instance forward_pragmaStep (read : List Pragma) : Forward (pragmaStep read) := by
  refine .after fun found => ?_
  cases found <;> infer_instance

theorem pragmas_eq : pragmas = iterate [] pragmaStep := rfl

theorem advancing_pragmaStep : Advancing pragmaStep := by
  intro read c
  refine .take? (fun token rest hrest _ => .pure ?_) fun _ => .pure trivial
  simp [Cursor.rest_pass, hrest]

instance forward_pragmas : Forward pragmas := by
  rw [pragmas_eq]
  infer_instance

instance forward_ident : Forward ident := by
  refine .after fun found => ?_
  cases found <;> infer_instance

instance starved_ident : Starved ident :=
  .of_end fun _ _ => ⟨_, _, rfl, rfl⟩

instance forward_identList : Forward identList := by
  unfold identList
  infer_instance

instance starved_identList : Starved identList := by
  unfold identList
  infer_instance

/-- A name with blanks around its `::` is pointed at as a whole. -/
instance forward_reference : Forward reference where
  proceeds c := by
    refine .bind ((forward_take? .ident).proceeds c) fun first c₁ hfirst h₁ => ?_
    cases first with
    | none => exact ((forward_missing _).proceeds c₁).earlier h₁
    | some first =>
        obtain ⟨rest, hrest, rfl⟩ := take?_eq_some hfirst
        refine .bind (((forward_take? _).proceeds _).earlier h₁)
          fun separator c₂ hseparator h₂ => ?_
        cases separator with
        | none => exact .of_ok rfl h₂
        | some separator =>
            obtain ⟨behind, hbehind, rfl⟩ := take?_eq_some hseparator
            refine .bind (((forward_take? _).proceeds _).earlier h₂) fun member c₃ hmember h₃ => ?_
            cases member with
            | none => exact ((forward_missing _).proceeds c₃).earlier h₃
            | some member =>
                obtain ⟨later, hlater, rfl⟩ := take?_eq_some hmember
                dsimp only
                split
                · exact .of_ok rfl h₃
                · refine .of_error rfl h₃ rfl fun horder => .cover horder hrest ?_ h₃
                  rw [Cursor.rest_pass, hrest, List.tail_cons] at hbehind
                  rw [Cursor.rest_pass, Cursor.rest_pass, hrest, List.tail_cons, hbehind,
                    List.tail_cons] at hlater
                  simp [hbehind, hlater]

instance starved_reference : Starved reference :=
  .of_end fun _ _ => ⟨_, _, rfl, rfl⟩

instance forward_clock : Forward clock := by
  refine @forward_located _ _ (.after fun negated => ?_)
  refine @Forward.instIte _ _ _ _ _ inferInstance (.after fun c => ?_)
  refine @Forward.instIte _ _ _ _ _ ?_ ?_
  · infer_instance
  · infer_instance

end Read

/-! ## Expressions -/

/-- The readers of what is nested deeper move forward, and none of them reads nothing. -/
class Nested.Advances (deep : Nested) : Prop where
  faithful : deep.Faithful
  top_forward : ∀ least, Forward (deep.top least)
  inner_forward : ∀ least, Forward (deep.inner least)
  args_forward : Forward deep.args
  top_starved : ∀ least, Starved (deep.top least)

namespace Read

variable (deep : Nested) [hdeep : deep.Advances]

instance forward_deepTop (least : Nat) : Forward (deep.top least) := hdeep.top_forward least

instance forward_deepInner (least : Nat) : Forward (deep.inner least) := hdeep.inner_forward least

instance forward_deepArgs : Forward deep.args := hdeep.args_forward

instance starved_deepTop (least : Nat) : Starved (deep.top least) := hdeep.top_starved least

instance forward_deepExpr : Forward deep.expr := hdeep.top_forward 0

instance starved_deepExpr : Starved deep.expr := hdeep.top_starved 0

instance forward_exprList (close : Kind) : Forward (exprList deep close) := by
  unfold exprList
  infer_instance

instance forward_indexing (index : Expr → α) (slice : Expr → Expr → Option Expr → α) :
    Forward (indexing deep index slice) := by
  unfold indexing
  infer_instance

instance forward_postfixStep (value : Expr) : Forward (postfixStep deep value) := by
  refine .after fun next => ?_
  split <;> infer_instance

theorem advancing_postfixStep : Advancing (postfixStep deep) := by
  intro value c
  have hpass {kind : Kind} (h : c.peek = some kind) := Cursor.length_pass h
  refine .peek ?_
  split
  · rename_i hdot
    refine .advance (.bind (Forward.meets ident _) fun field c' hle => .pure ?_)
    exact Nat.lt_of_le_of_lt hle (hpass hdot)
  · rename_i hbracket
    refine .advance (.bind (Forward.meets _ _) fun build c₁ hle₁ => ?_)
    refine .bind (Forward.meets (expect _) _) fun close c₂ hle₂ => .pure ?_
    exact Nat.lt_of_le_of_lt (Nat.le_trans hle₂ hle₁) (hpass hbracket)
  · rename_i hparen
    refine .advance (.bind (Forward.meets _ _) fun args c₁ hle₁ => ?_)
    refine .bind (Forward.meets (expect _) _) fun close c₂ hle₂ => .pure ?_
    exact Nat.lt_of_le_of_lt (Nat.le_trans hle₂ hle₁) (hpass hparen)
  · exact .pure trivial

instance forward_postfixes (value : Expr) : Forward (postfixes deep value) := by
  unfold postfixes
  infer_instance

instance forward_fieldInit : Forward (fieldInit deep) := by
  unfold fieldInit
  infer_instance

instance forward_record (start : Nat) (type : Reference) : Forward (record deep start type) := by
  refine .after fun _ => .after fun c => ?_
  refine @Forward.instIte _ _ _ _ _ ?_ ?_
  · infer_instance
  · infer_instance

/-- A node that is not called is pointed at with its static arguments. -/
instance forward_nameExpr : Forward (nameExpr deep) where
  proceeds c := by
    refine .bind (forward_here.proceeds c) fun start c₀ hstart _ => ?_
    cases hstart
    refine .bind (forward_reference.proceeds c) fun name c₁ _ h₁ => ?_
    refine .bind ((forward_peek.proceeds c₁).earlier h₁) fun next c₂ _ h₂ => ?_
    split
    · refine .bind (((forward_deepArgs deep).proceeds c₂).earlier h₂) fun args c₃ _ h₃ => ?_
      refine .bind (((forward_isAt _).proceeds c₃).earlier h₃) fun found c₄ _ h₄ => ?_
      split
      · exact .of_ok rfl h₄
      · exact .of_error rfl h₄ rfl fun horder => .passed horder h₄
    · exact ((forward_record deep _ _).proceeds c₂).earlier h₂
    · exact .of_ok rfl h₂

instance forward_pattern : Forward pattern := by
  refine .after fun next => ?_
  split <;> infer_instance

instance forward_mergeArm : Forward (mergeArm deep) := by
  unfold mergeArm
  infer_instance

/-- The step of the loop over the arms of a merge. -/
def mergeStep (arms : List MergeArm) : Read (ForInStep (List MergeArm)) := do
  if ← isAt .lParen then return .yield (arms ++ [← mergeArm deep]) else return .done arms

instance forward_mergeStep (arms : List MergeArm) : Forward (mergeStep deep arms) := by
  unfold mergeStep
  infer_instance

theorem advancing_mergeStep : Advancing (mergeStep deep) := by
  intro arms c
  refine .ifAt (fun hparen => ?_) fun _ => .pure trivial
  refine .bind (P := fun _ c' => c'.rest.length < c.rest.length) ?_ fun _ _ hlt => .pure hlt
  refine .here fun start => .expect fun _ _ => ?_
  exact (Forward.meets _ _).mono fun _ _ hle => Nat.lt_of_le_of_lt hle (Cursor.length_pass hparen)

instance forward_merge (start : Nat) : Forward (merge deep start) := by
  unfold merge
  infer_instance

instance forward_conditional (start : Nat) (word : CondWord) :
    Forward (conditional deep start word) := by
  unfold conditional
  infer_instance

instance forward_operands (start : Nat) (op : ListOp) : Forward (operands deep start op) := by
  unfold operands
  infer_instance

instance forward_primary : Forward (primary deep) := by
  refine .after fun start => .after fun next => ?_
  split <;> infer_instance

instance forward_prefixed : Forward (prefixed deep) := by
  refine .after fun next => ?_
  split <;> infer_instance

instance forward_innerStep (least : Nat) (lhs : Expr) : Forward (innerStep deep least lhs) := by
  refine .after fun sampled => ?_
  refine @Forward.instIte _ _ _ _ _ inferInstance (.after fun next => ?_)
  split <;> infer_instance

theorem advancing_innerStep (least : Nat) : Advancing (innerStep deep least) := by
  intro lhs c
  have hpass {kind : Kind} (h : c.peek = some kind) := Cursor.length_pass h
  refine .ifAt (fun hwhen => ?_) fun _ => .peek ?_
  · split
    · exact .pure trivial
    · refine .advance (.bind (Forward.meets clock _) fun at_ c' hle => .pure ?_)
      exact Nat.lt_of_le_of_lt hle (hpass hwhen)
  · split
    · rename_i op hop
      obtain ⟨kind, hkind, -⟩ := Option.bind_eq_some_iff.mp hop
      split
      · exact .pure trivial
      · refine .advance (.bind (Forward.meets _ _) fun rhs c' hle => .pure ?_)
        exact Nat.lt_of_le_of_lt hle (hpass hkind)
    · exact .pure trivial

instance forward_inner (least : Nat) : Forward (inner deep least) := by
  unfold inner
  infer_instance

/-- A comparison that no other one follows. -/
def lastComparison (op : BinaryOp) (lhs rhs : Expr) : Read Expr := do
  match (← peek).bind (BinaryOp.inTier? .comparison) with
  | some next => fail (.chainedComparison op next)
  | none => return binary op lhs rhs

/-- The rest of a comparison after its left operand, or nothing if none comes next. -/
def comparisonRest (lhs : Expr) : Read Expr := do
  match (← peek).bind (BinaryOp.inTier? .comparison) with
  | some op =>
      advance
      lastComparison op lhs (← inner deep 0)
  | none => return lhs

omit hdeep in
theorem comparison_eq : comparison deep = inner deep 0 >>= comparisonRest deep := rfl

instance forward_lastComparison (op : BinaryOp) (lhs rhs : Expr) :
    Forward (lastComparison op lhs rhs) := by
  refine .after fun next => ?_
  split <;> infer_instance

instance forward_comparisonRest (lhs : Expr) : Forward (comparisonRest deep lhs) := by
  refine .after fun next => ?_
  split <;> infer_instance

instance forward_comparison : Forward (comparison deep) := by
  rw [comparison_eq]
  infer_instance

instance forward_topStep (least : Nat) (lhs : Expr) : Forward (topStep deep least lhs) := by
  refine .after fun next => ?_
  split <;> infer_instance

theorem advancing_topStep (least : Nat) : Advancing (topStep deep least) := by
  intro lhs c
  refine .peek ?_
  split
  · rename_i op hop
    obtain ⟨kind, hkind, -⟩ := Option.bind_eq_some_iff.mp hop
    split
    · exact .pure trivial
    · refine .advance (.bind (Forward.meets _ _) fun rhs c' hle => .pure ?_)
      exact Nat.lt_of_le_of_lt hle (Cursor.length_pass hkind)
  · exact .pure trivial

instance forward_top (least : Nat) : Forward (top deep least) := by
  unfold top
  infer_instance

instance starved_top (least : Nat) : Starved (top deep least) :=
  .of_end fun _ _ => ⟨_, _, rfl, rfl⟩

/-! ## Types and static arguments -/

instance forward_simpleType : Forward simpleType := by
  refine .after fun start => .after fun next => ?_
  split <;> infer_instance

instance starved_simpleType : Starved simpleType := by
  refine @Starved.instHere _ _ fun start => .peek ?_
  infer_instance

instance forward_lengthStep (type : TypeExpr) : Forward (lengthStep deep type) := by
  unfold lengthStep
  infer_instance

theorem advancing_lengthStep : Advancing (lengthStep deep) := by
  intro type c
  refine .ifEat (fun hcaret => .bind (Forward.meets _ _) fun length c' hle => .pure ?_) fun _ =>
    .pure trivial
  exact Nat.lt_of_le_of_lt hle (Cursor.length_pass hcaret)

instance forward_typeExpr : Forward (typeExpr deep) := by
  unfold typeExpr
  infer_instance

instance starved_typeExpr : Starved (typeExpr deep) := by
  unfold typeExpr
  infer_instance

instance forward_nodeUse : Forward (nodeUse deep) := by
  unfold nodeUse
  infer_instance

instance starved_nodeUse : Starved (nodeUse deep) := by
  unfold nodeUse
  infer_instance

instance forward_typeArg (start : Nat) (explicit : Bool) :
    Forward (typeArg deep start explicit) := by
  unfold typeArg
  infer_instance

instance starved_typeArg (start : Nat) (explicit : Bool) :
    Starved (typeArg deep start explicit) := by
  unfold typeArg
  infer_instance

instance forward_constArg (start : Nat) (explicit : Bool) :
    Forward (constArg deep start explicit) := by
  unfold constArg
  infer_instance

instance starved_constArg (start : Nat) (explicit : Bool) :
    Starved (constArg deep start explicit) := by
  unfold constArg
  infer_instance

instance forward_nodeArg (start : Nat) (kind : NodeKind) : Forward (nodeArg deep start kind) := by
  unfold nodeArg
  infer_instance

instance starved_nodeArg (start : Nat) (kind : NodeKind) : Starved (nodeArg deep start kind) := by
  unfold nodeArg
  infer_instance

/-- What is no name alone is not taken for one. -/
theorem proceeds_nameLedConst {close : Kind} (start : Nat) {c : Cursor}
    (hends : c.endsArg c.referenceLength close = false) :
    Proceeds c (nameLedConst deep close start) c := by
  refine .bind ((forward_deepExpr deep).proceeds c) fun value c' hread honward => ?_
  have hrest : ∀ answer : Span → StaticArg,
      Proceeds c (do return answer (← spanFrom start) : Read StaticArg) c' := fun answer =>
    (Forward.proceeds c').earlier honward
  split
  · rename_i span ref
    have hwhole := (hdeep.faithful.opens 0 c _ c' hread).whole rfl
    have hsame : c'.endsArg 0 close = false := by
      rw [← hends, Cursor.endsArg, Cursor.endsArg, Cursor.peekAt, Cursor.peekAt, hwhole,
        List.getElem?_drop, Nat.add_zero]
    refine (hrest fun place => .const place (.name span ref) false).of_eq ?_
    change (if c'.endsArg 0 close = true then _ else _ : Read StaticArg) c' = _
    rw [hsame]
    rfl
  · exact hrest _

/-- The second look at `f<<...>>` begins where the first one did. -/
instance forward_nameLedArg (close : Kind) (start : Nat) :
    Forward (nameLedArg deep close start) where
  proceeds c := by
    refine .bind (Forward.instGet.proceeds c) fun c₁ c₂ hsame _ => ?_
    cases hsame
    dsimp only
    split
    · exact Forward.proceeds c
    · rename_i hends
      have hagain := proceeds_nameLedConst deep start (Bool.not_eq_true _ ▸ hends)
      split
      · refine .bind ((forward_nodeUse deep).proceeds c) fun target c' _ honward => ?_
        refine .bind (((forward_isAt .lParen).proceeds c').earlier honward)
          fun found c'' hat _ => ?_
        cases hat
        split
        · exact hagain.of_eq rfl
        · exact (Forward.proceeds c').earlier honward
      · exact hagain

instance forward_staticArg (close : Kind) : Forward (staticArg deep close) := by
  refine .after fun c => ?_
  dsimp only
  split
  · infer_instance
  · split <;> infer_instance

instance starved_staticArg (close : Kind) : Starved (staticArg deep close) :=
  .of_end fun last size => (starved_constArg deep size false).fails ⟨[], last, size⟩ rfl

instance forward_staticArgs : Forward (staticArgs deep) := by
  unfold staticArgs
  infer_instance

end Read

instance Nested.advances_upTo (levels : Nat) : (upTo levels).Advances := by
  induction levels with
  | zero =>
      exact ⟨faithful_upTo 0, fun _ => Read.forward_fail _, fun _ => Read.forward_fail _,
        Read.forward_fail _, fun _ => Read.starved_fail _⟩
  | succ levels ih =>
      exact ⟨faithful_upTo (levels + 1), Read.forward_top _, Read.forward_inner _,
        Read.forward_staticArgs _, Read.starved_top _⟩

namespace Read

variable (deep : Nested) [hdeep : deep.Advances]

/-! ## Parts of declarations -/

instance forward_typedNames : Forward (typedNames deep) := by
  unfold typedNames
  infer_instance

instance starved_typedNames : Starved (typedNames deep) := by
  unfold typedNames
  infer_instance

/-- The step of `varGroups`. -/
def groupStep (groups : List TypedNames) : Read (ForInStep (List TypedNames)) := do
  if ← eat .semi then
    if ← isAt .rParen then return .done groups
    else return .yield (groups ++ [← typedNames deep])
  else return .done groups

instance forward_groupStep (groups : List TypedNames) : Forward (groupStep deep groups) := by
  unfold groupStep
  infer_instance

theorem advancing_groupStep : Advancing (groupStep deep) := by
  intro groups c
  refine .ifEat (fun hsemi => .ifAt (fun _ => .pure trivial) fun _ => ?_) fun _ => .pure trivial
  refine .bind (Forward.meets _ _) fun group c' hle => .pure ?_
  exact Nat.lt_of_le_of_lt hle (Cursor.length_pass hsemi)

instance forward_varGroups : Forward (varGroups deep) := by
  unfold varGroups
  infer_instance

instance forward_varDecl : Forward (varDecl deep) := by
  unfold varDecl
  infer_instance

instance starved_varDecl : Starved (varDecl deep) := by
  refine @starved_located _ _ (.eat ?_)
  exact Starved.instBind _ _

instance forward_params : Forward (params deep) := by
  unfold params
  infer_instance

instance forward_profile : Forward (profile deep) := by
  unfold profile
  infer_instance

instance forward_nodeKind : Forward nodeKind := by
  unfold nodeKind
  infer_instance

instance forward_nodeHead : Forward nodeHead := by
  unfold nodeHead
  infer_instance

instance starved_nodeHead : Starved nodeHead := by
  refine .eat (@Starved.instBind _ _ _ _ (.eat (.eat ?_)))
  exact starved_unexpected _

instance forward_staticParam : Forward (staticParam deep) := by
  refine @forward_located _ _ (.after fun next => ?_)
  split <;> infer_instance

instance starved_staticParam : Starved (staticParam deep) := by
  refine @starved_located _ _ (.peek ?_)
  infer_instance

instance forward_staticParams : Forward (staticParams deep) := by
  unfold staticParams
  infer_instance

instance forward_fieldDecl : Forward (fieldDecl deep) := by
  unfold fieldDecl
  infer_instance

instance forward_fieldDecls : Forward (fieldDecls deep) := by
  unfold fieldDecls
  infer_instance

instance forward_typeBody : Forward (typeBody deep) := by
  refine @forward_located _ _ (.after fun next => ?_)
  split <;> infer_instance

instance forward_typeDef : Forward (typeDef deep) := by
  unfold typeDef
  infer_instance

instance forward_typeEntry : Forward (typeEntry deep) := by
  unfold typeEntry
  infer_instance

instance forward_constDef : Forward (constDef deep) := by
  refine .after fun name => .after fun next => ?_
  split <;> infer_instance

instance forward_constEntry : Forward (constEntry deep) := by
  unfold constEntry
  infer_instance

instance forward_provide : Forward (provide deep) := by
  refine @forward_located _ _ (.after fun next => ?_)
  split <;> infer_instance

instance starved_provide : Starved (provide deep) := by
  refine @starved_located _ _ (.peek ?_)
  infer_instance

instance forward_uses : Forward uses := by
  unfold uses
  infer_instance

instance forward_provides : Forward (provides deep) := by
  unfold provides
  infer_instance

instance forward_keywordArg (arg : Nat → Read StaticArg) [∀ start, Forward (arg start)] :
    Forward (keywordArg arg) := by
  unfold keywordArg
  infer_instance

instance forward_namedArg (close : Kind) : Forward (namedArg deep close) := by
  refine @forward_located _ _ (.after fun c => ?_)
  split <;> infer_instance

instance forward_modelArgs : Forward (modelArgs deep) := by
  unfold modelArgs
  infer_instance

instance forward_partStep (left : LeftExpr) : Forward (partStep deep left) := by
  unfold partStep
  infer_instance

theorem advancing_partStep : Advancing (partStep deep) := by
  intro left c
  refine .ifEat (fun hdot => ?_) fun _ => .ifEat (fun hbracket => ?_) fun _ => .pure trivial
  · refine .bind (Forward.meets ident _) fun field c' hle => .pure ?_
    exact Nat.lt_of_le_of_lt hle (Cursor.length_pass hdot)
  · refine .bind (Forward.meets _ _) fun build c₁ hle₁ => ?_
    refine .bind (Forward.meets (expect _) _) fun close c₂ hle₂ => .pure ?_
    exact Nat.lt_of_le_of_lt (Nat.le_trans hle₂ hle₁) (Cursor.length_pass hbracket)

instance forward_leftExpr : Forward (leftExpr deep) := by
  unfold leftExpr
  infer_instance

instance forward_leftList : Forward (leftList deep) := by
  unfold leftList
  infer_instance

instance forward_statement : Forward (statement deep) := by
  unfold statement
  infer_instance

instance forward_equation : Forward (equation deep) := by
  unfold equation
  infer_instance

end Read

end Lustre
