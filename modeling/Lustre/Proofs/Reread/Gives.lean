import Lustre.Proofs.Printer.Apart
import Lustre.Proofs.Reader.Progress

/-!
# What a reader gives on printed words

`Gives read c Q` says that `read` succeeds from `c` with an answer and a place that satisfy
`Q`, unless something is nested too deeply: no other failure is possible.  A cursor
`Shows` the chunks whose words are still to come.

Loops are followed by `LoopGives`, which does not depend on the bound of the loop: as long
as every step passes a token, the bound is never met.
-/

namespace Lustre

open Chunk

variable {α β γ δ : Type}

/-! ## Cursors and chunks -/

namespace Cursor

/-- The tokens to come are the words of some chunks, in the places where they were printed. -/
def Shows (c : Cursor) (chunks : List Chunk) : Prop :=
  ∃ start, c.rest = Chunk.tokens start chunks

namespace Shows

variable {c : Cursor} {chunks : List Chunk} {kind : Kind} {text : String}

theorem gap (h : c.Shows (.gap text :: chunks)) : c.Shows chunks := by
  obtain ⟨start, hrest⟩ := h
  exact ⟨_, hrest⟩

theorem blank (h : c.Shows (Chunk.blank :: chunks)) : c.Shows chunks := h.gap

theorem peekAt (h : c.Shows chunks) (ahead : Nat) : c.peekAt ahead = (kinds chunks)[ahead]? := by
  obtain ⟨start, hrest⟩ := h
  rw [Cursor.peekAt, hrest, ← map_kind_tokens start, List.getElem?_map]

theorem peek (h : c.Shows chunks) : c.peek = (kinds chunks).head? := by
  obtain ⟨start, hrest⟩ := h
  rw [Cursor.peek, hrest, ← map_kind_tokens start, List.head?_map]

theorem length (h : c.Shows chunks) : c.rest.length = (kinds chunks).length := by
  obtain ⟨start, hrest⟩ := h
  rw [hrest, ← map_kind_tokens start, List.length_map]

/-- Behind some words fewer are to come than before them. -/
theorem length_lt {first : List Chunk} (h : c.Shows (first ++ chunks)) (hfirst : kinds first ≠ [])
    {c' : Cursor} (hlater : c'.Shows chunks) : c'.rest.length < c.rest.length := by
  have hpositive := List.length_pos_iff.mpr hfirst
  rw [h.length, hlater.length, kinds_append, List.length_append]
  omega

theorem pass (h : c.Shows (.word kind text :: chunks)) : c.pass.Shows chunks := by
  obtain ⟨start, hrest⟩ := h
  rw [Chunk.tokens] at hrest
  exact ⟨_, by rw [Cursor.pass, hrest]⟩

theorem pass_sign (h : c.Shows (sign kind :: chunks)) : c.pass.Shows chunks := h.pass

/-- An indented line is what it holds and a semicolon. -/
theorem entry {later : List Chunk} (h : c.Shows (Chunk.entry chunks ++ later)) :
    c.Shows (chunks ++ (sign .semi :: newline :: later)) := by
  have hwords : c.Shows (chunks ++ [sign .semi, newline] ++ later) := h.gap
  rwa [List.append_assoc] at hwords

theorem atEnd (h : c.Shows []) : c.atEnd = true := by
  obtain ⟨start, hrest⟩ := h
  rw [Cursor.atEnd, hrest]
  rfl

end Shows

end Cursor

/-! ## Readers -/

/-- `read` succeeds from `c`, and its answer and the place that it reaches satisfy `Q`, unless
something is nested too deeply. -/
def Gives (read : Read α) (c : Cursor) (Q : α → Cursor → Prop) : Prop :=
  match read c with
  | .ok a c' => Q a c'
  | .error e _ => e.cause = .nestedTooDeeply

namespace Gives

variable {c : Cursor} {P Q : α → Cursor → Prop} {R : β → Cursor → Prop} {kind : Kind}

theorem mono {read : Read α} (h : Gives read c P) (hPQ : ∀ a c', P a c' → Q a c') :
    Gives read c Q := by
  unfold Gives at *
  split
  · rename_i hread
    rw [hread] at h
    exact hPQ _ _ h
  · rename_i hread
    rw [hread] at h
    exact h

theorem pure {a : α} (h : Q a c) : Gives (Pure.pure a) c Q := h

theorem bind {read : Read α} {next : α → Read β} (h : Gives read c P)
    (hnext : ∀ a c', P a c' → Gives (next a) c' R) : Gives (read >>= next) c R := by
  unfold Gives at h
  change match EStateM.bind read next c with
    | .ok b c' => R b c'
    | .error e _ => e.cause = .nestedTooDeeply
  unfold EStateM.bind
  split at h
  · rename_i a c' hread
    rw [hread]
    exact hnext a c' h
  · rename_i e c' hread
    rw [hread]
    exact h

/-- A step that is known to succeed. -/
theorem after {read : Read α} {next : α → Read β} {a : α} {c' : Cursor} (h : read c = .ok a c')
    (hnext : Gives (next a) c' R) : Gives (read >>= next) c R := by
  refine bind (P := fun b c'' => b = a ∧ c'' = c') ?_ ?_
  · rw [Gives, h]
    exact ⟨rfl, rfl⟩
  · rintro b c'' ⟨rfl, rfl⟩
    exact hnext

theorem get {next : Cursor → Read β} (h : Gives (next c) c R) :
    Gives (MonadState.get >>= next) c R := h

theorem set {c' : Cursor} {next : Read β} (h : Gives next c' R) :
    Gives (MonadStateOf.set c' >>= fun _ => next) c R := h

theorem nested : Gives (Read.fail .nestedTooDeeply : Read α) c Q := rfl

theorem advance {next : Unit → Read β} (h : Gives (next ()) c.pass R) :
    Gives (Read.advance >>= next) c R := h

theorem here {next : Nat → Read β} (h : ∀ start, Gives (next start) c R) :
    Gives (Read.here >>= next) c R := h _

theorem spanFrom {start : Nat} {next : Span → Read β} (h : ∀ span, Gives (next span) c R) :
    Gives (Read.spanFrom start >>= next) c R := h _

theorem peek {next : Option Kind → Read β} (h : Gives (next c.peek) c R) :
    Gives (Read.peek >>= next) c R := h

/-- What comes next is known. -/
theorem peekAs {next : Option Kind → Read β} {found : Option Kind} (hpeek : c.peek = found)
    (h : Gives (next found) c R) : Gives (Read.peek >>= next) c R := by
  subst hpeek
  exact h

/-! ## Questions about the next token -/

theorem isAt_yes {next : Bool → Read β} (hpeek : c.peek = some kind) (h : Gives (next true) c R) :
    Gives (Read.isAt kind >>= next) c R := by
  have hat : Read.isAt kind c = .ok true c := by
    show EStateM.Result.ok (c.isAt kind) c = _
    simp [Cursor.isAt, hpeek]
  exact after hat h

theorem isAt_no {next : Bool → Read β} (hpeek : c.peek ≠ some kind) (h : Gives (next false) c R) :
    Gives (Read.isAt kind >>= next) c R := by
  have hat : Read.isAt kind c = .ok false c := by
    show EStateM.Result.ok (c.isAt kind) c = _
    simp [Cursor.isAt, hpeek]
  exact after hat h

theorem eat_yes {next : Bool → Read β} (hpeek : c.peek = some kind)
    (h : Gives (next true) c.pass R) : Gives (Read.eat kind >>= next) c R :=
  after (Read.eat_of_peek hpeek) h

theorem eat_no {next : Bool → Read β} (hpeek : c.peek ≠ some kind) (h : Gives (next false) c R) :
    Gives (Read.eat kind >>= next) c R :=
  after (Read.eat_of_ne hpeek) h

theorem expect {next : Span → Read β} (hpeek : c.peek = some kind)
    (h : ∀ span, Gives (next span) c.pass R) : Gives (Read.expect kind >>= next) c R :=
  after (Read.expect_of_peek hpeek) (h _)

theorem take?_some {next : Option Token → Read β} {token : Token} {rest : List Token}
    (hrest : c.rest = token :: rest) (h : Gives (next (some token)) c.pass R) :
    Gives (Read.take? token.kind >>= next) c R :=
  after (Read.take?_of_rest hrest rfl) h

theorem take?_none {next : Option Token → Read β} (hpeek : c.peek ≠ some kind)
    (h : Gives (next none) c R) : Gives (Read.take? kind >>= next) c R :=
  after (Read.take?_of_ne hpeek) h

theorem takeText {next : String → Read β} {token : Token} {rest : List Token}
    (hrest : c.rest = token :: rest) (h : Gives (next token.text) c.pass R) :
    Gives (Read.takeText >>= next) c R := by
  have htext : Read.takeText c = .ok token.text c.pass := by
    show EStateM.Result.ok ((c.rest.head?.map Token.text).getD "") c.pass = _
    rw [hrest]
    rfl
  exact after htext h

theorem optionalAfter_some {read : Read α} {R : Option α → Cursor → Prop}
    (hpeek : c.peek = some kind) (h : Gives read c.pass fun a c' => R (some a) c') :
    Gives (Read.optionalAfter kind read) c R :=
  eat_yes hpeek (h.bind fun _ _ ha => ha)

theorem optionalAfter_none {read : Read α} {R : Option α → Cursor → Prop}
    (hpeek : c.peek ≠ some kind) (h : R none c) : Gives (Read.optionalAfter kind read) c R :=
  eat_no hpeek h

theorem optionalAt_some {read : Read α} {R : Option α → Cursor → Prop}
    (hpeek : c.peek = some kind) (h : Gives read c fun a c' => R (some a) c') :
    Gives (Read.optionalAt kind read) c R :=
  isAt_yes hpeek (h.bind fun _ _ ha => ha)

theorem optionalAt_none {read : Read α} {R : Option α → Cursor → Prop}
    (hpeek : c.peek ≠ some kind) (h : R none c) : Gives (Read.optionalAt kind read) c R :=
  isAt_no hpeek h

theorem located {read : Read α} {R : Located α → Cursor → Prop}
    (h : Gives read c fun a c' => ∀ span, R ⟨a, span⟩ c') : Gives (Read.located read) c R :=
  here fun _ => h.bind fun _ _ ha => ha _

end Gives

/-! ## Loops -/

/-- A loop from `a` on gives what `Q` says, whatever its bound, if that exceeds the number of
tokens to come. -/
def LoopGives (step : α → Read (ForInStep α)) (a : α) (c : Cursor) (Q : α → Cursor → Prop) : Prop :=
  ∀ bound, c.rest.length < bound → Gives (iterateUpTo step bound a) c Q

namespace LoopGives

variable {step : α → Read (ForInStep α)} {a : α} {c : Cursor} {Q : α → Cursor → Prop}

/-- One step, after which the loop has ended or goes on with fewer tokens to come. -/
theorem next (h : Gives (step a) c
    (StepKeeps (fun a' c' => c'.rest.length < c.rest.length ∧ LoopGives step a' c' Q) Q)) :
    LoopGives step a c Q := by
  intro bound hbound
  cases bound with
  | zero => omega
  | succ bound =>
      refine h.bind fun result c' hresult => ?_
      cases result with
      | done a' => exact .pure hresult
      | yield a' => exact hresult.2 bound (by have := hresult.1; omega)

theorem mono {P : α → Cursor → Prop} (h : LoopGives step a c P) (hPQ : ∀ a c', P a c' → Q a c') :
    LoopGives step a c Q :=
  fun bound hbound => (h bound hbound).mono hPQ

theorem iterate (h : LoopGives step a c Q) : Gives (Read.iterate a step) c Q :=
  .get (h _ (Nat.lt_succ_self _))

end LoopGives

/-! ## Lists -/

/-- The next word is of one of some kinds. -/
abbrev Before (ends : List Kind) (later : List Chunk) : Prop :=
  ∃ kind ∈ ends, (kinds later).head? = some kind

namespace Before

variable {ends wider : List Kind} {later : List Chunk} {kind : Kind}

theorem any_iff (ends : List Kind) (later : List Chunk) :
    (kinds later).head?.any ends.contains = true ↔ Before ends later := by
  cases hhead : (kinds later).head? <;> simp [Before, hhead]

theorem head_ne (h : Before ends later) (hkind : kind ∉ ends) :
    (kinds later).head? ≠ some kind := by
  obtain ⟨other, hmem, hhead⟩ := h
  rw [hhead]
  rintro heq
  exact hkind (Option.some.inj heq ▸ hmem)

theorem mono (h : Before ends later) (hends : ends ⊆ wider) : Before wider later := by
  obtain ⟨kind, hmem, hhead⟩ := h
  exact ⟨kind, hends hmem, hhead⟩

theorem kinds_ne_nil (h : Before ends later) : kinds later ≠ [] := by
  obtain ⟨kind, -, hhead⟩ := h
  exact fun hnil => by simp [hnil] at hhead

theorem append (h : Before ends later) (more : List Chunk) : Before ends (later ++ more) := by
  obtain ⟨kind, hmem, hhead⟩ := h
  exact ⟨kind, hmem, by rw [kinds_append, List.head?_append, hhead]; rfl⟩

end Before

section

variable {item : Read α} {print : β → List Chunk} {answer : α → γ} {source : β → γ}
  {later : List Chunk}

/-- Read back in front of what one of `ends` begins, an item gives what was printed, as far as
`answer` and `source` tell. -/
def ItemGives (item : Read α) (print : β → List Chunk) (answer : α → γ) (source : β → γ)
    (ends : List Kind) (x : β) : Prop :=
  ∀ c more, Before ends more → c.Shows (print x ++ more) →
    Gives item c fun a c' => answer a = source x ∧ c'.Shows more

/-- An item is printed with words, of which the first is not `close`. -/
def BeginsOther (print : β → List Chunk) (close : Kind) (x : β) : Prop :=
  ∃ kind rest, kinds (print x) = kind :: rest ∧ kind ≠ close

theorem Before.other {ends : List Kind} {close : Kind} {x : β} (h : Before ends (print x))
    (hclose : close ∉ ends) : BeginsOther print close x := by
  obtain ⟨kind, hmem, hhead⟩ := h
  obtain ⟨rest, hkinds⟩ := List.head?_eq_some_iff.mp hhead
  refine ⟨kind, rest, hkinds, ?_⟩
  rintro rfl
  exact hclose hmem

theorem BeginsOther.peek_ne {close : Kind} {x : β} (h : BeginsOther print close x) {c : Cursor}
    {more : List Chunk} (hshows : c.Shows (print x ++ more)) : c.peek ≠ some close := by
  obtain ⟨kind, rest, hkinds, hne⟩ := h
  rw [hshows.peek, kinds_append, hkinds]
  simpa using hne

theorem BeginsOther.length_lt {close : Kind} {x : β} (h : BeginsOther print close x)
    {more : List Chunk} : (kinds more).length < (kinds (print x ++ more)).length := by
  obtain ⟨kind, rest, hkinds, -⟩ := h
  rw [kinds_append, hkinds, List.length_append, List.length_cons]
  omega

/-- Items with separators between, up to a closing token. -/
theorem loopGives_separated {close separator : Kind} {separators : List Kind} {xs : List β}
    (hseparator : separator ∈ separators) (hclose : close ∉ separators)
    (hitems : ∀ x ∈ xs, ItemGives item print answer source [separator, close] x)
    (hbegin : ∀ x ∈ xs, BeginsOther print close x) (hlater : (kinds later).head? = some close)
    {done : List α} {c : Cursor}
    (hshows : c.Shows (separate separator (xs.map print) ++ later)) :
    LoopGives (Read.separatedStep close separators item) done c fun answers c' =>
      answers.map answer = done.map answer ++ xs.map source ∧ c'.Shows later := by
  induction xs generalizing done c with
  | nil =>
      refine .next (.isAt_yes (hshows.peek.trans hlater) (.pure ⟨?_, hshows⟩))
      rw [List.map_nil, List.append_nil]
  | cons x xs ih =>
      have hitem := hitems x List.mem_cons_self
      have hother := hbegin x List.mem_cons_self
      cases xs with
      | nil =>
          refine .next (.isAt_no (hother.peek_ne hshows) (.bind
            (hitem c later ⟨close, by simp, hlater⟩ hshows) fun a c' ha => ?_))
          -- behind the last item comes the closing token, which is no separator
          have hend : ∀ kind ∈ separators, c'.peek ≠ some kind := by
            intro kind hmem heq
            rw [ha.2.peek, hlater] at heq
            exact hclose (Option.some.inj heq ▸ hmem)
          refine .after (Read.eatAny_of_ne hend) (.pure ⟨?_, ha.2⟩)
          simp [ha.1]
      | cons next xs =>
          rw [List.map_cons, List.map_cons, separate_cons_cons, List.append_assoc] at hshows
          refine .next (.isAt_no (hother.peek_ne hshows) (.bind
            (hitem c _ ⟨separator, by simp, rfl⟩ hshows) fun a c' ha => ?_))
          -- behind the others comes a separator, and at least that was passed
          have hpeek : c'.peek = some separator := ha.2.peek
          have hpassed : c'.pass.Shows (separate separator ((next :: xs).map print) ++ later) :=
            ha.2.pass_sign.blank
          refine .after (Read.eatAny_of_peek hpeek hseparator) (.pure ⟨?_, ?_⟩)
          · rw [hshows.length, hpassed.length]
            refine Nat.lt_trans ?_ hother.length_lt
            exact Nat.lt_succ_self _
          · refine (ih (fun y hy => hitems y (List.mem_cons_of_mem _ hy))
              (fun y hy => hbegin y (List.mem_cons_of_mem _ hy)) hpassed).mono
                fun answers c'' h => ?_
            refine ⟨?_, h.2⟩
            rw [h.1]
            simp [ha.1]

theorem gives_separated (answer : α → γ) (source : β → γ) {close separator : Kind}
    {separators : List Kind} {xs : List β}
    (hseparator : separator ∈ separators) (hclose : close ∉ separators)
    (hitems : ∀ x ∈ xs, ItemGives item print answer source [separator, close] x)
    (hbegin : ∀ x ∈ xs, BeginsOther print close x) (hlater : (kinds later).head? = some close)
    {c : Cursor} (hshows : c.Shows (separate separator (xs.map print) ++ later)) :
    Gives (Read.separated close separators item) c fun answers c' =>
      answers.map answer = xs.map source ∧ c'.Shows later := by
  rw [Read.separated_eq]
  exact (loopGives_separated hseparator hclose hitems hbegin hlater hshows).iterate

/-- What follows the first of some items is again a separator, or what follows all of them. -/
theorem before_led (separator : Kind) {ends : List Kind} (hlater : Before ends later)
    (parts : List (List Chunk)) :
    Before (separator :: ends)
      (parts.flatMap (fun other => sign separator :: blank :: other) ++ later) := by
  cases parts with
  | nil => exact hlater.mono (List.subset_cons_self _ _)
  | cons part parts => exact ⟨separator, List.mem_cons_self, rfl⟩

/-- Items with a separator before each, where a step reads one item behind its separator. -/
theorem loopGives_led {separator : Kind} {step : List α → Read (ForInStep (List α))}
    {ends : List Kind} {xs : List β}
    (hstep : ∀ x ∈ xs, ∀ done c more, Before (separator :: ends) more →
      c.Shows (sign separator :: blank :: (print x ++ more)) → Gives (step done) c fun next c' =>
        ∃ a, next = .yield (done ++ [a]) ∧ answer a = source x ∧ c'.Shows more)
    (hstop : ∀ done c, c.Shows later → Gives (step done) c fun next c' =>
      next = .done done ∧ c'.Shows later)
    (hlater : Before ends later) {done : List α} {c : Cursor}
    (hshows : c.Shows
      ((xs.map print).flatMap (fun other => sign separator :: blank :: other) ++ later)) :
    LoopGives step done c fun answers c' =>
      answers.map answer = done.map answer ++ xs.map source ∧ c'.Shows later := by
  induction xs generalizing done c with
  | nil =>
      refine .next ((hstop done c hshows).mono ?_)
      rintro next c' ⟨rfl, hend⟩
      exact ⟨by rw [List.map_nil, List.append_nil], hend⟩
  | cons x xs ih =>
      rw [List.map_cons, List.flatMap_cons, List.append_assoc] at hshows
      have hread := hstep x List.mem_cons_self done c _ (before_led separator hlater _) hshows
      refine .next (hread.mono ?_)
      rintro next c' ⟨a, rfl, hanswer, hrest⟩
      refine ⟨?_, ?_⟩
      · rw [hshows.length, hrest.length]
        simp only [List.cons_append, kinds_sign, kinds_blank, kinds_append, List.length_cons,
          List.length_append]
        omega
      · -- the rest is read by induction, from what this entry has left
        have hstep' := fun y hy => hstep y (List.mem_cons_of_mem x hy)
        refine (ih hstep' hrest).mono fun answers c'' h => ⟨?_, h.2⟩
        rw [h.1]
        simp [hanswer]

/-- Items with a comma before each. -/
theorem loopGives_comma {ends : List Kind} {xs : List β} (hcomma : .comma ∉ ends)
    (hitems : ∀ x ∈ xs, ItemGives item print answer source (.comma :: ends) x)
    (hlater : Before ends later) {done : List α} {c : Cursor}
    (hshows : c.Shows
      ((xs.map print).flatMap (fun other => sign .comma :: blank :: other) ++ later)) :
    LoopGives (Read.commaStep item) done c fun answers c' =>
      answers.map answer = done.map answer ++ xs.map source ∧ c'.Shows later := by
  refine loopGives_led ?_ ?_ hlater hshows
  · intro x hmem done c more hmore hshows
    refine .eat_yes hshows.peek ?_
    exact (hitems x hmem _ more hmore hshows.pass_sign.blank).bind fun a c' ha =>
      .pure ⟨a, rfl, ha⟩
  · intro done c hshows
    exact .eat_no (hshows.peek ▸ hlater.head_ne hcomma) (.pure ⟨rfl, hshows⟩)

/-- One or more items with commas between. -/
theorem gives_commaList {ends : List Kind} {xs : List β} (hnil : xs ≠ []) (hcomma : .comma ∉ ends)
    (hitems : ∀ x ∈ xs, ItemGives item print answer source (.comma :: ends) x)
    (hlater : Before ends later)
    {c : Cursor} (hshows : c.Shows (separate .comma (xs.map print) ++ later)) :
    Gives (Read.commaList item) c fun answers c' =>
      answers.map answer = xs.map source ∧ c'.Shows later := by
  obtain ⟨x, xs, rfl⟩ := List.exists_cons_of_ne_nil hnil
  rw [List.map_cons, separate_cons, List.append_assoc] at hshows
  rw [Read.commaList_eq]
  refine .bind
    (hitems x List.mem_cons_self c _ (before_led .comma hlater _) hshows) fun a c' ha => ?_
  have hitems' := fun y hy => hitems y (List.mem_cons_of_mem x hy)
  refine (loopGives_comma hcomma hitems' hlater ha.2).iterate.mono fun answers c'' h => ⟨?_, h.2⟩
  rw [h.1]
  simp [ha.1]

/-- Entries, each on a line of its own, up to a word that begins none. -/
theorem loopGives_terminated {starts : List Kind} {x : β} {xs : List β}
    (hitems : ∀ y ∈ x :: xs, ItemGives item print answer source [.semi] y)
    (hbegin : ∀ y ∈ xs, Before starts (print y))
    (hlater : ∀ kind ∈ starts, (kinds later).head? ≠ some kind) {done : List α} {c : Cursor}
    (hshows : c.Shows (((x :: xs).flatMap fun y => entry (print y)) ++ later)) :
    LoopGives (Read.terminatedStep starts item) done c fun answers c' =>
      answers.map answer = done.map answer ++ (x :: xs).map source ∧ c'.Shows later := by
  induction xs generalizing x done c with
  | nil =>
      rw [List.flatMap_cons, List.append_assoc] at hshows
      have hfirst := hshows.entry
      refine .next (.bind (hitems x List.mem_cons_self c _ ⟨.semi, by simp, rfl⟩ hfirst)
        fun a c' ha => .expect ha.2.peek fun _ => ?_)
      have hpassed : c'.pass.Shows later := ha.2.pass_sign.gap
      -- no entry begins behind the last semicolon
      have hend : ¬c'.pass.peek.any starts.contains = true := by
        rw [hpassed.peek, Before.any_iff]
        exact fun ⟨kind, hmem, hhead⟩ => hlater kind hmem hhead
      refine .peek ?_
      rw [if_neg hend]
      exact .pure ⟨by simp [ha.1], hpassed⟩
  | cons next xs ih =>
      rw [List.flatMap_cons, List.append_assoc] at hshows
      have hfirst := hshows.entry
      refine .next (.bind (hitems x List.mem_cons_self c _ ⟨.semi, by simp, rfl⟩ hfirst)
        fun a c' ha => .expect ha.2.peek fun _ => ?_)
      have hpassed : c'.pass.Shows (((next :: xs).flatMap fun y => entry (print y)) ++ later) :=
        ha.2.pass_sign.gap
      obtain ⟨kind, hmem, hhead⟩ := hbegin next List.mem_cons_self
      -- the next entry begins behind this semicolon
      have hgo : c'.pass.peek = some kind := by
        rw [hpassed.peek]
        simp [entry, hhead]
      refine .peek ?_
      rw [hgo, if_pos (by simpa using hmem)]
      refine .pure ⟨?_, ?_⟩
      · have hshorter := Cursor.length_pass ha.2.peek
        rw [hfirst.length, kinds_append, List.length_append, ← ha.2.length]
        omega
      · refine (ih (fun y hy => hitems y (List.mem_cons_of_mem _ hy))
          (fun y hy => hbegin y (List.mem_cons_of_mem _ hy)) hpassed).mono fun answers c'' h => ?_
        refine ⟨?_, h.2⟩
        rw [h.1]
        simp [ha.1]

theorem gives_terminated {starts : List Kind} {xs : List β} (hnil : xs ≠ [])
    (hitems : ∀ x ∈ xs, ItemGives item print answer source [.semi] x)
    (hbegin : ∀ x ∈ xs, Before starts (print x))
    (hlater : ∀ kind ∈ starts, (kinds later).head? ≠ some kind) {c : Cursor}
    (hshows : c.Shows ((xs.flatMap fun x => entry (print x)) ++ later)) :
    Gives (Read.terminated starts item) c fun answers c' =>
      answers.map answer = xs.map source ∧ c'.Shows later := by
  obtain ⟨x, xs, rfl⟩ := List.exists_cons_of_ne_nil hnil
  exact (loopGives_terminated hitems (fun y hy => hbegin y (List.mem_cons_of_mem _ hy)) hlater
    hshows).iterate

end

end Lustre
