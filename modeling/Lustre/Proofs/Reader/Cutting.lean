import Lustre.Proofs.Reader.Spanning
import Lustre.Proofs.Reader.Nesting

/-!
# Tokens that are cut off

A reader looks at tokens that it does not pass, but an expression ends where nothing goes
on with it, and nothing goes on with it where no token is left.  So what is read before
some tokens is read when these are cut off (`Survives`).

For some readers this holds only if a token is left before the cut, as for static
arguments, which are told apart by the token after them.  The number of tokens that a
reader needs is its slack.  An instance of a node needs the parenthesis of its call.
-/

namespace Lustre

variable {α β : Type}

/-! ## A cursor and its cut -/

namespace Cursor

/-- The same cursor where `later` is cut off, the tokens at the end. -/
structure Cut (c : Cursor) (later : List Token) (d : Cursor) : Prop where
  rest : c.rest = d.rest ++ later
  last : d.last = c.last

namespace Cut

variable {later : List Token} {c d : Cursor}

theorem length (h : c.Cut later d) : c.rest.length = d.rest.length + later.length := by
  rw [h.rest, List.length_append]

theorem peekAt (h : c.Cut later d) {ahead : Nat} (hlt : ahead < d.rest.length) :
    d.peekAt ahead = c.peekAt ahead := by
  rw [Cursor.peekAt, Cursor.peekAt, h.rest, List.getElem?_append_left hlt]

theorem peek (h : c.Cut later d) (hsome : d.rest ≠ []) : d.peek = c.peek := by
  have hzero := h.peekAt (List.length_pos_iff.mpr hsome)
  rwa [Cursor.peekAt_zero, Cursor.peekAt_zero] at hzero

theorem span (h : c.Cut later d) (hsome : d.rest ≠ []) : d.span = c.span := by
  obtain ⟨token, rest, hrest⟩ := List.exists_cons_of_ne_nil hsome
  rw [Cursor.span, Cursor.span, h.rest, hrest]
  rfl

theorem spanFrom (h : c.Cut later d) (start : Nat) : d.spanFrom start = c.spanFrom start := by
  rw [Cursor.spanFrom, Cursor.spanFrom, h.last]

theorem pass (h : c.Cut later d) (hsome : d.rest ≠ []) : c.pass.Cut later d.pass := by
  obtain ⟨token, rest, hrest⟩ := List.exists_cons_of_ne_nil hsome
  have hpass : d.pass = ⟨rest, token.span.stop, d.size⟩ := by rw [Cursor.pass, hrest]
  have hpass' : c.pass = ⟨rest ++ later, token.span.stop, c.size⟩ := by
    rw [Cursor.pass, h.rest, hrest]
    rfl
  rw [hpass, hpass']
  exact ⟨rfl, rfl⟩

/-- The used name at a cursor goes as far before the cut. -/
theorem referenceLength (h : c.Cut later d) (hle : c.referenceLength ≤ d.rest.length) :
    d.referenceLength = c.referenceLength := by
  by_cases hend : d.rest = []
  · have hnone : c.referenceLength = 0 := by simpa [hend] using hle
    have hnone' : d.referenceLength = 0 := by simp [Cursor.referenceLength, isAt, Cursor.peek, hend]
    rw [hnone, hnone']
  · have hat : d.isAt .ident = c.isAt .ident := by rw [isAt, isAt, h.peek hend]
    unfold Cursor.referenceLength at hle ⊢
    rw [hat]
    split
    · rename_i hident
      rw [if_pos hident] at hle
      by_cases hlong : c.peekAt 1 = some .colonColon ∧ c.peekAt 2 = some .ident
      · rw [if_pos hlong] at hle
        rw [if_pos hlong, h.peekAt (by omega), h.peekAt (by omega), if_pos hlong]
      · rw [if_neg hlong, if_neg fun hboth => hlong ?_]
        exact ⟨(h.peekAt (lt_of_peekAt hboth.1)).symm.trans hboth.1,
          (h.peekAt (lt_of_peekAt hboth.2)).symm.trans hboth.2⟩
    · rfl

/-- What follows a used name before the cut is what follows it. -/
theorem followed (h : c.Cut later d) {kind : Kind} (hkind : kind ≠ .colonColon)
    (hname : d.referenceLength > 0) (hpeek : d.peekAt d.referenceLength = some kind) :
    d.referenceLength = c.referenceLength ∧ c.peekAt c.referenceLength = some kind := by
  have hlt := lt_of_peekAt hpeek
  have hsame : c.peekAt d.referenceLength = some kind := (h.peekAt hlt).symm.trans hpeek
  suffices hle : c.referenceLength ≤ d.rest.length by
    have hlength := h.referenceLength hle
    exact ⟨hlength, hlength ▸ hsame⟩
  -- a longer name would go on with colons
  unfold Cursor.referenceLength at hname hpeek hlt hsame ⊢
  split at hname
  · rename_i hident
    rw [if_pos hident] at hpeek hlt hsame
    split
    · split
      · rename_i hlong
        by_cases hshort : d.peekAt 1 = some .colonColon ∧ d.peekAt 2 = some .ident
        · rw [if_pos hshort] at hlt
          omega
        · rw [if_neg hshort, hlong.1] at hsame
          exact absurd (Option.some.inj hsame).symm hkind
      · omega
    · omega
  · exact absurd hname (Nat.lt_irrefl _)

theorem endsArg (h : c.Cut later d) {ahead : Nat} (hlt : ahead < d.rest.length) (close : Kind) :
    d.endsArg ahead close = c.endsArg ahead close := by
  rw [Cursor.endsArg, Cursor.endsArg, h.peekAt hlt]

/-- What ends an argument before the cut ends it. -/
theorem endsArg_of (h : c.Cut later d) {ahead : Nat} {close : Kind}
    (hends : d.endsArg ahead close = true) : c.endsArg ahead close = true := by
  refine (h.endsArg ?_ close).symm.trans hends
  unfold Cursor.endsArg at hends
  split at hends
  · rename_i hpeek
    exact lt_of_peekAt hpeek
  · cases hends

/-- What ends an argument behind a name before the cut ends it. -/
theorem endsArg_followed (h : c.Cut later d) {close : Kind} (hclose : close ≠ .colonColon)
    (hname : d.referenceLength > 0) (hends : d.endsArg d.referenceLength close = true) :
    c.endsArg c.referenceLength close = true := by
  have hends' := h.endsArg_of hends
  unfold Cursor.endsArg at hends
  split at hends
  · rename_i kind hpeek
    have hkind : kind ≠ .colonColon := by
      rintro rfl
      simp [Ne.symm hclose] at hends
    rwa [(h.followed hkind hname hpeek).1] at hends'
  · cases hends

end Cut

end Cursor

open Cursor

/-! ## Readers that survive a cut -/

/-- What `read` answers from `c`, it answers from `d`, where `later` is cut off, if it leaves its
slack before the cut. -/
def Survives (later : List Token) (slack : α → Nat) (read : Read α) (c d : Cursor) : Prop :=
  ∀ a c', read c = .ok a c' → later.length + slack a ≤ c'.rest.length →
    ∃ d', read d = .ok a d' ∧ c'.Cut later d'

namespace Survives

variable {later : List Token} {slack : β → Nat} {c d : Cursor} {kind : Kind}

theorem pure {b : β} (hcut : c.Cut later d) : Survives later slack (Pure.pure b) c d := by
  rintro b' c' ⟨⟩ _
  exact ⟨d, rfl, hcut⟩

/-- A reader that fails. -/
theorem never {read : Read β} (h : Meets read c fun _ _ => False) : Survives later slack read c d :=
  fun b c' hread _ => (h b c' hread).elim

theorem throw {e : Diagnostic} : Survives later slack (MonadExcept.throw e) c d := .never .throw

theorem missing {wanted : Wanted} :
    Survives later slack (Read.missing wanted) c d := .never .missing

/-- Tokens that are passed, beyond the slack, stand before the cut. -/
theorem reaching {read : Read β} (hcut : c.Cut later d) (count : Nat)
    (hcount : Meets read c fun b c' => c'.rest.length + count ≤ c.rest.length + slack b)
    (h : count ≤ d.rest.length → Survives later slack read c d) :
    Survives later slack read c d := by
  intro b c' hread hleft
  have hpassed := hcount b c' hread
  have hlength := hcut.length
  exact h (by omega) b c' hread hleft

/-- A reader that passes a token does not begin at the cut. -/
theorem before {read : Read β} (hcut : c.Cut later d)
    (hpasses : Meets read c fun b c' => c'.rest.length + 1 ≤ c.rest.length + slack b)
    (h : d.rest ≠ [] → Survives later slack read c d) : Survives later slack read c d :=
  reaching hcut 1 hpasses fun hle => h (List.length_pos_iff.mp hle)

theorem bind {first : α → Nat} {read : Read α} {next : α → Read β}
    (h : Survives later first read c d)
    (hslack : ∀ a c₁, read c = .ok a c₁ → Meets (next a) c₁ fun b c₂ =>
      c₂.rest.length + first a ≤ c₁.rest.length + slack b)
    (hnext : ∀ a c₁ d₁, read c = .ok a c₁ → c₁.Cut later d₁ → Survives later slack (next a) c₁ d₁) :
    Survives later slack (read >>= next) c d := by
  intro b c₂ hboth hleft
  obtain ⟨a, c₁, hread, hlast⟩ := bind_eq_ok.mp hboth
  have hpassed := hslack a c₁ hread b c₂ hlast
  obtain ⟨d₁, hread', hcut₁⟩ := h a c₁ hread (by omega)
  obtain ⟨d₂, hlast', hcut₂⟩ := hnext a c₁ d₁ hread hcut₁ b c₂ hlast hleft
  exact ⟨d₂, by rw [bind_of_ok hread', hlast'], hcut₂⟩

/-- What follows with the same slack. -/
theorem first {n : Nat} {read : Read α} {next : α → Read β} [hforward : ∀ a, Forward (next a)]
    (h : Survives later (fun _ => n) read c d)
    (hnext : ∀ a c₁ d₁, c₁.Cut later d₁ → Survives later (fun _ => n) (next a) c₁ d₁) :
    Survives later (fun _ => n) (read >>= next) c d :=
  h.bind (fun a c₁ _ => (Forward.meets (next a) c₁).mono fun _ _ hle => Nat.add_le_add_right hle n)
    fun a c₁ d₁ _ => hnext a c₁ d₁

/-- Two steps that are known to succeed. -/
theorem after {read : Read α} {next : α → Read β} {a : α} {c₁ d₁ : Cursor} (h : read c = .ok a c₁)
    (h' : read d = .ok a d₁) (hnext : Survives later slack (next a) c₁ d₁) :
    Survives later slack (read >>= next) c d := by
  unfold Survives
  rwa [bind_of_ok h, bind_of_ok h']

/-- What needs no token behind it can have some. -/
theorem loosen {read : Read β} (h : Survives later (fun _ => 0) read c d) :
    Survives later slack read c d :=
  fun b c' hread hleft => h b c' hread (Nat.le_of_add_right_le hleft)

/-- A reader that looks ahead. -/
theorem look {next : Cursor → Read β} (h : ∀ b c', next c c = .ok b c' →
      later.length + slack b ≤ c'.rest.length → ∃ d', next d d = .ok b d' ∧ c'.Cut later d') :
    Survives later slack (MonadState.get >>= next) c d :=
  h

/-- A reader that sees the same ahead. -/
theorem lookSame {next : Cursor → Read β} (hsame : next d = next c)
    (h : Survives later slack (next c) c d) :
    Survives later slack (MonadState.get >>= next) c d := by
  refine look fun b c' hread hleft => ?_
  rw [hsame]
  exact h b c' hread hleft

/-! ### The next token -/

theorem here {next : Nat → Read β} (hcut : c.Cut later d) (hsome : d.rest ≠ [])
    (h : Survives later slack (next c.span.start) c d) :
    Survives later slack (Read.here >>= next) c d :=
  after rfl (congrArg (fun span : Span => EStateM.Result.ok span.start d) (hcut.span hsome)) h

theorem spanFrom {start : Nat} {next : Span → Read β} (hcut : c.Cut later d)
    (h : ∀ span, Survives later slack (next span) c d) :
    Survives later slack (Read.spanFrom start >>= next) c d :=
  after rfl (congrArg (fun span => EStateM.Result.ok span d) (hcut.spanFrom start)) (h _)

theorem advance {next : Unit → Read β} (hcut : c.Cut later d) (hsome : d.rest ≠ [])
    (h : c.pass.Cut later d.pass → Survives later slack (next ()) c.pass d.pass) :
    Survives later slack (Read.advance >>= next) c d :=
  after rfl rfl (h (hcut.pass hsome))

theorem peek {next : Option Kind → Read β} (hcut : c.Cut later d) (hsome : d.rest ≠ [])
    (h : Survives later slack (next c.peek) c d) : Survives later slack (Read.peek >>= next) c d :=
  after rfl (congrArg (fun next => EStateM.Result.ok next d) (hcut.peek hsome)) h

theorem isAt {next : Bool → Read β} (hcut : c.Cut later d) (hsome : d.rest ≠ [])
    (h : Survives later slack (next (c.isAt kind)) c d) :
    Survives later slack (Read.isAt kind >>= next) c d := by
  have hat : d.isAt kind = c.isAt kind := by rw [Cursor.isAt, Cursor.isAt, hcut.peek hsome]
  exact after rfl (congrArg (fun found => EStateM.Result.ok found d) hat) h

theorem takeText {next : String → Read β} (hcut : c.Cut later d) (hsome : d.rest ≠ [])
    (h : ∀ text, c.pass.Cut later d.pass → Survives later slack (next text) c.pass d.pass) :
    Survives later slack (Read.takeText >>= next) c d := by
  have htext : d.rest.head?.map Token.text = c.rest.head?.map Token.text := by
    obtain ⟨token, rest, hrest⟩ := List.exists_cons_of_ne_nil hsome
    rw [hcut.rest, hrest]
    rfl
  refine after (a := (c.rest.head?.map Token.text).getD "") rfl ?_ (h _ (hcut.pass hsome))
  rw [← htext]
  rfl

/-- A reader that may stop where it is started, as it does at the end. -/
theorem unlessEnd {read : Read β} {b : β} (hcut : c.Cut later d)
    (hstays : Meets read c fun b' c' =>
      c'.rest.length + 1 ≤ c.rest.length + slack b' ∨ c' = c ∧ b' = b)
    (hend : d.rest = [] → read d = .ok b d)
    (h : d.rest ≠ [] → Survives later slack read c d) : Survives later slack read c d := by
  intro b' c' hread hleft
  by_cases hd : d.rest = []
  · have hlength := hcut.length
    rw [hd, List.length_nil, Nat.zero_add] at hlength
    rcases hstays b' c' hread with hless | ⟨rfl, rfl⟩
    · omega
    · exact ⟨d, hend hd, hcut⟩
  · exact h hd b' c' hread hleft

/-- A look for a token behind a name, where it is passed if it is there. -/
theorem ifFollowed {yes no : Read β} (hcut : c.Cut later d) (hkind : kind ≠ .colonColon)
    (hpasses : c.peekAt c.referenceLength = some kind → Meets yes c fun b c' =>
      c'.rest.length + (c.referenceLength + 1) ≤ c.rest.length + slack b)
    (hyes : c.peekAt c.referenceLength = some kind → Survives later slack yes c d)
    (hno : Survives later slack no c d) :
    Survives later slack (MonadState.get >>= fun c : Cursor =>
      if c.referenceLength > 0 ∧ c.peekAt c.referenceLength = some kind then yes else no) c d := by
  refine look fun b c' hread hleft => ?_
  split at hread
  · rename_i hthere
    have hpassed := hpasses hthere.2 b c' hread
    have hlength := hcut.length
    have hname := hcut.referenceLength (by omega)
    rw [hname, hcut.peekAt (by omega), if_pos hthere]
    exact hyes hthere.2 b c' hread hleft
  · rename_i hnot
    rw [if_neg fun hthere => hnot ?_]
    · exact hno b c' hread hleft
    · obtain ⟨hname, hpeek⟩ := hcut.followed hkind hthere.1 hthere.2
      exact ⟨hname ▸ hthere.1, hpeek⟩

/-- A look for a token where something passes tokens if it is there. -/
theorem ifAt {yes no : Read β} (hcut : c.Cut later d)
    (hpasses : c.peek = some kind → Meets yes c fun b c' =>
      c'.rest.length + 1 ≤ c.rest.length + slack b)
    (hyes : c.peek = some kind → d.rest ≠ [] → Survives later slack yes c d)
    (hno : c.peek ≠ some kind → Survives later slack no c d) :
    Survives later slack (Read.isAt kind >>= fun found => if found = true then yes else no)
      c d := by
  by_cases hpeek : c.peek = some kind
  · have hat : c.isAt kind = true := by simp [Cursor.isAt, hpeek]
    refine before hcut ?_ fun hsome => ?_
    · exact .ifAt (fun _ => hpasses hpeek) fun hne => absurd hpeek hne
    · have hat' : d.isAt kind = true := by simp [Cursor.isAt, hcut.peek hsome, hpeek]
      exact after (a := true) (by rw [← hat]; rfl) (by rw [← hat']; rfl) (hyes hpeek hsome)
  · have hat : c.isAt kind = false := by simp [Cursor.isAt, hpeek]
    have hat' : d.isAt kind = false := by
      by_cases hend : d.rest = []
      · simp [Cursor.isAt, Cursor.peek, hend]
      · simp [Cursor.isAt, hcut.peek hend, hpeek]
    exact after (a := false) (by rw [← hat]; rfl) (by rw [← hat']; rfl) (hno hpeek)

theorem eat {next : Bool → Read β} [Forward (next true)] (hcut : c.Cut later d)
    (hyes : c.peek = some kind → c.pass.Cut later d.pass →
      Survives later slack (next true) c.pass d.pass)
    (hno : c.peek ≠ some kind → Survives later slack (next false) c d) :
    Survives later slack (Read.eat kind >>= next) c d := by
  by_cases hpeek : c.peek = some kind
  · refine before hcut (.eat (fun _ => ?_) fun hne => absurd hpeek hne) fun hsome => ?_
    · refine (Forward.meets (next true) c.pass).mono fun b c' hle => ?_
      have := length_pass hpeek
      omega
    · exact after (Read.eat_of_peek hpeek) (Read.eat_of_peek ((hcut.peek hsome).trans hpeek))
        (hyes hpeek (hcut.pass hsome))
  · refine after (Read.eat_of_ne hpeek) (Read.eat_of_ne fun hpeek' => ?_) (hno hpeek)
    have hsome : d.rest ≠ [] := by
      rintro hend
      simp [Cursor.peek, hend] at hpeek'
    exact hpeek ((hcut.peek hsome).symm.trans hpeek')

theorem ifEat {yes no : Read β} [Forward yes] (hcut : c.Cut later d)
    (hyes : c.peek = some kind → c.pass.Cut later d.pass → Survives later slack yes c.pass d.pass)
    (hno : c.peek ≠ some kind → Survives later slack no c d) :
    Survives later slack (Read.eat kind >>= fun found => if found = true then yes else no) c d := by
  have hforward : Forward (if true = true then yes else no) := by simpa
  exact eat hcut (fun hpeek hpass => by simpa using hyes hpeek hpass) fun hpeek => by
    simpa using hno hpeek

theorem expect {next : Span → Read β} [∀ span, Forward (next span)] (hcut : c.Cut later d)
    (h : c.peek = some kind → ∀ span, c.pass.Cut later d.pass →
      Survives later slack (next span) c.pass d.pass) :
    Survives later slack (Read.expect kind >>= next) c d := by
  by_cases hpeek : c.peek = some kind
  · refine before hcut (.expect fun _ span => ?_) fun hsome => ?_
    · refine (Forward.meets (next span) c.pass).mono fun b c' hle => ?_
      have := length_pass hpeek
      omega
    · refine after (Read.expect_of_peek hpeek) ?_ (h hpeek c.span (hcut.pass hsome))
      rw [← hcut.span hsome]
      exact Read.expect_of_peek ((hcut.peek hsome).trans hpeek)
  · exact never (.expect fun h => absurd h hpeek)

theorem take? {next : Option Token → Read β} (hcut : c.Cut later d)
    (hforward : ∀ token, Meets (next (some token)) c.pass fun _ c' =>
      c'.rest.length ≤ c.pass.rest.length)
    (hsome : ∀ token rest, c.rest = token :: rest → token.kind = kind → c.pass.Cut later d.pass →
      Survives later slack (next (some token)) c.pass d.pass)
    (hnone : c.peek ≠ some kind → Survives later slack (next none) c d) :
    Survives later slack (Read.take? kind >>= next) c d := by
  by_cases hpeek : c.peek = some kind
  · refine before hcut (.take? (fun token rest _ _ => ?_) fun hne => absurd hpeek hne) fun hd => ?_
    · refine (hforward token).mono fun b c' hle => ?_
      have := length_pass hpeek
      omega
    · obtain ⟨token, rest, hrest⟩ := List.exists_cons_of_ne_nil hd
      have hrest' : c.rest = token :: (rest ++ later) := by rw [hcut.rest, hrest]; rfl
      have htoken : token.kind = kind := by simpa [Cursor.peek, hrest'] using hpeek
      exact after (Read.take?_of_rest hrest' htoken) (Read.take?_of_rest hrest htoken)
        (hsome token _ hrest' htoken (hcut.pass hd))
  · refine after (Read.take?_of_ne hpeek) (Read.take?_of_ne fun hpeek' => ?_) (hnone hpeek)
    have hd : d.rest ≠ [] := by
      rintro hend
      simp [Cursor.peek, hend] at hpeek'
    exact hpeek ((hcut.peek hd).symm.trans hpeek')

/-! ### Loops -/

/-- The bound of a loop is smaller behind a cut, but it is still not what ends the loop. -/
theorem iterate {n : Nat} {step : β → Read (ForInStep β)} [∀ b, Forward (step b)]
    (hadvancing : Advancing step) (hcut : c.Cut later d)
    (hstep : ∀ b c d, c.Cut later d → Survives later (fun _ => n) (step b) c d) (b : β) :
    Survives later (fun _ => n) (Read.iterate b step) c d := by
  have hloop : ∀ bound bound' b c d, c.Cut later d → c.rest.length < bound →
    d.rest.length < bound' →
      ∀ b' c', iterateUpTo step bound b c = .ok b' c' → later.length + n ≤ c'.rest.length →
        ∃ d', iterateUpTo step bound' b d = .ok b' d' ∧ c'.Cut later d' := by
    intro bound
    induction bound with
    | zero => exact fun _ _ _ _ _ hbound => absurd hbound (Nat.not_lt_zero _)
    | succ bound ih =>
        intro bound' b c d hcut hbound hbound' b' c' hread hleft
        obtain ⟨bound', rfl⟩ : ∃ m, bound' = m + 1 := ⟨bound' - 1, by omega⟩
        obtain ⟨next, c₁, hfirst, hrest⟩ := bind_eq_ok.mp hread
        cases next with
        | done b₁ =>
            cases hrest
            obtain ⟨d₁, hfirst', hcut₁⟩ := hstep b c d hcut _ c' hfirst hleft
            exact ⟨d₁, bind_of_ok hfirst', hcut₁⟩
        | yield b₁ =>
            -- the step has passed a token before the cut, so both bounds still suffice
            have hshorter : c₁.rest.length < c.rest.length := hadvancing b c _ c₁ hfirst
            have hle : c'.rest.length ≤ c₁.rest.length := Forward.meets _ c₁ b' c' hrest
            obtain ⟨d₁, hfirst', hcut₁⟩ := hstep b c d hcut _ c₁ hfirst (Nat.le_trans hleft hle)
            have hlength := hcut.length
            have hlength₁ := hcut₁.length
            obtain ⟨d', hrest', hcut'⟩ :=
              ih bound' b₁ c₁ d₁ hcut₁ (by omega) (by omega) b' c' hrest hleft
            exact ⟨d', (bind_of_ok hfirst').trans hrest', hcut'⟩
  exact fun b' c' hread hleft =>
    hloop _ _ b c d hcut (Nat.lt_succ_self _) (Nat.lt_succ_self _) b' c' hread hleft

/-- A step that stops the loop where no token is left. -/
theorem round {step : β → Read (ForInStep β)} {b : β} (hadvancing : Advancing step)
    (hcut : c.Cut later d)
    (hstops : Meets (step b) c (StepKeeps (fun _ _ => True) fun b' c' => b' = b ∧ c' = c))
    (hend : d.rest = [] → step b d = .ok (.done b) d)
    (h : d.rest ≠ [] → Survives later (fun _ => 0) (step b) c d) :
    Survives later (fun _ => 0) (step b) c d := by
  refine unlessEnd hcut ((hadvancing b c).and hstops |>.mono fun next c' hnext => ?_) hend h
  cases next with
  | done b' => exact .inr ⟨hnext.2.2, congrArg ForInStep.done hnext.2.1⟩
  | yield b' => exact .inl hnext.1

end Survives

namespace Read

variable {later : List Token} {c d : Cursor}

theorem peek_as {next : Option Kind → Read β} {found : Option Kind} (h : d.peek = found) :
    (peek >>= next) d = next found d :=
  congrArg (fun found => next found d) h

/-- Where no token is left, none is seen. -/
theorem peek_at_end {next : Option Kind → Read β} (hend : d.rest = []) :
    (peek >>= next) d = next none d :=
  peek_as (by rw [Cursor.peek, hend]; rfl)

theorem isAt_at_end {kind : Kind} {next : Bool → Read β} (hend : d.rest = []) :
    (isAt kind >>= next) d = next false d := by
  change next (d.isAt kind) d = _
  rw [Cursor.isAt, Cursor.peek, hend]
  rfl

/-! ## Lists -/

section

variable {item : Read α} [Forward item] {n : Nat}

theorem survives_commaList
    (hitem : ∀ c d, c.Cut later d → Survives later (fun _ => n) item c d) (hcut : c.Cut later d) :
    Survives later (fun _ => n) (commaList item) c d := by
  refine .first (hitem c d hcut) fun first c₁ d₁ hcut₁ => ?_
  refine .iterate (advancing_commaStep item) hcut₁ (fun items c₂ d₂ hcut₂ => ?_) _
  refine .ifEat hcut₂ (fun _ hpass => ?_) fun _ => .pure hcut₂
  exact .first (hitem _ _ hpass) fun item c₃ d₃ hcut₃ => .pure hcut₃

theorem survives_eatAny (kinds : List Kind) (hcut : c.Cut later d) :
    Survives later (fun _ => n) (eatAny kinds) c d := by
  induction kinds with
  | nil => exact .pure hcut
  | cons kind kinds ih => exact .ifEat hcut (fun _ hpass => .pure hpass) fun _ => ih

/-- The token that closes the list is left. -/
theorem survives_separated {close : Kind} {separators : List Kind}
    (hitem : ∀ c d, c.Cut later d → Survives later (fun _ => 1) item c d) (hcut : c.Cut later d) :
    Survives later (fun _ => 1) (separated close separators item) c d := by
  refine .iterate (advancing_separatedStep close separators item) hcut
    (fun items c₁ d₁ hcut₁ => ?_) _
  refine .ifAt hcut₁ (fun _ => .pure (Nat.le_refl _)) (fun _ _ => .pure hcut₁) fun _ => ?_
  refine .first (hitem _ _ hcut₁) fun item c₂ d₂ hcut₂ => ?_
  refine .first (survives_eatAny separators hcut₂) fun found c₃ d₃ hcut₃ => ?_
  split
  · exact .pure hcut₃
  · exact .pure hcut₃

theorem survives_optionalAfter {kind : Kind}
    (hitem : ∀ c d, c.Cut later d → Survives later (fun _ => n) item c d) (hcut : c.Cut later d) :
    Survives later (fun _ => n) (optionalAfter kind item) c d :=
  .ifEat hcut (fun _ hpass => .first (hitem _ _ hpass) fun _ _ _ hcut₁ => .pure hcut₁)
    fun _ => .pure hcut

end

/-! ## Names and clocks -/

theorem survives_pragmas (hcut : c.Cut later d) : Survives later (fun _ => 0) pragmas c d := by
  refine .iterate advancing_pragmaStep hcut (fun read c₁ d₁ hcut₁ => ?_) _
  exact .take? hcut₁ (fun _ => .pure (Nat.le_refl _)) (fun _ _ _ _ hpass => .pure hpass)
    fun _ => .pure hcut₁

theorem survives_ident (hcut : c.Cut later d) : Survives later (fun _ => 0) ident c d := by
  refine .take? hcut (fun token => ?_) (fun token rest _ _ hpass => ?_) fun _ => .missing
  · exact .bind (Forward.meets pragmas _) fun _ _ hle => .pure hle
  · exact .first (survives_pragmas hpass) fun _ _ _ hcut₁ => .pure hcut₁

theorem survives_reference (hcut : c.Cut later d) : Survives later (fun _ => 0) reference c d := by
  -- the last part of a qualified name is checked once it is passed
  have hchecked : ∀ {p : Prop} [Decidable p] {ref : Reference} {e : Diagnostic} (c : Cursor),
      Meets (if p then return ref else throw e : Read Reference) c fun _ c' => c' = c := by
    intro p _ ref e c
    split
    · exact .pure rfl
    · exact .throw
  have hmember : ∀ {next : Option Token → Read Reference} (c : Cursor),
      (∀ token c, Meets (next (some token)) c fun _ c' => c' = c) →
      (∀ c, Meets (next none) c fun _ c' => c' = c) →
      Meets (Read.take? .ident >>= next) c fun _ c' => c'.rest.length ≤ c.rest.length := by
    intro next c hsome hnone
    refine .take? (fun token _ _ _ => (hsome token _).mono fun _ c' hsame => ?_)
      fun _ => (hnone c).mono fun _ c' hsame => Nat.le_of_eq (by rw [hsame])
    rw [hsame, rest_pass]
    simp
  refine .take? hcut (fun first => ?_) (fun first _ _ _ hcut₁ => ?_) fun _ => .missing
  · refine .take? (fun separator rest hrest _ => ?_) fun _ => .pure (Nat.le_refl _)
    refine (hmember _ (fun _ c => hchecked c) fun _ => .missing).mono fun _ c' hle =>
      Nat.le_trans hle ?_
    simp [rest_pass]
  · refine .take? hcut₁ (fun separator => hmember _ (fun _ c => hchecked c) fun _ => .missing)
      (fun separator _ _ _ hcut₂ => ?_) fun _ => .pure hcut₁
    refine .take? hcut₂ (fun member => (hchecked _).mono fun _ c' hsame =>
      Nat.le_of_eq (by rw [hsame]))
      (fun member _ _ _ hcut₃ => ?_) fun _ => .missing
    dsimp only
    split
    · exact .pure hcut₃
    · exact .throw

/-- A used name takes the tokens that the cursor foresees, which are there. -/
theorem meets_reference_length (c : Cursor) : Meets reference c fun _ c' =>
    c'.rest.length + c.referenceLength = c.rest.length := by
  refine (meets_reference c).mono fun _ c' h => ?_
  have hle : c.referenceLength ≤ c.rest.length := by
    unfold Cursor.referenceLength
    split
    · rename_i hident
      split
      · rename_i hlong
        exact lt_of_peekAt hlong.2
      · exact lt_of_peekAt ((peekAt_zero c).trans (beq_iff_eq.mp hident))
    · exact Nat.zero_le _
  rw [h.2, List.length_drop]
  omega

/-- A name and the token behind it, if it is of one kind, or else something different. -/
theorem survives_ifFollowed {n : Nat} {kind : Kind} {next : Reference → Read β} {no : Read β}
    [hforward : ∀ ref, Forward (next ref)] (hcut : c.Cut later d) (hkind : kind ≠ .colonColon)
    (hnext : ∀ ref c d, c.Cut later d → Survives later (fun _ => n) (next ref) c d)
    (hno : Survives later (fun _ => n) no c d) :
    Survives later (fun _ => n) (get >>= fun c : Cursor =>
      if c.referenceLength > 0 ∧ c.peekAt c.referenceLength = some kind then
        reference >>= fun ref => advance >>= fun _ => next ref
      else no) c d := by
  have hpassed : ∀ ref c₁, c.peekAt c.referenceLength = some kind → reference c = .ok ref c₁ →
      Meets (advance >>= fun _ => next ref) c₁ fun _ c' => c'.rest.length + 1 ≤ c₁.rest.length := by
    intro ref c₁ hpeek href
    have hpeek₁ : c₁.peek = some kind :=
      (peek_eq_peekAt ((meets_reference c) ref c₁ href).2).trans hpeek
    refine .advance ((Forward.meets (next ref) _).mono fun _ c' hle => ?_)
    have := length_pass hpeek₁
    omega
  refine .ifFollowed hcut hkind (fun hpeek b c' hread => ?_) (fun hpeek => ?_) hno
  · obtain ⟨ref, c₁, href, hrest⟩ := bind_eq_ok.mp hread
    have hlength := (meets_reference_length c) ref c₁ href
    have := hpassed ref c₁ hpeek href b c' hrest
    omega
  · refine .bind (survives_reference hcut) (fun ref c₁ href => ?_) fun ref c₁ d₁ href hcut₁ => ?_
    · refine (hpassed ref c₁ hpeek href).mono fun _ c' hle => ?_
      omega
    · refine .before hcut₁
        ((hpassed ref c₁ hpeek href).mono fun _ c' hle => by omega) fun hsome => ?_
      exact .advance hcut₁ hsome fun hpass => hnext ref _ _ hpass

theorem survives_clock (hcut : c.Cut later d) : Survives later (fun _ => 0) clock c d := by
  refine .before hcut ((moves_clock c).mono fun _ _ h => h.shorter) fun hsome => ?_
  refine .here hcut hsome (.first (n := 0) ?_ fun _ _ _ hcut₁ =>
    .spanFrom hcut₁ fun _ => .pure hcut₁)
  refine .ifEat hcut (fun _ hnot => .ifEat hnot (fun _ hopen => ?_) fun _ => ?_) fun _ => ?_
  · refine .first (survives_ident hopen) fun _ _ _ hcut₁ => ?_
    exact .expect hcut₁ fun _ _ hclose => .pure hclose
  · exact .first (survives_ident hnot) fun _ _ _ hcut₁ => .pure hcut₁
  · refine survives_ifFollowed hcut (by decide) (fun case c d hcut => ?_) ?_
    · refine .first (survives_ident hcut) fun _ _ _ hcut₁ => ?_
      exact .expect hcut₁ fun _ _ hclose => .pure hclose
    · exact .first (survives_ident hcut) fun _ _ _ hcut₁ => .pure hcut₁

end Read

end Lustre
