import Mathlib.Data.List.Forall2
import Lustre.Proofs.Reread.Whole
import Lustre.Proofs.Token.Slicing

/-!
# Pragmas

A `%` opens a pragma or is an operator, and three parts of the development have to agree on
which: the text is cut where `key : value %` follows, the name in front takes the pragmas behind
it apart into keys and values, and printing writes these again.

What joins the three is `Pragma.SpeltAs`.  The token that is cut off says what a pragma is
(`Lexed.speltAs_of_mem_tokens`), whoever reads a spelling finds the same key and value in it
(`Pragma.ofToken_of_speltAs`), and the printed text is one more spelling.
-/

namespace Lustre

open Chunk

/-! ## A `%` in a text -/

namespace Lexed

/-- What the `%` at byte `start` in front of `rest` has become. -/
structure PercentBecomes (start : Nat) (rest : List Char) (token : Token) : Prop where
  /-- It opens a pragma where the text behind it begins as one goes on. -/
  opens_iff : token.kind = .pragma ↔ ∃ tail, WordPattern.pragmaTail.Matches tail ∧ tail <+: rest
  /-- The pragma is as long as what was recognized. -/
  covers : ∀ tail, WordPattern.pragmaTail.Matches tail → tail <+: rest →
    Piece.token token = .tokenAt start .pragma ('%' :: tail)
  /-- Anywhere else the `%` stands alone. -/
  alone : token.kind ≠ .pragma → Piece.token token = .tokenAt start .percent ['%']

theorem munch_percent {rest : List Char} (h : afterPragma rest = none) :
    munch '%' rest = .token .percent 0 :=
  munch_symbol rfl (fun _ _ => by simp [clings, symbolOfPair?]) fun _ => h

/-- The piece at a `%` is a token, made of the `%` and of all of a pragma behind it. -/
theorem percentBecomes_scan (start : Nat) (rest : List Char) : ∃ token,
    (scan 0 start ('%' :: rest)).pieces.head? = some (.token token) ∧
      PercentBecomes start rest token := by
  rw [scan_cons]
  cases hafter : afterPragma rest with
  | none =>
      have hnone : ¬∃ tail, WordPattern.pragmaTail.Matches tail ∧ tail <+: rest := by
        rintro ⟨tail, htail, later, rfl⟩
        rw [afterPragma_append htail] at hafter
        cases hafter
      rw [munch_percent hafter]
      refine ⟨_, rfl, ⟨fun hkind => (by cases hkind), fun h => absurd h hnone⟩, ?_, fun _ => rfl⟩
      intro tail htail hbegins
      exact absurd ⟨tail, htail, hbegins⟩ hnone
  | some later =>
      obtain ⟨tail, htail, rfl⟩ := pragmaTail_of_afterPragma hafter
      rw [munch_pragma_tail htail]
      dsimp only
      rw [List.take_left]
      refine ⟨_, rfl, ⟨fun _ => ⟨tail, htail, later, rfl⟩, fun _ => rfl⟩, ?_, fun h => absurd rfl h⟩
      intro other hother hbegins
      obtain ⟨left, hleft⟩ := hbegins
      obtain ⟨rfl, -⟩ := pragmaTail_unique hother htail hleft
      rfl

/-- The token of a pragma is a spelling of the pragma that is read from it. -/
theorem speltAs_of_mem_tokens {text : String} {token : Token} (h : token ∈ (ofText text).tokens)
    (hkind : token.kind = .pragma) : (Pragma.ofToken token).SpeltAs token.text.toList := by
  obtain ⟨c, rest, more, hmunched, htext⟩ := munched_of_mem_tokens h
  rw [hkind] at hmunched
  obtain ⟨tail, htail, heq⟩ := hmunched.pragma_tail
  exact Pragma.speltAs_ofToken (htext.trans (congrArg String.ofList heq)) htail

end Lexed

/-! ## Reading pragmas -/

namespace Read

variable {c : Cursor}

/-- One step of the loop passes one pragma and takes it apart. -/
theorem pragmaStep_at {token : Token} {rest : List Token} (hrest : c.rest = token :: rest)
    (hkind : token.kind = .pragma) (read : List Pragma) :
    pragmaStep read c = .ok (.yield (read ++ [.ofToken token])) c.pass :=
  bind_of_ok (take?_of_rest hrest hkind)

theorem pragmaStep_of_ne (h : c.peek ≠ some .pragma) (read : List Pragma) :
    pragmaStep read c = .ok (.done read) c :=
  bind_of_ok (take?_of_ne h)

section

variable {name : Token} {tokens later : List Token}

/-- The steps take one pragma after the other, until something else comes next. -/
theorem pragmas_upTo {bound : Nat} (hbound : tokens.length < bound) (read : List Pragma)
    (hrest : c.rest = tokens ++ later) (hkinds : ∀ token ∈ tokens, token.kind = .pragma)
    (hlater : later.head?.map Token.kind ≠ some .pragma) :
    ∃ c', iterateUpTo pragmaStep bound read c = .ok (read ++ tokens.map Pragma.ofToken) c' ∧
      c'.rest = later := by
  induction tokens generalizing bound read c with
  | nil =>
      obtain ⟨bound, rfl⟩ := Nat.exists_eq_succ_of_ne_zero (Nat.ne_zero_of_lt hbound)
      have hpeek : c.peek ≠ some .pragma := by rwa [Cursor.peek, hrest]
      refine ⟨c, ?_, hrest⟩
      rw [List.map_nil, List.append_nil]
      exact bind_of_ok (pragmaStep_of_ne hpeek read)
  | cons token tokens ih =>
      obtain ⟨bound, rfl⟩ := Nat.exists_eq_succ_of_ne_zero (Nat.ne_zero_of_lt hbound)
      have hstep := pragmaStep_at hrest (hkinds token List.mem_cons_self) read
      have hpass : c.pass.rest = tokens ++ later := by rw [Cursor.rest_pass, hrest]; rfl
      obtain ⟨c', hread, hend⟩ :=
        ih (Nat.lt_of_succ_lt_succ hbound) (read ++ [.ofToken token]) hpass
        fun other hother => hkinds other (List.mem_cons_of_mem _ hother)
      refine ⟨c', ?_, hend⟩
      rw [List.append_assoc, List.singleton_append] at hread
      exact (bind_of_ok hstep).trans hread

/-- All pragmas that come next are read. -/
theorem pragmas_at (hrest : c.rest = tokens ++ later)
    (hkinds : ∀ token ∈ tokens, token.kind = .pragma)
    (hlater : later.head?.map Token.kind ≠ some .pragma) :
    ∃ c', pragmas c = .ok (tokens.map Pragma.ofToken) c' ∧ c'.rest = later := by
  have hbound : tokens.length < c.rest.length + 1 := by
    rw [hrest, List.length_append]
    omega
  exact pragmas_upTo hbound [] hrest hkinds hlater

/-- A bound name takes all pragmas behind it. -/
theorem ident_at (hrest : c.rest = name :: (tokens ++ later)) (hname : name.kind = .ident)
    (hkinds : ∀ token ∈ tokens, token.kind = .pragma)
    (hlater : later.head?.map Token.kind ≠ some .pragma) :
    ∃ c', ident c = .ok ⟨name.text, name.span, tokens.map Pragma.ofToken⟩ c' ∧ c'.rest = later := by
  have hpass : c.pass.rest = tokens ++ later := by rw [Cursor.rest_pass, hrest]; rfl
  obtain ⟨c', hread, hend⟩ := pragmas_at hpass hkinds hlater
  exact ⟨c', (bind_of_ok (take?_of_rest hrest hname)).trans (bind_of_ok hread), hend⟩

end

/-- No bound name is refused: however many pragmas are behind it, they are read with it. -/
theorem exists_ident (h : c.peek = some .ident) : ∃ read c', ident c = .ok read c' := by
  obtain ⟨name, rest, hrest, hname⟩ : ∃ name rest, c.rest = name :: rest ∧ name.kind = .ident := by
    obtain ⟨name, hhead, hname⟩ := Option.map_eq_some_iff.mp h
    obtain ⟨rest, hrest⟩ := List.head?_eq_some_iff.mp hhead
    exact ⟨name, rest, hrest, hname⟩
  have hsplit : c.rest = name :: (rest.takeWhile (·.kind == .pragma) ++
      rest.dropWhile (·.kind == .pragma)) := by rw [hrest, List.takeWhile_append_dropWhile]
  have hkinds : ∀ token ∈ rest.takeWhile (·.kind == .pragma), token.kind = .pragma :=
    fun token hmem => eq_of_beq (List.all_eq_true.mp List.all_takeWhile token hmem)
  have hlater : (rest.dropWhile (·.kind == .pragma)).head?.map Token.kind ≠ some .pragma := by
    intro hpragma
    obtain ⟨token, hhead, hkind⟩ := Option.map_eq_some_iff.mp hpragma
    have hstop := List.head?_dropWhile_not (·.kind == .pragma) rest
    rw [hhead] at hstop
    simp [hkind] at hstop
  obtain ⟨c', hread, -⟩ := ident_at hsplit hname hkinds hlater
  exact ⟨_, c', hread⟩

end Read

/-! ## Printing a name and reading it back -/

namespace Ident

/-- From the text of a bound name by itself the same name is read, with the same keys and values,
and nothing is left of the text. -/
def ReadsBack (ident : Ident) : Prop :=
  let printed := render ident.chunks
  let lexed := Lexed.ofText printed
  lexed.diagnostics = [] ∧ lexed.truncated = false ∧
    ∃ read c, Read.ident (.start lexed.tokens printed.utf8ByteSize) = .ok read c ∧
      c.atEnd = true ∧ read.strip = ident.strip

theorem Printable.readsBack {ident : Ident} (h : ident.Printable) : ident.ReadsBack := by
  have hcalm : Calm true [] := ⟨fun _ hd => (by cases hd), fun hd => (by cases hd)⟩
  have hapart : Apart false ident.chunks := by simpa using h.tidy.apart [] .nil hcalm
  obtain ⟨hshows, hlog⟩ := Run.ofText_render hapart
  have hwords : (Run.ofText (render ident.chunks)
      (Lexed.ofText (render ident.chunks))).cursor.Shows (ident.chunks ++ []) := by
    rwa [List.append_nil]
  refine ⟨congrArg Log.entries hlog, congrArg Log.truncated hlog, ?_⟩
  -- what is read is the name if it is read at all, and no name is refused
  obtain ⟨read, c, hread⟩ := Read.exists_ident (hshows.peek.trans rfl)
  have hgives := gives_ident h (by simp) hwords
  rw [Gives, hread] at hgives
  exact ⟨read, c, hread, hgives.2.atEnd, hgives.1⟩

end Ident

/-! ## Pragmas in a text -/

/-- A `%` opens a pragma exactly where a key, a colon, a value and another `%` follow.  A name in
front of some pragmas is read together with all of them, each with the key and the value that its
text spells, and what is read is read again when it is printed. -/
theorem pragmas_are_read_back (text : String) :
    (∀ first later rest, (Lexed.ofText text).pieces = first ++ later →
      text.toList = spelt first ++ '%' :: rest → ∃ token, later.head? = some (.token token) ∧
        Lexed.PercentBecomes (byteLength (spelt first)) rest token) ∧
    ∀ before name tokens later, (Lexed.ofText text).tokens = before ++ name :: (tokens ++ later) →
      name.kind = .ident → (∀ token ∈ tokens, token.kind = .pragma) →
      later.head?.map Token.kind ≠ some .pragma →
      ∀ c : Cursor, c.rest = name :: (tokens ++ later) →
        ∃ pragmas c', Read.ident c = .ok ⟨name.text, name.span, pragmas⟩ c' ∧ c'.rest = later ∧
          List.Forall₂ (fun token pragma =>
            pragma.SpeltAs token.text.toList ∧ pragma.span = token.span) tokens pragmas ∧
          Ident.ReadsBack ⟨name.text, name.span, pragmas⟩ := by
  constructor
  · -- scanning goes on behind any first pieces as it does with a text of its own
    intro first later rest hpieces htext
    obtain ⟨left, hleft, hlater⟩ := Lexed.scan_behind hpieces
    obtain rfl : left = '%' :: rest := List.append_cancel_left (hleft.symm.trans htext)
    obtain ⟨token, hhead, hbecomes⟩ := Lexed.percentBecomes_scan (0 + byteLength (spelt first)) rest
    rw [Nat.zero_add] at hlater hhead hbecomes
    exact ⟨token, hlater ▸ hhead, hbecomes⟩
  · intro before name tokens later htokens hname hkinds hlater c hrest
    have hmem : ∀ token ∈ name :: tokens, token ∈ (Lexed.ofText text).tokens := by
      intro token hmem
      rw [htokens, ← List.cons_append]
      exact List.mem_append_right _ (List.mem_append_left _ hmem)
    have hspelt : ∀ token ∈ tokens, (Pragma.ofToken token).SpeltAs token.text.toList :=
      fun token htoken => Lexed.speltAs_of_mem_tokens
        (hmem token (List.mem_cons_of_mem _ htoken)) (hkinds token htoken)
    have hproper : isProperName name.text = true := by
      have hword := Lexed.proper_of_mem_tokens (hmem name List.mem_cons_self)
        (fun hint => by rw [hname] at hint; cases hint)
      rwa [Lexeme.ofToken, if_neg (by simp [hname]), hname] at hword
    -- the reader takes the name and all pragmas that follow it
    obtain ⟨c', hread, hend⟩ := Read.ident_at hrest hname hkinds hlater
    refine ⟨_, c', hread, hend, ?_, Ident.Printable.readsBack ⟨hproper, ?_⟩⟩
    · rw [List.forall₂_map_right_iff, List.forall₂_same]
      exact fun token htoken => ⟨hspelt token htoken, rfl⟩
    · intro pragma hpragma
      obtain ⟨token, htoken, rfl⟩ := List.mem_map.mp hpragma
      exact (hspelt token htoken).printable

/-- Two pragmas are read with the name in front of them, the `%` behind them is none. -/
theorem pragmas_before_operator :
    let text := "y %\ta : b % %c:d% % 2"
    let ident : Ident := ⟨"y", ⟨0, 1, 0⟩, [⟨"a", "b", ⟨2, 11, 0⟩⟩, ⟨"c", "d", ⟨12, 17, 0⟩⟩]⟩
    (∃ c, Read.ident (.start (Lexed.ofText text).tokens text.utf8ByteSize) = .ok ident c ∧
      c.rest.map Token.kind = [.percent, .intLit]) ∧ ident.ReadsBack := by
  intro text ident
  let tokens : List Token := [⟨.pragma, "%\ta : b %", ⟨2, 11, 0⟩⟩, ⟨.pragma, "%c:d%", ⟨12, 17, 0⟩⟩]
  let later : List Token := [⟨.percent, "%", ⟨18, 19, 0⟩⟩, ⟨.intLit, "2", ⟨20, 21, 0⟩⟩]
  have hrest : (Lexed.ofText text).tokens = ⟨.ident, "y", ⟨0, 1, 0⟩⟩ ::
    (tokens ++ later) := by decide
  have hkinds : ∀ token ∈ tokens, token.kind = .pragma := by decide
  have hlater : later.head?.map Token.kind ≠ some .pragma := by decide
  let c := Cursor.start (Lexed.ofText text).tokens text.utf8ByteSize
  obtain ⟨pragmas, c', hread, hend, -, hback⟩ :=
    (pragmas_are_read_back text).2 [] _ tokens later hrest rfl hkinds hlater c hrest
  have hsame : pragmas = ident.pragmas := by
    have hkeys : tokens.map Pragma.ofToken = ident.pragmas := by decide
    obtain ⟨_, hvalue, -⟩ := @Read.ident_at c _ _ _ hrest rfl hkinds hlater
    rw [hkeys] at hvalue
    cases hread.symm.trans hvalue
    rfl
  rw [hsame] at hread hback
  exact ⟨⟨c', hread, congrArg (List.map Token.kind) hend⟩, hback⟩

end Lustre
