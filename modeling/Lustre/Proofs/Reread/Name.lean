import Lustre.Proofs.Reread.Gives
import Lustre.Proofs.Token.Spelling
import Lustre.Proofs.Tree.Rebuild

/-!
# Names and clocks, read back

A printed name is read back as the same name, up to its place, in front of whatever does
not go on with it: a bound name takes every pragma behind it, a used name takes a `::`,
and a clock that is a name alone would take an opening parenthesis.
-/

namespace Lustre

open Chunk

namespace Cursor.Shows

variable {c : Cursor} {chunks : List Chunk} {kind : Kind} {text : String}

theorem rest_eq (h : c.Shows (.word kind text :: chunks)) : ∃ start,
    c.rest = ⟨kind, text, ⟨start, start + byteLength text.toList, 0⟩⟩ ::
      Chunk.tokens (start + byteLength text.toList) chunks := by
  obtain ⟨start, hrest⟩ := h
  exact ⟨start, hrest⟩

end Cursor.Shows

theorem Gives.take?_word {c : Cursor} {kind : Kind} {text : String} {chunks : List Chunk}
    {α : Type} {next : Option Token → Read α} {R : α → Cursor → Prop}
    (h : c.Shows (.word kind text :: chunks))
    (hnext : ∀ span, Gives (next (some ⟨kind, text, span⟩)) c.pass R) :
    Gives (Read.take? kind >>= next) c R := by
  obtain ⟨start, hrest⟩ := h.rest_eq
  exact take?_some hrest (hnext _)

/-! ## Pragmas -/

namespace Pragma

/-- The key and the value are found again in the text of a pragma. -/
theorem ofToken_text {pragma : Pragma} (h : pragma.Printable) (span : Span) :
    (ofToken ⟨.pragma, pragma.text, span⟩).strip = pragma.strip := by
  have hspelt : pragma.SpeltAs pragma.text.toList :=
    ⟨h, [], [], [], [], by simp, by simp [text, String.toList_append]⟩
  rw [ofToken_of_speltAs hspelt]
  rfl

end Pragma

theorem gives_pragmas {pragmas : List Pragma} (h : ∀ pragma ∈ pragmas, pragma.Printable)
    {later : List Chunk} (hlater : (kinds later).head? ≠ some .pragma) {c : Cursor}
    (hshows : c.Shows
      ((pragmas.flatMap fun pragma => [blank, .word .pragma pragma.text]) ++ later)) :
    Gives Read.pragmas c fun read c' =>
      read.map Pragma.strip = pragmas.map Pragma.strip ∧ c'.Shows later := by
  -- the loop may have read some pragmas before
  have hloop : ∀ (pragmas : List Pragma) (read : List Pragma) (c : Cursor),
      (∀ pragma ∈ pragmas, pragma.Printable) →
      c.Shows ((pragmas.flatMap fun pragma => [blank, .word .pragma pragma.text]) ++ later) →
      LoopGives Read.pragmaStep read c fun read' c' =>
        read'.map Pragma.strip = read.map Pragma.strip ++ pragmas.map Pragma.strip ∧
          c'.Shows later := by
    intro pragmas
    induction pragmas with
    | nil =>
        intro read c _ hshows
        refine .next (.take?_none (hshows.peek ▸ hlater) (.pure ⟨?_, hshows⟩))
        rw [List.map_nil, List.append_nil]
    | cons pragma pragmas ih =>
        intro read c h hshows
        have hword : c.Shows (.word .pragma pragma.text ::
            ((pragmas.flatMap fun pragma => [blank, .word .pragma pragma.text]) ++ later)) :=
          hshows.blank
        refine .next (.take?_word hword fun span => .pure ⟨?_, ?_⟩)
        · rw [hword.length, hword.pass.length, kinds_word, List.length_cons]
          omega
        · refine (ih _ _ (fun other hother => h other (List.mem_cons_of_mem _ hother))
            hword.pass).mono fun read' c' hread => ⟨?_, hread.2⟩
          rw [hread.1]
          simp [Pragma.ofToken_text (h pragma List.mem_cons_self)]
  exact (hloop pragmas [] c h hshows).iterate

/-! ## Names -/

/-- A bound name takes the pragmas behind it. -/
theorem gives_ident {ident : Ident} (h : ident.Printable) {later : List Chunk}
    (hlater : (kinds later).head? ≠ some .pragma) {c : Cursor}
    (hshows : c.Shows (ident.chunks ++ later)) :
    Gives Read.ident c fun read c' => read.strip = ident.strip ∧ c'.Shows later := by
  rw [Ident.chunks, List.cons_append] at hshows
  refine .take?_word hshows fun span => ?_
  refine (gives_pragmas h.2 hlater hshows.pass).bind fun pragmas c' hpragmas =>
    .pure ⟨?_, hpragmas.2⟩
  rw [Ident.strip, Ident.strip, hpragmas.1]

/-- The number of words that a used name takes. -/
def Reference.length (ref : Reference) : Nat := if ref.isQualified then 3 else 1

/-- A used name takes a `::`, so none may follow. -/
theorem gives_reference {ref : Reference} {later : List Chunk}
    (hlater : (kinds later).head? ≠ some .colonColon) {c : Cursor}
    (hshows : c.Shows (ref.chunks ++ later)) :
    Gives Read.reference c fun read c' => read.strip = ref.strip ∧ c'.Shows later := by
  obtain ⟨package, member, place⟩ := ref
  cases package with
  | none =>
      have hword : c.Shows (.word .ident member :: later) := hshows
      refine .take?_word hword fun span => ?_
      exact .take?_none (hword.pass.peek ▸ hlater) (.pure ⟨rfl, hword.pass⟩)
  | some package =>
      -- The places of the three words are needed to see that there are no blanks between them.
      have hwords : c.Shows (.word .ident package :: sign .colonColon :: .word .ident member ::
        later) := hshows
      obtain ⟨start, hrest⟩ := hwords
      have hsecond : c.pass.rest = Chunk.tokens (start + byteLength package.toList)
          (sign .colonColon :: .word .ident member :: later) := by
        rw [Cursor.pass, hrest]
        rfl
      have hthird : c.pass.pass.rest = Chunk.tokens (start + byteLength package.toList +
          byteLength Kind.colonColon.describe.toList) (.word .ident member :: later) := by
        rw [Cursor.pass, hsecond]
        rfl
      have hmember : c.pass.pass.Shows (.word .ident member :: later) := ⟨_, hthird⟩
      have hlast : c.pass.pass.pass.Shows later := hmember.pass
      refine .take?_some hrest ?_
      refine .take?_some hsecond ?_
      refine .take?_some hthird ?_
      simp only [and_self, if_true]
      exact .pure ⟨rfl, hlast⟩

/-- A cursor before a used name knows how many words it takes, and what comes after them. -/
theorem Cursor.Shows.referenceLength {ref : Reference} {later : List Chunk}
    (hlater : (kinds later).head? ≠ some .colonColon) {c : Cursor}
    (hshows : c.Shows (ref.chunks ++ later)) :
    c.referenceLength = ref.length ∧
      ∀ ahead, c.peekAt (ref.length + ahead) = (kinds later)[ahead]? := by
  have hpeek := hshows.peek
  have hpeekAt := hshows.peekAt
  obtain ⟨package, member, place⟩ := ref
  cases package with
  | none =>
      have hnext : c.peekAt 1 ≠ some .colonColon := by
        rw [hpeekAt 1]
        simpa [Reference.chunks, ← List.head?_eq_getElem?] using hlater
      refine ⟨?_, fun ahead => ?_⟩
      · rw [Cursor.referenceLength, if_pos (by simp [Cursor.isAt, hpeek, Reference.chunks]),
          if_neg fun h => hnext h.1]
        rfl
      · rw [hpeekAt, Nat.add_comm]
        rfl
  | some package =>
      refine ⟨?_, fun ahead => ?_⟩
      · rw [Cursor.referenceLength, if_pos (by simp [Cursor.isAt, hpeek, Reference.chunks]),
          if_pos ⟨hpeekAt 1, hpeekAt 2⟩]
        rfl
      · rw [hpeekAt, Nat.add_comm]
        rfl

/-- A bound name looks like a used name that is not qualified. -/
theorem Cursor.Shows.identLength {ident : Ident} {later : List Chunk}
    (hlater : (kinds later).head? ≠ some .colonColon) {c : Cursor}
    (hshows : c.Shows (ident.chunks ++ later)) :
    c.referenceLength = 1 ∧
      (c.peekAt 1 = some .pragma ∨ c.peekAt 1 = (kinds later).head?) := by
  have hbare : c.Shows ((⟨none, ident.name, .nowhere⟩ : Reference).chunks ++
      ((ident.pragmas.flatMap fun pragma => [Chunk.blank, .word .pragma pragma.text]) ++ later)) :=
    hshows
  cases hpragmas : ident.pragmas with
  | nil =>
      rw [hpragmas] at hbare
      have hlength := hbare.referenceLength hlater
      exact ⟨hlength.1, .inr (by rw [List.head?_eq_getElem?]; exact hlength.2 0)⟩
  | cons pragma pragmas =>
      rw [hpragmas] at hbare
      have hlength := hbare.referenceLength (by simp)
      exact ⟨hlength.1, .inl (hlength.2 0)⟩

/-- Where no used name comes next, it takes no words. -/
theorem Cursor.referenceLength_of_ne {c : Cursor} (h : c.peek ≠ some .ident) :
    c.referenceLength = 0 := by
  rw [referenceLength, if_neg (by simpa [isAt] using h)]

/-! ## Clocks -/

/-- A clock that is a name alone ends before whatever neither qualifies, calls nor
annotates a name. -/
theorem gives_clock {clock : Clock} (h : clock.Printable) {later : List Chunk}
    (hlater : ∀ kind ∈ [Kind.pragma, .colonColon, .lParen], (kinds later).head? ≠ some kind)
    {c : Cursor} (hshows : c.Shows (clock.chunks ++ later)) :
    Gives Read.clock c fun read c' => read.value.strip = clock.strip ∧ c'.Shows later := by
  have hpragma := hlater .pragma (by simp)
  refine .located ?_
  cases clock with
  | not name parenthesized =>
      have hpassed := hshows
      cases parenthesized with
      | true =>
          rw [Clock.chunks, between] at hshows
          have hopened : c.pass.Shows
              (sign .lParen :: (name.chunks ++ (sign .rParen :: later))) := by
            simpa [blank] using hshows.pass_sign.blank
          refine .eat_yes hshows.peek (.eat_yes hopened.peek ?_)
          refine (gives_ident h (by simp) hopened.pass_sign).bind fun read c' hread => ?_
          refine .expect hread.2.peek fun _ => .pure fun _ => ⟨?_, hread.2.pass_sign⟩
          rw [Clock.strip, Clock.strip, hread.1]
      | false =>
          have hname : c.pass.Shows (name.chunks ++ later) := hshows.pass_sign.blank
          refine .eat_yes hshows.peek (.eat_no (by rw [hname.peek]; simp [Ident.chunks]) ?_)
          refine (gives_ident h hpragma hname).bind fun read c' hread =>
            .pure fun _ => ⟨?_, hread.2⟩
          rw [Clock.strip, Clock.strip, hread.1]
  -- a case is told by the parenthesis behind its name
  | case name clock =>
      rw [Clock.chunks, List.append_assoc] at hshows
      have hcolons : (kinds (between .lParen .rParen clock.chunks ++ later)).head? ≠
          some .colonColon := by simp [between]
      have hlength := hshows.referenceLength hcolons
      have hparen : c.peekAt name.length = some .lParen := hlength.2 0
      have hpositive : 0 < name.length := by
        unfold Reference.length
        split <;> decide
      have hnot : c.peek ≠ some .kwNot := by
        rw [hshows.peek]
        unfold Reference.chunks
        split <;> simp
      refine .eat_no hnot (.get ?_)
      simp only [hlength.1, hpositive, hparen, and_self, if_true]
      refine (gives_reference hcolons hshows).bind fun readName c' hname => .advance ?_
      have hclock : c'.pass.Shows (clock.chunks ++ (sign .rParen :: later)) := by
        simpa [between] using hname.2.pass_sign
      refine (gives_ident h.2 (by simp) hclock).bind fun readClock c'' hread => ?_
      refine .expect hread.2.peek fun _ => .pure fun _ => ⟨?_, hread.2.pass_sign⟩
      rw [Clock.strip, Clock.strip, hname.1, hread.1]
  | on name =>
      have hlength := hshows.identLength (hlater .colonColon (by simp))
      -- the name of a clock stands before no parenthesis, so it is no case
      have hparen : c.peekAt 1 ≠ some .lParen := by
        rcases hlength.2 with hpragma | hnext
        · rw [hpragma]
          simp
        · rw [hnext]
          exact hlater .lParen (by simp)
      refine .eat_no (by rw [hshows.peek]; simp [Clock.chunks, Ident.chunks]) (.get ?_)
      have hcase : ¬(c.referenceLength > 0 ∧ c.peekAt c.referenceLength = some .lParen) := by
        rw [hlength.1]
        exact fun h => hparen h.2
      simp only [if_neg hcase]
      refine (gives_ident h hpragma hshows).bind fun read c' hread => .pure fun _ => ⟨?_, hread.2⟩
      rw [Clock.strip, Clock.strip, hread.1]

end Lustre
