import Lustre.Proofs.Token.Lines

/-!
# Before what is never closed

A string or a comment that is never closed ends the pieces of a text.  What stands
before it is cut into the same pieces if the text ends there (`scan_before`): the
opener goes on with no word, and a piece that ends before the opener does not notice
that the rest of the text is gone.
-/

namespace Lustre

/-! ## Pieces that end early -/

/-- A closer that is found only behind a text ends behind it. -/
theorem lt_lengthThrough {first second : Char} {text after : List Char} {length : Nat}
    (h : lengthThrough first second text = none)
    (hlonger : lengthThrough first second (text ++ after) = some length) :
    text.length < length := by
  obtain ⟨inside, left, hsplit, rfl, -⟩ := lengthThrough_eq_some hlonger
  refine Nat.lt_of_not_le fun hle => ?_
  have hwithin : inside ++ [first, second] <+: text := by
    refine List.prefix_of_prefix_length_le ?_ (List.prefix_append text after) (by simpa using hle)
    exact ⟨left, by rw [hsplit]; simp⟩
  obtain ⟨more, rfl⟩ := hwithin
  exact lengthThrough_eq_none h inside more (by simp)

/-- What is not closed within a text is closed behind it or not at all. -/
theorem unterminated_append {c : Char} {rest : List Char} {cause : Cause} {width : Nat}
    (h : munch c rest = .unterminated cause width) (after : List Char) :
    c ∈ openers ∧ (munch c (rest ++ after) = .unterminated cause width ∨
      rest.length < (munch c (rest ++ after)).more) := by
  have hcomment : ∀ {first second : Char} {later : List Char},
      munchComment first second ('*' :: later) = .unterminated cause width →
      munchComment first second ('*' :: later ++ after) = .unterminated cause width ∨
        ('*' :: later).length < (munchComment first second ('*' :: later ++ after)).more := by
    intro first second later hopen
    unfold munchComment at hopen ⊢
    split at hopen
    · cases hopen
    · rename_i hnone
      split
      · rename_i length hlength
        right
        have hlt := lt_lengthThrough hnone hlength
        simp only [List.drop_succ_cons, List.drop_zero] at hlt
        simp only [Munch.more, List.length_cons]
        omega
      · exact .inl hopen
  have hsymbol : munchSymbol c rest ≠ .unterminated cause width := by
    unfold munchSymbol
    split
    · simp
    · split <;> simp
  unfold munch at h
  split at h
  · cases h
  split at h
  · cases h
  split at h
  · cases h
  -- one case for each way to open something, in the order of the definition
  split at h
  · refine ⟨by decide, ?_⟩
    change munchString (rest ++ after) = .unterminated cause width ∨
      rest.length < (munchString (rest ++ after)).more
    unfold munchString at h ⊢
    dsimp only at h ⊢
    split at h
    · cases h
    · rename_i hinside
      -- an open string takes all characters, so a quote that closes it stands behind them
      have hspan := Nat.le_antisymm (spanLength_le _ _) (Nat.le_of_not_lt hinside)
      have hall := spanLength_append_of_all (all_of_spanLength hspan) after
      split
      · right
        simp only [Munch.more]
        omega
      · exact .inl h
  · cases h
  · exact ⟨by decide, hcomment h⟩
  · exact ⟨by decide, hcomment h⟩
  · split at h
    · cases h
    · exact absurd h hsymbol
  · split at h
    · cases h
    · exact absurd h hsymbol
  · exact absurd h hsymbol

/-- A piece that ends before an opener is cut off the same if the text ends there. -/
theorem munch_before {x c : Char} {rest more : List Char} (hx : x ∈ openers)
    (hclosed : ∀ cause width, munch c (rest ++ x :: more) ≠ .unterminated cause width)
    (hle : (munch c (rest ++ x :: more)).more ≤ rest.length) :
    munch c rest = munch c (rest ++ x :: more) := by
  have hbreaks : x ∈ breaks := List.mem_cons_of_mem _ hx
  have hkeeps : isWhite x = false ∧ (x != '\n') = true := by
    simp only [openers, List.mem_cons, List.not_mem_nil, or_false] at hx
    rcases hx with rfl | rfl | rfl <;> exact ⟨rfl, rfl⟩
  refine (munch_break hbreaks more (fun cause width hopen => ?_) (fun _ => .inl ?_) ?_).1.symm
  · rcases (unterminated_append hopen (x :: more)).2 with hsame | hlt
    · exact hclosed _ _ hsame
    · omega
  · exact hkeeps.1
  · rintro later rfl rfl
    refine .inr (Nat.lt_of_not_le fun hspan => ?_)
    have hall := spanLength_append_of_all
      (all_of_spanLength (Nat.le_antisymm (spanLength_le _ _) hspan)) (x :: more)
    rw [spanLength_cons, if_pos hkeeps.2] at hall
    have hmore : (munch '-' ('-' :: later ++ x :: more)).more =
      spanLength (· != '\n') ('-' :: later ++ x :: more) := rfl
    omega

namespace Lexed

/-- What stands before something that is never closed is cut into the same pieces without it. -/
theorem scan_before (start : Nat) (text : List Char) {fault : Diagnostic}
    (h : (scan 0 start text).fault = some fault) :
    ∃ before x more, text = before ++ x :: more ∧ x ∈ openers ∧
      fault.span.start = start + byteLength before ∧
      scan 0 start before = ⟨(scan 0 start text).pieces, none⟩ := by
  induction hlength : text.length using Nat.strongRecOn generalizing start text with
  | ind length ih =>
      cases text with
      | nil => cases h
      | cons c rest =>
          -- the first piece is the same before what the others leave
          have hlater : ∀ n, (∀ cause width, munch c rest ≠ .unterminated cause width) →
              (munch c rest).more = n →
              (scan 0 (start + byteLength (c :: rest.take n)) (rest.drop n)).fault = some fault →
              ∃ before x more, rest = rest.take n ++ before ++ x :: more ∧ x ∈ openers ∧
                fault.span.start = start + byteLength (c :: rest.take n) + byteLength before ∧
                scan 0 (start + byteLength (c :: rest.take n)) before =
                  ⟨(scan 0 (start + byteLength (c :: rest.take n)) (rest.drop n)).pieces, none⟩ ∧
                munch c (rest.take n ++ before) = munch c rest ∧ (rest.take n).length = n := by
            intro n hclosed hmore hfault
            -- a fault lies behind the piece, so the piece leaves something
            have hlt : n < rest.length := by
              refine Nat.lt_of_not_le fun hle => ?_
              rw [List.drop_eq_nil_of_le hle] at hfault
              cases hfault
            obtain ⟨before, x, more, hdrop, hx, hstart, hscan⟩ := ih (rest.drop n).length
              (by simp only [List.length_cons, List.length_drop] at hlength ⊢; omega)
              _ (rest.drop n) hfault rfl
            have hsplit : rest = rest.take n ++ before ++ x :: more := by
              rw [List.append_assoc, ← hdrop, List.take_append_drop]
            have htake : (rest.take n).length = n := List.length_take_of_le (Nat.le_of_lt hlt)
            refine ⟨before, x, more, hsplit, hx, hstart, hscan, ?_, htake⟩
            have hsame := @munch_before x c (rest.take n ++ before) more hx
            rw [← hsplit, hmore, List.length_append, htake] at hsame
            exact hsame hclosed (Nat.le_add_right _ _)
          rw [scan_cons] at h ⊢
          cases hmunch : munch c rest with
          | unterminated cause width =>
              rw [hmunch] at h
              cases h
              exact ⟨[], c, rest, rfl, (unterminated_append hmunch []).1, rfl, rfl⟩
          | token kind n =>
              rw [hmunch] at h hlater
              obtain ⟨before, x, more, hsplit, hx, hstart, hscan, hsame, htake⟩ :=
                hlater n (fun _ _ hnot => by cases hnot) rfl h
              refine ⟨c :: (rest.take n ++ before), x, more, by rw [List.cons_append, ← hsplit],
                hx, ?_, ?_⟩
              · rw [hstart, Nat.add_assoc, ← byteLength_append, List.cons_append]
              · rw [scan_cons, hsame]
                dsimp only
                rw [List.take_left' htake, List.drop_left' htake, hscan]
          | filler trivia n =>
              rw [hmunch] at h hlater
              obtain ⟨before, x, more, hsplit, hx, hstart, hscan, hsame, htake⟩ :=
                hlater n (fun _ _ hnot => by cases hnot) rfl h
              refine ⟨c :: (rest.take n ++ before), x, more, by rw [List.cons_append, ← hsplit],
                hx, ?_, ?_⟩
              · rw [hstart, Nat.add_assoc, ← byteLength_append, List.cons_append]
              · rw [scan_cons, hsame]
                dsimp only
                rw [List.take_left' htake, List.drop_left' htake, hscan]

/-- A text up to its last lexical diagnostic.  If the text is cut short, this is what stands before
the string or the comment that is never closed. -/
def beforeLast (text : String) : String :=
  match (ofText text).diagnostics.getLast? with
  | some last => (⟨0, last.span.start, 0⟩ : Span).slice text
  | none => text

/-- Before something that is never closed, a text has the same tokens and the same diagnostics but
for the last. -/
theorem ofText_beforeLast {text : String} (h : (ofText text).truncated = true) :
    (ofText (beforeLast text)).truncated = false ∧
      (ofText (beforeLast text)).tokens = (ofText text).tokens ∧
      (∃ last, (ofText text).diagnostics = (ofText (beforeLast text)).diagnostics ++ [last]) ∧
      (beforeLast text).utf8ByteSize < text.utf8ByteSize := by
  obtain ⟨fault, hfault⟩ := Option.isSome_iff_exists.mp h
  obtain ⟨before, x, more, hsplit, -, hstart, hscan⟩ := scan_before 0 text.toList hfault
  have hlast : (ofText text).diagnostics.getLast? = some fault := by
    rw [diagnostics_eq, hfault]
    simp
  have hshort : beforeLast text = String.ofList before := by
    have htext : text = String.ofList ([] ++ (before ++ x :: more)) := by
      rw [List.nil_append, ← hsplit, String.ofList_toList]
    have hslice := slice_middle [] before (x :: more) 0
    rw [← htext, byteLength_nil, ← hstart] at hslice
    rw [← hslice, beforeLast, hlast]
  have hlexed : ofText (beforeLast text) = ⟨(ofText text).pieces, none⟩ := by
    rw [ofText, hshort, String.toList_ofList, hscan]
    rfl
  refine ⟨by rw [hlexed]; rfl, by rw [hlexed]; rfl, ⟨fault, ?_⟩, ?_⟩
  · rw [hlexed, diagnostics, diagnostics, hfault]
    simp
  · rw [utf8ByteSize_eq_byteLength, utf8ByteSize_eq_byteLength, hshort,
      String.toList_ofList, hsplit, byteLength_append]
    have hpos := byteLength_pos (List.cons_ne_nil x more)
    omega

end Lexed

end Lustre
