import Lustre.Proofs.Token.Lines

/-!
# A part of a text by itself

From the first piece of some to the end of the last one, a text is cut into the same pieces
when what stands around this part is gone (`Lexed.tokens_slice`).  In front of a piece
nothing matters, since `scan` does not look back.  Behind it, what counts is that the longest
match at a place stays the longest in a shorter text, if it fits in.

Two matches go beyond the piece that they become.  An integer before two dots is matched
together with them, and it is an integer without them.  An integer takes a dot before a letter
that begins no exponent; where the letter is cut off, it becomes a real, so such integers
are left out.
-/

namespace Lustre

/-! ## Matches in a shorter text -/

section

variable {text after word : List Char} {raw : Raw}

theorem IsLongest.of_append (h : IsLongest (text ++ after) raw word) (hword : word <+: text) :
    IsLongest text raw word where
  fits := h.fits
  begins := hword
  longest other cs hcs hbegins :=
    h.longest other cs hcs (hbegins.trans (List.prefix_append text after))
  wins := h.wins

/-- What is matched is matched in a shorter text that holds it, apart from a dot behind digits. -/
theorem RawAt.of_append (h : RawAt (text ++ after) raw word) (hword : word <+: text)
    (hdot : raw = .word .intLit → '.' ∉ word) : RawAt text raw word := by
  cases h with
  | brokenExponent => exact absurd (List.mem_append_right _ List.mem_cons_self) (hdot rfl)
  | longest h hexponent =>
      refine .longest (h.of_append hword) fun digits rest htext hbroken => ?_
      -- an exponent that the cut has broken would have been part of the match
      have hletter : opensExponent (rest ++ after) = true := by
        cases rest with
        | nil => cases hbroken.letter
        | cons letter rest => exact hbroken.letter
      refine hexponent digits (rest ++ after) (by rw [htext]; simp)
        ⟨hbroken.digits, hletter, fun cs hcs hbegins => ?_⟩
      have hreal : (Raw.word .realLit).pattern.Matches (digits ++ '.' :: cs) :=
        .inr (.inl ⟨digits, '.' :: cs, hbroken.digits, ⟨['.'], cs, rfl, hcs, rfl⟩, rfl⟩)
      have hwhole : digits ++ '.' :: cs <+: text ++ after := by
        rw [htext, List.append_assoc, List.cons_append]
        exact (List.prefix_append_right_inj _).mpr ((List.prefix_cons_inj _).mpr hbegins)
      have hlonger := h.longest _ _ hreal hwhole
      have hshorter := hword.length_le
      refine hbroken.broken cs hcs
        (List.prefix_of_prefix_length_le hbegins (List.prefix_append rest after) ?_)
      rw [htext] at hshorter
      simp only [List.length_append, List.length_cons] at hlonger hshorter
      omega

end

/-! ## Pieces in a shorter text -/

/-- The characters of some pieces. -/
def spelt (pieces : List Piece) : List Char := pieces.flatMap fun piece => piece.text.toList

@[simp] theorem spelt_nil : spelt [] = [] := rfl

@[simp] theorem spelt_cons (piece : Piece) (pieces : List Piece) :
    spelt (piece :: pieces) = piece.text.toList ++ spelt pieces := rfl

@[simp] theorem spelt_append (first later : List Piece) :
    spelt (first ++ later) = spelt first ++ spelt later :=
  List.flatMap_append

@[simp] theorem Piece.text_tokenAt (start : Nat) (kind : Kind) (text : List Char) :
    (tokenAt start kind text).text = String.ofList text := rfl

@[simp] theorem Piece.text_fillerAt (start : Nat) (trivia : Trivia) (text : List Char) :
    (fillerAt start trivia text).text = String.ofList text := rfl

namespace Becomes

variable {start : Nat} {word rest left after : List Char} {raw : Raw} {pieces : List Piece}

/-- The pieces that are made of a match begin with it. -/
theorem spells (h : Becomes start word rest raw (.pieces pieces left)) :
    ∃ extra, spelt pieces = word ++ extra ∧ rest = extra ++ left := by
  cases h with
  | token | white | lineComment => exact ⟨[], by simp, rfl⟩
  | @pragma tail _ _ hrest => exact ⟨tail, by simp, hrest⟩
  | range hword => exact ⟨[], by simp [hword], rfl⟩
  | @comment inside _ hrest => exact ⟨inside ++ commentCloser word, by simp, by simp [hrest]⟩

/-- A match becomes the same if less stands behind it. -/
theorem of_append {whole whole' : List Char}
    (h : Becomes start word whole raw (.pieces pieces whole')) (hwhole : whole = rest ++ after)
    (hleft : whole' = left ++ after) : Becomes start word rest raw (.pieces pieces left) := by
  -- what a match leaves of the longer text, without `after`, is what it leaves of the shorter one
  have hsame : whole' = whole → left = rest := fun heq =>
    List.append_cancel_right (hleft.symm.trans (heq.trans hwhole))
  have hbehind : ∀ cs : List Char, whole = cs ++ whole' → rest = cs ++ left := by
    intro cs heq
    rw [hwhole, hleft, ← List.append_assoc] at heq
    exact List.append_cancel_right heq
  cases h with
  | token hpercent =>
      obtain rfl := hsame rfl
      refine .token fun hkind tail htail hbegins => hpercent hkind tail htail ?_
      rw [hwhole]
      exact hbegins.trans (List.prefix_append left after)
  | pragma htail hrest => exact .pragma htail (hbehind _ hrest)
  | range hword =>
      obtain rfl := hsame rfl
      exact .range hword
  | white =>
      obtain rfl := hsame rfl
      exact .white
  | lineComment =>
      obtain rfl := hsame rfl
      exact .lineComment
  | @comment inside _ hrest hfirst =>
      refine .comment (by rw [hbehind (inside ++ commentCloser word) (by simp [hrest])]; simp)
        fun inside' after' heq => hfirst inside' (after' ++ after) ?_
      rw [hwhole, heq]
      simp

/-- An integer becomes one token. -/
theorem intLit (h : Becomes start word rest (.word .intLit) (.pieces pieces left)) :
    pieces = [.tokenAt start .intLit word] := by
  cases h
  rfl

/-- Of the pieces that are made of one match, only a range has some but not all. -/
theorem part {first later : List Piece} (h : Becomes start word rest raw (.pieces pieces left))
    (hpieces : pieces = first ++ later) (hfirst : first ≠ []) (hlater : later ≠ []) :
    ∃ digits, raw = .range ∧ word = digits ++ ['.', '.'] ∧
    first = [.tokenAt start .intLit digits] := by
  obtain ⟨piece, first, rfl⟩ := List.exists_cons_of_ne_nil hfirst
  obtain ⟨next, later, rfl⟩ := List.exists_cons_of_ne_nil hlater
  cases h with
  | range hword =>
      refine ⟨_, rfl, hword, ?_⟩
      obtain ⟨rfl, htail⟩ := List.cons.inj hpieces
      cases first with
      | nil => rfl
      | cons other first => simp at htail
  | token | pragma | white | lineComment | comment => simp at hpieces

end Becomes

/-- The last of some spans ends where these do. -/
theorem Tiles.stop_eq {start stop : Nat} {spans : List Span} {last : Span}
    (h : Tiles start (spans ++ [last]) stop) : last.stop = stop := by
  induction spans generalizing start with
  | nil => exact h.2.2
  | cons span spans ih => exact ih h.2.2

namespace Lexed

/-- Digits are one piece. -/
theorem scan_digits (start : Nat) {digits : List Char} (h : WordPattern.digits.Matches digits) :
    scan 0 start digits = ⟨[.tokenAt start .intLit digits], none⟩ := by
  obtain ⟨hne, hall⟩ := WordPattern.matches_digits.mp h
  obtain ⟨c, rest, rfl⟩ := List.exists_cons_of_ne_nil hne
  rw [List.all_cons, Bool.and_eq_true] at hall
  have hmunch : munch c rest = .token .intLit rest.length := by
    have hnumber := @munchNumber_digits rest [] hall.2 fun d hd => by cases hd
    rw [List.append_nil] at hnumber
    simp [munch, isWhite_of_isDigit hall.1, isIdentStart_of_isDigit hall.1, hall.1, hnumber]
  rw [scan_cons, hmunch]
  simp [scan, Piece.tokenAt]

section

variable {start : Nat} {word rest after : List Char} {raw : Raw} {made others : List Piece}

/-- What a match becomes, and some pieces behind it, in a text that ends there. -/
theorem MaximalMunch.cut_of_append (hraw : RawAt (word ++ rest) raw word)
    (hbecomes : Becomes start word rest raw (.pieces made (spelt others ++ after)))
    (hdots : ∀ token, .token token ∈ made → token.kind = .intLit → '.' ∉ token.text.toList)
    (hothers : MaximalMunch (start + byteLength (spelt made)) (spelt others) ⟨others, none⟩) :
    MaximalMunch start (spelt (made ++ others)) ⟨made ++ others, none⟩ := by
  obtain ⟨extra, hmade, rfl⟩ := hbecomes.spells
  have hword : spelt (made ++ others) = word ++ (extra ++ spelt others) := by
    rw [spelt_append, hmade, List.append_assoc]
  have hshorter : RawAt (spelt (made ++ others)) raw word := by
    rw [← List.append_assoc, ← List.append_assoc, List.append_assoc word, ← hword] at hraw
    refine hraw.of_append ⟨_, hword.symm⟩ ?_
    rintro rfl
    have hint := hdots ⟨.intLit, String.ofList word, ⟨start, start + byteLength word, 0⟩⟩
      (by rw [hbecomes.intLit]; exact List.mem_cons_self) rfl
    rwa [String.toList_ofList] at hint
  exact .cut hshorter hword (hbecomes.of_append (List.append_assoc _ _ _).symm rfl) hothers

/-- Of a range, only the digits. -/
theorem MaximalMunch.digits_of_range {digits : List Char} {text : List Char}
    (hraw : RawAt text .range (digits ++ ['.', '.'])) :
    MaximalMunch start digits ⟨[.tokenAt start .intLit digits], none⟩ := by
  have hdigits : WordPattern.digits.Matches digits := by
    cases hraw with
    | longest h =>
        obtain ⟨first, dots, hfirst, rfl, heq⟩ := h.fits
        rwa [List.append_cancel_right heq]
  have hscan := maximalMunch_scan start digits
  rwa [scan_digits start hdigits] at hscan

end

/-- The first pieces of a text are all the pieces of what they spell. -/
theorem MaximalMunch.of_append {start : Nat} {whole after : List Char} {lexed : Lexed}
    {pieces later : List Piece} (h : MaximalMunch start whole lexed)
    (hwhole : whole = spelt pieces ++ after) (hpieces : lexed.pieces = pieces ++ later)
    (hdots : ∀ token, .token token ∈ pieces → token.kind = .intLit → '.' ∉ token.text.toList) :
    MaximalMunch start (spelt pieces) ⟨pieces, none⟩ := by
  induction h generalizing pieces with
  | done | stop =>
      obtain rfl := (List.append_eq_nil_iff.mp hpieces.symm).1
      exact .done
  | @unknown _ c rest _ hnone _ ih =>
      cases pieces with
      | nil => exact .done
      | cons piece pieces =>
          obtain ⟨rfl, hlater⟩ := List.cons.inj hpieces
          rw [spelt_cons, Piece.text_fillerAt, String.toList_ofList] at hwhole ⊢
          have hrest := ih (List.cons.inj hwhole).2 hlater fun token hmem =>
            hdots token (List.mem_cons_of_mem _ hmem)
          refine .unknown (fun raw word hmatches hbegins => hnone raw word hmatches ?_) hrest
          rw [hwhole]
          exact hbegins.trans (List.prefix_append _ after)
  | @cut start _ word rest tail raw made last hraw htext hbecomes _ ih =>
      by_cases hnil : pieces = []
      · subst hnil
        exact .done
      by_cases hpart : ∃ others, others ≠ [] ∧ made = pieces ++ others
      · -- the text ends inside what the match becomes, so this is a range without its dots
        obtain ⟨others, hothers, hmade⟩ := hpart
        obtain ⟨digits, rfl, rfl, rfl⟩ := hbecomes.part hmade hnil hothers
        simpa using digits_of_range hraw
      · obtain ⟨others, rfl, hlater⟩ : ∃ others, pieces = made ++ others ∧
            last.pieces = others ++ later := by
          rcases List.append_eq_append_iff.mp hpieces with hall | ⟨others, hmade, hlater⟩
          · exact hall
          · obtain rfl : others = [] :=
              Decidable.byContradiction fun hne => hpart ⟨others, hne, hmade⟩
            exact ⟨[], by rw [hmade, List.append_nil, List.append_nil], hlater.symm⟩
        obtain ⟨extra, hspelt, hextra⟩ := hbecomes.spells
        obtain rfl : tail = spelt others ++ after := by
          rw [htext, hextra, spelt_append, ← List.append_assoc, ← hspelt,
            List.append_assoc] at hwhole
          exact List.append_cancel_left hwhole
        refine .cut_of_append (htext ▸ hraw) hbecomes
          (fun token hmem => hdots token (List.mem_append_left _ hmem)) ?_
        exact ih rfl hlater fun token hmem => hdots token (List.mem_append_right _ hmem)

/-! ## Pieces in a longer text -/

/-- Behind its first pieces, a text is cut as if it began there. -/
theorem scan_behind {start : Nat} {text : List Char} {first later : List Piece}
    (h : (scan 0 start text).pieces = first ++ later) : ∃ rest, text = spelt first ++ rest ∧
      (scan 0 (start + byteLength (spelt first)) rest).pieces = later := by
  induction first generalizing start text with
  | nil => exact ⟨text, rfl, h⟩
  | cons piece first ih =>
      cases text with
      | nil => cases h
      | cons c rest =>
          rw [scan_cons] at h
          -- a token and what lies between tokens are cut off in the same way
          have hmore : ∀ more, piece.text = String.ofList (c :: rest.take more) →
              (scan 0 (start + byteLength (c :: rest.take more)) (rest.drop more)).pieces =
                first ++ later →
              ∃ left, c :: rest = spelt (piece :: first) ++ left ∧
                (scan 0 (start + byteLength (spelt (piece :: first))) left).pieces = later := by
            intro more htext hlater
            obtain ⟨left, hdrop, hpieces⟩ := ih hlater
            rw [spelt_cons, htext, String.toList_ofList, byteLength_append, ← Nat.add_assoc]
            refine ⟨left, ?_, hpieces⟩
            rw [List.append_assoc, ← hdrop, List.cons_append, List.take_append_drop]
          cases hmunch : munch c rest with
          | unterminated cause width =>
              rw [hmunch] at h
              cases h
          | token kind more | filler trivia more =>
              rw [hmunch] at h
              obtain ⟨rfl, hlater⟩ := List.cons.inj h
              exact hmore more rfl hlater

/-- Some pieces of a text are all the pieces of what they spell. -/
theorem scan_between {start : Nat} {text : List Char} {first middle last : List Piece}
    (h : (scan 0 start text).pieces = first ++ (middle ++ last))
    (hdots : ∀ token, .token token ∈ middle → token.kind = .intLit → '.' ∉ token.text.toList) :
    ∃ after, text = spelt first ++ (spelt middle ++ after) ∧
      scan 0 (start + byteLength (spelt first)) (spelt middle) = ⟨middle, none⟩ := by
  obtain ⟨rest, rfl, hrest⟩ := scan_behind h
  obtain ⟨after, rfl, -⟩ := scan_behind hrest
  have hmunch := (maximalMunch_scan _ _).of_append rfl hrest hdots
  exact ⟨after, rfl, (hmunch.unique (maximalMunch_scan _ _)).symm⟩

/-! ## Tokens in a longer text -/

/-- A token is a piece between others. -/
theorem split_at_token {pieces : List Piece} {before after : List Token} {token : Token}
    {fault : Option Diagnostic} (h : tokens ⟨pieces, fault⟩ = before ++ token :: after) :
    ∃ first last, pieces = first ++ .token token :: last ∧ tokens ⟨first, fault⟩ = before ∧
      tokens ⟨last, fault⟩ = after := by
  induction pieces generalizing before with
  | nil => cases before <;> cases h
  | cons piece pieces ih =>
      cases piece with
      | filler filler =>
          rw [tokens_filler filler ⟨pieces, fault⟩] at h
          obtain ⟨first, last, rfl, hfirst, hlast⟩ := ih h
          exact ⟨.filler filler :: first, last, rfl, hfirst, hlast⟩
      | token one =>
          rw [tokens_token one ⟨pieces, fault⟩] at h
          cases before with
          | nil =>
              obtain ⟨rfl, hlater⟩ := List.cons.inj h
              exact ⟨[], pieces, rfl, rfl, hlater⟩
          | cons other before =>
              obtain ⟨rfl, hlater⟩ := List.cons.inj h
              obtain ⟨first, last, rfl, hfirst, hlast⟩ := ih hlater
              exact ⟨.token one :: first, last, rfl, congrArg (List.cons one) hfirst, hlast⟩

/-- The pieces of a text begin and end where it does. -/
theorem ends_of_scan {start : Nat} {text : List Char} {pieces : List Piece} {first last : Piece}
    (h : scan 0 start text = ⟨pieces, none⟩) (hfirst : pieces.head? = some first)
    (hlast : pieces.getLast? = some last) :
    first.span.start = start ∧ last.span.stop = start + byteLength text := by
  obtain ⟨left, hcuts, hall, -⟩ := scan_cuts start text
  rw [h] at hcuts hall
  have htiles := hcuts.tiles
  have hspells := hcuts.spells
  rw [hall rfl, List.append_nil] at hspells
  rw [← hspells] at htiles
  constructor
  · obtain ⟨later, rfl⟩ := List.head?_eq_some_iff.mp hfirst
    exact htiles.1
  · obtain ⟨earlier, rfl⟩ := List.getLast?_eq_some_iff.mp hlast
    rw [List.map_append] at htiles
    exact htiles.stop_eq

/-- Some tokens are those of the pieces from the first of them to the last one. -/
theorem exists_between {pieces : List Piece} {before taken after : List Token} {first last : Token}
    {fault : Option Diagnostic} (h : tokens ⟨pieces, fault⟩ = before ++ (taken ++ after))
    (hfirst : taken.head? = some first) (hlast : taken.getLast? = some last) :
    ∃ front middle back, pieces = front ++ (middle ++ back) ∧ tokens ⟨middle, none⟩ = taken ∧
      middle.head? = some (.token first) ∧ middle.getLast? = some (.token last) := by
  obtain ⟨behind, rfl⟩ := List.head?_eq_some_iff.mp hfirst
  obtain ⟨front, rest, rfl, -, hrest⟩ := split_at_token h
  obtain ⟨inner, hinner⟩ := List.getLast?_eq_some_iff.mp hlast
  cases inner with
  | nil =>
      obtain ⟨rfl, rfl⟩ := List.cons.inj hinner
      exact ⟨front, [.token first], rest, rfl, rfl, rfl, rfl⟩
  | cons one inner =>
      obtain ⟨rfl, rfl⟩ := List.cons.inj hinner
      obtain ⟨inside, back, rfl, hinside, -⟩ :=
        split_at_token (hrest.trans (List.append_assoc inner [last] after))
      refine ⟨front, .token first :: (inside ++ [.token last]), back, by simp, ?_, rfl, ?_⟩
      · rw [← hinside]
        simp [tokens]
      · rw [← List.cons_append, List.getLast?_concat]

open Movable

/-- A text from one token to another has the tokens between them, in another place, and nothing is
wrong with it if nothing is wrong with the whole. -/
theorem tokens_slice {text : String} {before taken after : List Token} {first last : Token}
    (h : (ofText text).tokens = before ++ (taken ++ after)) (hfirst : taken.head? = some first)
    (hlast : taken.getLast? = some last) (hclean : (ofText text).diagnostics = [])
    (hdots : ∀ token ∈ taken, token.kind = .intLit → '.' ∉ token.text.toList) :
    let inside := ofText ((⟨first.span.start, last.span.stop, 0⟩ : Span).slice text)
    taken = move (· + first.span.start) inside.tokens ∧ inside.diagnostics = [] ∧
      inside.truncated = false := by
  obtain ⟨front, middle, back, hpieces, htokens, hhead, hend⟩ := exists_between h hfirst hlast
  have hpart : ∀ token, .token token ∈ middle → token ∈ taken := by
    intro token hmem
    rw [← htokens]
    exact List.mem_filterMap.mpr ⟨_, hmem, rfl⟩
  obtain ⟨rest, htext, hscan⟩ :=
    scan_between hpieces fun token hmem => hdots token (hpart token hmem)
  rw [Nat.zero_add] at hscan
  obtain ⟨hstart, hstop⟩ := ends_of_scan hscan hhead hend
  change first.span.start = _ at hstart
  change last.span.stop = _ at hstop
  have hslice : (⟨first.span.start, last.span.stop, 0⟩ : Span).slice text =
      String.ofList (spelt middle) := by
    rw [hstart, hstop, ← slice_middle (spelt front) (spelt middle) rest 0, ← htext,
      String.ofList_toList]
  -- the slice is cut from its own beginning, and the middle from where it stands in the text
  obtain ⟨hmoved, hsame, hfault⟩ := scan_shift first.span.start 0 0 (spelt middle)
  rw [Nat.zero_add, hstart, hscan] at hmoved hsame hfault
  have hwrong : diagnostics ⟨middle, none⟩ = [] := by
    have hunknown := (List.append_eq_nil_iff.mp hclean).1
    rw [show (ofText text).pieces = front ++ (middle ++ back) from hpieces, List.filterMap_append,
      List.filterMap_append, List.append_eq_nil_iff, List.append_eq_nil_iff] at hunknown
    exact List.append_eq_nil_iff.mpr ⟨hunknown.2.1, rfl⟩
  rw [hslice, ofText, String.toList_ofList, hstart]
  refine ⟨htokens.symm.trans hmoved, ?_, ?_⟩
  · rw [hwrong] at hsame
    exact List.map_eq_nil_iff.mp hsame.symm
  · exact Option.isSome_eq_false_iff.mpr
      (Option.isNone_iff_eq_none.mpr (Option.map_eq_none_iff.mp hfault.symm))

end Lexed

end Lustre
