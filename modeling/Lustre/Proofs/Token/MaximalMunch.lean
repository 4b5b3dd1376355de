import Lustre.Proofs.Token.Longest

/-!
# Maximal munch

Cutting a text into pieces is maximal munch and a little more.  At each place the
longest match of any pattern is taken (`RawAt`), and `Becomes` says what is made of
it: most matches are pieces as they stand, the opener of a comment is extended to the
first closer, a `%` to the pragma that it opens, and a range is split into an integer
and its two dots.  Only a string without an end or a comment without a closer ends the
pieces early.

`MaximalMunch` puts the steps together.  Its steps leave no choice
(`MaximalMunch.unique`) and the pieces of every text obey them
(`maximalMunch_scan`), so it describes exactly what `Lexed.ofText` does.
-/

namespace Lustre

/-! ## Pragmas -/

/-- What matches the pattern is found to be the rest of a pragma. -/
theorem afterPragma_append {tail : List Char} (h : WordPattern.pragmaTail.Matches tail)
    (after : List Char) : afterPragma (tail ++ after) = some after := by
  obtain ⟨blanks, _, hblanks,
    ⟨key, _, hkey, ⟨blanks₁, _, hblanks₁, ⟨_, _, rfl, ⟨blanks₂, _, hblanks₂,
    ⟨value, _, hvalue, ⟨blanks₃, _, hblanks₃, rfl, rfl⟩, rfl⟩, rfl⟩, rfl⟩, rfl⟩, rfl⟩, rfl⟩ := h
  -- a name ends at a blank or at a sign
  have hident : ∀ {name blanks : List Char} {stop : Char} {later : List Char},
      WordPattern.identifier.Matches name → blanks.all isBlank = true →
      isIdentRest stop = false →
      afterIdent (name ++ (blanks ++ stop :: later)) = some (blanks ++ stop :: later) := by
    intro name blanks stop later hname hblanks hstop
    obtain ⟨c, rest, rfl, hc, hrest⟩ := WordPattern.matches_identifier.mp hname
    rw [List.cons_append, afterIdent, if_pos hc, dropWhile_append_of_all hrest]
    intro d hd
    cases blanks with
    | nil =>
        cases hd
        exact hstop
    | cons b blanks =>
        cases hd
        rw [List.all_cons, Bool.and_eq_true] at hblanks
        cases hrest : isIdentRest d with
        | false => rfl
        | true =>
            exact absurd (isWhite_of_isBlank hblanks.1) (by simp [isWhite_of_isIdentRest hrest])
  have hstart : ∀ {name later : List Char}, WordPattern.identifier.Matches name →
      StopsAt isBlank (name ++ later) := by
    intro name later hname
    obtain ⟨c, rest, rfl, hc, -⟩ := WordPattern.matches_identifier.mp hname
    intro d hd
    cases hd
    cases hblank : isBlank c with
    | false => rfl
    | true => exact absurd (isWhite_of_isBlank hblank) (by simp [isWhite_of_isIdentStart hc])
  -- no blank is passed where a sign comes next
  have hpunctuation : ∀ (stop : Char) (later : List Char), isBlank stop = false →
      StopsAt isBlank (stop :: later) := by
    intro stop later hstop d hd
    cases hd
    exact hstop
  simp only [List.append_assoc, List.cons_append, List.nil_append, afterPragma]
  rw [dropWhile_append_of_all hblanks (hstart hkey), hident hkey hblanks₁ (by decide)]
  simp only [Option.bind_eq_bind, Option.bind_some]
  rw [dropWhile_append_of_all hblanks₁ (hpunctuation ':' _ (by decide))]
  simp only
  rw [dropWhile_append_of_all hblanks₂ (hstart hvalue), hident hvalue hblanks₃ (by decide)]
  simp only [Option.bind_some]
  rw [dropWhile_append_of_all hblanks₃ (hpunctuation '%' _ (by decide))]
  rfl

/-- What is left of a text behind an identifier. -/
private theorem identifier_of_afterIdent
    {text after : List Char} (h : afterIdent text = some after) :
    ∃ name, WordPattern.identifier.Matches name ∧ text = name ++ after := by
  unfold afterIdent at h
  split at h
  · split at h
    · rename_i c rest hc
      cases h
      refine ⟨c :: rest.takeWhile isIdentRest, WordPattern.matches_identifier.mpr
        ⟨c, _, rfl, hc, List.all_takeWhile⟩, ?_⟩
      rw [List.cons_append, List.takeWhile_append_dropWhile]
    · cases h
  · cases h

/-- A text goes on as a pragma in one way only. -/
theorem pragmaTail_unique
    {tail tail' after after' : List Char} (h : WordPattern.pragmaTail.Matches tail)
    (h' : WordPattern.pragmaTail.Matches tail') (heq : tail ++ after = tail' ++ after') :
    tail = tail' ∧ after = after' := by
  -- what is left behind a pragma decides how long it was
  have hafter := afterPragma_append h after
  rw [heq, afterPragma_append h'] at hafter
  obtain rfl := Option.some.inj hafter
  exact ⟨List.append_cancel_right heq, rfl⟩

/-- What is found to be the rest of a pragma matches the pattern. -/
theorem pragmaTail_of_afterPragma {text after : List Char} (h : afterPragma text = some after) :
    ∃ tail, WordPattern.pragmaTail.Matches tail ∧ text = tail ++ after := by
  have hblanks : ∀ text : List Char, (text.takeWhile isBlank).all isBlank = true ∧
      text = text.takeWhile isBlank ++ text.dropWhile isBlank :=
    fun text => ⟨List.all_takeWhile, List.takeWhile_append_dropWhile.symm⟩
  simp only [afterPragma, Option.bind_eq_bind, Option.bind_eq_some_iff] at h
  obtain ⟨afterKey, hkey, h⟩ := h
  obtain ⟨key, hkeyMatch, hkeyText⟩ := identifier_of_afterIdent hkey
  split at h
  · rename_i rest hcolon
    simp only [Option.bind_eq_some_iff] at h
    obtain ⟨afterValue, hvalue, h⟩ := h
    obtain ⟨value, hvalueMatch, hvalueText⟩ := identifier_of_afterIdent hvalue
    split at h
    · rename_i last hpercent
      cases h
      refine ⟨text.takeWhile isBlank ++ (key ++ (afterKey.takeWhile isBlank ++ ([':'] ++
        (rest.takeWhile isBlank ++ (value ++ (afterValue.takeWhile isBlank ++ ['%'])))))), ?_, ?_⟩
      · exact ⟨_, _, (hblanks _).1, ⟨_, _, hkeyMatch, ⟨_, _, (hblanks _).1, ⟨_, _, rfl,
          ⟨_, _, (hblanks _).1, ⟨_, _, hvalueMatch, ⟨_, _, (hblanks _).1, rfl, rfl⟩, rfl⟩, rfl⟩,
          rfl⟩, rfl⟩, rfl⟩, rfl⟩
      · conv => lhs; rw [(hblanks text).2, hkeyText, (hblanks afterKey).2, hcolon, (hblanks rest).2,
          hvalueText, (hblanks afterValue).2, hpercent]
        simp
    · cases h
  · cases h

/-! ## Closers of comments -/

/-- What is found is the first closer. -/
theorem lengthThrough_eq_some {first second : Char} {text : List Char} {length : Nat}
    (h : lengthThrough first second text = some length) :
    ∃ inside after, text = inside ++ first :: second :: after ∧ length = inside.length + 2 ∧
      ∀ inside' after', text = inside' ++ first :: second :: after' →
        inside.length ≤ inside'.length := by
  induction text generalizing length with
  | nil => cases h
  | cons c rest ih =>
      rw [lengthThrough] at h
      split at h
      · rename_i hhere
        simp only [Bool.and_eq_true, beq_iff_eq] at hhere
        obtain ⟨rfl, hsecond⟩ := hhere
        obtain ⟨after, rfl⟩ : ∃ after, rest = second :: after := by
          cases rest with
          | nil => cases hsecond
          | cons d after =>
              cases hsecond
              exact ⟨after, rfl⟩
        cases h
        exact ⟨[], after, rfl, rfl, fun _ _ _ => Nat.zero_le _⟩
      · rename_i hnot
        obtain ⟨shorter, hshorter, rfl⟩ := Option.map_eq_some_iff.mp h
        obtain ⟨inside, after, rfl, rfl, hfirst⟩ := ih hshorter
        refine ⟨c :: inside, after, rfl, by simp, fun inside' after' htext => ?_⟩
        -- no closer begins here, so the other split has this character inside, too
        cases inside' with
        | nil =>
            rw [List.nil_append, List.cons.injEq] at htext
            exact absurd (by simp [htext.1, htext.2]) hnot
        | cons d inside' =>
            rw [List.cons_append, List.cons.injEq] at htext
            have hle := hfirst inside' after' htext.2
            simp only [List.length_cons]
            omega

/-- Where nothing is found there is no closer. -/
theorem lengthThrough_eq_none {first second : Char} {text : List Char}
    (h : lengthThrough first second text = none) (inside after : List Char) :
    text ≠ inside ++ first :: second :: after := by
  induction text generalizing inside with
  | nil => simp
  | cons c rest ih =>
      rw [lengthThrough] at h
      split at h
      · cases h
      · rename_i hnot
        intro htext
        cases inside with
        | nil =>
            rw [List.nil_append, List.cons.injEq] at htext
            exact hnot (by simp [htext.1, htext.2])
        | cons d inside =>
            rw [List.cons_append, List.cons.injEq] at htext
            exact ih (Option.map_eq_none_iff.mp h) inside htext.2

/-! ## What is made of a match -/

/-- A token of some characters from byte `start` on. -/
def Piece.tokenAt (start : Nat) (kind : Kind) (text : List Char) : Piece :=
  .token ⟨kind, String.ofList text, ⟨start, start + byteLength text, 0⟩⟩

/-- A filler of some characters from byte `start` on. -/
def Piece.fillerAt (start : Nat) (trivia : Trivia) (text : List Char) : Piece :=
  .filler ⟨trivia, String.ofList text, ⟨start, start + byteLength text, 0⟩⟩

/-- What closes a comment that `opener` opens. -/
def commentCloser (opener : List Char) : List Char :=
  if opener = ['(', '*'] then ['*', ')'] else ['*', '/']

/-- What is made of a match: some pieces, and the text behind them, or the end of all pieces. -/
inductive Fate where
  | pieces (pieces : List Piece) (after : List Char)
  | stop (fault : Diagnostic)

/-- What is made of `word`, which begins at byte `start` and is followed by `rest`. -/
inductive Becomes (start : Nat) (word rest : List Char) : Raw → Fate → Prop
  | token {kind : Kind}
      (h : kind = .percent → ∀ tail, WordPattern.pragmaTail.Matches tail → ¬tail <+: rest) :
      Becomes start word rest (.word kind) (.pieces [.tokenAt start kind word] rest)
  | pragma {tail after : List Char} (htail : WordPattern.pragmaTail.Matches tail)
      (hrest : rest = tail ++ after) :
      Becomes start word rest (.word .percent)
        (.pieces [.tokenAt start .pragma (word ++ tail)] after)
  | range {digits : List Char} (hword : word = digits ++ ['.', '.']) :
      Becomes start word rest .range
        (.pieces [.tokenAt start .intLit digits,
          .tokenAt (start + byteLength digits) .dotDot ['.', '.']] rest)
  | white : Becomes start word rest .white (.pieces [.fillerAt start .whitespace word] rest)
  | lineComment :
      Becomes start word rest .lineComment (.pieces [.fillerAt start .lineComment word] rest)
  | comment {inside after : List Char} (hrest : rest = inside ++ (commentCloser word ++ after))
      (hfirst : ∀ inside' after', rest = inside' ++ (commentCloser word ++ after') →
        inside.length ≤ inside'.length) :
      Becomes start word rest .commentOpener
        (.pieces [.fillerAt start .blockComment (word ++ (inside ++ commentCloser word))] after)
  | openComment (h : ∀ inside after, rest ≠ inside ++ (commentCloser word ++ after)) :
      Becomes start word rest .commentOpener
        (.stop ⟨.unterminatedComment, ⟨start, start + 2, 0⟩⟩)
  | openString :
      Becomes start word rest .openString (.stop ⟨.unterminatedString, ⟨start, start + 1, 0⟩⟩)

/-- A match can become only one thing. -/
theorem Becomes.unique {start : Nat} {word rest : List Char} {raw : Raw} {fate fate' : Fate}
    (h : Becomes start word rest raw fate) (h' : Becomes start word rest raw fate') :
    fate = fate' := by
  cases h with
  | token hpercent =>
      cases h' with
      | token => rfl
      | pragma htail hrest => exact absurd (hrest ▸ List.prefix_append _ _) (hpercent rfl _ htail)
  | pragma htail hrest =>
      cases h' with
      | token hpercent => exact absurd (hrest ▸ List.prefix_append _ _) (hpercent rfl _ htail)
      | pragma htail' hrest' =>
          obtain ⟨rfl, rfl⟩ := pragmaTail_unique htail htail' (hrest.symm.trans hrest')
          rfl
  | range hword =>
      cases h' with
      | range hword' =>
          obtain rfl := List.append_cancel_right (hword.symm.trans hword')
          rfl
  | white => cases h'; rfl
  | lineComment => cases h'; rfl
  | comment hrest hfirst =>
      cases h' with
      | comment hrest' hfirst' =>
          -- both comments end at the first closer
          have hlength := Nat.le_antisymm (hfirst _ _ hrest') (hfirst' _ _ hrest)
          obtain ⟨rfl, hafter⟩ := List.append_inj (hrest.symm.trans hrest') hlength
          obtain rfl := List.append_cancel_left hafter
          rfl
      | openComment hnone => exact absurd hrest (hnone _ _)
  | openComment hnone =>
      cases h' with
      | comment hrest' => exact absurd hrest' (hnone _ _)
      | openComment => rfl
  | openString => cases h'; rfl

namespace Lexed

/-- Some pieces in front of those of a later text. -/
def after (pieces : List Piece) (later : Lexed) : Lexed := ⟨pieces ++ later.pieces, later.fault⟩

/-- The pieces of a text that begins at byte `start`, by maximal munch. -/
inductive MaximalMunch : Nat → List Char → Lexed → Prop
  | done {start : Nat} : MaximalMunch start [] ⟨[], none⟩
  | unknown {start : Nat} {c : Char} {rest : List Char} {later : Lexed}
      (hnone : ∀ (raw : Raw) (word : List Char), raw.pattern.Matches word → ¬word <+: c :: rest)
      (hlater : MaximalMunch (start + byteLength [c]) rest later) :
      MaximalMunch start (c :: rest) (later.after [.fillerAt start .unknown [c]])
  | cut {start : Nat} {text word rest tail : List Char} {raw : Raw} {pieces : List Piece}
      {later : Lexed} (hraw : RawAt text raw word) (htext : text = word ++ rest)
      (hbecomes : Becomes start word rest raw (.pieces pieces tail))
      (hlater : MaximalMunch (start + byteLength (pieces.flatMap fun piece => piece.text.toList))
        tail later) :
      MaximalMunch start text (later.after pieces)
  | stop {start : Nat} {text word rest : List Char} {raw : Raw} {fault : Diagnostic}
      (hraw : RawAt text raw word) (htext : text = word ++ rest)
      (hbecomes : Becomes start word rest raw (.stop fault)) :
      MaximalMunch start text ⟨[], some fault⟩

end Lexed

/-- Something is matched only in a text that is not empty and that something matches. -/
theorem RawAt.matches_prefix {text word : List Char} {raw : Raw} (h : RawAt text raw word) :
    ∃ (other : Raw) (cs : List Char), other.pattern.Matches cs ∧ cs <+: text := by
  cases h with
  | longest h => exact ⟨raw, word, h.fits, h.begins⟩
  | brokenExponent htext hbroken =>
      exact ⟨.word .intLit, _, hbroken.digits, htext ▸ List.prefix_append _ _⟩

theorem RawAt.ne_nil {text word : List Char} {raw : Raw} (h : RawAt text raw word) : text ≠ [] := by
  rintro rfl
  obtain ⟨other, cs, hcs, hbegins⟩ := h.matches_prefix
  rw [List.prefix_nil.mp hbegins] at hcs
  exact other.not_matches_nil hcs

namespace Lexed

/-- Maximal munch leaves no choice. -/
theorem MaximalMunch.unique {start : Nat} {text : List Char} {lexed lexed' : Lexed}
    (h : MaximalMunch start text lexed) (h' : MaximalMunch start text lexed') : lexed = lexed' := by
  induction h generalizing lexed' with
  | done =>
      cases h' with
      | done => rfl
      | cut hraw => exact absurd rfl hraw.ne_nil
      | stop hraw => exact absurd rfl hraw.ne_nil
  -- where nothing matches, nothing can be cut
  | unknown hnone _ ih =>
      cases h' with
      | unknown _ hlater => rw [ih hlater]
      | cut hraw | stop hraw =>
          obtain ⟨other, cs, hcs, hbegins⟩ := hraw.matches_prefix
          exact absurd hbegins (hnone other cs hcs)
  -- the longest match is unique, and so is what becomes of it
  | cut hraw htext hbecomes _ ih =>
      cases h' with
      | done => exact absurd rfl hraw.ne_nil
      | unknown hnone =>
          obtain ⟨other, cs, hcs, hbegins⟩ := hraw.matches_prefix
          exact absurd hbegins (hnone other cs hcs)
      | cut hraw' htext' hbecomes' hlater' =>
          obtain ⟨rfl, rfl⟩ := hraw.unique hraw'
          obtain rfl := List.append_cancel_left (htext.symm.trans htext')
          obtain ⟨rfl, rfl⟩ := Fate.pieces.inj (hbecomes.unique hbecomes')
          rw [ih hlater']
      | stop hraw' htext' hbecomes' =>
          obtain ⟨rfl, rfl⟩ := hraw.unique hraw'
          obtain rfl := List.append_cancel_left (htext.symm.trans htext')
          cases hbecomes.unique hbecomes'
  | stop hraw htext hbecomes =>
      cases h' with
      | done => exact absurd rfl hraw.ne_nil
      | unknown hnone =>
          obtain ⟨other, cs, hcs, hbegins⟩ := hraw.matches_prefix
          exact absurd hbegins (hnone other cs hcs)
      | cut hraw' htext' hbecomes' =>
          obtain ⟨rfl, rfl⟩ := hraw.unique hraw'
          obtain rfl := List.append_cancel_left (htext.symm.trans htext')
          cases hbecomes.unique hbecomes'
      | stop hraw' htext' hbecomes' =>
          obtain ⟨rfl, rfl⟩ := hraw.unique hraw'
          obtain rfl := List.append_cancel_left (htext.symm.trans htext')
          cases hbecomes.unique hbecomes'
          rfl

/-! ## The pieces of a text -/

section

variable {start : Nat} {c : Char} {rest word tail : List Char} {raw : Raw}

/-- A token that is made of the match at its place. -/
theorem maximalMunch_token {kind : Kind} {more : Nat} (hmunch : munch c rest = .token kind more)
    (hraw : RawAt (c :: rest) raw word) (htext : c :: rest = word ++ tail)
    (hbecomes : Becomes start word tail raw
      (.pieces [.tokenAt start kind (c :: rest.take more)] (rest.drop more)))
    (hlater : ∀ start, MaximalMunch start (rest.drop more) (scan 0 start (rest.drop more))) :
    MaximalMunch start (c :: rest) (scan 0 start (c :: rest)) := by
  have hcut := MaximalMunch.cut hraw htext hbecomes (hlater _)
  rw [scan_cons, hmunch]
  simpa [after, Piece.tokenAt, Piece.text] using hcut

/-- A filler that is made of the match at its place. -/
theorem maximalMunch_filler {trivia : Trivia} {more : Nat}
    (hmunch : munch c rest = .filler trivia more) (hraw : RawAt (c :: rest) raw word)
    (htext : c :: rest = word ++ tail)
    (hbecomes : Becomes start word tail raw
      (.pieces [.fillerAt start trivia (c :: rest.take more)] (rest.drop more)))
    (hlater : ∀ start, MaximalMunch start (rest.drop more) (scan 0 start (rest.drop more))) :
    MaximalMunch start (c :: rest) (scan 0 start (c :: rest)) := by
  have hcut := MaximalMunch.cut hraw htext hbecomes (hlater _)
  rw [scan_cons, hmunch]
  simpa [after, Piece.fillerAt, Piece.text] using hcut

/-- What ends the pieces, made of the match at its place. -/
theorem maximalMunch_stop {cause : Cause} {width : Nat}
    (hmunch : munch c rest = .unterminated cause width) (hraw : RawAt (c :: rest) raw word)
    (htext : c :: rest = word ++ tail)
    (hbecomes : Becomes start word tail raw (.stop ⟨cause, ⟨start, start + width, 0⟩⟩)) :
    MaximalMunch start (c :: rest) (scan 0 start (c :: rest)) := by
  rw [scan_cons, hmunch]
  exact .stop hraw htext hbecomes

/-- Digits before two dots are an integer, and the dots a token of their own. -/
theorem scan_range {digits later : List Char} (h : WordPattern.digits.Matches digits) :
    scan 0 start (digits ++ '.' :: '.' :: later) =
      (scan 0 (start + byteLength digits + 2) later).after
        [.tokenAt start .intLit digits,
          .tokenAt (start + byteLength digits) .dotDot ['.', '.']] := by
  obtain ⟨hne, hall⟩ := WordPattern.matches_digits.mp h
  obtain ⟨c, more, rfl⟩ := List.exists_cons_of_ne_nil hne
  rw [List.all_cons, Bool.and_eq_true] at hall
  have hstop : StopsAt Char.isDigit ('.' :: '.' :: later) := by
    intro d hd
    cases hd
    rfl
  have hspan : spanLength Char.isDigit (more ++ '.' :: '.' :: later) = more.length := by
    rw [spanLength_append hstop, spanLength_of_all hall.2]
  have hmunch : munch c (more ++ '.' :: '.' :: later) = .token .intLit more.length := by
    simp [munch, isWhite_of_isDigit hall.1, isIdentStart_of_isDigit hall.1,
      hall.1, munchNumber, hspan]
  have hdots : munch '.' ('.' :: later) = .token .dotDot 1 := munch_pair later rfl
  have hbytes : byteLength ['.', '.'] = 2 := by decide
  rw [List.cons_append, scan_cons, hmunch]
  simp only [List.take_left, List.drop_left, scan_cons, hdots]
  simp [after, Piece.tokenAt, hbytes]

/-- A range that is the match at its place. -/
theorem maximalMunch_range {digits later : List Char} (h : WordPattern.digits.Matches digits)
    (hraw : RawAt (digits ++ '.' :: '.' :: later) .range (digits ++ ['.', '.']))
    (hlater : ∀ start, MaximalMunch start later (scan 0 start later)) :
    MaximalMunch start (digits ++ '.' :: '.' :: later)
      (scan 0 start (digits ++ '.' :: '.' :: later)) := by
  rw [scan_range h]
  have htext : digits ++ '.' :: '.' :: later = (digits ++ ['.', '.']) ++ later := by simp
  refine .cut hraw htext (.range rfl) ?_
  have hbytes : byteLength ['.', '.'] = 2 := by decide
  simpa [Piece.tokenAt, Piece.text, hbytes, Nat.add_assoc] using hlater
    (start + byteLength digits + 2)

/-- A pragma, of which the match at its place is only the `%`. -/
theorem maximalMunch_pragma {tail later : List Char} (htail : WordPattern.pragmaTail.Matches tail)
    (hmunch : munch '%' (tail ++ later) = .token .pragma tail.length)
    (hlater : ∀ start, MaximalMunch start later (scan 0 start later)) :
    MaximalMunch start ('%' :: (tail ++ later)) (scan 0 start ('%' :: (tail ++ later))) := by
  have hraw : RawAt ('%' :: (tail ++ later)) (.word .percent) ['%'] := by
    refine rawAt_char rfl fun d _ => ?_
    simp [clings, symbolOfPair?]
  refine maximalMunch_token hmunch hraw rfl ?_ ?_
  · rw [List.take_left, List.drop_left]
    exact .pragma htail rfl
  · rw [List.drop_left]
    exact hlater

/-- Symbols, and characters that begin nothing. -/
theorem maximalMunch_symbol (hmunch : munch c rest = munchSymbol c rest)
    (hplain : isWhite c = false ∧ isIdentStart c = false ∧ c.isDigit = false ∧ c ≠ '"')
    (hopens : ∀ d later, rest = d :: later → (c == '-' && d == '-') = false ∧
      (c == '(' && d == '*') = false ∧ (c == '/' && d == '*') = false ∧
      (c == '.' && d.isDigit) = false)
    (hpragma : c = '%' → afterPragma rest = none)
    (hlater : ∀ more start, MaximalMunch start (rest.drop more) (scan 0 start (rest.drop more))) :
    MaximalMunch start (c :: rest) (scan 0 start (c :: rest)) := by
  unfold munchSymbol at hmunch
  cases hpair : rest.head?.bind (symbolOfPair? c) with
  | some kind =>
      obtain ⟨d, later, rfl, hkind⟩ : ∃ d later, rest = d :: later ∧
          symbolOfPair? c d = some kind := by
        cases rest with
        | nil => cases hpair
        | cons d later => exact ⟨d, later, rfl, hpair⟩
      have hpercent : kind ≠ .percent := by
        rintro rfl
        unfold symbolOfPair? at hkind
        split at hkind <;> cases hkind
      rw [hpair] at hmunch
      exact maximalMunch_token hmunch (rawAt_pair hkind) rfl (.token fun h => absurd h hpercent)
        (hlater 1)
  | none =>
      rw [hpair] at hmunch
      cases hchar : symbolOfChar? c with
      | some kind =>
          -- no longer match begins here, since the next character does not cling to the first
          have hstop : StopsAt (clings c) rest := by
            intro d hd
            obtain ⟨later, rfl⟩ : ∃ later, rest = d :: later := by
              cases rest with
              | nil => cases hd
              | cons e later =>
                  cases hd
                  exact ⟨later, rfl⟩
            obtain ⟨hminus, hparen, hslash, hdot⟩ := hopens d later rfl
            have hnone : symbolOfPair? c d = none := hpair
            simp only [clings, hnone, hminus, hparen, hslash, hdot,
              Option.isSome_none, Bool.or_false]
          have hpercent : kind = .percent → ∀ tail, WordPattern.pragmaTail.Matches tail →
              ¬tail <+: rest := by
            rintro rfl tail htail ⟨later, rfl⟩
            have hc : c = '%' := by
              unfold symbolOfChar? at hchar
              split at hchar <;> first | rfl | cases hchar
            have hafter := hpragma hc
            rw [afterPragma_append htail] at hafter
            cases hafter
          rw [hchar] at hmunch
          exact maximalMunch_token hmunch (rawAt_char hchar hstop) rfl (.token hpercent) (hlater 0)
      | none =>
          -- no pattern begins with this character
          have hclass : firstClass c = .nothing := by
            simp [firstClass, hplain, hchar]
          have hunknown := MaximalMunch.unknown (nothing_matches hclass)
            (hlater 0 (start + byteLength [c]))
          rw [hchar] at hmunch
          rw [scan_cons, hmunch]
          simpa [after, Piece.fillerAt] using hunknown

/-- A comment, up to its closer or without one. -/
theorem maximalMunch_comment {second : Char} (hc : c = '(' ∨ c = '/')
    (hcloser : commentCloser [c, '*'] = ['*', second])
    (hmunch : munch c ('*' :: rest) = munchComment '*' second ('*' :: rest))
    (hlater : ∀ more start,
      MaximalMunch start (('*' :: rest).drop more) (scan 0 start (('*' :: rest).drop more))) :
    MaximalMunch start (c :: '*' :: rest) (scan 0 start (c :: '*' :: rest)) := by
  have hraw : RawAt (c :: '*' :: rest) .commentOpener [c, '*'] := rawAt_comment hc
  unfold munchComment at hmunch
  rw [List.drop_succ_cons, List.drop_zero] at hmunch
  cases hfound : lengthThrough '*' second rest with
  | some length =>
      rw [hfound] at hmunch
      obtain ⟨inside, tail, rfl, rfl, hfirst⟩ := lengthThrough_eq_some hfound
      refine maximalMunch_filler hmunch hraw rfl ?_ (hlater _)
      -- the comment goes through its first closer
      have htake : ('*' :: (inside ++ '*' :: second :: tail)).take (1 + (inside.length + 2)) =
          '*' :: (inside ++ ['*', second]) := by
        rw [Nat.add_comm 1, List.take_succ_cons, List.take_length_add_append]
        rfl
      have hdrop : ('*' :: (inside ++ '*' :: second :: tail)).drop (1 + (inside.length + 2)) =
          tail := by
        rw [Nat.add_comm 1, List.drop_succ_cons, List.drop_length_add_append]
        rfl
      rw [htake, hdrop, ← hcloser]
      refine .comment ?_ fun inside' tail' htext => hfirst inside' tail' (htext.trans ?_)
      · rw [hcloser]
        rfl
      · rw [hcloser]
        rfl
  | none =>
      rw [hfound] at hmunch
      refine maximalMunch_stop hmunch hraw rfl (.openComment fun inside tail htext => ?_)
      refine lengthThrough_eq_none hfound inside tail (htext.trans ?_)
      rw [hcloser]
      rfl

end

/-- The pieces of a text are those of maximal munch. -/
theorem maximalMunch_scan (start : Nat) (text : List Char) :
    MaximalMunch start text (scan 0 start text) := by
  induction hlength : text.length using Nat.strongRecOn generalizing start text with
  | ind length ih =>
      cases text with
      | nil => exact .done
      | cons c rest =>
          -- what is behind the first piece is shorter
          have hlater : ∀ more start,
              MaximalMunch start (rest.drop more) (scan 0 start (rest.drop more)) :=
              fun more start =>
            ih (rest.drop more).length
              (by simp only [List.length_cons, List.length_drop] at hlength ⊢; omega) start _ rfl
          have hsplit : ∀ more, c :: rest = (c :: rest.take more) ++ rest.drop more := by simp
          -- one case for each class of the first character, in the order of the definition
          have hmunch : munch c rest = munch c rest := rfl
          conv at hmunch => rhs; unfold munch
          split at hmunch
          · rename_i hc
            exact maximalMunch_filler hmunch (rawAt_white hc) (hsplit _) .white (hlater _)
          rename_i hwhite
          split at hmunch
          · rename_i hc
            refine maximalMunch_token hmunch (rawAt_word hc) (hsplit _) (.token fun hpercent => ?_)
              (hlater _)
            exact absurd hpercent (Kind.ofWord_ne_percent _)
          rename_i hstart
          split at hmunch
          · rename_i hc
            -- a number is cut whole, or it is the first bound of a range
            rcases @rawAt_number c rest hc with hraw | ⟨digits, later, hdigits, htext, hraw⟩
            · refine maximalMunch_token hmunch hraw (hsplit _)
                (.token fun hpercent => ?_) (hlater _)
              rcases munchNumber_kind rest with hkind | hkind <;>
              · rw [hkind] at hpercent
                cases hpercent
            · have hmore : later = rest.drop (digits.length + 1) := by
                have hdrop := congrArg (List.drop (digits.length + 2)) htext
                rwa [List.drop_succ_cons, List.drop_length_add_append, eq_comm] at hdrop
              rw [htext] at hraw ⊢
              exact maximalMunch_range hdigits hraw fun start => hmore ▸ hlater _ start
          rename_i hdigit
          have hplain : isWhite c = false ∧ isIdentStart c = false ∧ c.isDigit = false :=
            ⟨Bool.eq_false_iff.mpr hwhite, Bool.eq_false_iff.mpr hstart,
              Bool.eq_false_iff.mpr hdigit⟩
          split at hmunch
          · unfold munchString at hmunch
            dsimp only at hmunch
            split at hmunch
            · rename_i hclosed
              exact maximalMunch_token hmunch (rawAt_string hclosed) (hsplit _)
                (.token fun h => by cases h) (hlater _)
            · rename_i hopen
              exact maximalMunch_stop hmunch (rawAt_openString hopen)
                (List.append_nil _).symm .openString
          · exact maximalMunch_filler hmunch rawAt_lineComment (hsplit _) .lineComment (hlater _)
          · exact maximalMunch_comment (.inl rfl) rfl hmunch hlater
          · exact maximalMunch_comment (.inr rfl) rfl hmunch hlater
          · split at hmunch
            · rename_i later hafter
              obtain ⟨tail, htail, rfl⟩ := pragmaTail_of_afterPragma hafter
              rw [List.length_append, Nat.add_sub_cancel] at hmunch
              refine maximalMunch_pragma htail hmunch fun start => ?_
              simpa using hlater tail.length start
            · rename_i hnone
              exact maximalMunch_symbol hmunch ⟨hplain.1, hplain.2.1, hplain.2.2, by decide⟩
                (by simp) (fun _ => hnone) hlater
          · rename_i d later
            split at hmunch
            · rename_i hd
              exact maximalMunch_token hmunch (rawAt_fraction hd) (hsplit _)
                (.token fun h => by cases h) (hlater _)
            · rename_i hd
              refine maximalMunch_symbol hmunch ⟨hplain.1, hplain.2.1, hplain.2.2, by decide⟩
                ?_ (fun h => absurd h (by decide)) hlater
              rintro e more ⟨⟩
              simpa using hd
          · rename_i hquote hpercent hminus hparen hslash hdot
            refine maximalMunch_symbol hmunch ⟨hplain.1, hplain.2.1, hplain.2.2, hquote⟩ ?_
              (fun hc => absurd hc hpercent) hlater
            rintro d later rfl
            simp only [Bool.and_eq_false_iff, beq_eq_false_iff_ne]
            -- had it opened something with the next character, an earlier case would hold
            refine ⟨?_, ?_, ?_, .inl fun hc => hdot d later hc rfl⟩
            · exact Decidable.or_iff_not_imp_left.mpr fun hc hd =>
                hminus later (Decidable.not_not.mp hc) (by rw [hd])
            · exact Decidable.or_iff_not_imp_left.mpr fun hc hd =>
                hparen later (Decidable.not_not.mp hc) (by rw [hd])
            · exact Decidable.or_iff_not_imp_left.mpr fun hc hd =>
                hslash later (Decidable.not_not.mp hc) (by rw [hd])

/-- Cutting a text into pieces is maximal munch over the declared patterns, and nothing else is.
Digits in front of two dots are an integer, and a word of the shape of an identifier is one token,
which is an identifier just if the word is not reserved. -/
theorem lexing_is_maximal_munch (text : String) :
    (∀ lexed, MaximalMunch 0 text.toList lexed ↔ lexed = ofText text) ∧
      (∀ start digits later, WordPattern.digits.Matches digits →
        scan 0 start (digits ++ '.' :: '.' :: later) =
          (scan 0 (start + byteLength digits + 2) later).after
            [.tokenAt start .intLit digits,
              .tokenAt (start + byteLength digits) .dotDot ['.', '.']]) ∧
      (WordPattern.identifier.Matches text.toList →
        ∃ kind, ofText text = ⟨[.tokenAt 0 kind text.toList], none⟩ ∧
          (kind = .ident ↔ isKeyword text = false)) := by
  refine ⟨fun lexed => ⟨fun h => h.unique (maximalMunch_scan 0 _), ?_⟩, fun start digits later =>
    scan_range, fun h => ?_⟩
  · rintro rfl
    exact maximalMunch_scan 0 _
  · obtain ⟨c, rest, htext, hc, hrest⟩ := WordPattern.matches_identifier.mp h
    have hspan : spanLength isIdentRest rest = rest.length := spanLength_of_all hrest
    have hmunch : munch c rest = .token (Kind.ofWord text) rest.length := by
      simp [munch, isWhite_of_isIdentStart hc, hc, hspan, ← htext]
    refine ⟨Kind.ofWord text, ?_, Kind.ofWord_eq_ident⟩
    rw [ofText, htext, scan_cons, hmunch]
    simp [scan, Piece.tokenAt]

end Lexed

end Lustre
