import Lustre.Proofs.Token.Spelling

/-!
# Texts that are put together

What is cut into words piece by piece can be put together again.  A line break does not
disturb the words of the lines around it, if all that was opened on the first is closed
there (`lexing_composes_at_line_break`).  And words with spacing between them are found
again one by one (`spaced_words_lex_back`).

## Strategy

A word that is all of a text has one of few shapes, and white space goes on with none of
them (`munches_before_white`); the one exception is a `%`, behind which a pragma may begin
with blanks.  The spacing itself consists of fillers only, whatever stands in its comments,
since a comment is closed by its first closer (`scan_spacing`).  The list of words is then
followed from left to right.
-/

namespace Lustre

open Movable

/-! ## Lines -/

namespace Lexed

/-- A text whose strings and comments are all closed, and any text on the lines behind it: the words
of the first come first, those of the second behind them in their new places, and what is wrong with
either is wrong with both. -/
theorem lexing_composes_at_line_break (text more : String) (h : (ofText text).truncated = false) :
    let whole := ofText (text ++ "\n" ++ more)
    let shift := text.utf8ByteSize + 1
    whole.tokens = (ofText text).tokens ++ move (· + shift) (ofText more).tokens ∧
      whole.diagnostics = (ofText text).diagnostics ++ move (· + shift) (ofText more).diagnostics ∧
      whole.truncated = (ofText more).truncated :=
  split_ofText text more (Option.isNone_iff_eq_none.mp (Option.isSome_eq_false_iff.mp h))

/-- A line that ends in a comment, and behind it a string that is never closed. -/
theorem lexing_composes_before_open_string :
    (ofText "a -- (*").truncated = false ∧
      (ofText ("a -- (*" ++ "\n" ++ "@b \"c")).tokens =
        [⟨.ident, "a", 0, 1, 0⟩, ⟨.ident, "b", 9, 10, 0⟩] ∧
      (ofText ("a -- (*" ++ "\n" ++ "@b \"c")).diagnostics.length = 2 ∧
      (ofText ("a -- (*" ++ "\n" ++ "@b \"c")).truncated = true := by
  obtain ⟨htokens, hdiagnostics, htruncated⟩ :=
    lexing_composes_at_line_break "a -- (*" "@b \"c" (by decide)
  refine ⟨by decide, htokens.trans (by decide), ?_, htruncated.trans (by decide)⟩
  rw [hdiagnostics]
  decide

/-- The tokens of some lines, the first of which begins at byte `start`. -/
def tokensOfLines (start : Nat) : List String → List Token
  | [] => []
  | line :: lines =>
      move (· + start) (ofText line).tokens ++ tokensOfLines (start + (line.utf8ByteSize + 1)) lines

/-- A text is read line by line, if no line but the last leaves a string or a comment open. -/
theorem tokens_intercalate {lines : List String}
    (h : ∀ line ∈ lines.dropLast, (ofText line).truncated = false) :
    (ofText (String.intercalate "\n" lines)).tokens = tokensOfLines 0 lines := by
  have hlines : ∀ start, move (· + start) (ofText (String.intercalate "\n" lines)).tokens =
      tokensOfLines start lines := by
    induction lines with
    | nil => exact fun start => rfl
    | cons line lines ih =>
        intro start
        cases lines with
        | nil =>
            rw [String.intercalate_singleton, tokensOfLines, tokensOfLines, List.append_nil]
        | cons next lines =>
            rw [List.dropLast_cons_cons, List.forall_mem_cons] at h
            have hfault := Option.isNone_iff_eq_none.mp (Option.isSome_eq_false_iff.mp h.1)
            have hmoves : ((· + start) ∘ (· + (line.utf8ByteSize + 1)) : Nat → Nat) =
                (· + (start + (line.utf8ByteSize + 1))) := by
              funext offset
              simp only [Function.comp_apply]
              omega
            rw [String.intercalate_cons_cons, (split_ofText _ _ hfault).1, move_append,
              LawfulMovable.move_move, hmoves, ih h.2]
            rfl
  have hzero := hlines 0
  have hid : ((· + 0) : Nat → Nat) = id := rfl
  rwa [hid, LawfulMovable.move_id] at hzero

end Lexed

/-! ## White space behind a word -/

/-- White space, or nothing, comes next. -/
abbrev BeforeWhite (after : List Char) : Prop := StopsAt (fun d => !isWhite d) after

theorem beforeWhite_cons {c : Char} (h : isWhite c = true) (after : List Char) :
    BeforeWhite (c :: after) :=
  stopsAt_cons (by rw [h]; rfl) after

/-- What white space never does, it does not do after a word either. -/
theorem BeforeWhite.stopsAt {p : Char → Bool} {after : List Char} (h : BeforeWhite after)
    (hp : ∀ d, isWhite d = true → p d = false) : StopsAt p after := by
  apply h.mono
  intro d hd
  cases hwhite : isWhite d with
  | false => rfl
  | true => rw [hp d hwhite] at hd; cases hd

theorem isIdentRest_of_isWhite {d : Char} (h : isWhite d = true) : isIdentRest d = false := by
  cases hd : isIdentRest d with
  | false => rfl
  | true => rw [isWhite_of_isIdentRest hd] at h; cases h

theorem endsNumber_of_isWhite {d : Char} (h : isWhite d = true) : endsNumber d = false := by
  rw [endsNumber, isIdentRest_of_isWhite h]
  rcases isWhite_iff.mp h with rfl | rfl | rfl | rfl | rfl <;> rfl

/-- No symbol goes on with white space. -/
theorem clings_of_isWhite {d : Char} (c : Char) (h : isWhite d = true) : clings c d = false := by
  have hpair : symbolOfPair? c d = none := by
    unfold symbolOfPair?
    split <;> first | rfl | exact absurd h (by decide)
  have hdigit : d.isDigit = false := by
    cases hd : d.isDigit with
    | false => rfl
    | true => rw [isWhite_of_isDigit hd] at h; cases h
  have hminus : (d == '-') = false := by
    rcases isWhite_iff.mp h with rfl | rfl | rfl | rfl | rfl <;> rfl
  have hstar : (d == '*') = false := by
    rcases isWhite_iff.mp h with rfl | rfl | rfl | rfl | rfl <;> rfl
  simp [clings, hpair, hdigit, hminus, hstar]

theorem clingsTo_of_isWhite {d : Char} (kind : Kind) (h : isWhite d = true) :
    kind.clingsTo d = false := by
  unfold Kind.clingsTo
  split
  · exact isIdentRest_of_isWhite h
  · split
    · exact clings_of_isWhite _ h
    · rfl

/-! ## Words that are all of a text -/

/-- An integer that is all of a text is made of digits. -/
theorem all_isDigit_of_munchNumber {rest : List Char}
    (h : munchNumber rest = (.intLit, rest.length)) : rest.all Char.isDigit = true := by
  have hlength : (rest.drop (spanLength Char.isDigit rest)).length =
      rest.length - spanLength Char.isDigit rest := List.length_drop
  have hle := spanLength_le Char.isDigit rest
  by_cases hdotless : ∀ later, rest.drop (spanLength Char.isDigit rest) ≠ '.' :: later
  · rw [munchNumber_dotless hdotless] at h
    dsimp only at h
    split at h
    · exact all_of_spanLength (Prod.mk.inj h).2
    · cases h
  · obtain ⟨later, hlater⟩ : ∃ later, rest.drop (spanLength Char.isDigit rest) = '.' :: later :=
      Classical.byContradiction fun hnone => hdotless fun later heq => hnone ⟨later, heq⟩
    rw [hlater, List.length_cons] at hlength
    by_cases hdots : ∀ more, later ≠ '.' :: more
    · rw [munchNumber_dot hlater hdots] at h
      dsimp only at h
      split at h
      · -- the letter that keeps the dot in the integer would be part of the text
        rename_i hbroken
        have hnil : later = [] := by
          have hend := (Prod.mk.inj h).2
          exact List.eq_nil_of_length_eq_zero (by omega)
        rw [hnil] at hbroken
        cases hbroken
      · cases h
    · obtain ⟨more, rfl⟩ : ∃ more, later = '.' :: more :=
        Classical.byContradiction fun hnone => hdots fun more heq => hnone ⟨more, heq⟩
      rw [munchNumber_dots hlater] at h
      have hend := (Prod.mk.inj h).2
      omega

section

variable {c : Char} {rest after : List Char} {kind : Kind}

/-- A keyword or a symbol but `%`, before white space. -/
theorem munches_fixed_before_white (h : Munched c rest kind rest.length)
    (hspelling : kind.spelling?.isSome = true) (hpercent : kind ≠ .percent)
    (hafter : BeforeWhite after) : Munches kind (String.ofList (c :: rest)) after := by
  obtain ⟨spelling, hspelt⟩ := Option.isSome_iff_exists.mp hspelling
  have htext : String.ofList (c :: rest) = kind.describe := by
    rw [Kind.describe_of_spelling hspelt, ← h.spelling hspelt, List.take_length]
  rw [htext]
  apply munches_sign hspelling (hafter.stopsAt fun d => clingsTo_of_isWhite kind)
  intro heq
  exact absurd heq hpercent

/-- A pragma, before anything. -/
theorem munches_pragma_tail {tail : List Char} (h : WordPattern.pragmaTail.Matches tail)
    (after : List Char) : Munches .pragma (String.ofList ('%' :: tail)) after :=
  ⟨'%', tail, String.toList_ofList, munch_pragma_tail h after⟩

/-- A word that is all of a text is cut off the same before white space, if it is not a `%`. -/
theorem munches_before_white (h : munch c rest = .token kind rest.length)
    (hpercent : kind ≠ .percent)
    (hafter : BeforeWhite after) : Munches kind (String.ofList (c :: rest)) after := by
  have hmunched := munched_of_munch h
  have hnumber : StopsAt endsNumber after := hafter.stopsAt fun d => endsNumber_of_isWhite
  -- a word with one spelling, or a name, a number, a string or a pragma
  cases hspelling : kind.spelling? with
  | some spelling =>
      exact munches_fixed_before_white hmunched (by rw [hspelling]; rfl) hpercent hafter
  | none =>
      obtain ⟨rfl, -⟩ | ⟨hc, hkind⟩ | ⟨rfl, -⟩ | ⟨rfl, -⟩ | ⟨rfl, -⟩ := hmunched.unspelt hspelling
      · have hname := hmunched.ident
        rw [List.take_length] at hname
        obtain ⟨hshape, hkeyword⟩ := isProperName_iff.mp hname
        exact munches_ident hshape hkeyword (hafter.stopsAt fun d => isIdentRest_of_isWhite)
      · rcases munchNumber_kind rest with hint | hreal
        · obtain rfl : kind = .intLit := (congrArg Prod.fst hkind).trans hint
          have hdigits : isDigits (String.ofList (c :: rest)) = true := by
            rw [isDigits, String.toList_ofList, List.all_cons, hc,
              all_isDigit_of_munchNumber hkind.symm]
            rfl
          exact munches_digits hdigits hnumber
        · obtain rfl : kind = .realLit := (congrArg Prod.fst hkind).trans hreal
          have hwhole := hmunched.whole_real
          rw [List.take_length] at hwhole
          exact munches_real hwhole hnumber
      · obtain ⟨inside, hinside, hquote⟩ := hmunched.quoted
        rw [List.take_length] at hinside
        rw [hinside]
        exact munches_string after hquote
      · obtain ⟨tail, htail, heq⟩ := hmunched.pragma_tail
        rw [List.take_length] at heq
        rw [heq]
        exact munches_pragma_tail htail after
      · have hwhole := hmunched.whole_real
        rw [List.take_length] at hwhole
        exact munches_real hwhole hnumber

end

/-! ## Spacing -/

/-- White space, closed comments, and comments up to the end of their line, in any order and
number. -/
inductive Spacing : List Char → Prop
  | nil : Spacing []
  | white {c : Char} {later : List Char} (hc : isWhite c = true) (hlater : Spacing later) :
      Spacing (c :: later)
  | line {inside later : List Char} (hinside : '\n' ∉ inside) (hlater : Spacing later) :
      Spacing ('-' :: '-' :: (inside ++ '\n' :: later))
  | block {opener inside later : List Char} (hopener : opener = ['(', '*'] ∨ opener = ['/', '*'])
      (hinside : ¬commentCloser opener <:+: inside) (hlater : Spacing later) :
      Spacing (opener ++ (inside ++ (commentCloser opener ++ later)))

/-- What separates two words: white space first, and any spacing behind it. -/
def IsSeparator (gap : String) : Prop :=
  ∃ c later, gap.toList = c :: later ∧ isWhite c = true ∧ Spacing later

/-- The first closer is found, whatever stands before it. -/
theorem lengthThrough_of_first {first second : Char} {inside : List Char} (after : List Char)
    (hne : first ≠ second) (h : ¬[first, second] <:+: inside) :
    lengthThrough first second (inside ++ first :: second :: after) = some (inside.length + 2) := by
  induction inside with
  | nil => simp [lengthThrough]
  | cons c inside ih =>
      have hlater := ih fun hpart => h (hpart.trans (List.infix_cons (List.infix_refl inside)))
      have hnot : ¬(c == first &&
          (inside ++ first :: second :: after).head? == some second) = true := by
        intro hhere
        simp only [Bool.and_eq_true, beq_iff_eq] at hhere
        obtain ⟨rfl, hsecond⟩ := hhere
        cases inside with
        | nil => exact hne (Option.some.inj hsecond)
        | cons d inside =>
            obtain rfl := Option.some.inj hsecond
            exact h (List.prefix_append [c, d] inside).isInfix
      rw [List.cons_append, lengthThrough, if_neg hnot, hlater, List.length_cons]
      rfl

namespace Lexed

/-- Two texts have the same words, and the same is wrong with them. -/
def SameWords (first second : Lexed) : Prop :=
  first.tokens = second.tokens ∧ first.diagnostics = second.diagnostics ∧ first.fault = second.fault

theorem SameWords.trans {first second third : Lexed} (h : SameWords first second)
    (h' : SameWords second third) : SameWords first third :=
  ⟨h.1.trans h'.1, h.2.1.trans h'.2.1, h.2.2.trans h'.2.2⟩

/-- A filler that is known changes where the words after it stand, and nothing else. -/
theorem scan_filler {c : Char} {more after : List Char} {trivia : Trivia} (start : Nat)
    (hmunch : munch c (more ++ after) = .filler trivia more.length) (hknown : trivia ≠ .unknown) :
    SameWords (scan 0 start (c :: (more ++ after)))
      (scan 0 (start + byteLength (c :: more)) after) := by
  rw [scan_cons, hmunch]
  simp only [List.take_left, List.drop_left]
  refine ⟨tokens_filler _ _, ?_, rfl⟩
  rw [diagnostics_filler, if_neg hknown, List.nil_append]

theorem scan_line_comment {inside : List Char} (start : Nat) (h : '\n' ∉ inside)
    (after : List Char) :
    SameWords (scan 0 start ('-' :: '-' :: (inside ++ '\n' :: after)))
      (scan 0 (start + byteLength ('-' :: '-' :: (inside ++ ['\n']))) after) := by
  have hall : ('-' :: inside).all (· != '\n') = true := by
    apply List.all_eq_true.mpr
    intro d hd
    have hne : d ≠ '\n' := by
      rintro rfl
      rcases List.mem_cons.mp hd with hd | hd
      · cases hd
      · exact h hd
    simpa using hne
  have hspan : spanLength (· != '\n') (('-' :: inside) ++ '\n' :: after) =
      ('-' :: inside).length := by
    rw [spanLength_break rfl, spanLength_of_all hall]
  have hmunch : munch '-' (('-' :: inside) ++ '\n' :: after) =
      .filler .lineComment ('-' :: inside).length := by
    rw [← hspan]
    rfl
  apply SameWords.trans (scan_filler start hmunch (by decide))
  have hbreak := scan_white (c := '\n') (start + byteLength ('-' :: '-' :: inside)) after rfl
  have hbytes : byteLength ('-' :: '-' :: (inside ++ ['\n'])) =
      byteLength ('-' :: '-' :: inside) + '\n'.utf8Size := by
    simp only [byteLength_cons, byteLength_append, byteLength_nil]
    omega
  rw [hbytes, ← Nat.add_assoc]
  exact hbreak

theorem scan_block_comment {opener inside : List Char} (start : Nat)
    (hopener : opener = ['(', '*'] ∨ opener = ['/', '*']) (h : ¬commentCloser opener <:+: inside)
    (after : List Char) :
    SameWords (scan 0 start (opener ++ (inside ++ (commentCloser opener ++ after))))
      (scan 0 (start + byteLength (opener ++ (inside ++ commentCloser opener))) after) := by
  have hclosed : ∀ {c second : Char}, second ≠ '*' → ¬['*', second] <:+: inside →
      (∀ rest, munch c ('*' :: rest) = munchComment '*' second ('*' :: rest)) →
      SameWords (scan 0 start (c :: '*' :: (inside ++ '*' :: second :: after)))
        (scan 0 (start + byteLength (c :: '*' :: (inside ++ ['*', second]))) after) := by
    intro c second hne hinside hopens
    have hfound := lengthThrough_of_first after hne.symm hinside
    have hmunch : munch c (('*' :: (inside ++ ['*', second])) ++ after) =
        .filler .blockComment ('*' :: (inside ++ ['*', second])).length := by
      rw [List.cons_append, List.append_assoc, hopens, munchComment,
        List.drop_succ_cons, List.drop_zero]
      simp only [List.cons_append, List.nil_append, hfound]
      simp only [List.length_cons, List.length_append, List.length_nil]
      rw [Nat.add_comm 1]
    have hskip := scan_filler start hmunch (by decide)
    rwa [List.cons_append, List.append_assoc, List.cons_append, List.cons_append,
      List.nil_append] at hskip
  rcases hopener with rfl | rfl
  · exact hclosed (by decide) h fun rest => rfl
  · exact hclosed (by decide) h fun rest => rfl

/-- Spacing changes where the words after it stand, and nothing else. -/
theorem scan_spacing {gap : List Char} (h : Spacing gap) (start : Nat) (after : List Char) :
    SameWords (scan 0 start (gap ++ after)) (scan 0 (start + byteLength gap) after) := by
  induction h generalizing start with
  | nil => exact ⟨rfl, rfl, rfl⟩
  | @white c later hc _ ih =>
      have hfirst : SameWords _ _ := scan_white start (later ++ after) hc
      apply hfirst.trans
      rw [byteLength_cons, ← Nat.add_assoc]
      exact ih _
  | @line inside later hinside _ ih =>
      have hfirst := scan_line_comment start hinside (later ++ after)
      have hbytes : byteLength ('-' :: '-' :: (inside ++ '\n' :: later)) =
          byteLength ('-' :: '-' :: (inside ++ ['\n'])) + byteLength later := by
        rw [← byteLength_append]
        simp
      rw [hbytes, ← Nat.add_assoc]
      refine SameWords.trans ?_ (ih _)
      simpa using hfirst
  | @block opener inside later hopener hinside _ ih =>
      have hfirst := scan_block_comment start hopener hinside (later ++ after)
      have hbytes : byteLength (opener ++ (inside ++ (commentCloser opener ++ later))) =
          byteLength (opener ++ (inside ++ commentCloser opener)) + byteLength later := by
        rw [← byteLength_append]
        simp
      rw [hbytes, ← Nat.add_assoc]
      refine SameWords.trans ?_ (ih _)
      simpa using hfirst

/-! ## Words with spacing between them -/

/-- On its own, a text is one token that covers it. -/
def IsWord (word : String) (token : Token) : Prop :=
  (ofText word).tokens = [token] ∧ token.span = ⟨0, word.utf8ByteSize, 0⟩

/-- No token begins before the text that it is cut from. -/
theorem le_start_of_mem_tokens {start : Nat} {text : List Char} {token : Token}
    (h : token ∈ (scan 0 start text).tokens) : start ≤ token.span.start := by
  obtain ⟨left, hcuts, -, -⟩ := scan_cuts start text
  exact ((Token.ordered_of_cuts hcuts (scan 0 start text).fault).start_le token h).1

theorem more_le_of_munch {c : Char} {rest : List Char} {kind : Kind} {more : Nat}
    (h : munch c rest = .token kind more) : more ≤ rest.length := by
  have hclosed : ∀ cause width, munch c rest ≠ .unterminated cause width := by
    intro cause width hopen
    rw [h] at hopen
    cases hopen
  have hblack : isWhite c = true → isWhite '\n' = false ∨
      spanLength isWhite rest < rest.length := by
    intro hc
    have hwhite : munch c rest = .filler .whitespace (spanLength isWhite rest) := by
      simp [munch, hc]
    rw [h] at hwhite
    cases hwhite
  have hle := (munch_break (x := '\n') (by decide) [] hclosed hblack fun _ _ _ => .inl rfl).2
  rwa [h] at hle

/-- A text that is one token is cut off as a whole. -/
theorem IsWord.exists_munch {word : String} {token : Token} (h : IsWord word token) :
    ∃ c rest, word.toList = c :: rest ∧ munch c rest = .token token.kind rest.length ∧
      token.text = word := by
  obtain ⟨htokens, hspan⟩ := h
  have hmem : token ∈ (scan 0 0 word.toList).tokens := by
    rw [← ofText, htokens]
    exact List.mem_singleton_self token
  have hstop : token.span.stop = byteLength word.toList := by
    rw [hspan, utf8ByteSize_eq_byteLength]
  have hzero : token.span.start = 0 := by rw [hspan]
  rw [ofText] at htokens
  cases htext : word.toList with
  | nil =>
      rw [htext] at hmem
      cases hmem
  | cons c rest =>
      rw [htext, scan_cons] at hmem htokens
      rw [htext] at hstop
      cases hmunch : munch c rest with
      | unterminated cause width =>
          rw [hmunch] at hmem
          cases hmem
      | filler trivia more =>
          -- a token behind a filler would not begin at byte 0
          rw [hmunch] at hmem
          have hle := le_start_of_mem_tokens hmem
          have hpositive := byteLength_pos (List.cons_ne_nil c (rest.take more))
          omega
      | token kind more =>
          rw [hmunch] at htokens
          obtain ⟨rfl, -⟩ := List.cons.inj htokens
          have hle := more_le_of_munch hmunch
          have hdrop : rest.drop more = [] := by
            have hsplit := byteLength_append (c :: rest.take more) (rest.drop more)
            rw [List.cons_append, List.take_append_drop] at hsplit
            have hend : 0 + byteLength (c :: rest.take more) = byteLength (c :: rest) := hstop
            apply Decidable.byContradiction
            intro hne
            have hpositive := byteLength_pos hne
            omega
          obtain rfl : more = rest.length := by
            have hlength := List.drop_eq_nil_iff.mp hdrop
            omega
          refine ⟨c, rest, rfl, hmunch, ?_⟩
          rw [List.take_length, ← htext, String.ofList_toList]

/-- Before white space, a word that is no `%` is cut off as on its own. -/
theorem IsWord.munches {word : String} {token : Token} {after : List Char} (h : IsWord word token)
    (hword : word ≠ "%") (hafter : BeforeWhite after) : Munches token.kind word after := by
  obtain ⟨c, rest, htext, hmunch, -⟩ := h.exists_munch
  have hwhole : String.ofList (c :: rest) = word := by rw [← htext, String.ofList_toList]
  have hpercent : token.kind ≠ .percent := by
    intro hkind
    rw [hkind] at hmunch
    have hspelling := @Munched.spelling _ _ _ _ (munched_of_munch hmunch) "%" rfl
    rw [List.take_length, hwhole] at hspelling
    exact hword hspelling
  have hmunches := munches_before_white hmunch hpercent hafter
  rwa [hwhole] at hmunches

/-- What is read, apart from places. -/
def lexemes (lexed : Lexed) : List (Kind × String) :=
  lexed.tokens.map fun token => (token.kind, token.text)

theorem IsWord.lexemes_eq {word : String} {token : Token} (h : IsWord word token) :
    lexemes (ofText word) = [(token.kind, word)] := by
  obtain ⟨-, -, -, -, htext⟩ := h.exists_munch
  rw [lexemes, h.1, ← htext]
  rfl

/-- A word that is cut off from what follows, and the words behind it. -/
theorem scan_word {kind : Kind} {word : String} {after : List Char} (start : Nat)
    (h : Munches kind word after) :
    let whole := scan 0 start (word.toList ++ after)
    let later := scan 0 (start + byteLength word.toList) after
    lexemes whole = (kind, word) :: lexemes later ∧ whole.diagnostics = later.diagnostics ∧
      whole.fault = later.fault := by
  obtain ⟨c, rest, htext, hmunch⟩ := h
  have hwhole : String.ofList (c :: rest) = word := by rw [← htext, String.ofList_toList]
  have hcut : scan 0 start (c :: (rest ++ after)) =
      ⟨.token ⟨kind, word, ⟨start, start + byteLength (c :: rest), 0⟩⟩ ::
        (scan 0 (start + byteLength (c :: rest)) after).pieces,
        (scan 0 (start + byteLength (c :: rest)) after).fault⟩ := by
    rw [scan_cons, hmunch]
    simp only [List.take_left, List.drop_left, hwhole]
  rw [htext, List.cons_append, hcut]
  exact ⟨rfl, rfl, rfl⟩

/-- Words, each but the first with a gap before it. -/
def spaced (words gaps : List String) : String :=
  String.join (List.zipWith (· ++ ·) ("" :: gaps) words)

/-- The characters of words with a gap before each. -/
def gapped (gaps words : List String) : List Char :=
  (List.zipWith (· ++ ·) gaps words).flatMap String.toList

theorem gapped_cons (gap word : String) (gaps words : List String) :
    gapped (gap :: gaps) (word :: words) = gap.toList ++ (word.toList ++ gapped gaps words) := by
  rw [gapped, List.zipWith_cons_cons, List.flatMap_cons, String.toList_append, List.append_assoc]
  rfl

theorem toList_spaced (word : String) (words gaps : List String) :
    (spaced (word :: words) gaps).toList = word.toList ++ gapped gaps words := by
  rw [spaced, String.toList_join, ← gapped, gapped_cons]
  rfl

section

variable {words gaps : List String}

/-- Words that are each one token on their own, none of them a `%`. -/
def AreWords (words : List String) : Prop := ∀ word ∈ words, word ≠ "%" ∧ ∃ token, IsWord word token

/-- In front of each word stands white space. -/
theorem beforeWhite_gapped (hgaps : ∀ gap ∈ gaps, IsSeparator gap) :
    BeforeWhite (gapped gaps words) := by
  cases gaps with
  | nil =>
      rw [gapped, List.zipWith_nil_left]
      exact fun d hd => by cases hd
  | cons gap gaps =>
      cases words with
      | nil =>
          rw [gapped, List.zipWith_nil_right]
          exact fun d hd => by cases hd
      | cons word words =>
          obtain ⟨c, spacing, hgap, hc, -⟩ := hgaps gap List.mem_cons_self
          rw [gapped_cons, hgap]
          exact beforeWhite_cons hc _

theorem scan_gapped (start : Nat) (hwords : AreWords words) (hgaps : ∀ gap ∈ gaps, IsSeparator gap)
    (hlength : words.length ≤ gaps.length) :
    lexemes (scan 0 start (gapped gaps words)) = words.flatMap (fun word => lexemes (ofText word)) ∧
      (scan 0 start (gapped gaps words)).diagnostics = [] ∧
      (scan 0 start (gapped gaps words)).fault = none := by
  induction words generalizing gaps start with
  | nil =>
      rw [gapped, List.zipWith_nil_right]
      exact ⟨rfl, rfl, rfl⟩
  | cons word words ih =>
      cases gaps with
      | nil => exact absurd hlength (Nat.not_succ_le_zero _)
      | cons gap gaps =>
          obtain ⟨⟨hpercent, token, hword⟩, hwords⟩ := List.forall_mem_cons.mp hwords
          obtain ⟨⟨c, spacing, hgap, hc, hspacing⟩, hgaps⟩ := List.forall_mem_cons.mp hgaps
          rw [gapped_cons, hgap, List.cons_append]
          -- the gap is skipped, and the word is cut off in front of the next gap
          have hwhite : SameWords _ _ :=
            scan_white start (spacing ++ (word.toList ++ gapped gaps words)) hc
          obtain ⟨htokens, hdiagnostics, hfault⟩ := hwhite.trans (scan_spacing hspacing _ _)
          obtain ⟨hfirst, hsame, hsameFault⟩ :=
            scan_word (start + c.utf8Size + byteLength spacing)
              (hword.munches hpercent (beforeWhite_gapped hgaps))
          obtain ⟨hrest, hclean, hnone⟩ := ih (start + c.utf8Size + byteLength spacing +
            byteLength word.toList) hwords hgaps (Nat.le_of_succ_le_succ hlength)
          refine ⟨?_, ?_, ?_⟩
          · rw [lexemes, htokens, ← lexemes, hfirst, hrest, List.flatMap_cons, hword.lexemes_eq]
            rfl
          · rw [hdiagnostics, hsame, hclean]
          · rw [hfault, hsameFault, hnone]

theorem scan_spaced (hwords : AreWords words) (hgaps : ∀ gap ∈ gaps, IsSeparator gap)
    (hlength : words.length ≤ gaps.length + 1) :
    lexemes (ofText (spaced words gaps)) = words.flatMap (fun word => lexemes (ofText word)) ∧
      (ofText (spaced words gaps)).diagnostics = [] ∧
      (ofText (spaced words gaps)).fault = none := by
  cases words with
  | nil => exact ⟨rfl, rfl, rfl⟩
  | cons word words =>
      obtain ⟨⟨hpercent, token, hword⟩, hwords⟩ := List.forall_mem_cons.mp hwords
      obtain ⟨hfirst, hsame, hsameFault⟩ :=
        scan_word 0 (hword.munches hpercent (beforeWhite_gapped hgaps))
      obtain ⟨hrest, hclean, hnone⟩ := scan_gapped (0 + byteLength word.toList) hwords hgaps
        (Nat.le_of_succ_le_succ hlength)
      rw [ofText, toList_spaced]
      refine ⟨?_, hsame.trans hclean, hsameFault.trans hnone⟩
      rw [hfirst, hrest, List.flatMap_cons, hword.lexemes_eq]
      rfl

theorem map_snd_lexemes (hwords : AreWords words) :
    (words.flatMap fun word => lexemes (ofText word)).map Prod.snd = words := by
  induction words with
  | nil => rfl
  | cons word words ih =>
      obtain ⟨⟨-, token, hword⟩, hwords⟩ := List.forall_mem_cons.mp hwords
      rw [List.flatMap_cons, List.map_append, ih hwords, hword.lexemes_eq]
      rfl

/-- Words that are each one token on their own, none of them a `%`, are found again in order when
they are put behind one another with separators between them, and nothing is wrong with the text. -/
theorem spaced_words_lex_back (hwords : AreWords words)
    (hgaps : ∀ gap ∈ gaps, IsSeparator gap) (hlength : words.length ≤ gaps.length + 1) :
    let lexed := ofText (spaced words gaps)
    lexemes lexed = words.flatMap (fun word => lexemes (ofText word)) ∧
      lexed.tokens.map Token.text = words ∧ lexed.diagnostics = [] ∧ lexed.truncated = false := by
  intro lexed
  obtain ⟨hlexemes, hclean, hnone⟩ := scan_spaced hwords hgaps hlength
  have htexts : lexed.tokens.map Token.text = (lexemes lexed).map Prod.snd := by
    rw [lexemes, List.map_map]
    rfl
  refine ⟨hlexemes, ?_, hclean, ?_⟩
  · rw [htexts, hlexemes, map_snd_lexemes hwords]
  · exact Option.isSome_eq_false_iff.mpr (Option.isNone_iff_eq_none.mpr hnone)

/-- A number that ends with its dot, a pragma with blanks inside, and a name, with comments between
them that open strings and other comments. -/
theorem spaced_words_around_comments :
    let lexed := ofText (spaced ["1.", "%a :b%", "x"] ["\n(* \" -- *)", " --(*\n"])
    lexemes lexed = [(.realLit, "1."), (.pragma, "%a :b%"), (.ident, "x")] ∧
      lexed.diagnostics = [] ∧ lexed.truncated = false := by
  have hwords : AreWords ["1.", "%a :b%", "x"] := by
    refine List.forall_mem_cons.mpr
      ⟨⟨by decide, ⟨.realLit, "1.", 0, 2, 0⟩, by decide, by decide⟩, ?_⟩
    refine List.forall_mem_cons.mpr
      ⟨⟨by decide, ⟨.pragma, "%a :b%", 0, 6, 0⟩, by decide, by decide⟩, ?_⟩
    exact List.forall_mem_singleton.mpr ⟨by decide, ⟨.ident, "x", 0, 1, 0⟩, by decide, by decide⟩
  have hgaps : ∀ gap ∈ ["\n(* \" -- *)", " --(*\n"], IsSeparator gap := by
    refine List.forall_mem_cons.mpr ⟨⟨'\n', _, rfl, rfl, ?_⟩, ?_⟩
    · exact @Spacing.block ['(', '*'] [' ', '"', ' ', '-', '-', ' '] [] (.inl rfl) (by decide) .nil
    · exact List.forall_mem_singleton.mpr
        ⟨' ', _, rfl, rfl, @Spacing.line ['(', '*'] [] (by decide) .nil⟩
  obtain ⟨hlexemes, -, hclean, hclosed⟩ := spaced_words_lex_back hwords hgaps (by decide)
  exact ⟨hlexemes.trans (by decide), hclean, hclosed⟩

end

end Lexed

end Lustre
