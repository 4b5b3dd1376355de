import Lustre.Proofs.Printer.Apart
import Lustre.Proofs.Token.MaximalMunch
import Lustre.Proofs.Tree.Move

/-!
# A line break ends every word

Whatever stands before a line break is cut into the same pieces with or without the
lines that follow, unless it is a string or a comment that is never closed: no word
but these two goes on after a line break, and white space at the end of a line only
grows.  So a text can be cut line by line (`scan_line`), and what follows a line is
cut as if it stood alone, in another place (`scan_shift`).
-/

namespace Lustre

/-! ## Runs of characters -/

/-- A run of characters that ends within a text ends there whatever follows. -/
theorem spanLength_append_of_lt {p : Char → Bool} {text : List Char} (after : List Char)
    (h : spanLength p text < text.length) : spanLength p (text ++ after) = spanLength p text := by
  induction text with
  | nil => simp at h
  | cons c text ih =>
      rw [List.cons_append, spanLength_cons, spanLength_cons]
      split
      · rename_i hc
        rw [spanLength_cons, if_pos hc, List.length_cons] at h
        rw [ih (by omega)]
      · rfl

theorem all_of_spanLength {p : Char → Bool} {text : List Char}
    (h : spanLength p text = text.length) : text.all p = true := by
  rw [← (List.takeWhile_prefix p).eq_of_length h]
  exact List.all_takeWhile

theorem stopsAt_cons {p : Char → Bool} {x : Char} (h : p x = false) (more : List Char) :
    StopsAt p (x :: more) := by
  intro d hd
  cases hd
  exact h

theorem spanLength_break {p : Char → Bool} {x : Char} (h : p x = false) (text more : List Char) :
    spanLength p (text ++ x :: more) = spanLength p text :=
  spanLength_append (stopsAt_cons h more) text

theorem dropWhile_break {p : Char → Bool} {x : Char} (h : p x = false) (text more : List Char) :
    (text ++ x :: more).dropWhile p = text.dropWhile p ++ x :: more := by
  rw [← drop_spanLength, ← drop_spanLength, spanLength_break h,
    List.drop_append_of_le_length (spanLength_le _ _)]

/-! ## Parts of pieces -/

theorem munchNumber_dots {rest later : List Char}
    (h : rest.drop (spanLength Char.isDigit rest) = '.' :: '.' :: later) :
    munchNumber rest = (.intLit, spanLength Char.isDigit rest) := by
  unfold munchNumber
  dsimp only
  rw [h]
  rfl

theorem munchNumber_dot {rest later : List Char}
    (h : rest.drop (spanLength Char.isDigit rest) = '.' :: later)
    (hdots : ∀ more, later ≠ '.' :: more) :
    munchNumber rest =
      let fraction := spanLength Char.isDigit later
      let exponent := exponentLength (later.drop fraction)
      if fraction = 0 && exponent = 0 && opensExponent later then
        (.intLit, spanLength Char.isDigit rest + 1)
      else (.realLit, spanLength Char.isDigit rest + 1 + fraction + exponent) := by
  unfold munchNumber
  dsimp only
  rw [h]
  split
  · rename_i more heq
    exact absurd (List.cons.inj heq).2 (hdots more)
  · rename_i more _ heq
    rw [(List.cons.inj heq).2]
  · rename_i hnone
    exact absurd rfl (hnone later)

theorem munchNumber_dotless {rest : List Char}
    (h : ∀ later, rest.drop (spanLength Char.isDigit rest) ≠ '.' :: later) :
    munchNumber rest =
      let exponent := exponentLength (rest.drop (spanLength Char.isDigit rest))
      if exponent = 0 then (.intLit, spanLength Char.isDigit rest)
      else (.realLit, spanLength Char.isDigit rest + exponent) := by
  unfold munchNumber
  dsimp only
  split
  · exact absurd ‹_› (h _)
  · exact absurd ‹_› (h _)
  · rfl

theorem exponentLength_le (text : List Char) : exponentLength text ≤ text.length := by
  by_cases h : exponentLength text = 0
  · omega
  · exact (exponent_take h).2

theorem munchNumber_le (rest : List Char) : (munchNumber rest).2 ≤ rest.length := by
  have hspan := spanLength_le Char.isDigit rest
  have hlength : (rest.drop (spanLength Char.isDigit rest)).length =
      rest.length - spanLength Char.isDigit rest := List.length_drop
  unfold munchNumber
  dsimp only
  split
  · exact hspan
  · rename_i later _ hlater
    rw [hlater, List.length_cons] at hlength
    have hfraction := (dotTail_take later).2
    unfold fractionLength at hfraction
    split <;> simp only <;> omega
  · have hexponent := exponentLength_le (rest.drop (spanLength Char.isDigit rest))
    split <;> simp only <;> omega

theorem lengthThrough_append {first second : Char} {text : List Char} {length : Nat}
    (h : lengthThrough first second text = some length) (after : List Char) :
    lengthThrough first second (text ++ after) = some length := by
  induction text generalizing length with
  | nil => cases h
  | cons c rest ih =>
      rw [List.cons_append, lengthThrough]
      rw [lengthThrough] at h
      cases rest with
      | nil => simp [lengthThrough] at h
      | cons d rest =>
          rw [List.cons_append, List.head?_cons] at *
          split at h
          · rw [if_pos ‹_›]
            exact h
          · rw [if_neg ‹_›]
            obtain ⟨before, hbefore, rfl⟩ := Option.map_eq_some_iff.mp h
            rw [ih hbefore]
            rfl

/-- The number of characters that a piece takes after its first. -/
def Munch.more : Munch → Nat
  | .token _ more | .filler _ more => more
  | .unterminated _ _ => 0

theorem munchSymbol_le (c : Char) (rest : List Char) : (munchSymbol c rest).more ≤ rest.length := by
  unfold munchSymbol
  split
  · rename_i hpair
    obtain ⟨d, hd, -⟩ := Option.bind_eq_some_iff.mp hpair
    exact List.length_pos_iff.mpr (by rintro rfl; cases hd)
  · split <;> exact Nat.zero_le _

theorem munchString_append {rest : List Char} (h : spanLength (· != '"') rest < rest.length)
    (after : List Char) :
    munchString (rest ++ after) = .token .stringLit (spanLength (· != '"') rest + 1) := by
  unfold munchString
  dsimp only
  rw [spanLength_append_of_lt _ h, if_pos (by rw [List.length_append]; omega)]

theorem munchComment_append {first second : Char} {rest : List Char} {length : Nat}
    (h : lengthThrough first second (rest.drop 1) = some length) (after : List Char) :
    munchComment first second (rest ++ after) = .filler .blockComment (1 + length) ∧
      1 + length ≤ rest.length := by
  cases rest with
  | nil => cases h
  | cons d later =>
      rw [List.drop_succ_cons, List.drop_zero] at h
      obtain ⟨inside, left, hlater, rfl, -⟩ := lengthThrough_eq_some h
      have hlonger := lengthThrough_append h after
      rw [munchComment, List.cons_append, List.drop_succ_cons, List.drop_zero, hlonger]
      refine ⟨rfl, ?_⟩
      rw [hlater, List.length_cons, List.length_append, List.length_cons, List.length_cons]
      omega

/-! ## What ends words -/

/-- What may open a string or a comment. -/
def openers : List Char := ['"', '(', '/']

/-- Characters that go on with no word. -/
def breaks : List Char := '\n' :: openers

section

variable {x : Char} (hx : x ∈ breaks)
include hx

theorem not_of_mem_breaks {p : Char → Bool} (h : breaks.any p = false) : p x = false := by
  rw [List.any_eq_false] at h
  exact Bool.eq_false_iff.mpr (h x hx)

theorem ne_of_mem_breaks {c : Char} (h : breaks.contains c = false) : x ≠ c := by
  rintro rfl
  rw [List.contains_iff_mem.mpr hx] at h
  cases h

theorem isIdentRest_of_mem_breaks : isIdentRest x = false := not_of_mem_breaks hx rfl

theorem isDigit_of_mem_breaks : x.isDigit = false := not_of_mem_breaks (p := Char.isDigit) hx rfl

theorem opensExponent_break (text more : List Char) :
    opensExponent (text ++ x :: more) = opensExponent text := by
  cases text with
  | nil => exact not_of_mem_breaks (p := fun x => opensExponent (x :: more)) hx rfl
  | cons c text => rfl

theorem exponentLength_break (text more : List Char) :
    exponentLength (text ++ x :: more) = exponentLength text := by
  match text with
  | [] =>
      have hopens : opensExponent (x :: more) = false := opensExponent_break hx [] more
      rw [List.nil_append, exponentLength, hopens]
      rfl
  | [c] =>
      have hsign : (x == '+' || x == '-') = false :=
        not_of_mem_breaks (p := fun x => x == '+' || x == '-') hx rfl
      simp [exponentLength, opensExponent, hsign, spanLength, isDigit_of_mem_breaks hx]
  | c :: d :: later =>
      have hspan : ∀ n, spanLength Char.isDigit ((d :: later).drop n ++ x :: more) =
          spanLength Char.isDigit ((d :: later).drop n) :=
        fun n => spanLength_break (isDigit_of_mem_breaks hx) _ _
      have hfirst := hspan 0
      have hsecond := hspan 1
      simp only [List.drop_succ_cons, List.drop_zero, List.cons_append] at hfirst hsecond
      unfold exponentLength
      simp only [opensExponent, List.cons_append, List.drop_succ_cons, List.drop_zero,
        Nat.add_comm 1]
      by_cases hsign : (d == '+' || d == '-') = true
      · simp [hsign, hsecond]
      · simp [hsign, hfirst]

/-- What breaks words is neither a dot nor part of an exponent. -/
theorem munchNumber_break (rest more : List Char) :
    munchNumber (rest ++ x :: more) = munchNumber rest := by
  have hstop : StopsAt (· == '.') (x :: more) :=
    stopsAt_cons (not_of_mem_breaks hx rfl) more
  have hspan : ∀ text, spanLength Char.isDigit (text ++ x :: more) = spanLength Char.isDigit text :=
    fun text => spanLength_break (isDigit_of_mem_breaks hx) text more
  have hdrop : ∀ text : List Char, (text ++ x :: more).drop (spanLength Char.isDigit text) =
      text.drop (spanLength Char.isDigit text) ++ x :: more :=
    fun text => List.drop_append_of_le_length (spanLength_le _ _)
  by_cases hdotless : ∀ later, rest.drop (spanLength Char.isDigit rest) ≠ '.' :: later
  · rw [munchNumber_dotless hdotless, munchNumber_dotless, hspan, hdrop, exponentLength_break hx]
    rw [hspan, hdrop]
    exact no_dot_append hdotless fun _ => hstop
  · obtain ⟨later, hlater⟩ : ∃ later, rest.drop (spanLength Char.isDigit rest) = '.' :: later :=
      Classical.byContradiction fun hnone => hdotless fun later heq => hnone ⟨later, heq⟩
    have hlonger : (rest ++ x :: more).drop (spanLength Char.isDigit (rest ++ x :: more)) =
        '.' :: (later ++ x :: more) := by
      rw [hspan, hdrop, hlater, List.cons_append]
    by_cases hdots : ∀ more, later ≠ '.' :: more
    · rw [munchNumber_dot hlater hdots, munchNumber_dot hlonger
        (no_dot_append hdots fun _ => hstop)]
      simp only [hspan, hdrop, exponentLength_break hx, opensExponent_break hx]
    · obtain ⟨last, rfl⟩ : ∃ last, later = '.' :: last :=
        Classical.byContradiction fun hnone => hdots fun last heq => hnone ⟨last, heq⟩
      rw [munchNumber_dots hlater, munchNumber_dots hlonger, hspan]

theorem afterIdent_break (text more : List Char) :
    afterIdent (text ++ x :: more) = (afterIdent text).map (· ++ x :: more) := by
  cases text with
  | nil =>
      rw [List.nil_append, afterIdent, if_neg (Bool.eq_false_iff.mp (not_of_mem_breaks hx rfl))]
      rfl
  | cons c text =>
      rw [List.cons_append, afterIdent, afterIdent, dropWhile_break (isIdentRest_of_mem_breaks hx)]
      split <;> rfl

theorem afterPragma_break (text more : List Char) :
    afterPragma (text ++ x :: more) = (afterPragma text).map (· ++ x :: more) := by
  have hblank : isBlank x = false := not_of_mem_breaks hx rfl
  have hcolon : x ≠ ':' := ne_of_mem_breaks hx rfl
  have hpercent : x ≠ '%' := ne_of_mem_breaks hx rfl
  unfold afterPragma
  rw [dropWhile_break hblank, afterIdent_break hx]
  cases afterIdent (text.dropWhile isBlank) with
  | none => rfl
  | some afterKey =>
      simp only [Option.map_some, Option.bind_eq_bind, Option.bind_some, dropWhile_break hblank]
      generalize afterKey.dropWhile isBlank = key
      rcases key with _ | ⟨c, key⟩
      · simp [hcolon]
      · by_cases hc : c = ':'
        · subst hc
          simp only [List.cons_append, dropWhile_break hblank, afterIdent_break hx]
          cases afterIdent (key.dropWhile isBlank) with
          | none => rfl
          | some afterValue =>
              simp only [Option.map_some, Option.bind_some, dropWhile_break hblank]
              generalize afterValue.dropWhile isBlank = value
              rcases value with _ | ⟨d, value⟩
              · simp [hpercent]
              · by_cases hd : d = '%'
                · subst hd
                  rfl
                · simp [hd]
        · simp [hc]

theorem munchSymbol_break (c : Char) (rest more : List Char) :
    munchSymbol c (rest ++ x :: more) = munchSymbol c rest := by
  cases rest with
  | cons d rest => rfl
  | nil =>
      have hnone : symbolOfPair? c x = none := by
        unfold symbolOfPair?
        split <;> first | rfl | exact absurd hx (by decide)
      simp [munchSymbol, hnone]

/-- A symbol stays one before a break. -/
theorem munch_break_of_symbol {c : Char} {rest : List Char} (more : List Char)
    (hwhite : isWhite c = false) (hstart : isIdentStart c = false) (hdigit : c.isDigit = false)
    (hquote : c ≠ '"') (hpercent : c = '%' → afterPragma rest = none)
    (hopens : ∀ d later, rest = d :: later → (c == '-' && d == '-') = false ∧
      (c == '(' && d == '*') = false ∧ (c == '/' && d == '*') = false ∧
      (c == '.' && d.isDigit) = false) :
    munch c (rest ++ x :: more) = munchSymbol c rest := by
  -- a break is none of the characters that go on with an opener
  have hsecond : ∀ {d : Char} {tail : List Char}, rest ++ x :: more = d :: tail → d ≠ x →
      ∃ later, rest = d :: later := by
    intro d tail hrest hd
    cases rest with
    | nil => exact absurd (List.cons.inj hrest).1.symm hd
    | cons e later => exact ⟨later, by rw [(List.cons.inj hrest).1]⟩
  have hminus : '-' ≠ x := (ne_of_mem_breaks hx rfl).symm
  have hstar : '*' ≠ x := (ne_of_mem_breaks hx rfl).symm
  rw [← munchSymbol_break hx c rest more]
  unfold munch
  simp only [hwhite, hstart, hdigit, Bool.false_eq_true, if_false]
  split
  · exact absurd rfl hquote
  · rename_i heq
    obtain ⟨later, rfl⟩ := hsecond heq hminus
    exact absurd (hopens _ _ rfl).1 (by decide)
  · rename_i heq
    obtain ⟨later, rfl⟩ := hsecond heq hstar
    exact absurd (hopens _ _ rfl).2.1 (by decide)
  · rename_i heq
    obtain ⟨later, rfl⟩ := hsecond heq hstar
    exact absurd (hopens _ _ rfl).2.2.1 (by decide)
  · rw [afterPragma_break hx, hpercent rfl]
    rfl
  · rename_i d tail heq
    split
    · rename_i hd
      obtain ⟨later, rfl⟩ := hsecond heq (by rintro rfl; simp [isDigit_of_mem_breaks hx] at hd)
      exact absurd (hopens _ _ rfl).2.2.2 (by simp [hd])
    · rfl
  · rfl

omit hx in
theorem munch_pragma {text after : List Char} (h : afterPragma text = some after) :
    munch '%' text = .token .pragma (text.length - after.length) := by
  simp [munch, isWhite, isIdentStart, h]

omit hx in
theorem munch_pragma_tail {tail : List Char} (h : WordPattern.pragmaTail.Matches tail)
    (after : List Char) : munch '%' (tail ++ after) = .token .pragma tail.length := by
  rw [munch_pragma (afterPragma_append h after), List.length_append, Nat.add_sub_cancel]

/-- What is closed before a break is cut off the same without what follows, except for white space
before white space and for a comment that the line does not end. -/
theorem munch_break {c : Char} {rest : List Char} (more : List Char)
    (hclosed : ∀ cause width, munch c rest ≠ .unterminated cause width)
    (hwhite : isWhite c = true → isWhite x = false ∨ spanLength isWhite rest < rest.length)
    (hcomment : ∀ later, c = '-' → rest = '-' :: later →
      (x != '\n') = false ∨ spanLength (· != '\n') rest < rest.length) :
    munch c (rest ++ x :: more) = munch c rest ∧ (munch c rest).more ≤ rest.length := by
  -- a run of characters ends before the break or at it
  have hrun : ∀ p : Char → Bool, p x = false ∨ spanLength p rest < rest.length →
      spanLength p (rest ++ x :: more) = spanLength p rest := by
    rintro p (hp | hspan)
    · exact spanLength_break hp rest more
    · exact spanLength_append_of_lt _ hspan
  have hmunch : munch c rest = munch c rest := rfl
  conv at hmunch => rhs; unfold munch
  -- one case for each class of the first character, in the order of the definition
  split at hmunch
  · rename_i hc
    have hlonger : ∀ rest, munch c rest = .filler .whitespace (spanLength isWhite rest) :=
      fun rest => by simp [munch, hc]
    rw [hlonger, hlonger, hrun _ (hwhite hc)]
    exact ⟨rfl, spanLength_le _ _⟩
  rename_i hc
  split at hmunch
  · rename_i hstart
    have hle := spanLength_le isIdentRest rest
    have hlonger : ∀ rest, munch c rest = .token (Kind.ofWord (String.ofList (c :: rest.take
        (spanLength isIdentRest rest)))) (spanLength isIdentRest rest) :=
      fun rest => by simp [munch, hc, hstart]
    rw [hlonger, hlonger, hrun _ (.inl (isIdentRest_of_mem_breaks hx)),
      List.take_append_of_le_length hle]
    exact ⟨rfl, hle⟩
  rename_i hstart
  split at hmunch
  · rename_i hdigit
    have hlonger : ∀ rest, munch c rest = .token (munchNumber rest).1 (munchNumber rest).2 :=
      fun rest => by simp [munch, hc, hstart, hdigit]
    rw [hlonger, hlonger, munchNumber_break hx]
    exact ⟨rfl, munchNumber_le rest⟩
  rename_i hdigit
  split at hmunch
  · -- a string that is closed is closed before the break
    unfold munchString at hmunch
    dsimp only at hmunch
    split at hmunch
    · rename_i hinside
      rw [hmunch]
      exact ⟨munchString_append hinside _, hinside⟩
    · exact absurd hmunch (hclosed _ _)
  · rw [hmunch]
    refine ⟨?_, spanLength_le _ _⟩
    rw [← hrun (· != '\n') (hcomment _ rfl rfl)]
    rfl
  · unfold munchComment at hmunch
    split at hmunch
    · rename_i hlength
      rw [hmunch]
      exact munchComment_append hlength _
    · exact absurd hmunch (hclosed _ _)
  · unfold munchComment at hmunch
    split at hmunch
    · rename_i hlength
      rw [hmunch]
      exact munchComment_append hlength _
    · exact absurd hmunch (hclosed _ _)
  · -- a pragma is closed before the break, or its `%` is a sign by itself
    split at hmunch
    · rename_i after hafter
      rw [hmunch]
      refine ⟨?_, Nat.sub_le _ _⟩
      have hlonger := munch_pragma ((afterPragma_break hx rest more).trans (congrArg _ hafter))
      rw [hlonger]
      simp only [List.length_append, Nat.add_sub_add_right]
    · rename_i hnone
      rw [hmunch]
      refine ⟨munch_break_of_symbol hx more rfl rfl rfl (by decide) (fun _ => hnone) ?_,
        munchSymbol_le _ _⟩
      exact fun d later _ => ⟨rfl, rfl, rfl, rfl⟩
  · rename_i d later
    split at hmunch
    · rename_i hd
      -- neither the fraction nor the exponent goes on behind the break
      have hle := exponentLength_le ((d :: later).drop (spanLength Char.isDigit (d :: later)))
      have hspan := spanLength_le Char.isDigit (d :: later)
      have hlonger : munch '.' ((d :: later) ++ x :: more) =
          if d.isDigit then
            let fraction := spanLength Char.isDigit ((d :: later) ++ x :: more)
            .token .realLit (fraction + exponentLength (((d :: later) ++ x :: more).drop fraction))
          else munchSymbol '.' ((d :: later) ++ x :: more) := rfl
      rw [hmunch, hlonger, if_pos hd]
      dsimp only
      rw [hrun _ (.inl (isDigit_of_mem_breaks hx)), List.drop_append_of_le_length hspan,
        exponentLength_break hx]
      refine ⟨rfl, ?_⟩
      rw [List.length_drop] at hle
      simp only [Munch.more]
      omega
    · rename_i hd
      rw [hmunch]
      refine ⟨munch_break_of_symbol hx more rfl rfl rfl (by decide)
        (fun h => absurd h (by decide)) ?_, munchSymbol_le _ _⟩
      rintro e later' ⟨⟩
      exact ⟨rfl, rfl, rfl, by simpa using hd⟩
  · -- any other sign, which looks at the next character at most
    rename_i hquote hpercent hminus hparen hslash hdot
    rw [hmunch]
    refine ⟨munch_break_of_symbol hx more (Bool.eq_false_iff.mpr hc) (Bool.eq_false_iff.mpr hstart)
      (Bool.eq_false_iff.mpr hdigit) hquote (fun hc => absurd hc hpercent) ?_, munchSymbol_le _ _⟩
    rintro d later rfl
    simp only [Bool.and_eq_false_iff, beq_eq_false_iff_ne]
    refine ⟨?_, ?_, ?_, .inl fun hc => hdot d later hc rfl⟩
    · exact Decidable.or_iff_not_imp_left.mpr fun hc hd =>
        hminus later (Decidable.not_not.mp hc) (by rw [hd])
    · exact Decidable.or_iff_not_imp_left.mpr fun hc hd =>
        hparen later (Decidable.not_not.mp hc) (by rw [hd])
    · exact Decidable.or_iff_not_imp_left.mpr fun hc hd =>
        hslash later (Decidable.not_not.mp hc) (by rw [hd])

end

namespace Lexed

theorem tokens_token (token : Token) (later : Lexed) :
    (⟨.token token :: later.pieces, later.fault⟩ : Lexed).tokens = token :: later.tokens := rfl

theorem tokens_filler (filler : Filler) (later : Lexed) :
    (⟨.filler filler :: later.pieces, later.fault⟩ : Lexed).tokens = later.tokens := rfl

theorem diagnostics_token (token : Token) (later : Lexed) :
    (⟨.token token :: later.pieces, later.fault⟩ : Lexed).diagnostics = later.diagnostics := rfl

theorem diagnostics_filler (trivia : Trivia) (text : String) (span : Span) (later : Lexed) :
    (⟨.filler ⟨trivia, text, span⟩ :: later.pieces, later.fault⟩ : Lexed).diagnostics =
      (if trivia = .unknown then [⟨.unknownCharacter text, span⟩] else []) ++
        later.diagnostics := by
  cases trivia <;> rfl

/-- Of two texts, one before a line break and one behind it. -/
def Split (text more whole : Lexed) : Prop :=
  whole.tokens = text.tokens ++ more.tokens ∧
  whole.diagnostics = text.diagnostics ++ more.diagnostics ∧
    whole.fault = more.fault

/-- A text whose words are all closed is cut up before the next line begins. -/
theorem scan_line (start : Nat) (text more : List Char) (h : (scan 0 start text).fault = none) :
    Split (scan 0 start text) (scan 0 (start + byteLength text + 1) more)
      (scan 0 start (text ++ '\n' :: more)) := by
  induction hlength : text.length using Nat.strongRecOn generalizing start text with
  | ind length ih =>
      cases text with
      | nil => exact scan_white start more rfl
      | cons c rest =>
          by_cases hall : (c :: rest).all isWhite = true
          · -- white space grows by the line break
            have hself := scan_gap start [] hall
            have hboth : ((c :: rest) ++ ['\n']).all isWhite = true := by
              rw [List.all_append, hall]
              rfl
            have hmore := scan_gap start more hboth
            rw [List.append_nil] at hself
            rw [List.append_assoc, byteLength_append, ← Nat.add_assoc] at hmore
            unfold Split
            rw [hself.1, hself.2.1]
            exact hmore
          · -- the first piece is the same in front of the break, and the rest is by induction
            have hclosed : ∀ cause width, munch c rest ≠ .unterminated cause width := by
              intro cause width hmunch
              rw [scan_cons, hmunch] at h
              cases h
            have hwhite : isWhite c = true → spanLength isWhite rest < rest.length := by
              intro hc
              refine Nat.lt_of_le_of_ne (spanLength_le _ _) fun hspan => hall ?_
              rw [List.all_cons, hc, all_of_spanLength hspan]
              rfl
            obtain ⟨hsame, hle⟩ := munch_break (x := '\n') (by decide) more hclosed
              (fun hc => .inr (hwhite hc))
              fun _ _ _ => .inl rfl
            rw [scan_cons] at h
            rw [List.cons_append, scan_cons, scan_cons, hsame]
            have hsplit : ∀ n, byteLength (c :: rest) =
                byteLength (c :: rest.take n) + byteLength (rest.drop n) := by
              intro n
              rw [← byteLength_append, List.cons_append, List.take_append_drop]
            have hlater : ∀ n ≤ rest.length, ∀ start, (scan 0 start (rest.drop n)).fault = none →
                Split (scan 0 start (rest.drop n))
                  (scan 0 (start + byteLength (rest.drop n) + 1) more)
                  (scan 0 start ((rest ++ '\n' :: more).drop n)) := by
              intro n hn start hfault
              rw [List.drop_append_of_le_length hn]
              refine ih (rest.drop n).length ?_ start (rest.drop n) hfault rfl
              simp only [List.length_cons, List.length_drop] at hlength ⊢
              omega
            cases hmunch : munch c rest with
            | unterminated cause width => exact absurd hmunch (hclosed _ _)
            | token kind n =>
                rw [hmunch] at h hle
                have hle : n ≤ rest.length := hle
                obtain ⟨htokens, hdiagnostics, hfault⟩ := hlater n hle _ h
                dsimp only
                rw [List.take_append_of_le_length hle, hsplit n, ← Nat.add_assoc]
                refine ⟨?_, ?_, hfault⟩
                · rw [tokens_token, tokens_token, htokens, List.cons_append]
                · rw [diagnostics_token, diagnostics_token, hdiagnostics]
            | filler trivia n =>
                rw [hmunch] at h hle
                have hle : n ≤ rest.length := hle
                obtain ⟨htokens, hdiagnostics, hfault⟩ := hlater n hle _ h
                dsimp only
                rw [List.take_append_of_le_length hle, hsplit n, ← Nat.add_assoc]
                refine ⟨?_, ?_, hfault⟩
                · rw [tokens_filler, tokens_filler, htokens]
                · rw [diagnostics_filler, diagnostics_filler, hdiagnostics, List.append_assoc]

/-! ## The same lines elsewhere -/

open Movable

/-- A text that begins `shift` bytes later is cut into the same pieces, `shift` bytes later. -/
theorem scan_shift (shift skip start : Nat) (text : List Char) :
    (scan skip (start + shift) text).tokens = move (· + shift) (scan skip start text).tokens ∧
      (scan skip (start + shift) text).diagnostics =
        move (· + shift) (scan skip start text).diagnostics ∧
      (scan skip (start + shift) text).fault = move (· + shift) (scan skip start text).fault := by
  induction text generalizing skip start with
  | nil => exact ⟨rfl, rfl, rfl⟩
  | cons c rest ih =>
      cases skip with
      | succ skip => exact ih skip start
      | zero =>
          rw [scan, scan]
          -- which characters make a piece does not depend on where they stand
          have hstop : ∀ bytes, start + shift + bytes = start + bytes + shift := by omega
          cases munch c rest with
          | unterminated cause width =>
              dsimp only
              rw [hstop]
              exact ⟨rfl, rfl, rfl⟩
          | token kind more =>
              obtain ⟨htokens, hdiagnostics, hfault⟩ :=
                ih more (start + byteLength (c :: rest.take more))
              dsimp only
              rw [hstop]
              refine ⟨?_, ?_, hfault⟩
              · rw [tokens_token, tokens_token, htokens]
                rfl
              · rw [diagnostics_token, diagnostics_token, hdiagnostics]
          | filler trivia more =>
              obtain ⟨htokens, hdiagnostics, hfault⟩ :=
                ih more (start + byteLength (c :: rest.take more))
              dsimp only
              rw [hstop]
              refine ⟨?_, ?_, hfault⟩
              · rw [tokens_filler, tokens_filler, htokens]
              · rw [diagnostics_filler, diagnostics_filler, hdiagnostics, move_append]
                split <;> rfl

/-- The words of a text whose strings and comments are all closed, and of a text behind it. -/
theorem split_ofText (text more : String) (h : (ofText text).fault = none) :
    (ofText (text ++ "\n" ++ more)).tokens =
        (ofText text).tokens ++ move (· + (text.utf8ByteSize + 1)) (ofText more).tokens ∧
      (ofText (text ++ "\n" ++ more)).diagnostics =
        (ofText text).diagnostics ++ move (· + (text.utf8ByteSize + 1)) (ofText more).diagnostics ∧
      (ofText (text ++ "\n" ++ more)).truncated = (ofText more).truncated := by
  obtain ⟨htokens, hdiagnostics, hfault⟩ := scan_line 0 text.toList more.toList h
  obtain ⟨htokens', hdiagnostics', hfault'⟩ :=
    scan_shift (text.utf8ByteSize + 1) 0 0 more.toList
  have hchars : (text ++ "\n" ++ more).toList = text.toList ++ '\n' :: more.toList := by simp
  rw [← utf8ByteSize_eq_byteLength, Nat.add_assoc] at htokens hdiagnostics hfault
  rw [htokens'] at htokens
  rw [hdiagnostics'] at hdiagnostics
  rw [hfault'] at hfault
  unfold truncated ofText
  rw [hchars, htokens, hdiagnostics, hfault]
  refine ⟨rfl, rfl, ?_⟩
  cases (scan 0 0 more.toList).fault <;> rfl

end Lexed

end Lustre
