import Lustre.Proofs.Token.Pattern

/-!
# The longest match

`munch` decides by hand, from a few characters, what stands at a place of a text.
Here it is compared with the patterns: what it finds is the longest match of any
pattern (`RawAt`), a keyword beats an identifier of the same length, and where it
finds nothing no pattern matches.  There is one exception: digits, a dot and the
letter of an exponent that is none make up an integer with a dot at its end.

## Strategy

The first character of a text leaves few patterns that can match (`Fits`).  For
each class of first characters the matches that begin a text are bounded in length,
and the bound is met by the one that `munch` finds.  For numbers this is an argument
about what may follow the digits (`NumberTail`): every other match either ends inside
the digits or has a tail that begins the rest of the text.
-/

namespace Lustre

/-- `word` is the longest match at the beginning of `text`, and `raw` its sort: what is spelt in one
way only is preferred to an identifier. -/
structure IsLongest (text : List Char) (raw : Raw) (word : List Char) : Prop where
  fits : raw.pattern.Matches word
  begins : word <+: text
  longest : ∀ (other : Raw) (cs : List Char), other.pattern.Matches cs → cs <+: text →
    cs.length ≤ word.length
  wins : ∀ other : Raw, other.pattern.Matches word →
    other = raw ∨ other = .word .ident ∧ raw.isFixed = true

/-- Digits, before a dot and a text that begins with the letter of an exponent but with no
exponent. -/
structure BrokenExponent (digits rest : List Char) : Prop where
  digits : WordPattern.digits.Matches digits
  letter : opensExponent rest = true
  broken : ∀ cs, WordPattern.exponent.Matches cs → ¬cs <+: rest

/-- What is matched at the beginning of a text. -/
inductive RawAt (text : List Char) : Raw → List Char → Prop
  | longest {raw : Raw} {word : List Char} (h : IsLongest text raw word)
      (hexponent : ∀ digits rest, text = digits ++ '.' :: rest → ¬BrokenExponent digits rest) :
      RawAt text raw word
  | brokenExponent {digits rest : List Char} (htext : text = digits ++ '.' :: rest)
      (h : BrokenExponent digits rest) : RawAt text (.word .intLit) (digits ++ ['.'])

/-! ## There is only one match -/

theorem IsLongest.unique {text : List Char} {raw raw' : Raw} {word word' : List Char}
    (h : IsLongest text raw word) (h' : IsLongest text raw' word') : raw = raw' ∧ word = word' := by
  have hlength : word.length = word'.length :=
    Nat.le_antisymm (h'.longest raw word h.fits h.begins) (h.longest raw' word' h'.fits h'.begins)
  obtain rfl : word = word' :=
    (List.prefix_of_prefix_length_le h.begins h'.begins (Nat.le_of_eq hlength)).eq_of_length hlength
  refine ⟨?_, rfl⟩
  rcases h.wins raw' h'.fits with heq | ⟨rfl, hfixed⟩
  · exact heq.symm
  · rcases h'.wins raw h.fits with heq | ⟨-, hfixed'⟩
    · exact heq
    · cases hfixed'

/-- The digits before the first dot. -/
private theorem digits_unique {digits digits' rest rest' : List Char}
    (h : WordPattern.digits.Matches digits) (h' : WordPattern.digits.Matches digits')
    (heq : digits ++ '.' :: rest = digits' ++ '.' :: rest') : digits = digits' ∧ rest = rest' := by
  have hstop : ∀ rest : List Char, StopsAt Char.isDigit ('.' :: rest) := by
    intro rest d hd
    cases hd
    rfl
  have hdrop := congrArg (List.dropWhile Char.isDigit) heq
  rw [dropWhile_append_of_all (WordPattern.matches_digits.mp h).2 (hstop rest),
    dropWhile_append_of_all (WordPattern.matches_digits.mp h').2 (hstop rest'),
    List.cons.injEq] at hdrop
  obtain ⟨-, rfl⟩ := hdrop
  exact ⟨List.append_cancel_right heq, rfl⟩

theorem RawAt.unique {text : List Char} {raw raw' : Raw} {word word' : List Char}
    (h : RawAt text raw word) (h' : RawAt text raw' word') : raw = raw' ∧ word = word' := by
  cases h with
  | longest h hexponent =>
      cases h' with
      | longest h' => exact h.unique h'
      | brokenExponent htext hbroken => exact absurd hbroken (hexponent _ _ htext)
  | brokenExponent htext hbroken =>
      cases h' with
      | longest h' hexponent => exact absurd hbroken (hexponent _ _ htext)
      | brokenExponent htext' hbroken' =>
          obtain ⟨rfl, -⟩ := digits_unique hbroken.digits hbroken'.digits (htext.symm.trans htext')
          exact ⟨rfl, rfl⟩

/-! ## Runs of characters at the beginning of a text -/

theorem spanLength_append_of_all {p : Char → Bool} {run : List Char} (h : run.all p = true)
    (later : List Char) : spanLength p (run ++ later) = run.length + spanLength p later := by
  induction run with
  | nil => simp
  | cons c run ih =>
      rw [List.all_cons, Bool.and_eq_true] at h
      rw [List.cons_append, spanLength_cons, if_pos h.1, ih h.2, List.length_cons]
      omega

theorem length_le_spanLength {p : Char → Bool} {run text : List Char} (h : run.all p = true)
    (hbegins : run <+: text) : run.length ≤ spanLength p text := by
  obtain ⟨later, rfl⟩ := hbegins
  rw [spanLength_append_of_all h]
  omega

theorem all_take_spanLength (p : Char → Bool) (text : List Char) :
    (text.take (spanLength p text)).all p = true := by
  rw [take_spanLength]
  exact List.all_takeWhile

/-- A run of characters ends at the latest where something begins that is no part of it. -/
theorem spanLength_of_stopsAt {p : Char → Bool} {text : List Char} (h : StopsAt p text) :
    spanLength p text = 0 := by
  cases text with
  | nil => rfl
  | cons c rest => rw [spanLength_cons, h c rfl]; rfl

/-- A run and what follows it, if that is not nothing and does not go on with the run. -/
theorem drop_spanLength_append {p : Char → Bool} {run tail : List Char} (h : run.all p = true)
    (htail : StopsAt p tail) (hne : tail ≠ []) (later : List Char) :
    spanLength p (run ++ (tail ++ later)) = run.length ∧
      (run ++ (tail ++ later)).drop run.length = tail ++ later := by
  have hstop : StopsAt p (tail ++ later) := by
    obtain ⟨c, rest, rfl⟩ := List.exists_cons_of_ne_nil hne
    intro d hd
    exact htail d hd
  rw [spanLength_append_of_all h, spanLength_of_stopsAt hstop]
  exact ⟨rfl, List.drop_left⟩

/-! ## Exponents and fractions -/

theorem isDigit_of_exponent {cs : List Char} (h : WordPattern.exponent.Matches cs) :
    StopsAt Char.isDigit cs ∧ cs ≠ [] :=
  ⟨(NumberTail.exponent h).stopsAt, by
    obtain ⟨letter, rest, rfl, -⟩ := WordPattern.matches_exponent.mp h
    simp⟩

/-- No exponent at the beginning of a text is longer than the one that is found. -/
theorem length_le_exponentLength {cs text : List Char} (h : WordPattern.exponent.Matches cs)
    (hbegins : cs <+: text) : cs.length ≤ exponentLength text := by
  obtain ⟨letter, rest, rfl, hletter, hrest⟩ := WordPattern.matches_exponent.mp h
  obtain ⟨later, rfl⟩ := hbegins
  rw [exponentLength, if_pos (by simpa [opensExponent] using hletter)]
  simp only [List.cons_append, List.drop_succ_cons, List.drop_zero]
  rcases hrest with hrest | ⟨sign, more, rfl, hsign, hmore⟩
  · obtain ⟨hne, hall⟩ := WordPattern.matches_digits.mp hrest
    have hrun := spanLength_append_of_all hall later
    obtain ⟨d, rest, rfl⟩ := List.exists_cons_of_ne_nil hne
    have hd : (d == '+' || d == '-') = false := by
      rw [List.all_cons, Bool.and_eq_true] at hall
      cases hsign : d == '+' || d == '-' with
      | false => rfl
      | true =>
          simp only [Bool.or_eq_true, beq_iff_eq] at hsign
          rcases hsign with rfl | rfl <;> exact absurd hall.1 (by decide)
    simp only [List.cons_append, hd, Bool.false_eq_true, if_false, Nat.add_zero,
      List.drop_succ_cons, List.drop_zero] at hrun ⊢
    rw [hrun, if_neg (by simp)]
    simp only [List.length_cons]
    omega
  · obtain ⟨hne, hall⟩ := WordPattern.matches_digits.mp hmore
    have hpos := List.length_pos_iff.mpr hne
    simp only [List.cons_append, hsign, if_true, Nat.reduceAdd, List.drop_succ_cons, List.drop_zero]
    rw [spanLength_append_of_all hall, if_neg (by omega)]
    simp only [List.length_cons]
    omega

/-- The exponent that is found. -/
theorem exponent_take {text : List Char} (h : exponentLength text ≠ 0) :
    WordPattern.exponent.Matches (text.take (exponentLength text)) ∧
      exponentLength text ≤ text.length := by
  unfold exponentLength at h ⊢
  split at h
  · rename_i hopens
    rw [if_pos hopens]
    dsimp only at h ⊢
    cases text with
    | nil => cases hopens
    | cons letter rest =>
        simp only [List.drop_succ_cons, List.drop_zero] at h ⊢
        have hdigits : ∀ later : List Char, spanLength Char.isDigit later ≠ 0 →
            WordPattern.digits.Matches (later.take (spanLength Char.isDigit later)) := by
          intro later hlater
          refine WordPattern.matches_digits.mpr ⟨?_, all_take_spanLength _ _⟩
          intro hnil
          have hlength := congrArg List.length hnil
          rw [List.length_take, Nat.min_eq_left (spanLength_le _ _)] at hlength
          exact hlater hlength
        cases rest with
        | nil => simp [spanLength] at h
        | cons d later =>
            dsimp only at h ⊢
            -- a sign is one more character before the digits
            by_cases hsign : (d == '+' || d == '-') = true
            · simp only [hsign, if_true, Nat.reduceAdd, List.drop_succ_cons, List.drop_zero] at h ⊢
              have hne : spanLength Char.isDigit later ≠ 0 := by
                intro hzero
                simp [hzero] at h
              have hle := spanLength_le Char.isDigit later
              rw [if_neg hne]
              refine ⟨WordPattern.matches_exponent.mpr ⟨letter, _, ?_, hopens, .inr
                ⟨d, later.take (spanLength Char.isDigit later), rfl, hsign, hdigits _ hne⟩⟩, ?_⟩
              · rw [show 2 + spanLength Char.isDigit later =
                  spanLength Char.isDigit later + 1 + 1 by omega]
                rfl
              · simp only [List.length_cons]
                omega
            · have hnot : (d == '+' || d == '-') = false := Bool.eq_false_iff.mpr hsign
              simp only [hnot, Bool.false_eq_true, if_false, Nat.add_zero, List.drop_succ_cons,
                List.drop_zero] at h ⊢
              have hne : spanLength Char.isDigit (d :: later) ≠ 0 := by
                intro hzero
                simp [hzero] at h
              have hle := spanLength_le Char.isDigit (d :: later)
              rw [if_neg hne]
              refine ⟨WordPattern.matches_exponent.mpr
                ⟨letter, _, ?_, hopens, .inl (hdigits _ hne)⟩, ?_⟩
              · rw [Nat.add_comm]
                rfl
              · simp only [List.length_cons] at hle ⊢
                omega
  · exact absurd rfl h

/-- The length of the fraction at the beginning of a text, with its exponent. -/
def fractionLength (text : List Char) : Nat :=
  spanLength Char.isDigit text + exponentLength (text.drop (spanLength Char.isDigit text))

/-- No fraction at the beginning of a text is longer than the one that is found. -/
theorem length_le_fractionLength {cs text : List Char} (h : WordPattern.fraction.Matches cs)
    (hbegins : cs <+: text) :
    cs.length ≤ fractionLength text ∧ spanLength Char.isDigit text ≠ 0 := by
  obtain ⟨digits, tail, hdigits, htail, rfl⟩ := h
  obtain ⟨hne, hall⟩ := WordPattern.matches_digits.mp hdigits
  have hpos := List.length_pos_iff.mpr hne
  obtain ⟨later, rfl⟩ := hbegins
  rw [List.append_assoc, fractionLength, List.length_append]
  rcases htail with rfl | htail
  · rw [List.nil_append, spanLength_append_of_all hall]
    simp only [List.length_nil]
    omega
  · obtain ⟨hstop, htailNe⟩ := isDigit_of_exponent htail
    obtain ⟨hspan, hdrop⟩ := drop_spanLength_append hall hstop htailNe later
    rw [hspan, hdrop]
    have hle := length_le_exponentLength htail (List.prefix_append tail later)
    omega

/-- The fraction that is found. -/
theorem fraction_take {text : List Char} (h : spanLength Char.isDigit text ≠ 0) :
    WordPattern.fraction.Matches (text.take (fractionLength text)) ∧
      fractionLength text ≤ text.length := by
  have hle := spanLength_le Char.isDigit text
  have hsplit : text.take (fractionLength text) = text.take (spanLength Char.isDigit text) ++
      (text.drop (spanLength Char.isDigit text)).take
        (exponentLength (text.drop (spanLength Char.isDigit text))) := List.take_add
  have hdigits : WordPattern.digits.Matches (text.take (spanLength Char.isDigit text)) := by
    refine WordPattern.matches_digits.mpr ⟨?_, all_take_spanLength _ _⟩
    intro hnil
    have hlength := congrArg List.length hnil
    rw [List.length_take, Nat.min_eq_left hle] at hlength
    exact h hlength
  rw [hsplit, fractionLength]
  by_cases hexponent : exponentLength (text.drop (spanLength Char.isDigit text)) = 0
  · rw [hexponent]
    exact ⟨⟨_, _, hdigits, .inl rfl, rfl⟩, by omega⟩
  · obtain ⟨htake, hlength⟩ := exponent_take hexponent
    rw [List.length_drop] at hlength
    exact ⟨⟨_, _, hdigits, .inr htake, rfl⟩, by omega⟩

/-! ## The longest match, by its first character -/

section

variable {c : Char} {rest : List Char}

/-- A match is the longest if no other that can begin with the same character goes on longer. -/
theorem IsLongest.of_fits {raw : Raw} {more : Nat}
    (hfits : raw.pattern.Matches (c :: rest.take more)) (hmore : more ≤ rest.length)
    (hbound : ∀ other cs, Fits c cs (firstClass c) other → cs <+: rest → cs.length ≤ more ∧
      (cs.length = more → other = raw ∨ other = .word .ident ∧ raw.isFixed = true)) :
    IsLongest (c :: rest) raw (c :: rest.take more) where
  fits := hfits
  begins := List.cons_prefix_cons.mpr ⟨rfl, List.take_prefix _ _⟩
  longest other word hother hbegins := by
    cases word with
    | nil => exact absurd hother other.not_matches_nil
    | cons d cs =>
        obtain ⟨rfl, hcs⟩ := List.cons_prefix_cons.mp hbegins
        have hle := (hbound other cs (fits_of_matches hother) hcs).1
        simp only [List.length_cons, List.length_take]
        omega
  wins other hother := by
    refine (hbound other _ (fits_of_matches hother) (List.take_prefix _ _)).2 ?_
    rw [List.length_take, Nat.min_eq_left hmore]

/-- The exception is about numbers only. -/
theorem RawAt.of_longest {raw : Raw} {word : List Char} (hc : firstClass c ≠ .digit)
    (h : IsLongest (c :: rest) raw word) : RawAt (c :: rest) raw word := by
  refine .longest h fun digits later htext hbroken => hc ?_
  obtain ⟨hne, hall⟩ := WordPattern.matches_digits.mp hbroken.digits
  obtain ⟨d, digits, rfl⟩ := List.exists_cons_of_ne_nil hne
  rw [List.cons_append, List.cons.injEq] at htext
  rw [List.all_cons, Bool.and_eq_true, ← htext.1] at hall
  exact firstClass_digit hall.1

theorem rawAt_white (hc : isWhite c = true) :
    RawAt (c :: rest) .white (c :: rest.take (spanLength isWhite rest)) := by
  have hclass := firstClass_white hc
  refine .of_longest (by rw [hclass]; decide) (.of_fits ?_ (spanLength_le _ _) ?_)
  · exact (Fits.white hc (all_take_spanLength _ _)).matches
  · intro other cs hother hbegins
    rw [hclass] at hother
    cases hother with
    | white _ hcs => exact ⟨length_le_spanLength hcs hbegins, fun _ => .inl rfl⟩

/-- A word of letters is the longest match, and a keyword if there is one of that spelling. -/
theorem rawAt_word (hc : isIdentStart c = true) :
    RawAt (c :: rest)
      (.word (Kind.ofWord (String.ofList (c :: rest.take (spanLength isIdentRest rest)))))
      (c :: rest.take (spanLength isIdentRest rest)) := by
  have hclass := firstClass_letter hc
  have hcases := Kind.ofWord_cases (String.ofList (c :: rest.take (spanLength isIdentRest rest)))
  refine .of_longest (by rw [hclass]; decide) (.of_fits ?_ (spanLength_le _ _) ?_)
  · rcases hcases with hspelling | ⟨hident, -⟩
    · rw [Raw.pattern_of_spelling hspelling, String.toList_ofList]
      rfl
    · rw [hident]
      exact (Fits.ident hc (all_take_spanLength _ _)).matches
  · intro other cs hother hbegins
    rw [hclass] at hother
    cases hother with
    | ident _ hcs =>
        refine ⟨length_le_spanLength hcs hbegins, fun _ => ?_⟩
        rcases hcases with hspelling | ⟨hident, -⟩
        · exact .inr ⟨rfl, by rw [Raw.isFixed, hspelling]; rfl⟩
        · exact .inl (by rw [hident])
    | keyword hkind hspelling _ hcs =>
        refine ⟨length_le_spanLength hcs hbegins, fun hlength => .inl ?_⟩
        rw [← hlength, ← List.prefix_iff_eq_take.mp hbegins, Kind.ofWord_spelling hkind hspelling]

/-! ### Numbers -/

/-- A number that begins a text ends inside the first digits, or has a tail that begins what follows
them. -/
theorem Fits.number_cases {cs : List Char} {raw : Raw} (h : Fits c cs .digit raw)
    (hbegins : cs <+: rest) :
    cs.length < spanLength Char.isDigit rest ∨
      ∃ tail, NumberTail raw tail ∧ tail <+: rest.drop (spanLength Char.isDigit rest) ∧
        cs.length = spanLength Char.isDigit rest + tail.length := by
  cases h with
  | number hc hcs hmore htail =>
      rename_i more tail
      obtain ⟨later, rfl⟩ := hbegins
      rw [hcs, List.append_assoc, List.length_append]
      by_cases hne : tail = []
      · rw [spanLength_append_of_all hmore, hne]
        by_cases hzero : spanLength Char.isDigit ([] ++ later) = 0
        · refine .inr ⟨[], hne ▸ htail, List.nil_prefix, ?_⟩
          simp only [List.length_nil]
          omega
        · simp only [List.length_nil]
          omega
      · obtain ⟨hspan, hdrop⟩ := drop_spanLength_append hmore htail.stopsAt hne later
        rw [hspan, hdrop]
        exact .inr ⟨tail, htail, List.prefix_append _ _, rfl⟩

/-- A number is the longest match if its tail is the longest after its digits. -/
theorem isLongest_number {raw : Raw} {tail : List Char} (hc : c.isDigit = true)
    (htail : NumberTail raw tail) (hbegins : tail <+: rest.drop (spanLength Char.isDigit rest))
    (hbound : ∀ other cs, NumberTail other cs → cs <+: rest.drop (spanLength Char.isDigit rest) →
      cs.length ≤ tail.length ∧ (cs.length = tail.length → other = raw)) :
    IsLongest (c :: rest) raw
      (c :: rest.take (spanLength Char.isDigit rest + tail.length)) := by
  have hle := spanLength_le Char.isDigit rest
  have hlength := hbegins.length_le
  rw [List.length_drop] at hlength
  refine .of_fits ?_ (by omega) ?_
  · refine (Fits.number hc ?_ (all_take_spanLength _ rest) htail).matches
    rw [List.take_add, ← List.prefix_iff_eq_take.mp hbegins]
  · intro other cs hother hcs
    rw [firstClass_digit hc] at hother
    rcases hother.number_cases hcs with hshort | ⟨cs', hcs', hbegins', hcsLength⟩
    · exact ⟨by omega, fun heq => by omega⟩
    · obtain ⟨hle', heq⟩ := hbound other cs' hcs' hbegins'
      exact ⟨by omega, fun h => .inl (heq (by omega))⟩

/-- What the exception says of a text, in terms of what follows its first digits. -/
theorem BrokenExponent.drop_eq {digits later : List Char} (h : BrokenExponent digits later)
    (htext : c :: rest = digits ++ '.' :: later) :
    rest.drop (spanLength Char.isDigit rest) = '.' :: later := by
  obtain ⟨hne, hall⟩ := WordPattern.matches_digits.mp h.digits
  obtain ⟨d, digits, rfl⟩ := List.exists_cons_of_ne_nil hne
  rw [List.cons_append, List.cons.injEq] at htext
  rw [List.all_cons, Bool.and_eq_true] at hall
  rw [htext.2, drop_spanLength]
  exact dropWhile_append_of_all hall.2 fun d hd => by cases hd; rfl

/-- A text that begins with an exponent, or with a broken one, begins with no digit. -/
theorem spanLength_of_opensExponent {text : List Char} (h : opensExponent text = true) :
    spanLength Char.isDigit text = 0 := by
  refine spanLength_of_stopsAt fun d hd => ?_
  cases text with
  | nil => cases hd
  | cons e later =>
      cases hd
      simp only [opensExponent, Bool.or_eq_true, beq_iff_eq] at h
      rcases h with rfl | rfl <;> rfl

theorem opensExponent_of_beginning {cs text : List Char} (h : WordPattern.exponent.Matches cs)
    (hbegins : cs <+: text) : opensExponent text = true := by
  obtain ⟨letter, rest, rfl, hletter, -⟩ := WordPattern.matches_exponent.mp h
  obtain ⟨later, rfl⟩ := hbegins
  exact hletter

/-- A dot is no exponent. -/
theorem not_exponent_dot {cs later : List Char} (h : WordPattern.exponent.Matches cs) :
    ¬cs <+: '.' :: later := by
  intro hbegins
  cases opensExponent_of_beginning h hbegins

/-- Digits before two dots are matched with the dots. -/
theorem rawAt_range {later : List Char} (hc : c.isDigit = true)
    (hrest : rest.drop (spanLength Char.isDigit rest) = '.' :: '.' :: later) :
    RawAt (c :: rest) .range (c :: rest.take (spanLength Char.isDigit rest + 2)) := by
  refine .longest (isLongest_number hc .dots ?_ ?_) ?_
  · rw [hrest]
    exact List.prefix_append ['.', '.'] later
  · intro other cs hother hbegins
    rw [hrest] at hbegins
    cases hother with
    | whole | dot => exact ⟨by simp, fun heq => by simp at heq⟩
    | exponent h => exact absurd hbegins (not_exponent_dot h)
    | dotExponent h => exact absurd (List.cons_prefix_cons.mp hbegins).2 (not_exponent_dot h)
    | fraction h =>
        refine absurd ?_ (length_le_fractionLength h (List.cons_prefix_cons.mp hbegins).2).2
        exact spanLength_of_stopsAt fun d hd => by cases hd; rfl
    | dots => exact ⟨Nat.le_refl _, fun _ => rfl⟩
  · intro digits after htext hbroken
    have hdrop := hbroken.drop_eq htext
    rw [hrest, List.cons.injEq] at hdrop
    have hletter := hbroken.letter
    rw [← hdrop.2] at hletter
    cases hletter

/-- What follows a single dot after digits is a fraction, an exponent, or nothing that belongs to
the number. -/
theorem dotTail_bound {later : List Char} (hdots : ∀ more, later ≠ '.' :: more) {other : Raw}
    {cs : List Char} (h : NumberTail other cs) (hbegins : cs <+: '.' :: later) :
    cs.length ≤ 1 + fractionLength later ∧
      (cs.length = 1 + fractionLength later → other = .word .realLit) := by
  cases h with
  | whole => exact ⟨by simp, fun heq => by simp at heq; omega⟩
  | exponent hexponent => exact absurd hbegins (not_exponent_dot hexponent)
  | dotExponent hexponent =>
      have hbegins := (List.cons_prefix_cons.mp hbegins).2
      have hzero := spanLength_of_opensExponent (opensExponent_of_beginning hexponent hbegins)
      have hle := length_le_exponentLength hexponent hbegins
      rw [fractionLength, hzero, List.drop_zero, List.length_cons]
      exact ⟨by omega, fun _ => rfl⟩
  | fraction hfraction =>
      have hle := (length_le_fractionLength hfraction (List.cons_prefix_cons.mp hbegins).2).1
      rw [List.length_cons]
      exact ⟨by omega, fun _ => rfl⟩
  | dot => exact ⟨by simp, fun _ => rfl⟩
  | dots =>
      obtain ⟨more, hmore⟩ := (List.cons_prefix_cons.mp hbegins).2
      exact absurd hmore.symm (hdots more)

/-- Whether a text that follows a dot begins with the letter of an exponent, but with no exponent
and no digit. -/
def breaksOff (later : List Char) : Bool :=
  spanLength Char.isDigit later = 0 &&
    exponentLength (later.drop (spanLength Char.isDigit later)) = 0 && opensExponent later

theorem breaksOff_iff {digits later : List Char} (h : WordPattern.digits.Matches digits) :
    breaksOff later = true ↔ BrokenExponent digits later := by
  simp only [breaksOff, Bool.and_eq_true, decide_eq_true_eq]
  constructor
  · rintro ⟨⟨hdigits, hexponent⟩, hopens⟩
    rw [hdigits, List.drop_zero] at hexponent
    refine ⟨h, hopens, fun cs hcs hbegins => ?_⟩
    have hle := length_le_exponentLength hcs hbegins
    have hpos := List.length_pos_iff.mpr (isDigit_of_exponent hcs).2
    omega
  · intro hbroken
    have hzero := spanLength_of_opensExponent hbroken.letter
    refine ⟨⟨hzero, ?_⟩, hbroken.letter⟩
    rw [hzero, List.drop_zero]
    rcases Nat.eq_zero_or_pos (exponentLength later) with heq | hpos
    · exact heq
    · have htake := (exponent_take (Nat.ne_of_gt hpos)).1
      exact absurd (List.take_prefix _ _) (hbroken.broken _ htake)

/-- The tail that is found after a single dot. -/
theorem dotTail_take (later : List Char) :
    NumberTail (.word .realLit) ('.' :: later.take (fractionLength later)) ∧
      fractionLength later ≤ later.length := by
  by_cases hdigits : spanLength Char.isDigit later = 0
  · rw [fractionLength, hdigits, List.drop_zero, Nat.zero_add]
    by_cases hexponent : exponentLength later = 0
    · rw [hexponent]
      exact ⟨.dot, Nat.zero_le _⟩
    · obtain ⟨htake, hle⟩ := exponent_take hexponent
      exact ⟨.dotExponent htake, hle⟩
  · obtain ⟨htake, hle⟩ := fraction_take hdigits
    exact ⟨.fraction htake, hle⟩

/-- Digits before a single dot are matched with the dot, as an integer if an exponent breaks off
there and otherwise as a real, with its fraction and its exponent. -/
theorem rawAt_dot {later : List Char} (hc : c.isDigit = true)
    (hrest : rest.drop (spanLength Char.isDigit rest) = '.' :: later)
    (hdots : ∀ more, later ≠ '.' :: more) :
    if breaksOff later then
      RawAt (c :: rest) (.word .intLit) (c :: rest.take (spanLength Char.isDigit rest + 1))
    else
      RawAt (c :: rest) (.word .realLit)
        (c :: rest.take (spanLength Char.isDigit rest + 1 + fractionLength later)) := by
  have hdigits : WordPattern.digits.Matches (c :: rest.take (spanLength Char.isDigit rest)) :=
    WordPattern.matches_digits.mpr ⟨by simp, by rw [List.all_cons, hc, all_take_spanLength]; rfl⟩
  split
  · rename_i hbroken
    -- the exception: an exponent is begun behind the dot and has no digits
    have htext : c :: rest = (c :: rest.take (spanLength Char.isDigit rest)) ++ '.' :: later := by
      rw [← hrest, List.cons_append, List.take_append_drop]
    have hword : c :: rest.take (spanLength Char.isDigit rest + 1) =
        (c :: rest.take (spanLength Char.isDigit rest)) ++ ['.'] := by
      rw [List.take_add, hrest]
      rfl
    rw [hword]
    exact .brokenExponent htext ((breaksOff_iff hdigits).mp hbroken)
  · rename_i hsound
    obtain ⟨htail, hle⟩ := dotTail_take later
    have hlength : ('.' :: later.take (fractionLength later)).length =
        1 + fractionLength later := by
      rw [List.length_cons, List.length_take, Nat.min_eq_left hle, Nat.add_comm]
    rw [Nat.add_assoc, ← hlength]
    refine .longest (isLongest_number hc htail ?_ ?_) ?_
    · rw [hrest]
      exact List.cons_prefix_cons.mpr ⟨rfl, List.take_prefix _ _⟩
    · intro other cs hother hbegins
      rw [hrest] at hbegins
      rw [hlength]
      exact dotTail_bound hdots hother hbegins
    · intro digits after htext hbroken
      have hdrop := hbroken.drop_eq htext
      rw [hrest, List.cons.injEq] at hdrop
      exact hsound (hdrop.2 ▸ (breaksOff_iff hbroken.digits).mpr hbroken)

/-- Digits without a dot are matched as an integer, or with an exponent as a real. -/
theorem rawAt_dotless (hc : c.isDigit = true)
    (hrest : ∀ later, rest.drop (spanLength Char.isDigit rest) ≠ '.' :: later) :
    if exponentLength (rest.drop (spanLength Char.isDigit rest)) = 0 then
      RawAt (c :: rest) (.word .intLit) (c :: rest.take (spanLength Char.isDigit rest))
    else
      RawAt (c :: rest) (.word .realLit) (c :: rest.take (spanLength Char.isDigit rest +
        exponentLength (rest.drop (spanLength Char.isDigit rest)))) := by
  have hexception : ∀ digits after, c :: rest = digits ++ '.' :: after →
      ¬BrokenExponent digits after := fun digits after htext hbroken =>
    hrest _ (hbroken.drop_eq htext)
  -- all other patterns would have to go on with a dot
  have hdotless : ∀ {cs : List Char}, ¬ '.' :: cs <+: rest.drop (spanLength Char.isDigit rest) := by
    rintro cs ⟨later, hlater⟩
    exact hrest _ hlater.symm
  split
  · rename_i hzero
    refine .longest (isLongest_number hc .whole List.nil_prefix ?_) hexception
    intro other cs hother hbegins
    cases hother with
    | whole => exact ⟨Nat.le_refl _, fun _ => rfl⟩
    | exponent h =>
        have hle := length_le_exponentLength h hbegins
        have hpos := List.length_pos_iff.mpr (isDigit_of_exponent h).2
        omega
    | dotExponent | fraction | dot | dots => exact absurd hbegins hdotless
  · rename_i hne
    obtain ⟨htake, hle⟩ := exponent_take hne
    have hlength : ((rest.drop (spanLength Char.isDigit rest)).take
        (exponentLength (rest.drop (spanLength Char.isDigit rest)))).length =
        exponentLength (rest.drop (spanLength Char.isDigit rest)) := by
      rw [List.length_take, Nat.min_eq_left hle]
    rw [← hlength]
    refine .longest (isLongest_number hc (.exponent htake) (List.take_prefix _ _) ?_) hexception
    intro other cs hother hbegins
    rw [hlength]
    cases hother with
    | whole => exact ⟨Nat.zero_le _, fun heq => absurd heq.symm hne⟩
    | exponent h => exact ⟨length_le_exponentLength h hbegins, fun _ => rfl⟩
    | dotExponent | fraction | dot | dots => exact absurd hbegins hdotless

/-- What is found after a digit is the longest match, unless that is a range. -/
theorem rawAt_number (hc : c.isDigit = true) :
    RawAt (c :: rest) (.word (munchNumber rest).1) (c :: rest.take (munchNumber rest).2) ∨
      ∃ digits later, WordPattern.digits.Matches digits ∧
        c :: rest = digits ++ '.' :: '.' :: later ∧
        RawAt (c :: rest) .range (digits ++ ['.', '.']) := by
  unfold munchNumber
  dsimp only
  -- two dots make a range, one dot makes a real, and without a dot the exponent decides
  split
  · rename_i later hrest
    have hword : c :: rest.take (spanLength Char.isDigit rest + 2) =
        (c :: rest.take (spanLength Char.isDigit rest)) ++ ['.', '.'] := by
      rw [List.take_add, hrest]
      rfl
    refine .inr ⟨c :: rest.take (spanLength Char.isDigit rest), later, ?_, ?_,
      hword ▸ rawAt_range hc hrest⟩
    · exact WordPattern.matches_digits.mpr
        ⟨by simp, by rw [List.all_cons, hc, all_take_spanLength]; rfl⟩
    · rw [← hrest, List.cons_append, List.take_append_drop]
  · rename_i later hdots hrest
    have hdot := rawAt_dot hc hrest hdots
    left
    unfold breaksOff at hdot
    split
    · rename_i hbroken
      rwa [if_pos hbroken] at hdot
    · rename_i hsound
      rw [if_neg hsound, fractionLength, ← Nat.add_assoc] at hdot
      exact hdot
  · rename_i hdots hdot
    have hdotless := rawAt_dotless hc hdot
    left
    split
    · rename_i hzero
      rwa [if_pos hzero] at hdotless
    · rename_i hne
      rwa [if_neg hne] at hdotless

/-! ### Strings -/

/-- A string with its end quote, at the beginning of a text that follows its first quote. -/
theorem length_of_closed {inside : List Char} (hinside : inside.all (· != '"') = true)
    (hbegins : inside ++ ['"'] <+: rest) :
    spanLength (· != '"') rest = inside.length ∧ inside.length < rest.length := by
  obtain ⟨later, rfl⟩ := hbegins
  have hstop : StopsAt (· != '"') ['"'] := by
    intro d hd
    cases hd
    rfl
  rw [List.append_assoc]
  refine ⟨(drop_spanLength_append hinside hstop (by simp) later).1, ?_⟩
  simp only [List.length_append, List.length_cons]
  omega

theorem rawAt_string (h : spanLength (· != '"') rest < rest.length) :
    RawAt ('"' :: rest) (.word .stringLit)
      ('"' :: rest.take (spanLength (· != '"') rest + 1)) := by
  obtain ⟨inside, hinside, hquote⟩ := (Munched.string rfl h).quoted
  obtain ⟨-, hinside⟩ := List.cons.inj hinside
  have hall : inside.all (· != '"') = true := by
    rw [List.all_eq_true]
    intro d hd
    have hne : d ≠ '"' := fun heq => hquote (heq ▸ hd)
    simpa using hne
  refine .of_longest (by decide) (.of_fits ?_ h ?_)
  · exact (Fits.string rfl hinside hall).matches
  · intro other cs hother hbegins
    rw [show firstClass '"' = .quote by decide] at hother
    cases hother with
    | string _ hcs hall =>
        rw [hcs] at hbegins
        have hspan := (length_of_closed hall hbegins).1
        rw [hcs, List.length_append, List.length_singleton, hspan]
        exact ⟨Nat.le_refl _, fun _ => .inl rfl⟩
    | openString _ hcs =>
        have hle := length_le_spanLength hcs hbegins
        exact ⟨by omega, fun heq => by omega⟩

/-- A string without an end quote is matched to the end of the text. -/
theorem rawAt_openString (h : ¬spanLength (· != '"') rest < rest.length) :
    RawAt ('"' :: rest) .openString ('"' :: rest) := by
  have hlength : spanLength (· != '"') rest = rest.length :=
    Nat.le_antisymm (spanLength_le _ _) (Nat.le_of_not_lt h)
  have hall := all_take_spanLength (· != '"') rest
  rw [hlength, List.take_length] at hall
  have hlongest : IsLongest ('"' :: rest) .openString ('"' :: rest.take rest.length) := by
    refine .of_fits ?_ (Nat.le_refl _) ?_
    · rw [List.take_length]
      exact (Fits.openString rfl hall).matches
    · intro other cs hother hbegins
      rw [show firstClass '"' = .quote by decide] at hother
      cases hother with
      | string _ hcs hinside =>
          rw [hcs] at hbegins
          have hclosed := length_of_closed hinside hbegins
          omega
      | openString => exact ⟨hbegins.length_le, fun _ => .inl rfl⟩
  rw [List.take_length] at hlongest
  exact .of_longest (by decide) hlongest

/-! ### Symbols and comments -/

/-- A symbol of two characters. -/
theorem rawAt_pair {d : Char} {kind : Kind} (h : symbolOfPair? c d = some kind) :
    RawAt (c :: d :: rest) (.word kind) [c, d] := by
  have hclass := firstClass_pair h
  have hlongest : IsLongest (c :: d :: rest) (.word kind) (c :: (d :: rest).take 1) := by
    refine .of_fits (Fits.pair h rfl).matches (by simp) ?_
    intro other cs hother hbegins
    rw [hclass] at hother
    cases hother with
    | char _ hcs => exact ⟨by simp [hcs], fun heq => by simp [hcs] at heq⟩
    | pair hkind hcs =>
        rw [hcs] at hbegins
        obtain ⟨rfl, -⟩ := List.cons_prefix_cons.mp hbegins
        obtain rfl := Option.some.inj (h.symm.trans hkind)
        exact ⟨by simp [hcs], fun _ => .inl rfl⟩
    | fraction hc hcs =>
        -- Two dots are no fraction.
        subst hc
        have hdigit := (length_le_fractionLength hcs hbegins).2
        rw [spanLength_cons] at hdigit
        unfold symbolOfPair? at h
        split at h <;> simp_all
    | lineComment hc hcs =>
        subst hc hcs
        obtain ⟨rfl, -⟩ := List.cons_prefix_cons.mp hbegins
        cases h
    | comment hc hcs =>
        subst hcs
        obtain ⟨rfl, -⟩ := List.cons_prefix_cons.mp hbegins
        rcases hc with rfl | rfl <;> cases h
  exact .of_longest (by rw [hclass]; decide) hlongest

/-- A symbol of one character, where it clings to nothing. -/
theorem rawAt_char {kind : Kind} (h : symbolOfChar? c = some kind)
    (hstop : StopsAt (clings c) rest) : RawAt (c :: rest) (.word kind) [c] := by
  have hclass := firstClass_symbol h
  have hclings : ∀ {d : Char} {cs : List Char}, d :: cs <+: rest → clings c d = false := by
    rintro d cs ⟨later, rfl⟩
    exact hstop d rfl
  have hlongest : IsLongest (c :: rest) (.word kind) (c :: rest.take 0) := by
    refine .of_fits (Fits.char h rfl).matches (Nat.zero_le _) ?_
    intro other cs hother hbegins
    rw [hclass] at hother
    -- every longer match would begin with a character that clings to this one
    cases hother with
    | char hkind hcs =>
        obtain rfl := Option.some.inj (h.symm.trans hkind)
        exact ⟨by simp [hcs], fun _ => .inl rfl⟩
    | pair hkind hcs =>
        rw [hcs] at hbegins
        have hnone := hclings hbegins
        simp [clings, hkind] at hnone
    | fraction hc hcs =>
        obtain ⟨digits, tail, hdigits, -, rfl⟩ := hcs
        obtain ⟨hne, hall⟩ := WordPattern.matches_digits.mp hdigits
        obtain ⟨d, digits, rfl⟩ := List.exists_cons_of_ne_nil hne
        rw [List.all_cons, Bool.and_eq_true] at hall
        have hnone := hclings hbegins
        simp [clings, hc, hall.1] at hnone
    | lineComment hc hcs =>
        rw [hcs] at hbegins
        have hnone := hclings hbegins
        simp [clings, hc] at hnone
    | comment hc hcs =>
        rw [hcs] at hbegins
        have hnone := hclings hbegins
        rcases hc with rfl | rfl <;> simp [clings] at hnone
  exact .of_longest (by rw [hclass]; decide) hlongest

theorem rawAt_lineComment :
    RawAt ('-' :: '-' :: rest) .lineComment
      ('-' :: ('-' :: rest).take (spanLength (· != '\n') ('-' :: rest))) := by
  have hspan : spanLength (· != '\n') ('-' :: rest) = spanLength (· != '\n') rest + 1 := by
    rw [spanLength_cons]
    rfl
  refine .of_longest (by decide) (.of_fits ?_ (spanLength_le _ _) ?_)
  · rw [hspan, List.take_succ_cons]
    exact (Fits.lineComment rfl rfl (all_take_spanLength _ _)).matches
  · intro other cs hother hbegins
    rw [show firstClass '-' = .symbol by decide] at hother
    cases hother with
    | fraction hc => cases hc
    | comment hc => rcases hc with hc | hc <;> cases hc
    | char _ hcs => exact ⟨by simp [hcs], fun heq => by simp [hcs, hspan] at heq⟩
    | pair hkind hcs =>
        rw [hcs] at hbegins
        obtain ⟨rfl, -⟩ := List.cons_prefix_cons.mp hbegins
        cases hkind
    | lineComment _ hcs hinside =>
        rw [hcs] at hbegins ⊢
        have hle := length_le_spanLength hinside (List.cons_prefix_cons.mp hbegins).2
        rw [hspan, List.length_cons]
        exact ⟨by omega, fun _ => .inl rfl⟩

/-- Of a comment in brackets the opener is matched. -/
theorem rawAt_comment (hc : c = '(' ∨ c = '/') :
    RawAt (c :: '*' :: rest) .commentOpener [c, '*'] := by
  have hclass : firstClass c = .symbol := by
    rcases hc with rfl | rfl <;> decide
  have hlongest : IsLongest (c :: '*' :: rest) .commentOpener (c :: ('*' :: rest).take 1) := by
    refine .of_fits (Fits.comment hc rfl).matches (by simp) ?_
    intro other cs hother hbegins
    rw [hclass] at hother
    cases hother with
    | fraction hdot => rcases hc with rfl | rfl <;> cases hdot
    | lineComment hminus => rcases hc with rfl | rfl <;> cases hminus
    | char _ hcs => exact ⟨by simp [hcs], fun heq => by simp [hcs] at heq⟩
    | pair hkind hcs =>
        rw [hcs] at hbegins
        obtain ⟨rfl, -⟩ := List.cons_prefix_cons.mp hbegins
        rcases hc with rfl | rfl <;> cases hkind
    | comment _ hcs => exact ⟨by simp [hcs], fun _ => .inl rfl⟩
  exact .of_longest (by rw [hclass]; decide) hlongest

/-- A real that begins with its dot. -/
theorem rawAt_fraction {d : Char} (hd : d.isDigit = true) :
    RawAt ('.' :: d :: rest) (.word .realLit)
      ('.' :: (d :: rest).take (fractionLength (d :: rest))) := by
  have hne : spanLength Char.isDigit (d :: rest) ≠ 0 := by
    rw [spanLength_cons, if_pos hd]
    exact Nat.succ_ne_zero _
  obtain ⟨htake, hle⟩ := fraction_take hne
  refine .of_longest (by decide) (.of_fits (Fits.fraction rfl htake).matches hle ?_)
  intro other cs hother hbegins
  rw [show firstClass '.' = .symbol by decide] at hother
  cases hother with
  | lineComment hc => cases hc
  | comment hc => rcases hc with hc | hc <;> cases hc
  | fraction _ hcs => exact ⟨(length_le_fractionLength hcs hbegins).1, fun _ => .inl rfl⟩
  | char _ hcs =>
      rw [hcs, List.length_nil, fractionLength]
      exact ⟨Nat.zero_le _, fun heq => by omega⟩
  | pair hkind hcs =>
      rw [hcs] at hbegins
      obtain ⟨rfl, -⟩ := List.cons_prefix_cons.mp hbegins
      unfold symbolOfPair? at hkind
      split at hkind <;> simp_all

/-- What begins with a character of no class matches nothing. -/
theorem nothing_matches (hc : firstClass c = .nothing) (raw : Raw) (word : List Char)
    (h : raw.pattern.Matches word) : ¬word <+: c :: rest := by
  intro hbegins
  cases word with
  | nil => exact raw.not_matches_nil h
  | cons d cs =>
      obtain ⟨rfl, -⟩ := List.cons_prefix_cons.mp hbegins
      have hfits := fits_of_matches h
      rw [hc] at hfits
      cases hfits

end

end Lustre
