import Lustre.Proofs.Token.Munching

/-!
# The patterns of words

Each sort of word is described by a `WordPattern`: what a keyword or a symbol is spelt
like, seven forms of numbers, strings with and without an end, identifiers, and
what may stand between words.  `Raw.pattern` lists them, independently of the
function that cuts a text into pieces.

`Fits c cs first raw` says the same of a word `c :: cs` by the class of its first
character.  The classes do not overlap, so the first character of a text decides
which patterns can match there at all; that is what comparing the lengths of all
matches rests on.
-/

namespace Lustre

/-! ## Patterns -/

/-- A pattern of characters. -/
inductive WordPattern where
  | never
  | text (word : List Char)
  | one (p : Char → Bool)
  /-- Any number of characters that satisfy `p`. -/
  | many (p : Char → Bool)
  | seq (first second : WordPattern)
  | either (first second : WordPattern)
  | optional (pattern : WordPattern)

namespace WordPattern

/-- The words of a pattern. -/
def Matches : WordPattern → List Char → Prop
  | never, _ => False
  | text word, cs => cs = word
  | one p, cs => ∃ c, p c = true ∧ cs = [c]
  | many p, cs => cs.all p = true
  | seq first second, cs => ∃ a b, first.Matches a ∧ second.Matches b ∧ cs = a ++ b
  | either first second, cs => first.Matches cs ∨ second.Matches cs
  | optional pattern, cs => cs = [] ∨ pattern.Matches cs

/-- One or more characters that satisfy `p`. -/
def run (p : Char → Bool) : WordPattern := .seq (.one p) (.many p)

/-- One or more digits. -/
def digits : WordPattern := run Char.isDigit

/-- A single dot. -/
def dot : WordPattern := .text ['.']

/-- The exponent of a number. -/
def exponent : WordPattern :=
  .seq (.one fun c => c == 'e' || c == 'E')
    (.seq (.optional (.one fun c => c == '+' || c == '-')) digits)

/-- The fraction of a number, after its dot. -/
def fraction : WordPattern := .seq digits (.optional exponent)

/-- The five forms of reals. -/
def real : WordPattern :=
  .either (.seq digits exponent) <|
  .either (.seq digits (.seq dot exponent)) <|
  .either (.seq digits (.seq dot fraction)) <|
  .either (.seq dot fraction) (.seq digits dot)

/-- A string without the quote that ends it. -/
def openString : WordPattern := .seq (.text ['"']) (.many (· != '"'))

/-- A name or a keyword. -/
def identifier : WordPattern := .seq (.one isIdentStart) (.many isIdentRest)

/-- What follows the first `%` of a pragma. -/
def pragmaTail : WordPattern :=
  .seq (.many isBlank) <| .seq identifier <| .seq (.many isBlank) <| .seq (.text [':']) <|
  .seq (.many isBlank) <| .seq identifier <| .seq (.many isBlank) (.text ['%'])

end WordPattern

/-- The sorts of matches of which a text is made up, before some of them are extended or split:
of a comment in brackets only the opener is matched, and a `range` is an integer with the two
dots after it. -/
inductive Raw where
  | word (kind : Kind)
  | range | openString | white | lineComment | commentOpener

namespace Raw

/-- What is matched.  A pragma comes of a `%`, so it has no pattern of its own. -/
def pattern : Raw → WordPattern
  | word .intLit => .digits
  | word .realLit => .real
  | word .stringLit => .seq .openString (.text ['"'])
  | word .ident => .identifier
  | word kind =>
      match kind.spelling? with
      | some spelling => .text spelling.toList
      | none => .never
  | range => .seq .digits (.text ['.', '.'])
  | openString => .openString
  | white => .run isWhite
  | lineComment => .seq (.text ['-', '-']) (.many (· != '\n'))
  | commentOpener => .either (.text ['(', '*']) (.text ['/', '*'])

/-- Whether there is one spelling. -/
def isFixed : Raw → Bool
  | word kind => kind.spelling?.isSome
  | _ => false

end Raw

/-! ## Numbers, strings and names as patterns -/

namespace WordPattern

theorem matches_run {p : Char → Bool} {cs : List Char} :
    (run p).Matches cs ↔ cs ≠ [] ∧ cs.all p = true := by
  constructor
  · rintro ⟨_, rest, ⟨c, hc, rfl⟩, hrest, rfl⟩
    exact ⟨by simp, by rw [List.singleton_append, List.all_cons, hc, hrest]; rfl⟩
  · rintro ⟨hne, hall⟩
    cases cs with
    | nil => exact absurd rfl hne
    | cons c rest =>
        rw [List.all_cons, Bool.and_eq_true] at hall
        exact ⟨[c], rest, ⟨c, hall.1, rfl⟩, hall.2, rfl⟩

theorem matches_digits {cs : List Char} :
    digits.Matches cs ↔ cs ≠ [] ∧ cs.all Char.isDigit = true :=
  matches_run

theorem matches_identifier {cs : List Char} :
    identifier.Matches cs ↔
      ∃ c rest, cs = c :: rest ∧ isIdentStart c = true ∧ rest.all isIdentRest = true := by
  constructor
  · rintro ⟨_, rest, ⟨c, hc, rfl⟩, hrest, rfl⟩
    exact ⟨c, rest, rfl, hc, hrest⟩
  · rintro ⟨c, rest, rfl, hc, hrest⟩
    exact ⟨[c], rest, ⟨c, hc, rfl⟩, hrest, rfl⟩

/-- An exponent is a letter, perhaps a sign, and digits. -/
theorem matches_exponent {cs : List Char} :
    exponent.Matches cs ↔ ∃ letter rest, cs = letter :: rest ∧
      (letter == 'e' || letter == 'E') = true ∧
      (digits.Matches rest ∨ ∃ sign later, rest = sign :: later ∧
        (sign == '+' || sign == '-') = true ∧ digits.Matches later) := by
  constructor
  · rintro ⟨_, rest, ⟨letter, hletter, rfl⟩, ⟨_, later, hsign, hlater, hrest⟩, rfl⟩
    rcases hsign with rfl | ⟨sign, hsign, rfl⟩
    · exact ⟨letter, rest, rfl, hletter, .inl (hrest ▸ hlater)⟩
    · exact ⟨letter, rest, rfl, hletter, .inr ⟨sign, later, hrest, hsign, hlater⟩⟩
  · rintro ⟨letter, rest, rfl, hletter, hrest | ⟨sign, later, rfl, hsign, hlater⟩⟩
    · exact ⟨[letter], rest, ⟨letter, hletter, rfl⟩, ⟨[], rest, .inl rfl, hrest, rfl⟩, rfl⟩
    · exact ⟨[letter], sign :: later, ⟨letter, hletter, rfl⟩,
        ⟨[sign], later, .inr ⟨sign, hsign, rfl⟩, hlater, rfl⟩, rfl⟩

end WordPattern

/-! ## What may follow the digits of a number -/

/-- What follows the first digits in the numbers of one sort. -/
inductive NumberTail : Raw → List Char → Prop
  | whole : NumberTail (.word .intLit) []
  | exponent {cs : List Char} (h : WordPattern.exponent.Matches cs) : NumberTail (.word .realLit) cs
  | dotExponent {cs : List Char} (h : WordPattern.exponent.Matches cs) :
      NumberTail (.word .realLit) ('.' :: cs)
  | fraction {cs : List Char} (h : WordPattern.fraction.Matches cs) :
      NumberTail (.word .realLit) ('.' :: cs)
  | dot : NumberTail (.word .realLit) ['.']
  | dots : NumberTail .range ['.', '.']

/-- What follows the digits of a number does not begin with a digit. -/
theorem NumberTail.stopsAt {raw : Raw} {tail : List Char} (h : NumberTail raw tail) :
    StopsAt Char.isDigit tail := by
  intro d hd
  cases h with
  | whole => cases hd
  | exponent h =>
      obtain ⟨letter, rest, rfl, hletter, -⟩ := WordPattern.matches_exponent.mp h
      cases hd
      simp only [Bool.or_eq_true, beq_iff_eq] at hletter
      rcases hletter with rfl | rfl <;> rfl
  | dotExponent | fraction | dot | dots => cases hd; rfl

/-! ## Matches by their first character -/

/-- What a character can begin. -/
inductive FirstClass where
  | white | letter | digit | quote | symbol | nothing
deriving DecidableEq

/-- The class of a character that begins a match. -/
def firstClass (c : Char) : FirstClass :=
  if isWhite c then .white
  else if isIdentStart c then .letter
  else if c.isDigit then .digit
  else if c = '"' then .quote
  else if (symbolOfChar? c).isSome then .symbol
  else .nothing

theorem firstClass_white {c : Char} (h : isWhite c = true) : firstClass c = .white :=
  if_pos h

theorem firstClass_letter {c : Char} (h : isIdentStart c = true) : firstClass c = .letter := by
  simp [firstClass, isWhite_of_isIdentStart h, h]

theorem firstClass_digit {c : Char} (h : c.isDigit = true) : firstClass c = .digit := by
  simp [firstClass, isWhite_of_isDigit h, isIdentStart_of_isDigit h, h]

theorem firstClass_symbol {c : Char} {kind : Kind} (h : symbolOfChar? c = some kind) :
    firstClass c = .symbol := by
  unfold symbolOfChar? at h
  split at h <;> first | decide | cases h

/-- A symbol of two characters begins like one of one character. -/
theorem firstClass_pair {c d : Char} {kind : Kind} (h : symbolOfPair? c d = some kind) :
    firstClass c = .symbol := by
  unfold symbolOfPair? at h
  split at h <;> first | decide | cases h

/-- `c :: cs` matches the pattern of `raw`. -/
inductive Fits (c : Char) (cs : List Char) : FirstClass → Raw → Prop
  | keyword {kind : Kind} (hkind : kind ∈ Kind.keywords)
      (hspelling : kind.spelling? = some (String.ofList (c :: cs))) (hc : isIdentStart c = true)
      (hcs : cs.all isIdentRest = true) : Fits c cs .letter (.word kind)
  | ident (hc : isIdentStart c = true) (hcs : cs.all isIdentRest = true) :
      Fits c cs .letter (.word .ident)
  | number {raw : Raw} {more tail : List Char} (hc : c.isDigit = true) (hcs : cs = more ++ tail)
      (hmore : more.all Char.isDigit = true) (htail : NumberTail raw tail) : Fits c cs .digit raw
  | fraction (hc : c = '.') (hcs : WordPattern.fraction.Matches cs) :
      Fits c cs .symbol (.word .realLit)
  | string {inside : List Char} (hc : c = '"') (hcs : cs = inside ++ ['"'])
      (hinside : inside.all (· != '"') = true) : Fits c cs .quote (.word .stringLit)
  | openString (hc : c = '"') (hcs : cs.all (· != '"') = true) : Fits c cs .quote .openString
  | char {kind : Kind} (hkind : symbolOfChar? c = some kind) (hcs : cs = []) :
      Fits c cs .symbol (.word kind)
  | pair {kind : Kind} {d : Char} (hkind : symbolOfPair? c d = some kind) (hcs : cs = [d]) :
      Fits c cs .symbol (.word kind)
  | white (hc : isWhite c = true) (hcs : cs.all isWhite = true) : Fits c cs .white .white
  | lineComment {inside : List Char} (hc : c = '-') (hcs : cs = '-' :: inside)
      (hinside : inside.all (· != '\n') = true) : Fits c cs .symbol .lineComment
  | comment (hc : c = '(' ∨ c = '/') (hcs : cs = ['*']) : Fits c cs .symbol .commentOpener

/-- The first character decides which patterns can match. -/
theorem Fits.firstClass_eq {c : Char} {cs : List Char} {first : FirstClass} {raw : Raw}
    (h : Fits c cs first raw) : firstClass c = first := by
  cases h with
  | keyword _ _ hc | ident hc => exact firstClass_letter hc
  | number hc => exact firstClass_digit hc
  | char hkind => exact firstClass_symbol hkind
  | pair hkind => exact firstClass_pair hkind
  | white hc => exact firstClass_white hc
  | fraction hc | string hc | openString hc | lineComment hc => subst hc; decide
  | comment hc => rcases hc with rfl | rfl <;> decide

/-- The pattern of a keyword or a symbol is its spelling. -/
theorem Raw.pattern_of_spelling {kind : Kind} {spelling : String}
    (h : kind.spelling? = some spelling) : (Raw.word kind).pattern = .text spelling.toList := by
  unfold pattern
  split <;> rename_i heq <;> cases heq
  case h_5 => simp [h]
  all_goals cases h

/-- A keyword has the shape of an identifier. -/
theorem isIdentifier_of_keyword {kind : Kind} {spelling : String} (hkind : kind ∈ Kind.keywords)
    (h : kind.spelling? = some spelling) : isIdentifier spelling = true := by
  have hall : ∀ kind ∈ Kind.keywords, ∀ word ∈ kind.spelling?, isIdentifier word = true := by
    decide +kernel
  exact hall kind hkind spelling h

/-- The first digits of a number and what follows them. -/
private theorem fits_number {raw : Raw} {c : Char} {cs first tail : List Char}
    (h : WordPattern.digits.Matches first) (hcs : c :: cs = first ++ tail)
    (htail : NumberTail raw tail) : Fits c cs .digit raw := by
  obtain ⟨hne, hall⟩ := WordPattern.matches_digits.mp h
  cases first with
  | nil => exact absurd rfl hne
  | cons d more =>
      obtain ⟨rfl, hmore⟩ := List.cons.inj hcs
      rw [List.all_cons, Bool.and_eq_true] at hall
      exact .number hall.1 hmore hall.2 htail

/-- The pattern of a keyword or a symbol, by its first character. -/
private theorem fits_of_spelling {kind : Kind} {c : Char} {cs : List Char}
    (h : kind.spelling? = some (String.ofList (c :: cs))) :
    ∃ first, Fits c cs first (.word kind) := by
  have hdescribe : kind.describe.toList = c :: cs := by
    rw [Kind.describe_of_spelling h, String.toList_ofList]
  rcases Kind.fixed_cases (Option.isSome_of_eq_some h) with
    hkeyword | ⟨-, ⟨d, hd, hkind⟩ | ⟨d, e, hd, hkind⟩⟩
  · have hmem := List.contains_iff_mem.mp hkeyword
    have hshape := isIdentifier_of_keyword hmem h
    rw [isIdentifier, String.toList_ofList, Bool.and_eq_true] at hshape
    exact ⟨_, .keyword hmem h hshape.1 hshape.2⟩
  · rw [hdescribe, List.cons.injEq] at hd
    obtain ⟨rfl, rfl⟩ := hd
    exact ⟨_, .char hkind rfl⟩
  · rw [hdescribe, List.cons.injEq] at hd
    obtain ⟨rfl, rfl⟩ := hd
    exact ⟨_, .pair hkind rfl⟩

/-- No pattern matches the empty word. -/
theorem Raw.not_matches_nil (raw : Raw) : ¬raw.pattern.Matches [] := by
  have hdigits : ∀ first rest : List Char, WordPattern.digits.Matches first →
      [] ≠ first ++ rest := by
    intro first rest h heq
    exact (WordPattern.matches_digits.mp h).1 (List.append_eq_nil_iff.mp heq.symm).1
  intro h
  -- one case for each pattern
  unfold pattern at h
  split at h
  · exact (WordPattern.matches_digits.mp h).1 rfl
  · rcases h with ⟨a, b, ha, -, heq⟩ | ⟨a, b, ha, -, heq⟩ | ⟨a, b, ha, -, heq⟩ |
      ⟨a, b, ha, -, heq⟩ | ⟨a, b, ha, -, heq⟩
    · exact hdigits a b ha heq
    · exact hdigits a b ha heq
    · exact hdigits a b ha heq
    · obtain rfl : a = ['.'] := ha
      cases heq
    · exact hdigits a b ha heq
  · obtain ⟨a, b, -, rfl, heq⟩ := h
    simp at heq
  · obtain ⟨c, rest, heq, -⟩ := WordPattern.matches_identifier.mp h
    cases heq
  · split at h
    · rename_i spelling hspelling
      have hall : ∀ kind : Kind, kind.spelling? ≠ some "" := by intro kind; cases kind <;> decide
      have hempty : spelling = "" := String.toList_eq_nil_iff.mp (Eq.symm h)
      exact hall _ (hempty ▸ hspelling)
    · exact h
  · obtain ⟨a, b, ha, -, heq⟩ := h
    exact hdigits a b ha heq
  · obtain ⟨a, b, rfl, -, heq⟩ := h
    cases heq
  · exact (WordPattern.matches_run.mp h).1 rfl
  · obtain ⟨a, b, rfl, -, heq⟩ := h
    cases heq
  · rcases h with h | h <;> cases h

/-- A match by its first character. -/
theorem fits_of_matches {raw : Raw} {c : Char} {cs : List Char}
    (h : raw.pattern.Matches (c :: cs)) : Fits c cs (firstClass c) raw := by
  have hhere : (∃ first, Fits c cs first raw) → Fits c cs (firstClass c) raw := by
    rintro ⟨first, hfits⟩
    exact hfits.firstClass_eq ▸ hfits
  apply hhere
  -- one case for each pattern
  unfold Raw.pattern at h
  split at h
  · exact ⟨_, fits_number h (List.append_nil _).symm .whole⟩
  · rcases h with ⟨a, b, ha, hb, heq⟩ | ⟨a, _, ha, ⟨_, b, rfl, hb, rfl⟩, heq⟩ |
      ⟨a, _, ha, ⟨_, b, rfl, hb, rfl⟩, heq⟩ | ⟨a, b, rfl, hb, heq⟩ | ⟨a, b, ha, rfl, heq⟩
    · exact ⟨_, fits_number ha heq (.exponent hb)⟩
    · exact ⟨_, fits_number ha heq (.dotExponent hb)⟩
    · exact ⟨_, fits_number ha heq (.fraction hb)⟩
    · obtain ⟨rfl, rfl⟩ := List.cons.inj heq
      exact ⟨_, .fraction rfl hb⟩
    · exact ⟨_, fits_number ha heq .dot⟩
  · obtain ⟨_, _, ⟨_, inside, rfl, hinside, rfl⟩, rfl, heq⟩ := h
    obtain ⟨rfl, rfl⟩ := List.cons.inj heq
    exact ⟨_, .string rfl rfl hinside⟩
  · obtain ⟨d, rest, heq, hd, hrest⟩ := WordPattern.matches_identifier.mp h
    obtain ⟨rfl, rfl⟩ := List.cons.inj heq
    exact ⟨_, .ident hd hrest⟩
  · split at h
    · rename_i spelling hspelling
      refine fits_of_spelling ?_
      rw [hspelling, show c :: cs = spelling.toList from h, String.ofList_toList]
    · exact absurd h id
  · obtain ⟨a, b, ha, rfl, heq⟩ := h
    exact ⟨_, fits_number ha heq .dots⟩
  · obtain ⟨_, inside, rfl, hinside, heq⟩ := h
    obtain ⟨rfl, rfl⟩ := List.cons.inj heq
    exact ⟨_, .openString rfl hinside⟩
  · obtain ⟨-, hall⟩ := WordPattern.matches_run.mp h
    rw [List.all_cons, Bool.and_eq_true] at hall
    exact ⟨_, .white hall.1 hall.2⟩
  · obtain ⟨_, inside, rfl, hinside, heq⟩ := h
    obtain ⟨rfl, rfl⟩ := List.cons.inj heq
    exact ⟨_, .lineComment rfl rfl hinside⟩
  · rcases h with h | h
    · obtain ⟨rfl, rfl⟩ := List.cons.inj h
      exact ⟨_, .comment (.inl rfl) rfl⟩
    · obtain ⟨rfl, rfl⟩ := List.cons.inj h
      exact ⟨_, .comment (.inr rfl) rfl⟩

/-- What fits by its first character is a match. -/
theorem Fits.matches {raw : Raw} {first : FirstClass} {c : Char} {cs : List Char}
    (h : Fits c cs first raw) : raw.pattern.Matches (c :: cs) := by
  -- a word with one spelling is its own pattern
  have hspelt : ∀ {kind : Kind}, kind.spelling? = some (String.ofList (c :: cs)) →
      (Raw.word kind).pattern.Matches (c :: cs) := by
    intro kind hspelling
    rw [Raw.pattern_of_spelling hspelling, String.toList_ofList]
    rfl
  cases h with
  | keyword hkind hspelling hc hcs => exact hspelt hspelling
  | ident hc hcs => exact WordPattern.matches_identifier.mpr ⟨c, cs, rfl, hc, hcs⟩
  | number hc hcs hmore htail =>
      rename_i more tail
      have hfirst : WordPattern.digits.Matches (c :: more) :=
        WordPattern.matches_digits.mpr ⟨by simp, by rw [List.all_cons, hc, hmore]; rfl⟩
      have hsplit : c :: cs = (c :: more) ++ tail := by rw [hcs, List.cons_append]
      cases htail with
      | whole => rwa [hsplit, List.append_nil]
      | exponent h => exact .inl ⟨_, _, hfirst, h, hsplit⟩
      | dotExponent h => exact .inr (.inl ⟨_, _, hfirst, ⟨_, _, rfl, h, rfl⟩, hsplit⟩)
      | fraction h => exact .inr (.inr (.inl ⟨_, _, hfirst, ⟨_, _, rfl, h, rfl⟩, hsplit⟩))
      | dot => exact .inr (.inr (.inr (.inr ⟨_, _, hfirst, rfl, hsplit⟩)))
      | dots => exact ⟨_, _, hfirst, rfl, hsplit⟩
  | fraction hc hcs => exact .inr (.inr (.inr (.inl ⟨_, _, rfl, hcs, by rw [hc]; rfl⟩)))
  | string hc hcs hinside => exact ⟨_, _, ⟨_, _, rfl, hinside, rfl⟩, rfl, by rw [hc, hcs]; rfl⟩
  | openString hc hcs => exact ⟨_, _, rfl, hcs, by rw [hc]; rfl⟩
  | char hkind hcs => exact hspelt (hcs ▸ spelling_of_symbolOfChar? hkind)
  | pair hkind hcs => exact hspelt (hcs ▸ spelling_of_symbolOfPair? hkind)
  | white hc hcs =>
      exact WordPattern.matches_run.mpr ⟨by simp, by rw [List.all_cons, hc, hcs]; rfl⟩
  | lineComment hc hcs hinside => exact ⟨_, _, rfl, hinside, by rw [hc, hcs]; rfl⟩
  | comment hc hcs =>
      rcases hc with rfl | rfl
      · exact .inl (by rw [hcs]; rfl)
      · exact .inr (by rw [hcs]; rfl)

end Lustre
