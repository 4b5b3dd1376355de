import Lustre.Proofs.Token.Kinds

/-!
# Cutting a word off again

A word that was printed is cut off as the same word when what follows it does not go
on with it.  For each class of words this says what may not follow:

* after a name or a keyword, nothing that an identifier goes on with;
* after a number, also no `.`;
* after a symbol, nothing that it `clings` to;
* after a string or a pragma, anything may follow.
-/

namespace Lustre

attribute [grind =] munch munchNumber exponentLength

/-- In front of `after`, `text` is cut off as a word of one kind. -/
def Munches (kind : Kind) (text : String) (after : List Char) : Prop :=
  ∃ c rest, text.toList = c :: rest ∧ munch c (rest ++ after) = .token kind rest.length

/-- Whether a text is the whole of one word of a kind. -/
def isWhole (kind : Kind) (text : String) : Bool :=
  match text.toList with
  | c :: rest => munch c rest == .token kind rest.length
  | [] => false

/-- Whether a text has the shape of an identifier, which keywords have too. -/
def isIdentifier (text : String) : Bool :=
  match text.toList with
  | c :: rest => isIdentStart c && rest.all isIdentRest
  | [] => false

/-- Whether a text is made of digits. -/
def isDigits (text : String) : Bool := !text.toList.isEmpty && text.toList.all Char.isDigit

/-- The text does not go on with a character that satisfies `p`. -/
def StopsAt (p : Char → Bool) (after : List Char) : Prop := ∀ d, after.head? = some d → p d = false

/-! ## Classes of characters -/

theorem isWhite_iff {c : Char} : isWhite c = true ↔
    c = ' ' ∨ c = '\t' ∨ c = '\n' ∨ c = '\r' ∨ c = '\x0B' := by
  simp [isWhite, or_assoc]

theorem isBlank_iff {c : Char} : isBlank c = true ↔ c = ' ' ∨ c = '\t' := by
  simp [isBlank]

theorem isWhite_of_isBlank {c : Char} (h : isBlank c = true) : isWhite c = true := by
  rw [isBlank_iff] at h
  rw [isWhite_iff]
  rcases h with rfl | rfl
  · exact .inl rfl
  · exact .inr (.inl rfl)

theorem isIdentRest_of_isDigit {c : Char} (h : c.isDigit = true) : isIdentRest c = true := by
  simp [isIdentRest, Char.isAlphanum, h]

theorem isIdentRest_of_isIdentStart {c : Char} (h : isIdentStart c = true) :
    isIdentRest c = true := by
  simp only [isIdentStart, Bool.or_eq_true] at h
  rcases h with h | h <;> simp [isIdentRest, Char.isAlphanum, h]

theorem isWhite_of_isIdentRest {c : Char} (h : isIdentRest c = true) : isWhite c = false := by
  cases hwhite : isWhite c with
  | false => rfl
  | true =>
      rcases isWhite_iff.mp hwhite with rfl | rfl | rfl | rfl | rfl <;> exact absurd h (by decide)

theorem isWhite_of_isIdentStart {c : Char} (h : isIdentStart c = true) : isWhite c = false :=
  isWhite_of_isIdentRest (isIdentRest_of_isIdentStart h)

theorem isWhite_of_isDigit {c : Char} (h : c.isDigit = true) : isWhite c = false :=
  isWhite_of_isIdentRest (isIdentRest_of_isDigit h)

theorem isIdentStart_of_isDigit {c : Char} (h : c.isDigit = true) : isIdentStart c = false := by
  simp only [Char.isDigit, Bool.and_eq_true, decide_eq_true_eq] at h
  cases hstart : isIdentStart c with
  | false => rfl
  | true =>
      rcases (Bool.or_eq_true _ _).mp hstart with hletter | hline
      · rcases (Bool.or_eq_true _ _).mp
          (hletter : (c.isUpper || c.isLower) = true) with hcase | hcase
        · exact absurd (UInt32.le_trans (of_decide_eq_true hcase).1 h.2) (by decide)
        · have hlower := ((Bool.and_eq_true _ _).mp hcase).1
          exact absurd (UInt32.le_trans (of_decide_eq_true hlower) h.2) (by decide)
      · obtain rfl := eq_of_beq hline
        exact absurd h.2 (by decide)

/-! ## Runs of characters -/

theorem StopsAt.mono {p q : Char → Bool} {after : List Char} (h : StopsAt p after)
    (hpq : ∀ d, q d = true → p d = true) : StopsAt q after := by
  intro d hd
  cases hq : q d with
  | false => rfl
  | true =>
      have hp := hpq d hq
      rw [h d hd] at hp
      cases hp

/-- A run of characters ends at the latest where the text does not go on with it. -/
theorem spanLength_append {p : Char → Bool} {after : List Char} (h : StopsAt p after)
    (text : List Char) : spanLength p (text ++ after) = spanLength p text := by
  induction text with
  | nil =>
      cases after with
      | nil => rfl
      | cons d after => simp [spanLength_cons, h d rfl]
  | cons c text ih =>
      rw [List.cons_append, spanLength_cons, spanLength_cons, ih]

theorem spanLength_of_all {p : Char → Bool} {text : List Char} (h : text.all p = true) :
    spanLength p text = text.length := by
  induction text with
  | nil => rfl
  | cons c text ih =>
      rw [List.all_cons, Bool.and_eq_true] at h
      rw [spanLength_cons, if_pos h.1, ih h.2, List.length_cons]

theorem spanLength_le (p : Char → Bool) (text : List Char) : spanLength p text ≤ text.length :=
  (List.takeWhile_prefix p).length_le

/-- A run that takes up a whole text is followed by what comes after the text. -/
theorem dropWhile_append_of_all {p : Char → Bool} {text after : List Char}
    (h : text.all p = true) (hstop : StopsAt p after) : (text ++ after).dropWhile p = after := by
  rw [← drop_spanLength, spanLength_append hstop, spanLength_of_all h, List.drop_left]

/-! ## Names, keywords and integers -/

/-- A text that has the shape of an identifier is cut off as a keyword or an identifier. -/
theorem munches_word {text : String} {after : List Char} (h : isIdentifier text = true)
    (hstop : StopsAt isIdentRest after) : Munches (Kind.ofWord text) text after := by
  unfold isIdentifier at h
  split at h
  · rename_i c rest htext
    rw [Bool.and_eq_true] at h
    have hspan : spanLength isIdentRest (rest ++ after) = rest.length := by
      rw [spanLength_append hstop, spanLength_of_all h.2]
    refine ⟨c, rest, htext, ?_⟩
    simp only [munch, isWhite_of_isIdentStart h.1, h.1, if_true, hspan, List.take_left,
      ← htext, String.ofList_toList, Bool.false_eq_true, if_false]
  · cases h

/-- A name that is no keyword is cut off as an identifier. -/
theorem munches_ident {name : String} {after : List Char} (h : isIdentifier name = true)
    (hkeyword : isKeyword name = false) (hstop : StopsAt isIdentRest after) :
    Munches .ident name after := by
  have hkind : Kind.ofWord name = .ident := by
    have hnone : Kind.keywords.find? (fun kind => kind.spelling? == some name) = none := by
      rw [List.find?_eq_none]
      simpa [isKeyword] using hkeyword
    rw [Kind.ofWord, hnone, Option.getD_none]
  exact hkind ▸ munches_word h hstop

/-- A keyword is cut off as itself. -/
theorem munches_keyword {kind : Kind} {after : List Char} (h : kind ∈ Kind.keywords)
    (hstop : StopsAt isIdentRest after) : Munches kind kind.describe after := by
  have hshape : isIdentifier kind.describe = true ∧ Kind.ofWord kind.describe = kind := by
    revert kind
    decide +kernel
  have hmunches := munches_word hshape.1 hstop
  rwa [hshape.2] at hmunches

/-- What does not belong to a number. -/
def endsNumber (d : Char) : Bool := isIdentRest d || d == '.'

theorem endsNumber_of_isIdentRest {d : Char} (h : isIdentRest d = true) : endsNumber d = true := by
  rw [endsNumber, h, Bool.true_or]

theorem endsNumber_of_isDigit {d : Char} (h : d.isDigit = true) : endsNumber d = true :=
  endsNumber_of_isIdentRest (isIdentRest_of_isDigit h)

/-- No exponent follows a number. -/
theorem opensExponent_of_stopsAt {after : List Char} (hstop : StopsAt isIdentRest after) :
    opensExponent after = false := by
  cases after with
  | nil => rfl
  | cons d after =>
      have hd := hstop d rfl
      cases hopens : opensExponent (d :: after) with
      | false => rfl
      | true =>
          simp only [opensExponent, Bool.or_eq_true, beq_iff_eq] at hopens
          rcases hopens with rfl | rfl <;> exact absurd hd (by decide)

theorem munchNumber_digits {rest after : List Char} (h : rest.all Char.isDigit = true)
    (hstop : StopsAt endsNumber after) : munchNumber (rest ++ after) = (.intLit, rest.length) := by
  have hdigit : StopsAt Char.isDigit after :=
    hstop.mono fun _ => endsNumber_of_isDigit
  have hspan : spanLength Char.isDigit (rest ++ after) = rest.length := by
    rw [spanLength_append hdigit, spanLength_of_all h]
  have hexponent : exponentLength after = 0 := by
    rw [exponentLength, opensExponent_of_stopsAt (hstop.mono fun _ => endsNumber_of_isIdentRest)]
    rfl
  unfold munchNumber
  simp only [hspan, List.drop_left]
  split
  · exact absurd (hstop '.' rfl) (by decide)
  · exact absurd (hstop '.' rfl) (by decide)
  · rw [hexponent]
    rfl

/-- Digits are cut off as an integer. -/
theorem munches_digits {digits : String} {after : List Char} (h : isDigits digits = true)
    (hstop : StopsAt endsNumber after) : Munches .intLit digits after := by
  simp only [isDigits, Bool.and_eq_true, Bool.not_eq_true', List.isEmpty_eq_false_iff] at h
  obtain ⟨c, rest, htext⟩ := List.exists_cons_of_ne_nil h.1
  rw [htext, List.all_cons, Bool.and_eq_true] at h
  refine ⟨c, rest, htext, ?_⟩
  simp only [munch, isWhite_of_isDigit h.2.1, isIdentStart_of_isDigit h.2.1, h.2.1, if_true,
    munchNumber_digits h.2.2 hstop, Bool.false_eq_true, if_false]

/-! ## Reals -/

/-- An exponent that takes up a whole text is not changed by what follows the text. -/
theorem exponentLength_append {text after : List Char} (h : exponentLength text = text.length)
    (hstop : StopsAt isIdentRest after) : exponentLength (text ++ after) = text.length := by
  have hdigit : StopsAt Char.isDigit after := hstop.mono fun _ => isIdentRest_of_isDigit
  match text with
  | [] =>
      rw [List.nil_append, exponentLength, opensExponent_of_stopsAt hstop]
      rfl
  | [c] =>
      -- A letter alone is no exponent.
      unfold exponentLength at h
      split at h <;> simp [spanLength] at h
  | c :: d :: later =>
      have hrun : ∀ n, spanLength Char.isDigit ((d :: later).drop n ++ after) =
          spanLength Char.isDigit ((d :: later).drop n) := fun n => spanLength_append hdigit _
      rw [← h]
      unfold exponentLength
      simp only [opensExponent, List.cons_append, List.drop_succ_cons, List.drop_zero,
        Nat.add_comm 1]
      by_cases hsign : (d == '+' || d == '-') = true
      · have hlater : spanLength Char.isDigit (later ++ after) = spanLength Char.isDigit later :=
          hrun 1
        simp [hsign, hlater]
      · have hlater : spanLength Char.isDigit (d :: (later ++ after)) =
            spanLength Char.isDigit (d :: later) := hrun 0
        simp [hsign, hlater]

/-- The text does not go on with a second dot. -/
theorem no_dot_append {later after : List Char} (h : ∀ more, later ≠ '.' :: more)
    (hdot : later = [] → StopsAt (· == '.') after) : ∀ more, later ++ after ≠ '.' :: more := by
  intro more heq
  cases later with
  | nil => exact absurd (hdot rfl '.' (by rw [← List.nil_append after, heq]; rfl)) (by decide)
  | cons c later =>
      rw [List.cons_append, List.cons.injEq] at heq
      exact h later (by rw [heq.1])

/-- A number that takes up a whole text and is no integer is not changed by what follows. -/
theorem munchNumber_append {rest after : List Char}
    (h : munchNumber rest = (.realLit, rest.length)) (hstop : StopsAt isIdentRest after)
    (hlast : rest.drop (spanLength Char.isDigit rest) = ['.'] → StopsAt (· == '.') after) :
    munchNumber (rest ++ after) = (.realLit, rest.length) := by
  -- nothing in `after` goes on with a run of digits
  have hdigit : StopsAt Char.isDigit after := hstop.mono fun _ => isIdentRest_of_isDigit
  have hspan : ∀ text, spanLength Char.isDigit (text ++ after) = spanLength Char.isDigit text :=
    fun text => spanLength_append hdigit text
  have hdrop : ∀ text : List Char, (text ++ after).drop (spanLength Char.isDigit text) =
      text.drop (spanLength Char.isDigit text) ++ after :=
    fun text => List.drop_append_of_le_length (spanLength_le _ _)
  have hlength : (rest.drop (spanLength Char.isDigit rest)).length =
      rest.length - spanLength Char.isDigit rest := List.length_drop
  unfold munchNumber at h ⊢
  simp only [hspan, hdrop] at h ⊢
  split at h
  · cases h
  · -- A dot, digits and perhaps an exponent.
    rename_i later hdots hrest
    rw [hrest] at hlength ⊢
    rw [List.length_cons] at hlength
    split at h
    · cases h
    · rename_i hnone
      simp only [Prod.mk.injEq, true_and] at h
      have hle := spanLength_le Char.isDigit later
      have hexponent : exponentLength (later.drop (spanLength Char.isDigit later)) =
          (later.drop (spanLength Char.isDigit later)).length := by
        rw [List.length_drop]
        omega
      have happend := exponentLength_append hexponent hstop
      have hopens : opensExponent (later ++ after) = opensExponent later := by
        cases later with
        | nil => exact opensExponent_of_stopsAt hstop
        | cons c later => rfl
      have hdot := no_dot_append hdots fun hnil => hlast (hrest.trans (by rw [hnil]))
      rw [List.cons_append]
      split
      · rename_i more heq
        exact absurd (List.cons.inj heq).2 (hdot more)
      · rename_i more hmore heq
        obtain rfl := (List.cons.inj heq).2
        rw [hspan, hdrop, happend, ← hexponent, hopens, if_neg hnone, h]
      · rename_i hmore
        exact absurd rfl (hmore _)
  · -- An exponent.
    rename_i hdot hdots
    split at h
    · cases h
    · rename_i hnone
      simp only [Prod.mk.injEq, true_and] at h
      have hle := spanLength_le Char.isDigit rest
      have hexponent : exponentLength (rest.drop (spanLength Char.isDigit rest)) =
          (rest.drop (spanLength Char.isDigit rest)).length := by
        omega
      have happend := exponentLength_append hexponent hstop
      have hmore : ∀ more, rest.drop (spanLength Char.isDigit rest) ++ after ≠ '.' :: more := by
        apply no_dot_append hdots
        intro hnil
        rw [hnil] at hnone
        exact absurd rfl hnone
      split
      · rename_i more heq
        exact absurd heq (hmore _)
      · rename_i more _ heq
        exact absurd heq (hmore _)
      · rw [happend, ← hexponent, if_neg hnone, h]

/-- A real begins with a digit, or with a dot and a digit. -/
theorem Munched.real {c : Char} {rest : List Char} {more : Nat} (h : Munched c rest .realLit more) :
    (c.isDigit = true ∧ munchNumber rest = (.realLit, more)) ∨
      (c = '.' ∧ rest.head?.any Char.isDigit = true ∧
        more = spanLength Char.isDigit rest +
          exponentLength (rest.drop (spanLength Char.isDigit rest))) := by
  obtain ⟨hname, -⟩ | ⟨hc, hnumber⟩ | ⟨hstring, -⟩ | ⟨hpragma, -⟩ | ⟨-, hfraction⟩ := h.unspelt rfl
  · cases hname
  · exact .inl ⟨hc, hnumber.symm⟩
  · cases hstring
  · cases hpragma
  · exact .inr hfraction

theorem isWhole_real {digits : String} (h : isWhole .realLit digits = true) :
    ∃ c rest, digits.toList = c :: rest ∧ Munched c rest .realLit rest.length := by
  unfold isWhole at h
  split at h
  · rename_i c rest htext
    exact ⟨c, rest, htext, munched_of_munch (beq_iff_eq.mp h)⟩
  · cases h

/-- A real that is the whole of a word is cut off from what follows, and so it is from a dot, if it
is more than digits and a dot. -/
theorem munches_real_before
    {digits : String} {after : List Char} (h : isWhole .realLit digits = true)
    (hstop : StopsAt isIdentRest after)
    (hlast : digits.toList.drop (spanLength Char.isDigit digits.toList) = ['.'] →
      StopsAt (· == '.') after) : Munches .realLit digits after := by
  have hdigit : StopsAt Char.isDigit after := hstop.mono fun _ => isIdentRest_of_isDigit
  obtain ⟨c, rest, htext, hmunched⟩ := isWhole_real h
  refine ⟨c, rest, htext, ?_⟩
  rcases hmunched.real with ⟨hc, hnumber⟩ | ⟨rfl, hhead, hlength⟩
  · have hlast' : rest.drop (spanLength Char.isDigit rest) = ['.'] → StopsAt (· == '.') after := by
      intro hrest
      apply hlast
      rw [htext, spanLength_cons, if_pos hc, List.drop_succ_cons, hrest]
    simp only [munch, isWhite_of_isDigit hc, isIdentStart_of_isDigit hc, hc, if_true,
      munchNumber_append hnumber hstop hlast', Bool.false_eq_true, if_false]
  · have hle := spanLength_le Char.isDigit rest
    have hexponent : exponentLength (rest.drop (spanLength Char.isDigit rest)) =
        (rest.drop (spanLength Char.isDigit rest)).length := by
      rw [List.length_drop]
      omega
    match rest, hhead with
    | d :: rest, hhead =>
        have hd : d.isDigit = true := by simpa using hhead
        have hmunch : munch '.' (d :: (rest ++ after)) =
            .token .realLit (spanLength Char.isDigit (d :: rest ++ after) + exponentLength
              ((d :: rest ++ after).drop (spanLength Char.isDigit (d :: rest ++ after)))) := by
          simp [munch, isWhite, isIdentStart, hd]
        rw [List.cons_append, hmunch, spanLength_append hdigit, List.drop_append_of_le_length hle,
          exponentLength_append hexponent hstop, ← hexponent, ← hlength]

theorem munches_real {digits : String} {after : List Char} (h : isWhole .realLit digits = true)
    (hstop : StopsAt endsNumber after) : Munches .realLit digits after :=
  munches_real_before h (hstop.mono fun _ => endsNumber_of_isIdentRest)
    fun _ => hstop.mono fun d hd => by simp [endsNumber, beq_iff_eq.mp hd]

/-- A real begins with a digit or a dot. -/
theorem opens_of_real {digits : String} (h : isWhole .realLit digits = true) :
    ∃ c rest, digits.toList = c :: rest ∧ (c.isDigit = true ∨ c = '.') := by
  obtain ⟨c, rest, htext, hmunched⟩ := isWhole_real h
  rcases hmunched.real with ⟨hc, -⟩ | ⟨hc, -, -⟩
  · exact ⟨c, rest, htext, .inl hc⟩
  · exact ⟨c, rest, htext, .inr hc⟩

/-- An identifier begins with a letter or an underscore. -/
theorem opens_of_identifier {name : String} (h : isIdentifier name = true) :
    ∃ c rest, name.toList = c :: rest ∧ isIdentStart c = true := by
  unfold isIdentifier at h
  split at h
  · rename_i c rest htext
    rw [Bool.and_eq_true] at h
    exact ⟨c, rest, htext, h.1⟩
  · cases h

/-! ## Strings and pragmas -/

/-- A string without quotes inside is cut off whatever follows. -/
theorem munches_string {inside : List Char} (after : List Char) (h : '"' ∉ inside) :
    Munches .stringLit (String.ofList ('"' :: inside ++ ['"'])) after := by
  have hall : inside.all (· != '"') = true := by
    rw [List.all_eq_true]
    intro c hc
    have hne : c ≠ '"' := fun heq => h (heq ▸ hc)
    simpa using hne
  have hspan : spanLength (· != '"') (inside ++ '"' :: after) = inside.length := by
    rw [spanLength_append fun d hd => by cases hd; rfl, spanLength_of_all hall]
  refine ⟨'"', inside ++ ['"'], String.toList_ofList, ?_⟩
  have hmunch : munch '"' (inside ++ ['"'] ++ after) = munchString (inside ++ '"' :: after) := by
    simp [munch, isWhite, isIdentStart]
  rw [hmunch, munchString, hspan, List.length_append]
  simp

/-- What follows an identifier, and blanks before it. -/
theorem afterIdent_append {name : String} {after : List Char} (h : isIdentifier name = true)
    (hstop : StopsAt isIdentRest after) :
    afterIdent ((name.toList ++ after).dropWhile isBlank) = some after := by
  unfold isIdentifier at h
  split at h
  · rename_i c rest htext
    rw [Bool.and_eq_true] at h
    have hblank : isBlank c = false := by
      cases hc : isBlank c with
      | false => rfl
      | true => exact absurd (isWhite_of_isBlank hc) (by simp [isWhite_of_isIdentStart h.1])
    rw [htext, List.cons_append, List.dropWhile_cons, if_neg (by simp [hblank]), afterIdent,
      if_pos h.1, dropWhile_append_of_all h.2 hstop]
  · cases h

/-- A pragma is cut off whatever follows. -/
theorem munches_pragma {key value : String} (after : List Char) (hkey : isIdentifier key = true)
    (hvalue : isIdentifier value = true) :
    Munches .pragma ("%" ++ key ++ ":" ++ value ++ "%") after := by
  have hcolon : afterIdent ((key.toList ++ ':' :: (value.toList ++ '%' :: after)).dropWhile
      isBlank) = some (':' :: (value.toList ++ '%' :: after)) :=
    afterIdent_append hkey fun d hd => by cases hd; rfl
  have hpercent : afterIdent ((value.toList ++ '%' :: after).dropWhile isBlank) =
      some ('%' :: after) :=
    afterIdent_append hvalue fun d hd => by cases hd; rfl
  have hafter : afterPragma (key.toList ++ ':' :: (value.toList ++ '%' :: after)) = some after := by
    simp [afterPragma, hcolon, hpercent, isBlank]
  refine ⟨'%', key.toList ++ ':' :: (value.toList ++ ['%']), ?_, ?_⟩
  · simp [String.toList_append]
  · have hrest : key.toList ++ ':' :: (value.toList ++ ['%']) ++ after =
        key.toList ++ ':' :: (value.toList ++ '%' :: after) := by simp
    rw [hrest]
    simp [munch, isWhite, isIdentStart, hafter]
    omega

/-! ## Symbols -/

/-- Whether a symbol of one character `c` goes on, or opens something else, with `d`. -/
def clings (c d : Char) : Bool :=
  (symbolOfPair? c d).isSome || (c == '-' && d == '-') || (c == '(' && d == '*') ||
    (c == '/' && d == '*') || (c == '.' && d.isDigit)

/-- A symbol of one character is cut off where it clings to nothing. -/
theorem munch_symbol {c : Char} {kind : Kind} {after : List Char} (h : symbolOfChar? c = some kind)
    (hstop : StopsAt (clings c) after) (hpragma : c = '%' → afterPragma after = none) :
    munch c after = .token kind 0 := by
  have hnone : after.head?.bind (symbolOfPair? c) = none := by
    cases after with
    | nil => rfl
    | cons d after =>
        have hd := hstop d rfl
        simp only [clings, Bool.or_eq_false_iff, Option.isSome_eq_false_iff,
          Option.isNone_iff_eq_none] at hd
        exact hd.1.1.1.1
  have hsymbol : munchSymbol c after = .token kind 0 := by
    simp [munchSymbol, hnone, h]
  have hplain : isWhite c = false ∧ isIdentStart c = false ∧ c.isDigit = false ∧ c ≠ '"' := by
    unfold symbolOfChar? at h
    split at h <;> first | decide | cases h
  simp only [munch, hplain.1, hplain.2.1, hplain.2.2.1, Bool.false_eq_true, if_false]
  split
  · exact absurd rfl hplain.2.2.2
  · exact absurd (hstop '-' rfl) (by decide)
  · exact absurd (hstop '*' rfl) (by decide)
  · exact absurd (hstop '*' rfl) (by decide)
  · rw [hpragma rfl]
    exact hsymbol
  · rename_i d after
    have hd : d.isDigit = false := by
      have hd := hstop d rfl
      simp only [clings, Bool.or_eq_false_iff, Bool.and_eq_false_iff] at hd
      simpa using hd.2
    rw [if_neg (by simp [hd])]
    exact hsymbol
  · exact hsymbol

/-- A symbol of two characters is cut off whatever follows. -/
theorem munch_pair {c d : Char} {kind : Kind} (after : List Char)
    (h : symbolOfPair? c d = some kind) : munch c (d :: after) = .token kind 1 := by
  unfold symbolOfPair? at h
  split at h <;> cases h <;>
    simp [munch, isWhite, isIdentStart, munchSymbol, symbolOfPair?]

/-! ## Keywords and symbols -/

/-- What has one spelling is a keyword, or a symbol of one character or of two. -/
theorem Kind.fixed_cases {kind : Kind} (h : kind.spelling?.isSome = true) :
    Kind.keywords.contains kind = true ∨
      Kind.keywords.contains kind = false ∧
        ((∃ c, kind.describe.toList = [c] ∧ symbolOfChar? c = some kind) ∨
          ∃ c d, kind.describe.toList = [c, d] ∧ symbolOfPair? c d = some kind) := by
  cases kind <;> first
    | exact .inl rfl
    | exact .inr ⟨rfl, .inl ⟨_, rfl, rfl⟩⟩
    | exact .inr ⟨rfl, .inr ⟨_, _, rfl, rfl⟩⟩
    | cases h

end Lustre
