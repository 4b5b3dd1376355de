import Lustre.Proofs.Token.Lines
import Lustre.Proofs.Token.MaximalMunch
import Lustre.Proofs.Tree.Printable

/-!
# How the words of a text are spelt

A tree keeps the texts of names, literals and pragmas as they were read, so what can be
printed depends on how the tokens of a text are spelt.  `Proper` says it for each kind of
word, and the tokens of every text are proper (`Lexed.proper_of_mem_tokens`): an
identifier is one and no keyword, a real is the whole of a word, a string stands between
quotes, and both parts of a pragma are identifiers.

An integer is made of digits unless an exponent broke off behind its dot, so that is asked
of the token.
-/

namespace Lustre

/-! ## Numbers -/

theorem exponentLength_take (text : List Char) :
    exponentLength (text.take (exponentLength text)) = exponentLength text := by
  by_cases hzero : exponentLength text = 0
  · rw [hzero]
    rfl
  · obtain ⟨hmatches, hle⟩ := exponent_take hzero
    have hupper := exponentLength_le (text.take (exponentLength text))
    have hlower := length_le_exponentLength hmatches (List.prefix_refl _)
    rw [List.length_take, Nat.min_eq_left hle] at hupper hlower
    omega

theorem spanLength_take (p : Char → Bool) (text : List Char) (more : Nat) :
    spanLength p (text.take (spanLength p text + more)) = spanLength p text := by
  induction text with
  | nil => rw [List.take_nil]
  | cons c text ih =>
      rw [spanLength_cons]
      split
      · rename_i hc
        rw [Nat.add_right_comm, List.take_succ_cons, spanLength_cons, if_pos hc, ih]
      · rename_i hc
        cases more with
        | zero => rfl
        | succ more => rw [Nat.zero_add, List.take_succ_cons, spanLength_cons, if_neg hc]

theorem take_ne_dot {text : List Char} (h : ∀ rest, text ≠ '.' :: rest) (count : Nat) :
    ∀ rest, text.take count ≠ '.' :: rest := by
  intro rest heq
  cases text with
  | nil => cases List.take_nil.symm.trans heq
  | cons c text =>
      cases count with
      | zero => cases heq
      | succ count =>
          rw [List.take_succ_cons, List.cons.injEq] at heq
          exact h text (heq.1 ▸ rfl)

/-- A number with a dot is cut off whole when nothing follows it. -/
theorem munchNumber_take_dot {rest later : List Char} {more : Nat}
    (hlater : rest.drop (spanLength Char.isDigit rest) = '.' :: later)
    (h : munchNumber rest = (.realLit, more)) :
    munchNumber (rest.take more) = (.realLit, more) := by
  have hdots : ∀ next, later ≠ '.' :: next := by
    rintro next rfl
    rw [munchNumber_dots hlater] at h
    cases h
  rw [munchNumber_dot hlater hdots] at h
  dsimp only at h
  split at h
  · cases h
  · rename_i hbroken
    simp only [Prod.mk.injEq, true_and] at h
    have hwhole : spanLength Char.isDigit (rest.take more) = spanLength Char.isDigit rest := by
      rw [← h, Nat.add_assoc, Nat.add_assoc, spanLength_take]
    -- What is left of the text behind its dot is the fraction and the exponent.
    have hcut : (rest.take more).drop (spanLength Char.isDigit (rest.take more)) =
        '.' :: later.take (spanLength Char.isDigit later +
          exponentLength (later.drop (spanLength Char.isDigit later))) := by
      rw [hwhole, ← h, List.drop_take, hlater, Nat.add_assoc, Nat.add_assoc,
        Nat.add_sub_cancel_left, Nat.add_comm 1, List.take_succ_cons]
    rw [munchNumber_dot hcut (take_ne_dot hdots _)]
    dsimp only
    rw [spanLength_take, List.drop_take, Nat.add_sub_cancel_left, exponentLength_take, hwhole,
      if_neg ?_, h]
    intro hzero
    simp only [Bool.and_eq_true, decide_eq_true_eq] at hzero hbroken
    rw [hzero.1.1, List.drop_zero, hzero.1.2, Nat.zero_add, List.take_zero] at hzero
    cases hzero.2

/-- The same without a dot, where it is the exponent that makes it a real. -/
theorem munchNumber_take_dotless {rest : List Char} {more : Nat}
    (hdotless : ∀ later, rest.drop (spanLength Char.isDigit rest) ≠ '.' :: later)
    (h : munchNumber rest = (.realLit, more)) :
    munchNumber (rest.take more) = (.realLit, more) := by
  rw [munchNumber_dotless hdotless] at h
  dsimp only at h
  split at h
  · cases h
  · rename_i hne
    simp only [Prod.mk.injEq, true_and] at h
    have hwhole : spanLength Char.isDigit (rest.take more) = spanLength Char.isDigit rest := by
      rw [← h, spanLength_take]
    have hcut : (rest.take more).drop (spanLength Char.isDigit (rest.take more)) =
        (rest.drop (spanLength Char.isDigit rest)).take
          (exponentLength (rest.drop (spanLength Char.isDigit rest))) := by
      rw [hwhole, ← h, List.drop_take, Nat.add_sub_cancel_left]
    have hsingle : ∀ later, (rest.take more).drop (spanLength Char.isDigit (rest.take more)) ≠
        '.' :: later := by
      rw [hcut]
      exact take_ne_dot hdotless _
    rw [munchNumber_dotless hsingle, hcut, hwhole]
    dsimp only
    rw [exponentLength_take, if_neg hne, h]

/-- A real is cut off whole when nothing follows it. -/
theorem munchNumber_take {rest : List Char} {more : Nat} (h : munchNumber rest = (.realLit, more)) :
    munchNumber (rest.take more) = (.realLit, (rest.take more).length) := by
  have hle : more ≤ rest.length := by
    have hle := munchNumber_le rest
    rwa [h] at hle
  rw [List.length_take, Nat.min_eq_left hle]
  by_cases hdot : ∃ later, rest.drop (spanLength Char.isDigit rest) = '.' :: later
  · obtain ⟨later, hlater⟩ := hdot
    exact munchNumber_take_dot hlater h
  · exact munchNumber_take_dotless (fun later hlater => hdot ⟨later, hlater⟩) h

/-- A text of digits and a dot, as an integer can be spelt in front of an `e`. -/
def IsDotted (text : String) : Prop := ∃ digits, isDigits digits = true ∧ text = digits ++ "."

theorem IsDotted.dot_mem {text : String} (h : IsDotted text) : '.' ∈ text.toList := by
  obtain ⟨digits, -, rfl⟩ := h
  simp [String.toList_append]

theorem isDigits_cons {c : Char} (hc : c.isDigit = true) (rest : List Char) :
    isDigits (String.ofList (c :: rest.take (spanLength Char.isDigit rest))) = true := by
  rw [isDigits, String.toList_ofList, List.all_cons, hc, all_take_spanLength]
  rfl

/-- An integer is made of digits, or of digits and a dot. -/
theorem munchNumber_int {c : Char} {rest : List Char} {more : Nat} (hc : c.isDigit = true)
    (h : munchNumber rest = (.intLit, more)) :
    isDigits (String.ofList (c :: rest.take more)) = true ∨
      IsDotted (String.ofList (c :: rest.take more)) := by
  by_cases hafter : ∃ later, rest.drop (spanLength Char.isDigit rest) = '.' :: later
  · obtain ⟨later, hlater⟩ := hafter
    by_cases hdots : ∃ next, later = '.' :: next
    · obtain ⟨next, rfl⟩ := hdots
      rw [munchNumber_dots hlater] at h
      rw [← (Prod.mk.inj h).2]
      exact .inl (isDigits_cons hc rest)
    · rw [munchNumber_dot hlater fun next heq => hdots ⟨next, heq⟩] at h
      dsimp only at h
      split at h
      · -- The dot is part of the text.
        refine .inr ⟨_, isDigits_cons hc rest, ?_⟩
        rw [← (Prod.mk.inj h).2, List.take_add, hlater, ← String.toList_inj]
        simp [String.toList_append]
      · cases h
  · rw [munchNumber_dotless fun later hlater => hafter ⟨later, hlater⟩] at h
    dsimp only at h
    split at h
    · rw [← (Prod.mk.inj h).2]
      exact .inl (isDigits_cons hc rest)
    · cases h

/-! ## Pragmas -/

theorem isIdentifier_iff {text : String} :
    isIdentifier text = true ↔ WordPattern.identifier.Matches text.toList := by
  rw [WordPattern.matches_identifier, isIdentifier]
  split
  · rename_i c rest htext
    rw [Bool.and_eq_true]
    refine ⟨fun h => ⟨c, rest, htext, h⟩, ?_⟩
    rintro ⟨_, _, heq, h⟩
    obtain ⟨rfl, rfl⟩ := List.cons.inj (htext.symm.trans heq)
    exact h
  · rename_i htext
    refine ⟨fun h => (by cases h), ?_⟩
    rintro ⟨_, _, heq, -⟩
    cases htext.symm.trans heq

/-- An identifier goes on from its first character as it does from the others. -/
theorem isIdentRest_of_mem {name : String} (h : isIdentifier name = true) :
    ∀ d ∈ name.toList, isIdentRest d = true := by
  obtain ⟨c, rest, htext, hc, hrest⟩ := WordPattern.matches_identifier.mp (isIdentifier_iff.mp h)
  rw [htext]
  intro d hd
  rcases List.mem_cons.mp hd with rfl | hd
  · exact isIdentRest_of_isIdentStart hc
  · exact List.all_eq_true.mp hrest d hd

theorem toList_ne_nil_of_isIdentifier {name : String} (h : isIdentifier name = true) :
    name.toList ≠ [] := by
  intro hnil
  rw [isIdentifier, hnil] at h
  cases h

namespace Pragma

/-- What is trimmed off are the characters around a word that has none of them. -/
theorem trim_around {p : Char → Bool} {before word after : List Char}
    (hbefore : before.all p = true)
    (hafter : after.all p = true) (hne : word ≠ []) (hword : ∀ d ∈ word, p d = false) :
    trim p (before ++ (word ++ after)) = word := by
  have hstop : ∀ {text later : List Char}, text ≠ [] → (∀ d ∈ text, p d = false) →
      StopsAt p (text ++ later) := by
    intro text later hne htext d hd
    obtain ⟨e, text, rfl⟩ := List.exists_cons_of_ne_nil hne
    cases hd
    exact htext d List.mem_cons_self
  have hreverse : after.reverse.all p = true := by simpa using hafter
  have hend : StopsAt p word.reverse := by
    have hstopped : StopsAt p (word.reverse ++ []) :=
      hstop (by simpa using hne) fun d hd => hword d (List.mem_reverse.mp hd)
    rwa [List.append_nil] at hstopped
  rw [trim, dropWhile_append_of_all hbefore (hstop hne hword), List.reverse_append,
    dropWhile_append_of_all hreverse hend, List.reverse_reverse]

/-- What an identifier goes on with is ASCII, and no blank or control character. -/
theorem toNat_of_isIdentRest {c : Char} (h : isIdentRest c = true) :
    39 ≤ c.toNat ∧ c.toNat ≤ 122 := by
  have hrange : ∀ {low high : UInt32}, '\''.val ≤ low → high ≤ 'z'.val →
    low ≤ c.val → c.val ≤ high →
      39 ≤ c.toNat ∧ c.toNat ≤ 122 := fun hleast hmost hlow hhigh =>
    ⟨UInt32.le_iff_toNat_le.mp (UInt32.le_trans hleast hlow),
      UInt32.le_iff_toNat_le.mp (UInt32.le_trans hhigh hmost)⟩
  simp only [isIdentRest, Bool.or_eq_true, beq_iff_eq] at h
  rcases h with (hword | rfl) | rfl
  · rcases (Bool.or_eq_true _ _).mp (hword : (c.isAlpha || c.isDigit) = true) with hletter | hdigit
    · rcases (Bool.or_eq_true _ _).mp (hletter : (c.isUpper || c.isLower) = true) with hcase | hcase
      · obtain ⟨hlow, hhigh⟩ := of_decide_eq_true hcase
        exact hrange (by decide) (by decide) hlow hhigh
      · obtain ⟨hlow, hhigh⟩ := (Bool.and_eq_true _ _).mp hcase
        exact hrange (by decide) (by decide) (of_decide_eq_true hlow) (of_decide_eq_true hhigh)
    · obtain ⟨hlow, hhigh⟩ := (Bool.and_eq_true _ _).mp hdigit
      exact hrange (by decide) (by decide) (of_decide_eq_true hlow) (of_decide_eq_true hhigh)
  · decide
  · decide

/-- White space is nothing that an identifier goes on with. -/
theorem isSpace_of_isIdentRest {c : Char} (h : isIdentRest c = true) : isSpace c = false := by
  have hcode := toNat_of_isIdentRest h
  simp only [isSpace, Bool.or_eq_false_iff, Bool.and_eq_false_iff, decide_eq_false_iff_not,
    beq_eq_false_iff_ne]
  omega

theorem isSpace_of_isBlank {c : Char} (h : isBlank c = true) : isSpace c = true := by
  rcases isBlank_iff.mp h with rfl | rfl <;> rfl

/-- A text says what a pragma is: its key and its value, which are identifiers, are written between
two `%` with a colon between them, blanks allowed around each. -/
structure SpeltAs (pragma : Pragma) (text : List Char) : Prop where
  printable : pragma.Printable
  spelling : ∃ blanks₁ blanks₂ blanks₃ blanks₄ : List Char,
    (∀ blanks ∈ [blanks₁, blanks₂, blanks₃, blanks₄], blanks.all isBlank = true) ∧
      text = '%' :: (blanks₁ ++ pragma.key.toList ++ blanks₂ ++ ':' ::
        (blanks₃ ++ pragma.value.toList ++ blanks₄ ++ ['%']))

/-- An identifier and the blanks around it have none of the signs of a pragma. -/
theorem no_sign {name : String} {before after : List Char} (hbefore : before.all isBlank = true)
    (hafter : after.all isBlank = true) (h : isIdentifier name = true) :
    ∀ d ∈ before ++ name.toList ++ after, d ≠ ':' ∧ d ≠ '%' := by
  intro d hd
  have hclass : isBlank d = true ∨ isIdentRest d = true := by
    rw [List.mem_append, List.mem_append] at hd
    rcases hd with (hd | hd) | hd
    · exact .inl (List.all_eq_true.mp hbefore d hd)
    · exact .inr (isIdentRest_of_mem h d hd)
    · exact .inl (List.all_eq_true.mp hafter d hd)
  constructor
  · rintro rfl
    exact absurd hclass (by decide)
  · rintro rfl
    exact absurd hclass (by decide)

/-- The blanks around an identifier are trimmed off. -/
theorem trim_identifier {name : String} {before after : List Char}
    (hbefore : before.all isBlank = true)
    (hafter : after.all isBlank = true) (h : isIdentifier name = true) :
    trim isSpace (before ++ name.toList ++ after) = name.toList := by
  have hspace : ∀ {blanks : List Char}, blanks.all isBlank = true → blanks.all isSpace = true := by
    intro blanks hblanks
    apply List.all_eq_true.mpr
    intro d hd
    exact isSpace_of_isBlank (List.all_eq_true.mp hblanks d hd)
  rw [List.append_assoc]
  apply trim_around (hspace hbefore) (hspace hafter) (toList_ne_nil_of_isIdentifier h)
  intro d hd
  exact isSpace_of_isIdentRest (isIdentRest_of_mem h d hd)

/-- The key and the value are found in every spelling of a pragma. -/
theorem ofToken_of_speltAs
    {pragma : Pragma} {token : Token} (h : pragma.SpeltAs token.text.toList) :
    ofToken token = { pragma with span := token.span } := by
  obtain ⟨⟨hkey, hvalue⟩, blanks₁, blanks₂, blanks₃, blanks₄, hblanks, htext⟩ := h
  have hblanks₁ := hblanks blanks₁ (by simp)
  have hblanks₂ := hblanks blanks₂ (by simp)
  have hblanks₃ := hblanks blanks₃ (by simp)
  have hblanks₄ := hblanks blanks₄ (by simp)
  have hfirst := no_sign hblanks₁ hblanks₂ hkey
  have hsecond := no_sign hblanks₃ hblanks₄ hvalue
  have htrimKey := trim_identifier hblanks₁ hblanks₂ hkey
  have htrimValue := trim_identifier hblanks₃ hblanks₄ hvalue
  generalize blanks₁ ++ pragma.key.toList ++ blanks₂ = first at *
  generalize blanks₃ ++ pragma.value.toList ++ blanks₄ = second at *
  -- no `%` is inside, so only the two at the ends are trimmed off
  have hinside : trim (· == '%') token.text.toList = first ++ ':' :: second := by
    have htrim : trim (· == '%') (['%'] ++ ((first ++ ':' :: second) ++ ['%'])) =
        first ++ ':' :: second := by
      apply trim_around rfl rfl (by simp)
      intro d hd
      rw [List.mem_append, List.mem_cons] at hd
      rcases hd with hd | rfl | hd
      · exact beq_false_of_ne (hfirst d hd).2
      · rfl
      · exact beq_false_of_ne (hsecond d hd).2
    rw [htext, ← htrim]
    simp
  -- no colon is in front of the one between the key and the value
  have hcolon : first.all (· != ':') = true :=
    List.all_eq_true.mpr fun d hd => bne_iff_ne.mpr (hfirst d hd).1
  have hstop : StopsAt (· != ':') (':' :: second) := by
    intro d hd
    cases hd
    rfl
  have hsplit : (first ++ ':' :: second).takeWhile (· != ':') = first := by
    rw [← take_spanLength, spanLength_append hstop, spanLength_of_all hcolon, List.take_left]
  rw [ofToken, hinside, hsplit, dropWhile_append_of_all hcolon hstop, List.drop_succ_cons,
    List.drop_zero, htrimKey, htrimValue, String.ofList_toList, String.ofList_toList]

/-- Whatever is cut off as a pragma says what pragma it is. -/
theorem exists_speltAs {tail : List Char} (h : WordPattern.pragmaTail.Matches tail) (span : Span) :
    ∃ pragma : Pragma, pragma.SpeltAs ('%' :: tail) := by
  obtain ⟨blanks₁, _, hblanks₁,
    ⟨key, _, hkey, ⟨blanks₂, _, hblanks₂, ⟨_, _, rfl, ⟨blanks₃, _, hblanks₃,
    ⟨value, _, hvalue, ⟨blanks₄, _, hblanks₄, rfl, rfl⟩, rfl⟩, rfl⟩, rfl⟩, rfl⟩, rfl⟩, rfl⟩ := h
  refine ⟨⟨String.ofList key, String.ofList value, span⟩, ⟨?_, ?_⟩,
    blanks₁, blanks₂, blanks₃, blanks₄, ?_, by simp⟩
  · exact isIdentifier_iff.mpr (by rwa [String.toList_ofList])
  · exact isIdentifier_iff.mpr (by rwa [String.toList_ofList])
  · intro blanks hmem
    simp only [List.mem_cons, List.not_mem_nil, or_false] at hmem
    rcases hmem with rfl | rfl | rfl | rfl
    · exact hblanks₁
    · exact hblanks₂
    · exact hblanks₃
    · exact hblanks₄

/-- The pragma in a token is the one that the token is a spelling of. -/
theorem speltAs_ofToken {token : Token} {tail : List Char}
    (htext : token.text = String.ofList ('%' :: tail)) (h : WordPattern.pragmaTail.Matches tail) :
    (ofToken token).SpeltAs token.text.toList := by
  obtain ⟨pragma, hpragma⟩ := exists_speltAs h token.span
  have hspelt : pragma.SpeltAs token.text.toList := by
    rw [htext, String.toList_ofList]; exact hpragma
  rw [ofToken_of_speltAs hspelt]
  exact ⟨hspelt.printable, hspelt.spelling⟩

end Pragma

/-! ## Words of every kind -/

namespace Lexeme

/-- A word is spelt as the words of its kind are, and an integer is made of digits. -/
def Proper : Lexeme → Prop
  | plain .ident text => isProperName text = true
  | plain .intLit text => isDigits text = true
  | plain .realLit text => isWhole .realLit text = true
  | plain .stringLit text => ∃ inside : List Char,
      text = String.ofList ('"' :: inside ++ ['"']) ∧ '"' ∉ inside
  | plain _ _ => True
  | pragma key value => isIdentifier key = true ∧ isIdentifier value = true

end Lexeme

namespace Munched

variable {c : Char} {rest : List Char} {more : Nat}

theorem ident (h : Munched c rest .ident more) :
    isProperName (String.ofList (c :: rest.take more)) = true := by
  obtain ⟨-, hstart, rfl, hkeyword⟩ | ⟨-, hnumber⟩ | ⟨hstring, -⟩ | ⟨hpragma, -⟩ | ⟨hreal, -⟩ :=
    h.unspelt rfl
  · refine isProperName_iff.mpr ⟨?_, hkeyword⟩
    rw [isIdentifier, String.toList_ofList]
    simp [hstart, all_take_spanLength]
  · rcases munchNumber_kind rest with hkind | hkind <;>
    · rw [← hnumber] at hkind
      cases hkind
  · cases hstring
  · cases hpragma
  · cases hreal

theorem int (h : Munched c rest .intLit more) :
    isDigits (String.ofList (c :: rest.take more)) = true ∨
      IsDotted (String.ofList (c :: rest.take more)) := by
  obtain ⟨hname, -⟩ | ⟨hc, hnumber⟩ | ⟨hstring, -⟩ | ⟨hpragma, -⟩ | ⟨hreal, -⟩ := h.unspelt rfl
  · cases hname
  · exact munchNumber_int hc hnumber.symm
  · cases hstring
  · cases hpragma
  · cases hreal

theorem whole_real (h : Munched c rest .realLit more) :
    isWhole .realLit (String.ofList (c :: rest.take more)) = true := by
  rw [isWhole, String.toList_ofList]
  refine beq_iff_eq.mpr ?_
  rcases h.real with ⟨hc, hnumber⟩ | ⟨rfl, hhead, rfl⟩
  · simp only [munch, isWhite_of_isDigit hc, isIdentStart_of_isDigit hc, hc, if_true,
      munchNumber_take hnumber, Bool.false_eq_true, if_false]
  · cases rest with
    | nil => cases hhead
    | cons d rest =>
        have hd : d.isDigit = true := by simpa using hhead
        have hspan : spanLength Char.isDigit (d :: rest) = spanLength Char.isDigit rest + 1 := by
          rw [spanLength_cons, if_pos hd]
        have hcut : ∀ n, (d :: rest).take (spanLength Char.isDigit (d :: rest) + n) =
            d :: rest.take (spanLength Char.isDigit rest + n) := by
          intro n
          rw [hspan, Nat.add_right_comm, List.take_succ_cons]
        have hle : fractionLength (d :: rest) ≤ (d :: rest).length := (fraction_take (by omega)).2
        rw [fractionLength] at hle
        have hmunch : ∀ later, munch '.' (d :: later) = .token .realLit
            (spanLength Char.isDigit (d :: later) + exponentLength
              ((d :: later).drop (spanLength Char.isDigit (d :: later)))) := by
          intro later
          simp [munch, isWhite, isIdentStart, hd]
        rw [hcut, hmunch, ← hcut, spanLength_take, List.drop_take, Nat.add_sub_cancel_left,
          exponentLength_take, List.length_take, Nat.min_eq_left hle]

theorem pragma_tail (h : Munched c rest .pragma more) :
    ∃ tail, WordPattern.pragmaTail.Matches tail ∧ c :: rest.take more = '%' :: tail := by
  obtain ⟨hname, -⟩ | ⟨-, hnumber⟩ | ⟨hstring, -⟩ | ⟨-, hc, after, hafter, hmore⟩ | ⟨hreal, -⟩ :=
    h.unspelt rfl
  · cases hname
  · rcases munchNumber_kind rest with hkind | hkind <;>
    · rw [← hnumber] at hkind
      cases hkind
  · cases hstring
  · obtain ⟨tail, htail, rfl⟩ := pragmaTail_of_afterPragma hafter
    refine ⟨tail, htail, ?_⟩
    rw [hc, hmore, List.length_append, Nat.add_sub_cancel_right, List.take_left]
  · cases hreal

end Munched

namespace Lexed

/-- Every token of a text is a proper word, if it is no integer with a dot. -/
theorem proper_of_mem_tokens {text : String} {token : Token} (h : token ∈ (ofText text).tokens)
    (hdot : token.kind = .intLit → '.' ∉ token.text.toList) : (Lexeme.ofToken token).Proper := by
  obtain ⟨c, rest, more, hmunched, htext⟩ := munched_of_mem_tokens h
  unfold Lexeme.ofToken
  -- one case for each kind whose words have no spelling of their own
  split
  · rename_i hpragma
    rw [hpragma] at hmunched
    obtain ⟨tail, htail, heq⟩ := hmunched.pragma_tail
    exact (Pragma.speltAs_ofToken (htext.trans (congrArg String.ofList heq)) htail).printable
  · rename_i hpragma
    unfold Lexeme.Proper
    split
    · rename_i heq
      obtain ⟨hkind, rfl⟩ := Lexeme.plain.inj heq
      rw [htext]
      exact (hkind ▸ hmunched).ident
    · rename_i heq
      obtain ⟨hkind, rfl⟩ := Lexeme.plain.inj heq
      have hint := (hkind ▸ hmunched).int
      rw [← htext] at hint
      exact hint.resolve_right fun hdotted => hdot hkind hdotted.dot_mem
    · rename_i heq
      obtain ⟨hkind, rfl⟩ := Lexeme.plain.inj heq
      rw [htext]
      exact (hkind ▸ hmunched).whole_real
    · rename_i heq
      obtain ⟨hkind, rfl⟩ := Lexeme.plain.inj heq
      exact quoted_of_mem_tokens h hkind
    · trivial
    · rename_i heq
      cases heq

end Lexed

end Lustre
