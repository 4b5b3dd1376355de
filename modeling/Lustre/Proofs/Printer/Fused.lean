import Lustre.Proofs.Printer.Expr
import Lustre.Proofs.Token.Spelling

/-!
# Numbers that run into a field

A field is selected without a blank, so where it is selected from a literal number, the dot
belongs to the number when the text is cut into words: `1.x` is the real `1.` and the name
`x`.  The number may also take the beginning of the name for its exponent, as in `1.e5`.
The text is still cut into words, unless what is left of the name begins with a quote
(`breaksNumber`).

With this, every literal number and every selection from one is solid in fused text.
-/

namespace Lustre

open Chunk

/-! ## Exponents in names -/

/-- Behind what a number before it would take for an exponent, a name goes on with a quote, which
no word begins with. -/
def breaksNumber (name : String) : Bool :=
  exponentLength name.toList != 0 &&
    (name.toList.drop (exponentLength name.toList)).head? == some '\''

/-- Whether a sign of an exponent stands here. -/
def isExponentSign (d : Char) : Bool := d == '+' || d == '-'

theorem isExponentSign_of_isIdentRest {d : Char} (h : isIdentRest d = true) :
    isExponentSign d = false := by
  cases hd : isExponentSign d with
  | false => rfl
  | true =>
      simp only [isExponentSign, Bool.or_eq_true, beq_iff_eq] at hd
      rcases hd with rfl | rfl <;> exact absurd h (by decide)

/-- Without a sign, an exponent is a letter and the digits behind it. -/
theorem exponentLength_signless {c : Char} {text : List Char} (h : StopsAt isExponentSign text) :
    exponentLength (c :: text) =
      if (c == 'e' || c == 'E') && spanLength Char.isDigit text != 0 then
        1 + spanLength Char.isDigit text
      else 0 := by
  cases text with
  | nil => simp [exponentLength, opensExponent, spanLength]
  | cons d text =>
      have hd : (d == '+' || d == '-') = false := h d rfl
      unfold exponentLength
      simp only [opensExponent, List.drop_succ_cons, List.drop_zero, hd,
        Bool.false_eq_true, if_false]
      by_cases hletter : (c == 'e' || c == 'E') = true
      · by_cases hzero : spanLength Char.isDigit (d :: text) = 0
        · simp [hletter, hzero]
        · simp [hletter, hzero]
      · simp [hletter]

/-- What follows a name does not change the exponent that it begins with. -/
theorem exponentLength_name {name after : List Char} (hne : name ≠ [])
    (hname : name.all isIdentRest = true) (hstop : StopsAt isIdentRest after)
    (hsign : StopsAt isExponentSign after) :
    exponentLength (name ++ after) = exponentLength name := by
  obtain ⟨c, rest, rfl⟩ := List.exists_cons_of_ne_nil hne
  rw [List.all_cons, Bool.and_eq_true] at hname
  have hrest : ∀ d ∈ rest, isExponentSign d = false :=
    fun d hd => isExponentSign_of_isIdentRest (List.all_eq_true.mp hname.2 d hd)
  have hlonger : StopsAt isExponentSign (rest ++ after) := by
    intro d hd
    cases rest with
    | nil => exact hsign d hd
    | cons e rest => exact hrest d (by cases hd; exact List.mem_cons_self)
  have hshorter : StopsAt isExponentSign rest := by
    intro d hd
    exact hrest d (List.mem_of_head? hd)
  have hdigit : StopsAt Char.isDigit after := hstop.mono fun _ => isIdentRest_of_isDigit
  rw [List.cons_append, exponentLength_signless hlonger, exponentLength_signless hshorter,
    spanLength_append hdigit]

/-- What a number leaves of a name is nothing or a word. -/
theorem isIdentifier_behind_exponent {name : String} (h : isIdentifier name = true)
    (hbreak : breaksNumber name = false)
    (hmore : name.toList.drop (exponentLength name.toList) ≠ []) :
    isIdentifier (String.ofList (name.toList.drop (exponentLength name.toList))) = true := by
  by_cases hzero : exponentLength name.toList = 0
  · rw [hzero, List.drop_zero, String.ofList_toList]
    exact h
  · obtain ⟨c, rest, htext, hstart⟩ := opens_of_identifier h
    have hall : rest.all isIdentRest = true := by
      rw [isIdentifier, htext] at h
      exact (Bool.and_eq_true _ _ ▸ h).2
    have hsign : StopsAt isExponentSign rest := fun d hd =>
      isExponentSign_of_isIdentRest (List.all_eq_true.mp hall d (List.mem_of_head? hd))
    rw [breaksNumber] at hbreak
    rw [htext, exponentLength_signless hsign] at hzero hmore hbreak ⊢
    split at hzero
    · rename_i hexponent
      rw [if_pos hexponent] at hmore hbreak ⊢
      rw [Nat.add_comm, List.drop_succ_cons, drop_spanLength] at hmore hbreak ⊢
      obtain ⟨d, more, hdrop⟩ := List.exists_cons_of_ne_nil hmore
      -- the first character behind the digits is none of them
      have hdigit : d.isDigit = false := by
        have hhead := List.head?_dropWhile_not Char.isDigit rest
        rw [hdrop] at hhead
        simpa using hhead
      have hinside : ∀ e ∈ d :: more, isIdentRest e = true := by
        intro e he
        rw [← hdrop] at he
        exact List.all_eq_true.mp hall e ((List.dropWhile_suffix _).subset he)
      have hquote : d ≠ '\'' := by
        rintro rfl
        rw [hdrop] at hbreak
        simp at hbreak
      have hd := hinside d List.mem_cons_self
      rw [hdrop, isIdentifier, String.toList_ofList]
      refine Bool.and_eq_true _ _ ▸ ⟨?_, List.all_eq_true.mpr fun e he =>
        hinside e (List.mem_cons_of_mem _ he)⟩
      simpa [isIdentRest, isIdentStart, Char.isAlphanum, hdigit, hquote] using hd
    · exact absurd rfl hzero

/-! ## Cutting a number and the name behind it -/

theorem all_isIdentRest {name : String} (h : isIdentifier name = true) :
    name.toList.all isIdentRest = true := by
  obtain ⟨c, rest, htext, hstart⟩ := opens_of_identifier h
  rw [isIdentifier, htext, Bool.and_eq_true] at h
  rw [htext, List.all_cons, isIdentRest_of_isIdentStart hstart, h.2]
  rfl

section

variable {rest after : List Char} (hrest : rest.all Char.isDigit = true)

include hrest

/-- A number takes a single dot and the exponent behind it. -/
theorem munchNumber_name {name : String} (hname : isIdentifier name = true)
    (hstop : StopsAt isIdentRest after) (hsign : StopsAt isExponentSign after) :
    ∃ kind, munchNumber (rest ++ '.' :: (name.toList ++ after)) =
      (kind, rest.length + 1 + exponentLength name.toList) := by
  obtain ⟨first, more, htext, hstart⟩ := opens_of_identifier hname
  have hwhole : spanLength Char.isDigit (rest ++ '.' :: (name.toList ++ after)) = rest.length := by
    rw [spanLength_append (.of_head rfl rfl), spanLength_of_all hrest]
  have hdigit : first.isDigit = false := by
    cases hfirst : first.isDigit with
    | false => rfl
    | true => simp [isIdentStart_of_isDigit hfirst] at hstart
  have hfraction : spanLength Char.isDigit (name.toList ++ after) = 0 := by
    rw [htext, List.cons_append, spanLength_cons, if_neg (by simp [hdigit])]
  have hdots : ∀ text, name.toList ++ after ≠ '.' :: text := by
    intro text heq
    rw [htext] at heq
    rw [(List.cons.inj heq).1] at hstart
    exact absurd hstart (by decide)
  have hexponent : exponentLength (name.toList ++ after) = exponentLength name.toList :=
    exponentLength_name (by simp [htext]) (all_isIdentRest hname) hstop hsign
  rw [munchNumber_dot (by rw [hwhole, List.drop_left]) hdots, hwhole, hfraction]
  simp only [List.drop_zero, hexponent]
  split
  · rename_i hnone
    simp only [Bool.and_eq_true, decide_eq_true_eq] at hnone
    exact ⟨.intLit, by rw [hnone.1.2]⟩
  · exact ⟨.realLit, rfl⟩

/-- Two dots end a number. -/
theorem munchNumber_range : munchNumber (rest ++ '.' :: '.' :: after) = (.intLit, rest.length) := by
  have hwhole : spanLength Char.isDigit (rest ++ '.' :: '.' :: after) = rest.length := by
    rw [spanLength_append (.of_head rfl rfl), spanLength_of_all hrest]
  rw [munchNumber_dots (by rw [hwhole, List.drop_left]), hwhole]

end

theorem digits_cons {digits : String} (h : isDigits digits = true) :
    ∃ c rest, digits.toList = c :: rest ∧ c.isDigit = true ∧ rest.all Char.isDigit = true := by
  simp only [isDigits, Bool.and_eq_true, Bool.not_eq_true', List.isEmpty_eq_false_iff] at h
  obtain ⟨c, rest, htext⟩ := List.exists_cons_of_ne_nil h.1
  rw [htext, List.all_cons, Bool.and_eq_true] at h
  exact ⟨c, rest, htext, h.2⟩

theorem munch_digit {c : Char} (h : c.isDigit = true) {rest : List Char} {kind : Kind} {more : Nat}
    (hnumber : munchNumber rest = (kind, more)) : munch c rest = .token kind more := by
  simp only [munch, isWhite_of_isDigit h, isIdentStart_of_isDigit h, h, hnumber, if_true,
    Bool.false_eq_true, if_false]

/-- A real may be spelt like this too. -/
theorem isDotted_of_drop {text : String} (h : isWhole .realLit text = true)
    (hlast : text.toList.drop (spanLength Char.isDigit text.toList) = ['.']) : IsDotted text := by
  have hsplit : text.toList.take (spanLength Char.isDigit text.toList) ++ ['.'] = text.toList := by
    rw [← hlast, List.take_append_drop]
  refine ⟨String.ofList (text.toList.take (spanLength Char.isDigit text.toList)), ?_, ?_⟩
  · rw [isDigits, String.toList_ofList, all_take_spanLength, Bool.and_true]
    -- a dot alone is no real
    cases hdigits : text.toList.take (spanLength Char.isDigit text.toList) with
    | nil =>
        rw [hdigits, List.nil_append] at hsplit
        rw [isWhole, ← hsplit] at h
        exact absurd h (by decide)
    | cons c rest => rfl
  · rw [← String.toList_inj, String.toList_append, String.toList_ofList]
    exact hsplit.symm

namespace Apart

variable {fused : Bool} {chunks : List Chunk} {name : String} (hname : isIdentifier name = true)
  (hstop : StopsAt isIdentRest (chars chunks)) (later : Apart fused chunks)

include hname hstop later

/-- What a number leaves of the name behind it is cut off as a word. -/
theorem exists_cut_name (hbreak : breaksNumber name = false) : ∃ cut,
    chars cut = name.toList.drop (exponentLength name.toList) ++ chars chunks ∧
    Apart fused cut := by
  by_cases hmore : name.toList.drop (exponentLength name.toList) = []
  · exact ⟨chunks, by rw [hmore, List.nil_append], later⟩
  · have hword := isIdentifier_behind_exponent hname hbreak hmore
    refine ⟨.word (Kind.ofWord _) _ :: chunks, ?_, .word (munches_word hword hstop) later⟩
    rw [chars_word, String.toList_ofList]

/-- Digits take the dot behind them, and of the name what could be an exponent. -/
theorem exists_cut_digits {digits : String} (hdigits : isDigits digits = true)
    (hbreak : breaksNumber name = false) (hsign : StopsAt isExponentSign (chars chunks)) : ∃ cut,
      chars cut = digits.toList ++ '.' :: (name.toList ++ chars chunks) ∧ Apart fused cut := by
  obtain ⟨cut, hchars, hcut⟩ := exists_cut_name hname hstop later hbreak
  obtain ⟨c, rest, htext, hc, hrest⟩ := digits_cons hdigits
  obtain ⟨kind, hnumber⟩ := munchNumber_name hrest hname hstop hsign
  have hle := exponentLength_le name.toList
  generalize exponentLength name.toList = exponent at *
  have hjoined : rest ++ '.' :: name.toList.take exponent ++ chars cut =
      rest ++ '.' :: (name.toList ++ chars chunks) := by
    rw [hchars, List.append_assoc, List.cons_append, ← List.append_assoc, List.take_append_drop]
  have hlength : (rest ++ '.' :: name.toList.take exponent).length =
      rest.length + 1 + exponent := by
    rw [List.length_append, List.length_cons, List.length_take, Nat.min_eq_left hle]
    omega
  have hmunches : Munches kind (String.ofList (c :: (rest ++ '.' :: name.toList.take exponent)))
      (chars cut) := by
    refine ⟨c, _, String.toList_ofList, ?_⟩
    rw [hjoined, hlength]
    exact munch_digit hc hnumber
  refine ⟨.word kind _ :: cut, ?_, .word hmunches hcut⟩
  rw [chars_word, String.toList_ofList, List.cons_append, hjoined, htext, List.cons_append]

/-- Behind digits and a dot, a second dot makes a range of both. -/
theorem exists_cut_dotted {text : String} (htext : IsDotted text) : ∃ cut,
    chars cut = text.toList ++ '.' :: (name.toList ++ chars chunks) ∧ Apart fused cut := by
  obtain ⟨digits, hdigits, rfl⟩ := htext
  obtain ⟨c, rest, hlist, hc, hrest⟩ := digits_cons hdigits
  have hword : Apart fused (.word (Kind.ofWord name) name :: chunks) :=
    .word (munches_word hname hstop) later
  have hnumber : Munches .intLit digits
      (chars (Chunk.sign .dotDot :: .word (Kind.ofWord name) name :: chunks)) :=
    ⟨c, rest, hlist, munch_digit hc (munchNumber_range hrest)⟩
  refine ⟨_, ?_, .word hnumber (.loose rfl hword)⟩
  simp [Chunk.sign, Kind.describe, Kind.spelling?, String.toList_append]

/-- A real is cut off in front of a field, unless it is digits and a dot. -/
theorem exists_cut_real {digits : String} (hdigits : isWhole .realLit digits = true) : ∃ cut,
    chars cut = digits.toList ++ '.' :: (name.toList ++ chars chunks) ∧ Apart fused cut := by
  have hword : Apart fused (.word (Kind.ofWord name) name :: chunks) :=
    .word (munches_word hname hstop) later
  by_cases hdotted : digits.toList.drop (spanLength Char.isDigit digits.toList) = ['.']
  · exact exists_cut_dotted hname hstop later (isDotted_of_drop hdigits hdotted)
  · have hselect : Apart fused (Chunk.sign .dot :: .word (Kind.ofWord name) name :: chunks) :=
      .sign rfl (by decide) (stopsAt_dot hname _) hword
    have hnumber : Munches .realLit digits
        (chars (Chunk.sign .dot :: .word (Kind.ofWord name) name :: chunks)) :=
      munches_real_before hdigits (.of_head rfl rfl) fun hlast => absurd hlast hdotted
    refine ⟨_, ?_, .word hnumber hselect⟩
    simp [Chunk.sign, Kind.describe, Kind.spelling?]

end Apart

/-! ## Literal numbers in fused text -/

/-- A literal number as it can be spelt in a text. -/
def Expr.IsNumeral : Expr → Prop
  | int _ digits => isDigits digits = true ∨ IsDotted digits
  | real _ digits => isWhole .realLit digits = true
  | _ => False

/-- Digits and a dot are read as a real. -/
theorem IsDotted.isWhole {text : String} (h : IsDotted text) : isWhole .realLit text = true := by
  obtain ⟨digits, hdigits, rfl⟩ := h
  obtain ⟨c, rest, htext, hc, hrest⟩ := digits_cons hdigits
  have hwhole : spanLength Char.isDigit (rest ++ ['.']) = rest.length := by
    rw [spanLength_append (.of_head rfl rfl), spanLength_of_all hrest]
  have hnumber : munchNumber (rest ++ ['.']) = (.realLit, rest.length + 1) := by
    rw [@munchNumber_dot _ [] (by rw [hwhole, List.drop_left]) (by simp), hwhole]
    rfl
  have hlist : (digits ++ ".").toList = c :: (rest ++ ['.']) := by
    rw [String.toList_append, htext]
    rfl
  rw [Lustre.isWhole, hlist]
  simp [munch_digit hc hnumber]

/-- An integer that ends in a dot is cut off as a real. -/
theorem solid_dotted {span : Span} {digits : String} (h : IsDotted digits) (full : Bool) :
    (Expr.int span digits).IsSolid true full := by
  have hreal : (Expr.real span digits).IsSolid true full := solid_real h.isWhole
  obtain ⟨c, rest, htext, hc⟩ : ∃ c rest, digits.toList = c :: rest ∧ c.isDigit = true := by
    obtain ⟨number, hnumber, rfl⟩ := h
    obtain ⟨c, rest, htext, hc, -⟩ := digits_cons hnumber
    exact ⟨c, rest ++ ['.'], by rw [String.toList_append, htext]; rfl, hc⟩
  refine ⟨⟨fun later hlater hcalm => ?_, by simp [Expr.bare]⟩, hreal.front, by simp [Expr.bare]⟩
  have hhead : (chars ((Expr.int span digits).bare full ++ later)).head? = some c := by
    simp [Expr.bare, htext]
  have hsame : chars ((Expr.real span digits).bare full ++ later) =
      chars ((Expr.int span digits).bare full ++ later) := by
    simp [Expr.bare]
  exact .recut rfl hhead (.inl hc) hsame (hreal.apart later hlater (Calm.dot hcalm))

theorem Expr.IsNumeral.solid {value : Expr} (h : value.IsNumeral) (full : Bool) :
    value.IsSolid true full := by
  cases value with
  | int span digits => exact h.elim solid_int fun hdotted => solid_dotted hdotted full
  | real span digits => exact solid_real h
  | _ => exact h.elim

/-- A literal number and the field that is selected from it are cut into words. -/
theorem Expr.IsNumeral.exists_cut {value : Expr} (h : value.IsNumeral) {name : String}
    (hname : isIdentifier name = true)
    (hbreak : ∀ span digits, value = .int span digits → breaksNumber name = false)
    {later : List Chunk} (hlater : Apart true later) (hcalm : Calm true later) (full : Bool) :
    ∃ cut, chars cut = chars (value.bare full) ++ '.' :: (name.toList ++ chars later) ∧
      Apart true cut := by
  have hstop := hcalm.ident
  cases value with
  | int span digits =>
      have htext : chars ((Expr.int span digits).bare full) = digits.toList := by simp [Expr.bare]
      rw [htext]
      rcases h with hdigits | hdotted
      · exact Apart.exists_cut_digits hname hstop hlater hdigits (hbreak _ _ rfl) hcalm.signless
      · exact Apart.exists_cut_dotted hname hstop hlater hdotted
  | real span digits =>
      have htext : chars ((Expr.real span digits).bare full) = digits.toList := by simp [Expr.bare]
      rw [htext]
      exact Apart.exists_cut_real hname hstop hlater h
  | _ => exact h.elim

/-- A literal number begins with a digit or a dot. -/
theorem Expr.IsNumeral.head {value : Expr} (h : value.IsNumeral) (full : Bool) :
    ∃ c, (chars (value.bare full)).head? = some c ∧ (c.isDigit = true ∨ c = '.') := by
  cases value with
  | int span digits =>
      rcases h with hdigits | ⟨number, hnumber, rfl⟩
      · obtain ⟨c, rest, htext, hc, -⟩ := digits_cons hdigits
        exact ⟨c, by simp [Expr.bare, htext], .inl hc⟩
      · obtain ⟨c, rest, htext, hc, -⟩ := digits_cons hnumber
        exact ⟨c, by simp [Expr.bare, htext], .inl hc⟩
  | real span digits =>
      obtain ⟨c, rest, htext, hopens⟩ := opens_of_real h
      exact ⟨c, by simp [Expr.bare, htext], hopens⟩
  | _ => exact h.elim

/-- A field that is selected from a literal number. -/
theorem solid_selected {span : Span} {value : Expr} {field : Ident} (hvalue : value.IsNumeral)
    (hfield : field.Printable)
    (hbreak : ∀ span digits, value = .int span digits → breaksNumber field.name = false)
    (full : Bool) : (Expr.field span value field).IsSolid true full := by
  -- a number is never put in parentheses, so the dot stands directly behind it
  have hbare : (Expr.field span value field).bare full =
      value.bare full ++ (sign .dot :: field.chunks) := by
    have hrank : ¬(value.rank < Prec.atom ∧ (full ∨ value.rank < Prec.atom)) := by
      cases value with
      | int | real => exact fun hlt => absurd hlt.1 (Nat.lt_irrefl _)
      | _ => exact hvalue.elim
    rw [Expr.bare, Expr.enclose, if_neg hrank]
  have htidy : Tidy true true field.chunks := hfield.tidy
  obtain ⟨c, hhead, hopens⟩ := hvalue.head full
  have hsolid := hvalue.solid full
  rw [Expr.IsSolid, hbare]
  refine ⟨⟨fun later hlater hcalm => ?_, ?_⟩, ?_, by simp⟩
  · obtain ⟨cut, hsame, hcut⟩ := hvalue.exists_cut (isProperName_iff.mp hfield.1).1 hbreak
      (apart_pragmas hfield.2 hlater) (hcalm.pragmas field.pragmas) full
    refine .recut rfl ?_ hopens ?_ hcut
    · rw [List.append_assoc, chars_append, List.head?_append, hhead]
      rfl
    · rw [hsame]
      simp [Ident.chunks_eq, sign, Kind.describe, Kind.spelling?]
  · rw [kinds_append, List.mem_append, kinds_sign, List.mem_cons]
    rintro (hmem | hdot | hmem)
    · exact hsolid.colon hmem
    · cases hdot
    · exact htidy.colon hmem
  · obtain ⟨d, hfirst, hstart, hminus⟩ := hsolid.front.append (sign .dot :: field.chunks)
    refine ⟨d, hfirst, hstart, fun _ => ?_⟩
    rintro rfl
    obtain rfl : c = '-' := by simpa [hhead] using hfirst
    exact absurd hopens (by decide)

end Lustre
