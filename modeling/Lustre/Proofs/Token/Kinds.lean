import Lustre.Proofs.Token.Tiling

/-!
# What the words of a kind look like

Every token was cut off by `munch`, and `Munched` says in which ways.  From this
follows what the text of a token is: that of a keyword or a symbol is its
spelling, that of a string stands between quotes, and an identifier is spelt like
one.
-/

namespace Lustre

/-- The ways in which `munch` finds a token of a kind at `c :: rest`, with some of the characters of
`rest`. -/
inductive Munched (c : Char) (rest : List Char) : Kind → Nat → Prop
  | name (h : isIdentStart c = true) :
      Munched c rest (Kind.ofWord (String.ofList (c :: rest.take (spanLength isIdentRest rest))))
        (spanLength isIdentRest rest)
  | number (h : c.isDigit = true) : Munched c rest (munchNumber rest).1 (munchNumber rest).2
  | string (hc : c = '"') (h : spanLength (· != '"') rest < rest.length) :
      Munched c rest .stringLit (spanLength (· != '"') rest + 1)
  | pragma (hc : c = '%') {after : List Char} (h : afterPragma rest = some after) :
      Munched c rest .pragma (rest.length - after.length)
  | fraction (hc : c = '.') (h : rest.head?.any Char.isDigit = true) :
      Munched c rest .realLit (spanLength Char.isDigit rest +
        exponentLength (rest.drop (spanLength Char.isDigit rest)))
  | symbol {kind : Kind} {more : Nat} (h : munchSymbol c rest = .token kind more) :
      Munched c rest kind more

theorem munched_of_munch {c : Char} {rest : List Char} {kind : Kind} {more : Nat}
    (h : munch c rest = .token kind more) : Munched c rest kind more := by
  -- one case for each class of the first character, in the order of the definition
  unfold munch at h
  split at h
  · cases h
  · split at h
    · rename_i hstart
      cases h
      exact .name hstart
    · split at h
      · rename_i hdigit
        have hnumber : Munched c rest (munchNumber rest).1 (munchNumber rest).2 := .number hdigit
        cases h
        exact hnumber
      · split at h
        · unfold munchString at h
          dsimp only at h
          split at h
          · rename_i hclosed
            cases h
            exact .string rfl hclosed
          · cases h
        · cases h
        · unfold munchComment at h
          split at h <;> cases h
        · unfold munchComment at h
          split at h <;> cases h
        · split at h
          · rename_i hafter
            cases h
            exact .pragma rfl hafter
          · exact .symbol h
        · split at h
          · rename_i hdigit
            cases h
            exact .fraction rfl (by simpa using hdigit)
          · exact .symbol h
        · exact .symbol h

/-! ## Symbols -/

/-- A kind that has one spelling is named by it. -/
theorem Kind.describe_of_spelling {kind : Kind} {spelling : String}
    (h : kind.spelling? = some spelling) : kind.describe = spelling := by
  unfold describe
  split
  case h_6 => simp [h]
  all_goals cases h

theorem spelling_of_symbolOfPair? {c d : Char} {kind : Kind} (h : symbolOfPair? c d = some kind) :
    kind.spelling? = some (String.ofList [c, d]) := by
  unfold symbolOfPair? at h
  split at h <;> cases h <;> rfl

theorem spelling_of_symbolOfChar? {c : Char} {kind : Kind} (h : symbolOfChar? c = some kind) :
    kind.spelling? = some (String.ofList [c]) := by
  unfold symbolOfChar? at h
  split at h <;> cases h <;> rfl

/-- A symbol is spelt as its kind says. -/
theorem spelling_of_munchSymbol {c : Char} {rest : List Char} {kind : Kind} {more : Nat}
    (h : munchSymbol c rest = .token kind more) :
    kind.spelling? = some (String.ofList (c :: rest.take more)) := by
  unfold munchSymbol at h
  split at h
  · rename_i hpair
    cases h
    cases rest with
    | nil => cases hpair
    | cons d rest => exact spelling_of_symbolOfPair? (by simpa using hpair)
  · split at h
    · rename_i hchar
      cases h
      simpa using spelling_of_symbolOfChar? hchar
    · cases h

/-! ## Words of letters -/

/-- A reserved word is of its own kind, any other is an identifier. -/
theorem Kind.ofWord_cases (word : String) :
    (Kind.ofWord word).spelling? = some word ∨
    (Kind.ofWord word = .ident ∧ isKeyword word = false) := by
  unfold Kind.ofWord isKeyword
  cases hfind : Kind.keywords.find? fun kind => kind.spelling? == some word with
  | some kind =>
      have hword := List.find?_some hfind
      exact .inl (by simpa using hword)
  | none =>
      refine .inr ⟨rfl, ?_⟩
      rw [List.find?_eq_none] at hfind
      simpa using hfind

/-- A word is an identifier just if it is not reserved. -/
theorem Kind.ofWord_eq_ident {word : String} :
    Kind.ofWord word = .ident ↔ isKeyword word = false := by
  have hnone : ∀ kind ∈ Kind.keywords, kind ≠ .ident := by decide
  unfold Kind.ofWord isKeyword
  cases hfind : Kind.keywords.find? fun kind => kind.spelling? == some word with
  | some kind =>
      have hmem := List.mem_of_find?_eq_some hfind
      have hword := List.find?_some hfind
      have hany : (Kind.keywords.any fun kind => kind.spelling? == some word) = true :=
        List.any_eq_true.mpr ⟨kind, hmem, hword⟩
      simpa [hany] using hnone kind hmem
  | none =>
      rw [List.find?_eq_none] at hfind
      simpa using hfind

/-- A word of letters is no symbol. -/
theorem Kind.ofWord_ne_percent (word : String) : Kind.ofWord word ≠ .percent := by
  have hnone : ∀ kind ∈ Kind.keywords, kind ≠ .percent := by decide
  unfold Kind.ofWord
  cases hfind : Kind.keywords.find? fun kind => kind.spelling? == some word with
  | some kind => exact hnone kind (List.mem_of_find?_eq_some hfind)
  | none => simp

/-- The word of a keyword is of its kind. -/
theorem Kind.ofWord_spelling {kind : Kind} {spelling : String} (hkind : kind ∈ Kind.keywords)
    (h : kind.spelling? = some spelling) : Kind.ofWord spelling = kind := by
  have hall : ∀ kind ∈ Kind.keywords, Kind.ofWord (kind.spelling?.getD "") = kind := by
    decide +kernel
  have hword := hall kind hkind
  rwa [h] at hword

/-- The kinds of numbers. -/
theorem munchNumber_kind (rest : List Char) :
    (munchNumber rest).1 = .intLit ∨ (munchNumber rest).1 = .realLit := by
  unfold munchNumber
  dsimp only
  split
  · exact .inl rfl
  · split
    · exact .inl rfl
    · exact .inr rfl
  · split
    · exact .inl rfl
    · exact .inr rfl

namespace Munched

variable {c : Char} {rest : List Char} {kind : Kind} {more : Nat}

/-- A keyword or a symbol is spelt as its kind says. -/
theorem spelling (h : Munched c rest kind more) {spelling : String}
    (hspelling : kind.spelling? = some spelling) :
    String.ofList (c :: rest.take more) = spelling := by
  cases h with
  | name hstart =>
      rcases Kind.ofWord_cases (String.ofList (c :: rest.take (spanLength isIdentRest rest))) with
        hword | ⟨hword, -⟩
      · rw [hword] at hspelling
        exact Option.some.inj hspelling
      · rw [hword] at hspelling
        cases hspelling
  | number =>
      rcases munchNumber_kind rest with hnumber | hnumber <;>
      · rw [hnumber] at hspelling
        cases hspelling
  | string | pragma | fraction => cases hspelling
  | symbol hsymbol =>
      rw [spelling_of_munchSymbol hsymbol] at hspelling
      exact Option.some.inj hspelling

/-- A word of a kind that has no spelling is a name, a number, a string, a pragma or a real that
begins with its dot. -/
theorem unspelt (h : Munched c rest kind more) (hnone : kind.spelling? = none) :
    (kind = .ident ∧ isIdentStart c = true ∧ more = spanLength isIdentRest rest ∧
      isKeyword (String.ofList (c :: rest.take more)) = false) ∨
    (c.isDigit = true ∧ (kind, more) = munchNumber rest) ∨
    (kind = .stringLit ∧ c = '"' ∧ spanLength (· != '"') rest < rest.length ∧
      more = spanLength (· != '"') rest + 1) ∨
    (kind = .pragma ∧ c = '%' ∧
      ∃ after, afterPragma rest = some after ∧ more = rest.length - after.length) ∨
    (kind = .realLit ∧ c = '.' ∧ rest.head?.any Char.isDigit = true ∧
      more = spanLength Char.isDigit rest +
        exponentLength (rest.drop (spanLength Char.isDigit rest))) := by
  cases h with
  | name hstart =>
      rcases Kind.ofWord_cases (String.ofList (c :: rest.take (spanLength isIdentRest rest))) with
        hword | ⟨hword, hkeyword⟩
      · rw [hword] at hnone
        cases hnone
      · exact .inl ⟨hword, hstart, rfl, hkeyword⟩
  | number hc => exact .inr (.inl ⟨hc, rfl⟩)
  | string hc hclosed => exact .inr (.inr (.inl ⟨rfl, hc, hclosed, rfl⟩))
  | pragma hc hafter => exact .inr (.inr (.inr (.inl ⟨rfl, hc, _, hafter, rfl⟩)))
  | fraction hc hhead => exact .inr (.inr (.inr (.inr ⟨rfl, hc, hhead, rfl⟩)))
  | symbol hsymbol =>
      rw [spelling_of_munchSymbol hsymbol] at hnone
      cases hnone

end Munched

/-! ## Strings -/

@[simp] theorem spanLength_nil (p : Char → Bool) : spanLength p [] = 0 := rfl

theorem spanLength_cons (p : Char → Bool) (c : Char) (text : List Char) :
    spanLength p (c :: text) = if p c then spanLength p text + 1 else 0 := by
  unfold spanLength
  rw [List.takeWhile_cons]
  split <;> rfl

theorem take_spanLength (p : Char → Bool) (text : List Char) :
    text.take (spanLength p text) = text.takeWhile p := by
  induction text with
  | nil => rfl
  | cons c text ih =>
      rw [spanLength_cons, List.takeWhile_cons]
      split
      · rw [List.take_succ_cons, ih]
      · rfl

theorem drop_spanLength (p : Char → Bool) (text : List Char) :
    text.drop (spanLength p text) = text.dropWhile p := by
  induction text with
  | nil => rfl
  | cons c text ih =>
      rw [spanLength_cons, List.dropWhile_cons]
      split
      · rw [List.drop_succ_cons, ih]
      · rfl

/-- What stands between the quotes of a string. -/
theorem Munched.quoted {c : Char} {rest : List Char} {more : Nat}
    (h : Munched c rest .stringLit more) :
    ∃ inside : List Char, c :: rest.take more = '"' :: inside ++ ['"'] ∧ '"' ∉ inside := by
  obtain ⟨hname, -⟩ | ⟨-, hnumber⟩ | ⟨-, hc, hclosed, rfl⟩ | ⟨hpragma, -⟩ | ⟨hreal, -⟩ :=
    h.unspelt rfl
  · cases hname
  · rcases munchNumber_kind rest with hkind | hkind <;>
    · rw [← hnumber] at hkind
      cases hkind
  · refine ⟨rest.takeWhile (· != '"'), ?_, fun hmem => ?_⟩
    · have hne : rest.dropWhile (· != '"') ≠ [] := by
        intro hnil
        have hlength := congrArg List.length (List.takeWhile_append_dropWhile
          (p := (· != '"')) (l := rest))
        rw [hnil, List.append_nil] at hlength
        rw [spanLength] at hclosed
        omega
      obtain ⟨d, after, hafter⟩ := List.exists_cons_of_ne_nil hne
      have hd : d = '"' := by
        have hhead := List.head?_dropWhile_not (p := (· != '"')) (l := rest)
        rw [hafter] at hhead
        simpa using hhead
      rw [List.take_add_one, take_spanLength, ← List.head?_drop, drop_spanLength, hafter, hd, hc]
      simp
    · have hinside := List.all_eq_true.mp (List.all_takeWhile (p := (· != '"')) (l := rest)) _ hmem
      simp at hinside
  · cases hpragma
  · cases hreal

/-! ## The tokens of a text -/

namespace Lexed

/-- Every token of a text was cut off by `munch`. -/
theorem munched_of_mem_tokens {text : List Char} {start : Nat} {token : Token}
    (h : token ∈ (scan 0 start text).tokens) :
    ∃ c rest more, Munched c rest token.kind more ∧
      token.text = String.ofList (c :: rest.take more) := by
  induction hlength : text.length using Nat.strongRecOn generalizing start text with
  | ind length ih =>
      cases text with
      | nil => simp [scan, tokens] at h
      | cons c rest =>
          have hlater := fun more start => @ih (rest.drop more).length
            (by simp only [List.length_cons, List.length_drop] at hlength ⊢; omega)
            (rest.drop more) start
          rw [scan_cons] at h
          cases hmunch : munch c rest with
          | token kind more =>
              simp only [hmunch, tokens, List.filterMap_cons, List.mem_cons] at h
              rcases h with rfl | h
              · exact ⟨c, rest, more, munched_of_munch hmunch, rfl⟩
              · exact hlater more _ h rfl
          | filler trivia more =>
              simp only [hmunch, tokens, List.filterMap_cons] at h
              exact hlater more _ h rfl
          | unterminated cause width => simp [hmunch, tokens] at h

/-- A keyword or a symbol is written as its kind says. -/
theorem describe_of_mem_tokens {text : String} {token : Token} (h : token ∈ (ofText text).tokens) :
    token.describe = token.text := by
  obtain ⟨c, rest, more, hmunched, htext⟩ := munched_of_mem_tokens h
  rw [Token.describe]
  cases hspelling : token.kind.spelling? with
  | none => rfl
  | some spelling => rw [htext, hmunched.spelling hspelling, Option.getD_some]

/-- A string stands between quotes, and no quote is in it. -/
theorem quoted_of_mem_tokens {text : String} {token : Token} (h : token ∈ (ofText text).tokens)
    (hkind : token.kind = .stringLit) :
    ∃ inside : List Char, token.text = String.ofList ('"' :: inside ++ ['"']) ∧ '"' ∉ inside := by
  obtain ⟨c, rest, more, hmunched, htext⟩ := munched_of_mem_tokens h
  obtain ⟨inside, hinside, hquote⟩ := (hkind ▸ hmunched).quoted
  exact ⟨inside, by rw [htext, hinside], hquote⟩

end Lexed

end Lustre
