import Lustre.Proofs.Token.Kinds
import Lustre.Proofs.Tree.Words
import Lustre.Proofs.Reader.Onward

/-!
# Which words a reader passes

`normal` brings the tokens of a text into the form in which trees are flattened:
separators are dropped, so is a `.` directly after `tel`, and the keyword in
`n = type t` moves before the name.  A cursor `Passes` some words on the way to a
later one if these words are what `normal` makes of the tokens between the two.

The keyword moves over a name that has been passed already, so `normal` does not
split at every cursor, only where no keyword is about to move back: where the
tokens to come are `Settled`.  Readers establish this backwards, from the last
token to the first, which is why it is a premise on the later cursor.
-/

namespace Lustre

/-! ## Normal form of tokens -/

/-- The separators. -/
def Kind.isSeparator : Kind → Bool
  | .comma | .semi => true
  | _ => false

/-- Whether a kind has one spelling and matters for none of its neighbours. -/
def Kind.isSteady (kind : Kind) : Bool :=
  kind.spelling?.isSome && !kind.isSeparator && kind != .kwTel && kind != .eq

theorem Kind.isSteady_iff {kind : Kind} : kind.isSteady = true ↔
    kind.spelling?.isSome = true ∧ kind.isSeparator = false ∧ kind ≠ .kwTel ∧ kind ≠ .eq := by
  simp [isSteady, and_assoc]

/-- The keyword of an explicit argument whose name, without its pragmas, has just been passed:
`= type` and the like, perhaps after pragmas. -/
def argKeyword? : List Token → Option Token
  | [] => none
  | token :: rest =>
      if token.kind = .pragma then argKeyword? rest
      else if token.kind = .eq then rest.head?.filter fun next => next.kind.isArgKeyword
      else none

/-- Where a scan for keywords stands: a keyword was moved before the name just passed (`name`), or
its old place is next (`keyword`). -/
inductive Moving where
  | nothing | name | keyword
deriving DecidableEq

/-- Moves the keyword in `n = type` and the like before the name. -/
def keywordsFirst : Moving → List Token → List Token
  | _, [] => []
  | .keyword, _ :: rest => keywordsFirst .nothing rest
  | .name, token :: rest =>
      token :: keywordsFirst (if token.kind = .eq then .keyword else .name) rest
  | .nothing, token :: rest =>
      match if token.kind = .ident then argKeyword? rest else none with
      | some keyword => keyword :: token :: keywordsFirst .name rest
      | none => token :: keywordsFirst .nothing rest

/-- Drops separators, and a `.` directly after `tel`. -/
def withoutSeparators : List Token → List Token
  | [] => []
  | [token] => if token.kind.isSeparator then [] else [token]
  | token :: next :: rest =>
      if token.kind.isSeparator then withoutSeparators (next :: rest)
      else if token.kind = .kwTel ∧ next.kind = .dot then token :: withoutSeparators rest
      else token :: withoutSeparators (next :: rest)

/-- Tokens in the form in which trees are flattened. -/
def normal (tokens : List Token) : List Token := withoutSeparators (keywordsFirst .nothing tokens)

/-- Whether no keyword is about to move before a name just passed. -/
def Settled (tokens : List Token) : Prop := argKeyword? tokens = none

/-! ## Normal form, token by token -/

@[simp] theorem normal_nil : normal [] = [] := rfl

theorem settled_nil : Settled [] := rfl

theorem settled_cons {token : Token} {rest : List Token} (hpragma : token.kind ≠ .pragma)
    (heq : token.kind ≠ .eq) : Settled (token :: rest) := by
  simp [Settled, argKeyword?, hpragma, heq]

theorem settled_pragma {token : Token} {rest : List Token} (h : token.kind = .pragma) :
    Settled (token :: rest) ↔ Settled rest := by
  simp [Settled, argKeyword?, h]

theorem settled_eq {token next : Token} {rest : List Token} (h : token.kind = .eq)
    (hnext : next.kind.isArgKeyword = false) : Settled (token :: next :: rest) := by
  simp [Settled, argKeyword?, h, hnext]

/-- A separator leaves nothing behind. -/
theorem withoutSeparators_separator {token : Token} {rest : List Token}
    (h : token.kind.isSeparator = true) :
    withoutSeparators (token :: rest) = withoutSeparators rest := by
  cases rest <;> simp [withoutSeparators, h]

/-- Any other token stays, if what may be dropped after it does not follow. -/
theorem withoutSeparators_cons {token : Token} {rest : List Token}
    (h : token.kind.isSeparator = false)
    (htel : token.kind = .kwTel → ∀ next later, rest = next :: later → next.kind ≠ .dot) :
    withoutSeparators (token :: rest) = token :: withoutSeparators rest := by
  cases rest with
  | nil => simp [withoutSeparators, h]
  | cons next later =>
      have hdot : ¬(token.kind = .kwTel ∧ next.kind = .dot) := fun both =>
        htel both.1 next later rfl both.2
      simp [withoutSeparators, h, hdot]

/-- A token that is no name stays where it is. -/
theorem keywordsFirst_cons {token : Token} {rest : List Token} (h : token.kind ≠ .ident) :
    keywordsFirst .nothing (token :: rest) = token :: keywordsFirst .nothing rest := by
  simp [keywordsFirst, h]

/-- A name stays where it is, unless a keyword moves before it. -/
theorem keywordsFirst_ident {token : Token} {rest : List Token} (h : Settled rest) :
    keywordsFirst .nothing (token :: rest) = token :: keywordsFirst .nothing rest := by
  rw [Settled] at h
  simp [keywordsFirst, h]

/-- A separator leaves nothing behind in normal form. -/
theorem normal_separator {token : Token} {rest : List Token}
    (h : token.kind.isSeparator = true) : normal (token :: rest) = normal rest := by
  have hident : token.kind ≠ .ident := by
    intro hident
    rw [hident] at h
    simp [Kind.isSeparator] at h
  rw [normal, keywordsFirst_cons hident, withoutSeparators_separator h, normal]

/-- Tokens that neither move nor are dropped, nor have effect on those after them. -/
theorem normal_cons {token : Token} {rest : List Token}
    (hseparator : token.kind.isSeparator = false)
    (htel : token.kind ≠ .kwTel) (hsettled : Settled rest) :
    normal (token :: rest) = token :: normal rest := by
  rw [normal, keywordsFirst_ident hsettled,
    withoutSeparators_cons hseparator fun h => absurd h htel, normal]

/-- The same, where a keyword may move, but not over this token. -/
theorem normal_cons_of_ne_ident {token : Token} {rest : List Token}
    (hseparator : token.kind.isSeparator = false) (htel : token.kind ≠ .kwTel)
    (hident : token.kind ≠ .ident) : normal (token :: rest) = token :: normal rest := by
  rw [normal, keywordsFirst_cons hident,
    withoutSeparators_cons hseparator fun h => absurd h htel, normal]

/-- The keyword that moves is one of the tokens, and a keyword of explicit arguments. -/
theorem mem_of_argKeyword? {tokens : List Token} {keyword : Token}
    (h : argKeyword? tokens = some keyword) :
    keyword ∈ tokens ∧ keyword.kind.isArgKeyword = true := by
  induction tokens with
  | nil => cases h
  | cons token rest ih =>
      rw [argKeyword?] at h
      split at h
      · exact ⟨List.mem_cons_of_mem _ (ih h).1, (ih h).2⟩
      · split at h
        · obtain ⟨hhead, hkeyword⟩ := Option.filter_eq_some_iff.mp h
          exact ⟨List.mem_cons_of_mem _ (List.mem_of_mem_head? hhead), hkeyword⟩
        · cases h

theorem mem_of_mem_keywordsFirst {moving : Moving} {tokens : List Token} {token : Token}
    (h : token ∈ keywordsFirst moving tokens) : token ∈ tokens := by
  induction tokens generalizing moving with
  | nil => cases moving <;> exact h
  | cons first rest ih =>
      cases moving with
      | keyword => exact List.mem_cons_of_mem _ (ih h)
      | name =>
          rcases List.mem_cons.mp h with rfl | h
          · exact List.mem_cons_self
          · exact List.mem_cons_of_mem _ (ih h)
      | nothing =>
          rw [keywordsFirst] at h
          split at h
          · rename_i keyword hkeyword
            split at hkeyword
            · rcases List.mem_cons.mp h with rfl | h
              · exact List.mem_cons_of_mem _ (mem_of_argKeyword? hkeyword).1
              · rcases List.mem_cons.mp h with rfl | h
                · exact List.mem_cons_self
                · exact List.mem_cons_of_mem _ (ih h)
            · cases hkeyword
          · rcases List.mem_cons.mp h with rfl | h
            · exact List.mem_cons_self
            · exact List.mem_cons_of_mem _ (ih h)

theorem withoutSeparators_sublist :
    ∀ tokens : List Token, (withoutSeparators tokens).Sublist tokens
  | [] => .refl _
  | [token] => by
      rw [withoutSeparators]
      split
      · exact List.nil_sublist _
      · exact .refl _
  | token :: next :: rest => by
      rw [withoutSeparators]
      split
      · exact (withoutSeparators_sublist (next :: rest)).cons _
      · split
        · exact ((withoutSeparators_sublist rest).cons _).cons_cons _
        · exact (withoutSeparators_sublist (next :: rest)).cons_cons _

/-- The normal form has no other tokens. -/
theorem mem_of_mem_normal {tokens : List Token} {token : Token} (h : token ∈ normal tokens) :
    token ∈ tokens :=
  mem_of_mem_keywordsFirst ((withoutSeparators_sublist _).subset h)

/-- A token of the normal form cannot come from a `.`, unless a `.` comes next. -/
private theorem head_keywordsFirst {tokens : List Token} {next : Token} {later : List Token}
    (h : keywordsFirst .nothing tokens = next :: later) (hdot : next.kind = .dot) :
    tokens.head?.map Token.kind = some .dot := by
  cases tokens with
  | nil => simp [keywordsFirst] at h
  | cons token rest =>
      rw [keywordsFirst] at h
      split at h
      · rename_i keyword hkeyword
        -- a keyword that moves is no dot
        split at hkeyword
        · obtain ⟨rfl, -⟩ := List.cons.inj h
          simpa [hdot, Kind.isArgKeyword] using (mem_of_argKeyword? hkeyword).2
        · cases hkeyword
      · obtain ⟨rfl, -⟩ := List.cons.inj h
        simpa using hdot

/-- The normal form of a `tel` without a mark after it. -/
theorem normal_tel {token : Token} {rest : List Token} (htoken : token.kind = .kwTel)
    (hrest : rest.head?.map Token.kind ≠ some .dot) :
    normal (token :: rest) = token :: normal rest := by
  rw [normal, keywordsFirst_cons (by simp [htoken]),
    withoutSeparators_cons (by simp [htoken, Kind.isSeparator]), normal]
  intro _ next later hlater hdot
  exact hrest (head_keywordsFirst hlater hdot)

/-- The normal form of a `tel` with a `.` after it. -/
theorem normal_tel_dot {token dot : Token} {rest : List Token} (htoken : token.kind = .kwTel)
    (hdot : dot.kind = .dot) : normal (token :: dot :: rest) = token :: normal rest := by
  rw [normal, keywordsFirst_cons (by simp [htoken]), keywordsFirst_cons (by simp [hdot]), normal]
  simp [withoutSeparators, htoken, hdot, Kind.isSeparator]

/-- The normal form of an explicit argument with its name before its keyword. -/
theorem normal_named {name eq keyword : Token} {pragmas rest : List Token}
    (hname : name.kind = .ident) (hpragmas : ∀ pragma ∈ pragmas, pragma.kind = .pragma)
    (heq : eq.kind = .eq) (hkeyword : keyword.kind.isArgKeyword = true) :
    normal (name :: (pragmas ++ eq :: keyword :: rest)) =
      keyword :: name :: (pragmas ++ eq :: normal rest) := by
  -- the keyword is found behind the pragmas and the `=`
  have hfind : argKeyword? (pragmas ++ eq :: keyword :: rest) = some keyword := by
    induction pragmas with
    | nil => simp [argKeyword?, heq, hkeyword]
    | cons pragma pragmas ih =>
        rw [List.cons_append, argKeyword?, if_pos (hpragmas pragma List.mem_cons_self)]
        exact ih fun other hother => hpragmas other (List.mem_cons_of_mem _ hother)
  -- it is not kept in its old place
  have hmoved : keywordsFirst .name (pragmas ++ eq :: keyword :: rest) =
      pragmas ++ eq :: keywordsFirst .nothing rest := by
    clear hfind
    induction pragmas with
    | nil => simp [keywordsFirst, heq]
    | cons pragma pragmas ih =>
        have hpragma := hpragmas pragma List.mem_cons_self
        rw [List.cons_append, keywordsFirst, if_neg (by simp [hpragma]),
          ih fun other hother => hpragmas other (List.mem_cons_of_mem _ hother), List.cons_append]
  have hkept : withoutSeparators (pragmas ++ eq :: keywordsFirst .nothing rest) =
      pragmas ++ eq :: normal rest := by
    clear hfind hmoved
    induction pragmas with
    | nil =>
        rw [List.nil_append, withoutSeparators_cons (by simp [heq, Kind.isSeparator])
          (by simp [heq])]
        rfl
    | cons pragma pragmas ih =>
        have hpragma := hpragmas pragma List.mem_cons_self
        rw [List.cons_append, withoutSeparators_cons (by simp [hpragma, Kind.isSeparator])
            (by simp [hpragma]),
          ih fun other hother => hpragmas other (List.mem_cons_of_mem _ hother), List.cons_append]
  have hkind : keyword.kind.isSeparator = false ∧ keyword.kind ≠ .kwTel := by
    rcases Kind.isArgKeyword_iff.mp hkeyword with h | h | h | h <;> simp [h, Kind.isSeparator]
  rw [normal, keywordsFirst, if_pos hname, hfind, hmoved]
  rw [withoutSeparators_cons hkind.1 fun h => absurd h hkind.2,
    withoutSeparators_cons (by simp [hname, Kind.isSeparator]) (by simp [hname]), hkept]

/-! ## Passing words -/

namespace Token

/-- A token as a word.  What a keyword or a symbol is spelt like is a matter of its kind. -/
def word (token : Token) : Lexeme :=
  if token.kind = .pragma then
    .pragma (Pragma.ofToken token).key (Pragma.ofToken token).value
  else .plain token.kind token.describe

/-- The word of a keyword or a symbol. -/
theorem word_of_spelling {token : Token} (h : token.kind.spelling?.isSome) :
    token.word = .sign token.kind := by
  have hpragma : token.kind ≠ .pragma := by
    intro hpragma
    rw [hpragma] at h
    cases h
  obtain ⟨spelling, hspelling⟩ := Option.isSome_iff_exists.mp h
  rw [word, if_neg hpragma, Lexeme.sign, describe, Kind.describe_of_spelling hspelling, hspelling,
    Option.getD_some]

/-- The word of a token of a class of words other than pragmas. -/
theorem word_of_class {token : Token} (h : token.kind.spelling? = none)
    (hpragma : token.kind ≠ .pragma) : token.word = .plain token.kind token.text := by
  rw [word, if_neg hpragma, describe, h, Option.getD_none]

end Token

namespace Cursor

/-- Passing a token, the token before which others stand is one closer. -/
theorem peekAt_pass (c : Cursor) (ahead : Nat) : c.pass.peekAt ahead = c.peekAt (ahead + 1) := by
  simp [peekAt, rest_pass]

theorem peekAt_zero (c : Cursor) : c.peekAt 0 = c.peek := by
  simp [peekAt, peek, List.head?_eq_getElem?]

/-- What can be seen is there. -/
theorem lt_of_peekAt {c : Cursor} {ahead : Nat} {kind : Kind} (h : c.peekAt ahead = some kind) :
    ahead < c.rest.length := by
  obtain ⟨token, htoken, -⟩ := Option.map_eq_some_iff.mp h
  exact (List.getElem?_eq_some_iff.mp htoken).1

/-- Which kinds the cursor is at follows from the next token. -/
theorem isAt_of_peek {c : Cursor} {kind : Kind} (h : c.peek = some kind) (other : Kind) :
    c.isAt other = (kind == other) := by
  simp [isAt, h]

/-- The words to come. -/
def words (c : Cursor) : List Lexeme := (normal c.rest).map Token.word

/-- The cursor passes `words` on the way to `c'`. -/
structure Passes (c : Cursor) (words : List Lexeme) (c' : Cursor) : Prop where
  suffix : c'.rest <:+ c.rest
  shorter : words ≠ [] → c'.rest.length < c.rest.length
  settled : Settled c'.rest → Settled c.rest
  spelt : Settled c'.rest → c.words = words ++ c'.words

namespace Passes

variable {c c₁ c₂ : Cursor} {first second : List Lexeme}

/-- Standing still passes nothing. -/
theorem refl (c : Cursor) : Passes c [] c :=
  ⟨List.suffix_refl _, fun h => absurd rfl h, id, fun _ => rfl⟩

/-- What is passed in two steps is passed one after the other. -/
theorem trans (h₁ : Passes c first c₁) (h₂ : Passes c₁ second c₂) :
    Passes c (first ++ second) c₂ where
  suffix := h₂.suffix.trans h₁.suffix
  shorter hne := by
    have hle₁ := h₁.suffix.length_le
    have hle₂ := h₂.suffix.length_le
    by_cases hfirst : first = []
    · have := h₂.shorter (by simpa [hfirst] using hne)
      omega
    · have := h₁.shorter hfirst
      omega
  settled := h₁.settled ∘ h₂.settled
  spelt hsettled := by
    rw [h₁.spelt (h₂.settled hsettled), h₂.spelt hsettled, List.append_assoc]

/-- Passing a token that matters for none of its neighbours. -/
theorem token {token : Token} {rest : List Token} (hrest : c.rest = token :: rest)
    (hseparator : token.kind.isSeparator = false) (htel : token.kind ≠ .kwTel)
    (hpragma : token.kind ≠ .pragma) (heq : token.kind ≠ .eq) :
    Passes c [token.word] c.pass := by
  have hpass : c.pass.rest = rest := by simp [rest_pass, hrest]
  exact
    { suffix := by simp [hpass, hrest]
      shorter := fun _ => by simp [hpass, hrest]
      settled := fun _ => by
        rw [hrest]
        exact settled_cons hpragma heq
      spelt := fun hsettled => by
        rw [hpass] at hsettled
        simp [words, hpass, hrest, normal_cons hseparator htel hsettled] }

/-- Passing a pragma. -/
theorem pragma {token : Token} {rest : List Token} (hrest : c.rest = token :: rest)
    (hpragma : token.kind = .pragma) : Passes c [token.word] c.pass := by
  have hpass : c.pass.rest = rest := by simp [rest_pass, hrest]
  exact
    { suffix := by simp [hpass, hrest]
      shorter := fun _ => by simp [hpass, hrest]
      settled := fun hsettled => by
        rw [hrest]
        rw [hpass] at hsettled
        exact (settled_pragma hpragma).mpr hsettled
      spelt := fun hsettled => by
        rw [hpass] at hsettled
        have hnormal : normal (token :: rest) = token :: normal rest :=
          normal_cons (by simp [hpragma, Kind.isSeparator]) (by simp [hpragma]) hsettled
        simp [words, hpass, hrest, hnormal] }

/-- Passing a separator. -/
theorem separator {kind : Kind} (hpeek : c.peek = some kind) (hkind : kind.isSeparator = true) :
    Passes c [] c.pass := by
  rcases hrest : c.rest with _ | ⟨token, rest⟩
  · simp [peek, hrest] at hpeek
  · have hpass : c.pass.rest = rest := by simp [rest_pass, hrest]
    have htoken : token.kind = kind := by simpa [peek, hrest] using hpeek
    have hsep : token.kind.isSeparator = true := htoken ▸ hkind
    exact
      { suffix := by simp [hpass, hrest]
        shorter := fun h => absurd rfl h
        settled := fun _ => by
          rw [hrest]
          refine settled_cons ?_ ?_ <;>
          · intro h
            simp [h, Kind.isSeparator] at hsep
        spelt := fun _ => by simp [words, hpass, hrest, normal_separator hsep] }

/-- Passing a keyword or a symbol that matters for none of its neighbours. -/
theorem sign {kind : Kind} (hpeek : c.peek = some kind) (hkind : kind.isSteady = true) :
    Passes c [.sign kind] c.pass := by
  rcases hrest : c.rest with _ | ⟨token, rest⟩
  · simp [peek, hrest] at hpeek
  · have htoken : token.kind = kind := by simpa [peek, hrest] using hpeek
    subst htoken
    obtain ⟨hspelling, hseparator, htel, heq⟩ := Kind.isSteady_iff.mp hkind
    have hword := Token.word_of_spelling hspelling
    have hpragma : token.kind ≠ .pragma := by
      intro hpragma
      rw [hpragma] at hspelling
      cases hspelling
    rw [← hword]
    exact Passes.token hrest hseparator htel hpragma heq

/-- The first word to come is not the keyword of an explicit argument if words that begin with
something else are passed. -/
theorem peek_ne_argKeyword {words : List Lexeme} {kind : Kind} (h : Passes c words c₁)
    (hsettled : Settled c₁.rest) (hpeek : c.peek = some kind) (hbegins : BeginsPlain words) :
    kind.isArgKeyword = false := by
  rcases hrest : c.rest with _ | ⟨token, rest⟩
  · simp [peek, hrest] at hpeek
  · have htoken : token.kind = kind := by simpa [peek, hrest] using hpeek
    subst htoken
    refine Bool.eq_false_iff.mpr fun hkeyword => ?_
    -- such a keyword would come first in the normal form
    have hkinds : token.kind.isSeparator = false ∧ token.kind ≠ .kwTel ∧ token.kind ≠ .ident ∧
        token.kind ≠ .pragma := by
      rcases Kind.isArgKeyword_iff.mp hkeyword with h | h | h | h <;> simp [h, Kind.isSeparator]
    have hspelt := h.spelt hsettled
    obtain ⟨word, tail, rfl, hword⟩ := hbegins
    rw [Cursor.words, hrest,
      normal_cons_of_ne_ident hkinds.1 hkinds.2.1 hkinds.2.2.1, List.map_cons,
      List.cons_append] at hspelt
    have hfirst := (List.cons.inj hspelt).1
    rw [← hfirst, Token.word, if_neg hkinds.2.2.2] at hword
    rw [Lexeme.kind, hkeyword] at hword
    simp at hword

/-- Passing an `=` and words that do not begin with the keyword of an explicit argument. -/
theorem eq {words : List Lexeme} (hpeek : c.peek = some .eq) (h : Passes c.pass words c₁)
    (hbegins : BeginsPlain words) :
    Passes c (.sign .eq :: words) c₁ := by
  rcases hrest : c.rest with _ | ⟨token, rest⟩
  · simp [peek, hrest] at hpeek
  · have htoken : token.kind = .eq := by simpa [peek, hrest] using hpeek
    have hpass : c.pass.rest = rest := by simp [rest_pass, hrest]
    have hsuffix := h.suffix
    rw [hpass] at hsuffix
    refine ⟨?_, fun _ => ?_, fun hsettled => ?_, fun hsettled => ?_⟩
    · rw [hrest]
      exact hsuffix.trans (List.suffix_cons _ _)
    · have := hsuffix.length_le
      rw [hrest, List.length_cons]
      omega
    · rw [hrest]
      cases hnext : rest with
      | nil => simp [Settled, argKeyword?, htoken]
      | cons next later =>
          refine settled_eq htoken ?_
          exact h.peek_ne_argKeyword hsettled (by simp [peek, hpass, hnext]) hbegins
    · have hspelt := h.spelt hsettled
      rw [Cursor.words, hpass] at hspelt
      rw [Cursor.words, hrest, normal_cons_of_ne_ident (by simp [htoken, Kind.isSeparator])
        (by simp [htoken]) (by simp [htoken]), List.map_cons, hspelt,
        Token.word_of_spelling (by rw [htoken]; rfl), htoken]
      rfl

/-- Passing an `=` before a token that is not the keyword of an explicit argument. -/
theorem eq_alone {kind : Kind} (hpeek : c.peek = some .eq) (hnext : c.peekAt 1 = some kind)
    (hkind : kind.isArgKeyword = false) : Passes c [.sign .eq] c.pass := by
  rcases hrest : c.rest with _ | ⟨token, _ | ⟨next, later⟩⟩
  · simp [peek, hrest] at hpeek
  · simp [peekAt, hrest] at hnext
  · have htoken : token.kind = .eq := by simpa [peek, hrest] using hpeek
    have hlater : next.kind = kind := by simpa [peekAt, hrest] using hnext
    have hpass : c.pass.rest = next :: later := by simp [rest_pass, hrest]
    refine ⟨by simp [hpass, hrest], fun _ => by simp [hpass, hrest], fun _ => ?_, fun _ => ?_⟩
    · rw [hrest]
      exact settled_eq htoken (hlater ▸ hkind)
    · rw [Cursor.words, Cursor.words, hrest, hpass,
        normal_cons_of_ne_ident (by simp [htoken, Kind.isSeparator]) (by simp [htoken])
          (by simp [htoken]), List.map_cons, Token.word_of_spelling (by rw [htoken]; rfl), htoken]
      rfl

/-- Passing a name with its pragmas, an `=`, the keyword of an explicit argument and the rest of
that argument. -/
theorem named {name : Token} {pragmas : List Token} {kind : Kind} {later : List Lexeme}
    (hrest : c.rest = name :: (pragmas ++ c₁.rest)) (hname : name.kind = .ident)
    (hpragmas : ∀ token ∈ pragmas, token.kind = .pragma) (heq : c₁.peek = some .eq)
    (hkeyword : c₁.pass.peek = some kind) (hkind : kind.isArgKeyword = true)
    (h : c₁.pass.pass.Passes later c₂) :
    Passes c (.sign kind :: name.word :: pragmas.map Token.word ++ .sign .eq :: later) c₂ := by
  rcases hnext : c₁.rest with _ | ⟨eq, _ | ⟨keyword, rest⟩⟩
  · simp [peek, hnext] at heq
  · simp [peek, rest_pass, hnext] at hkeyword
  · have heqKind : eq.kind = .eq := by simpa [peek, hnext] using heq
    have hkeywordKind : keyword.kind = kind := by simpa [peek, rest_pass, hnext] using hkeyword
    have hpass : c₁.pass.pass.rest = rest := by simp [rest_pass, hnext]
    rw [hnext] at hrest
    have hsuffix := h.suffix
    rw [hpass] at hsuffix
    have hspelling : kind.spelling?.isSome := by
      rcases Kind.isArgKeyword_iff.mp hkind with rfl | rfl | rfl | rfl <;> rfl
    refine ⟨?_, fun _ => ?_, fun _ => ?_, fun hsettled => ?_⟩
    · rw [hrest]
      exact hsuffix.trans ⟨name :: (pragmas ++ [eq, keyword]), by simp⟩
    · have := hsuffix.length_le
      rw [hrest]
      simp only [List.length_cons, List.length_append]
      omega
    · rw [hrest]
      exact settled_cons (by simp [hname]) (by simp [hname])
    · have hspelt := h.spelt hsettled
      rw [Cursor.words, hpass] at hspelt
      rw [Cursor.words, hrest, normal_named hname hpragmas heqKind (hkeywordKind ▸ hkind)]
      simp [hspelt, Token.word_of_spelling
        (hkeywordKind ▸ hspelling : keyword.kind.spelling?.isSome),
        Token.word_of_spelling (heqKind ▸ rfl : eq.kind.spelling?.isSome), hkeywordKind, heqKind]

/-- Passing a `tel` with the mark that may stand after it. -/
theorem tel (hpeek : c.peek = some .kwTel)
    (hmark : c₁ = c.pass ∧ c₁.peek ≠ some .dot ∨
      c₁ = c.pass.pass ∧ (c.pass.peek = some .semi ∨ c.pass.peek = some .dot)) :
    Passes c [.sign .kwTel] c₁ := by
  rcases hrest : c.rest with _ | ⟨token, rest⟩
  · simp [peek, hrest] at hpeek
  · have htoken : token.kind = .kwTel := by simpa [peek, hrest] using hpeek
    have hpass : c.pass.rest = rest := by simp [rest_pass, hrest]
    have hword : token.word = .sign .kwTel := by
      rw [Token.word_of_spelling (by rw [htoken]; rfl), htoken]
    have hsettled : Settled c.rest := by
      rw [hrest]
      exact settled_cons (by simp [htoken]) (by simp [htoken])
    -- no mark follows, or a semicolon that is no word, or a dot that is no word behind `tel`
    rcases hmark with ⟨rfl, hdot⟩ | ⟨rfl, hmark⟩
    · refine ⟨by simp [hpass, hrest], fun _ => by simp [hpass, hrest], fun _ => hsettled,
        fun _ => ?_⟩
      rw [peek, hpass] at hdot
      simp [Cursor.words, hpass, hrest, normal_tel htoken hdot, hword]
    · rcases hnext : rest with _ | ⟨next, later⟩
      · simp [peek, hpass, hnext] at hmark
      · have hafter : c.pass.pass.rest = later := by simp [rest_pass, hrest, hnext]
        refine ⟨?_, fun _ => ?_, fun _ => hsettled, fun _ => ?_⟩
        · rw [hafter, hrest, hnext]
          exact ⟨[token, next], rfl⟩
        · simp only [hafter, hrest, hnext, List.length_cons]
          omega
        · rw [Cursor.words, Cursor.words, hafter, hrest, hnext]
          rcases hmark with hsemi | hdot
          · have hkind : next.kind = .semi := by simpa [peek, hpass, hnext] using hsemi
            rw [normal_tel htoken (by simp [hkind]),
              normal_separator (by simp [hkind, Kind.isSeparator])]
            simp [hword]
          · have hkind : next.kind = .dot := by simpa [peek, hpass, hnext] using hdot
            rw [normal_tel_dot htoken hkind]
            simp [hword]

end Passes

end Cursor

end Lustre
