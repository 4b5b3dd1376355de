import Lustre.Printer.Program
import Lustre.Proofs.Token.Munching

/-!
# Reading printed words back

Chunks are `Apart` if each word among them is cut off from the text that follows it as
the word that it is, and each gap is white space.  The tokens of the text are then the
words of the chunks, in the places where they were printed (`scan_chars`), and nothing is
wrong with it.

Whether chunks are apart is found from the last to the first: putting one more word in
front asks only what the text goes on with.

A literal number runs into a dot behind it.  Chunks are apart as `fused` text if this is
the only thing wrong with them: the text is then cut into other words, but still into
words.
-/

namespace Lustre

open Chunk

namespace Chunk

/-! ## Characters, words and tokens of chunks -/

/-- The characters that chunks spell. -/
def chars (chunks : List Chunk) : List Char := chunks.flatMap fun chunk => chunk.text.toList

/-- The kinds of the words among chunks. -/
def kinds : List Chunk → List Kind
  | [] => []
  | word kind _ :: chunks => kind :: kinds chunks
  | gap _ :: chunks => kinds chunks

/-- The words among chunks as tokens of a text, if the chunks begin at byte `start` of it. -/
def tokens (start : Nat) : List Chunk → List Token
  | [] => []
  | word kind text :: chunks =>
      ⟨kind, text, ⟨start, start + byteLength text.toList, 0⟩⟩ ::
        tokens (start + byteLength text.toList) chunks
  | gap text :: chunks => tokens (start + byteLength text.toList) chunks

@[simp] theorem chars_nil : chars [] = [] := rfl

@[simp] theorem chars_word (kind : Kind) (text : String) (chunks : List Chunk) :
    chars (word kind text :: chunks) = text.toList ++ chars chunks := rfl

@[simp] theorem chars_gap (text : String) (chunks : List Chunk) :
    chars (gap text :: chunks) = text.toList ++ chars chunks := rfl

@[simp] theorem chars_append (first second : List Chunk) :
    chars (first ++ second) = chars first ++ chars second :=
  List.flatMap_append

@[simp] theorem kinds_nil : kinds [] = [] := rfl

@[simp] theorem kinds_word (kind : Kind) (text : String) (chunks : List Chunk) :
    kinds (word kind text :: chunks) = kind :: kinds chunks := rfl

@[simp] theorem kinds_gap (text : String) (chunks : List Chunk) :
    kinds (gap text :: chunks) = kinds chunks := rfl

@[simp] theorem kinds_sign (kind : Kind) (chunks : List Chunk) :
    kinds (sign kind :: chunks) = kind :: kinds chunks := rfl

@[simp] theorem kinds_blank (chunks : List Chunk) : kinds (blank :: chunks) = kinds chunks := rfl

@[simp] theorem kinds_append (first second : List Chunk) :
    kinds (first ++ second) = kinds first ++ kinds second := by
  induction first with
  | nil => rfl
  | cons chunk first ih => cases chunk <;> simp [ih]

theorem separate_cons_cons (separator : Kind) (part next : List Chunk) (parts : List (List Chunk)) :
    separate separator (part :: next :: parts) =
      part ++ sign separator :: blank :: separate separator (next :: parts) := rfl

/-- A separator and a blank stand before each part but the first. -/
theorem separate_cons (separator : Kind) (part : List Chunk) (parts : List (List Chunk)) :
    separate separator (part :: parts) =
      part ++ parts.flatMap fun other => sign separator :: blank :: other := by
  induction parts generalizing part with
  | nil => simp [separate]
  | cons next parts ih => rw [separate_cons_cons, ih, List.flatMap_cons, List.cons_append,
      List.cons_append]

theorem toList_render (chunks : List Chunk) : (render chunks).toList = chars chunks := by
  simp [render, chars, String.toList_join, List.flatMap_map]

/-- The words of chunks as tokens, one for each. -/
theorem map_kind_tokens (start : Nat) (chunks : List Chunk) :
    (tokens start chunks).map Token.kind = kinds chunks := by
  induction chunks generalizing start with
  | nil => rfl
  | cons chunk chunks ih => cases chunk <;> simp [tokens, ih]

end Chunk

/-! ## Chunks that are read back -/

/-- Each word is cut off as the word that it is, and each gap is white space.  In `fused` text,
chunks that begin with a number may spell other chunks of this sort instead. -/
inductive Apart (fused : Bool) : List Chunk → Prop
  | nil : Apart fused []
  | gap {text : String} {chunks : List Chunk} (h : text.toList.all isWhite = true)
      (later : Apart fused chunks) : Apart fused (.gap text :: chunks)
  | word {kind : Kind} {text : String} {chunks : List Chunk}
      (h : Munches kind text (chars chunks)) (later : Apart fused chunks) :
      Apart fused (.word kind text :: chunks)
  | recut {chunks other : List Chunk} {d : Char} (h : fused = true)
      (hhead : (chars chunks).head? = some d) (hnumber : d.isDigit = true ∨ d = '.')
      (hsame : chars other = chars chunks) (later : Apart fused other) : Apart fused chunks

namespace Apart

/-- Fused text is cut into words, if not into those that were printed. -/
theorem exists_cut {fused : Bool} {chunks : List Chunk} (h : Apart fused chunks) :
    ∃ cut, chars cut = chars chunks ∧ Apart false cut := by
  induction h with
  | nil => exact ⟨[], rfl, .nil⟩
  | @gap text _ hwhite _ ih =>
      obtain ⟨cut, hsame, hcut⟩ := ih
      exact ⟨.gap text :: cut, by rw [chars_gap, chars_gap, hsame], .gap hwhite hcut⟩
  | @word kind text _ hmunches _ ih =>
      obtain ⟨cut, hsame, hcut⟩ := ih
      refine ⟨.word kind text :: cut, by rw [chars_word, chars_word, hsame], .word ?_ hcut⟩
      rw [hsame]
      exact hmunches
  | recut _ _ _ hsame _ ih =>
      obtain ⟨cut, hcutSame, hcut⟩ := ih
      exact ⟨cut, hcutSame.trans hsame, hcut⟩

end Apart

namespace Lexed

/-- White space changes where the words after it stand, and nothing else. -/
theorem scan_white {c : Char} (start : Nat) (rest : List Char) (h : isWhite c = true) :
    (scan 0 start (c :: rest)).tokens = (scan 0 (start + c.utf8Size) rest).tokens ∧
      (scan 0 start (c :: rest)).diagnostics = (scan 0 (start + c.utf8Size) rest).diagnostics ∧
      (scan 0 start (c :: rest)).fault = (scan 0 (start + c.utf8Size) rest).fault := by
  have hmunch : ∀ rest, munch c rest = .filler .whitespace (spanLength isWhite rest) :=
    fun rest => by simp [munch, h]
  rw [scan_cons, hmunch]
  cases rest with
  | nil => simp [scan, tokens, diagnostics]
  | cons d rest =>
      cases hd : isWhite d with
      | false => simp [tokens, diagnostics, spanLength_cons, hd]
      | true =>
          have hmunch' : munch d rest = .filler .whitespace (spanLength isWhite rest) := by
            simp [munch, hd]
          rw [scan_cons (start + c.utf8Size), hmunch']
          simp [tokens, diagnostics, spanLength_cons, hd, Nat.add_assoc]

theorem scan_gap {gap : List Char} (start : Nat) (rest : List Char) (h : gap.all isWhite = true) :
    (scan 0 start (gap ++ rest)).tokens = (scan 0 (start + byteLength gap) rest).tokens ∧
      (scan 0 start (gap ++ rest)).diagnostics =
        (scan 0 (start + byteLength gap) rest).diagnostics ∧
      (scan 0 start (gap ++ rest)).fault = (scan 0 (start + byteLength gap) rest).fault := by
  induction gap generalizing start with
  | nil => exact ⟨rfl, rfl, rfl⟩
  | cons c gap ih =>
      rw [List.all_cons, Bool.and_eq_true] at h
      have hfirst := scan_white start (gap ++ rest) h.1
      have hlater := ih (start + c.utf8Size) h.2
      rw [List.cons_append, byteLength_cons, ← Nat.add_assoc]
      exact ⟨hfirst.1.trans hlater.1, hfirst.2.1.trans hlater.2.1, hfirst.2.2.trans hlater.2.2⟩

/-- The words of a printed text are those that were printed. -/
theorem scan_chars {chunks : List Chunk} (h : Apart false chunks) (start : Nat) :
    (scan 0 start (chars chunks)).tokens = Chunk.tokens start chunks ∧
      (scan 0 start (chars chunks)).diagnostics = [] := by
  induction h generalizing start with
  | nil => exact ⟨rfl, rfl⟩
  | @gap text chunks hwhite _ ih =>
      have hskip := scan_gap start (chars chunks) hwhite
      exact ⟨hskip.1.trans (ih _).1, hskip.2.1.trans (ih _).2⟩
  | @word kind text chunks hmunches _ ih =>
      obtain ⟨c, rest, htext, hmunch⟩ := hmunches
      have hlater := ih (start + byteLength (c :: rest))
      have hwhole : String.ofList (c :: rest) = text := by rw [← htext, String.ofList_toList]
      rw [chars_word, Chunk.tokens, htext, List.cons_append, scan_cons, hmunch]
      simp only [List.take_left, List.drop_left, hwhole]
      exact ⟨congrArg (List.cons _) hlater.1, hlater.2⟩
  | recut hfused => cases hfused

end Lexed

namespace Apart

variable {fused : Bool} {chunks : List Chunk}

theorem blank (later : Apart fused chunks) : Apart fused (Chunk.blank :: chunks) :=
  .gap rfl later

/-! ## Names and literals -/

theorem ident {name : String} (h : isIdentifier name = true) (hkeyword : isKeyword name = false)
    (hstop : StopsAt isIdentRest (chars chunks)) (later : Apart fused chunks) :
    Apart fused (.word .ident name :: chunks) :=
  .word (munches_ident h hkeyword hstop) later

theorem digits {digits : String} (h : isDigits digits = true)
    (hstop : StopsAt endsNumber (chars chunks)) (later : Apart fused chunks) :
    Apart fused (.word .intLit digits :: chunks) :=
  .word (munches_digits h hstop) later

theorem real {digits : String} (h : isWhole .realLit digits = true)
    (hstop : StopsAt endsNumber (chars chunks)) (later : Apart fused chunks) :
    Apart fused (.word .realLit digits :: chunks) :=
  .word (munches_real h hstop) later

theorem pragma {pragma : Pragma} (hkey : isIdentifier pragma.key = true)
    (hvalue : isIdentifier pragma.value = true) (later : Apart fused chunks) :
    Apart fused (.word .pragma pragma.text :: chunks) :=
  .word (munches_pragma _ hkey hvalue) later

end Apart

/-! ## Keywords and symbols -/

namespace Kind

/-- Whether a keyword or a symbol goes on, or opens something else, with the character `d`. -/
def clingsTo (kind : Kind) (d : Char) : Bool :=
  if keywords.contains kind then isIdentRest d
  else
    match kind.describe.toList with
    | [c] => clings c d
    | _ => false

end Kind

/-- A keyword or a symbol is cut off where it clings to nothing. -/
theorem munches_sign {kind : Kind} {after : List Char} (h : kind.spelling?.isSome = true)
    (hstop : StopsAt kind.clingsTo after) (hpragma : kind = .percent → afterPragma after = none) :
    Munches kind kind.describe after := by
  rcases Kind.fixed_cases h with hkeyword | ⟨hkeyword,
    ⟨c, hspelling, hkind⟩ | ⟨c, d, hspelling, hkind⟩⟩
  · refine munches_keyword (List.contains_iff_mem.mp hkeyword) (hstop.mono fun d hd => ?_)
    rw [Kind.clingsTo, if_pos hkeyword, hd]
  · refine ⟨c, [], hspelling, munch_symbol hkind (hstop.mono fun d hd => ?_) fun hc => ?_⟩
    · rw [Kind.clingsTo, if_neg (by simpa using hkeyword), hspelling]
      exact hd
    · subst hc
      cases hkind
      exact hpragma rfl
  · exact ⟨c, [d], hspelling, munch_pair after hkind⟩

namespace Apart

variable {fused : Bool} {chunks : List Chunk}

theorem sign {kind : Kind} (h : kind.spelling?.isSome = true) (hpercent : kind ≠ .percent)
    (hstop : StopsAt kind.clingsTo (chars chunks)) (later : Apart fused chunks) :
    Apart fused (sign kind :: chunks) :=
  .word (munches_sign h hstop fun heq => absurd heq hpercent) later

end Apart

/-! ## A `%` that opens no pragma -/

/-- No word begins with white space. -/
theorem Munches.not_white {kind : Kind} {text : String} {after : List Char}
    (h : Munches kind text after) : ∃ c rest, text.toList = c :: rest ∧
      munch c (rest ++ after) = .token kind rest.length ∧ isWhite c = false := by
  obtain ⟨c, rest, htext, hmunch⟩ := h
  refine ⟨c, rest, htext, hmunch, ?_⟩
  cases hc : isWhite c with
  | false => rfl
  | true => simp [munch, hc] at hmunch

theorem isBlank_of_isWhite {c : Char} (h : isWhite c = false) : isBlank c = false := by
  cases hc : isBlank c with
  | false => rfl
  | true => simp [isWhite_of_isBlank hc] at h

theorem isBlank_of_number {d : Char} (h : d.isDigit = true ∨ d = '.') : isBlank d = false := by
  rcases h with hdigit | rfl
  · exact isBlank_of_isWhite (isWhite_of_isDigit hdigit)
  · rfl

/-- Where chunks go on with a colon, it is one of two. -/
theorem colons_of_dropWhile {fused : Bool} {chunks : List Chunk} (h : Apart fused chunks)
    (hcolon : (kinds chunks).head? ≠ some .colon) {rest : List Char}
    (hrest : (chars chunks).dropWhile isBlank = ':' :: rest) : rest.head? = some ':' := by
  induction h with
  | nil => cases hrest
  | @gap text chunks hwhite _ ih =>
      refine ih hcolon ?_
      rw [chars_gap] at hrest
      generalize text.toList = gap at hwhite hrest
      induction gap with
      | nil => exact hrest
      | cons c gap ihgap =>
          rw [List.all_cons, Bool.and_eq_true] at hwhite
          rw [List.cons_append, List.dropWhile_cons] at hrest
          split at hrest
          · exact ihgap hwhite.2 hrest
          · rw [(List.cons.inj hrest).1] at hwhite
            exact absurd hwhite.1 (by decide)
  | @word kind text chunks hmunches _ _ =>
      obtain ⟨c, more, htext, hmunch, hwhite⟩ := hmunches.not_white
      rw [chars_word, htext, List.cons_append, List.dropWhile_cons,
        if_neg (by simp [isBlank_of_isWhite hwhite])] at hrest
      obtain ⟨rfl, rfl⟩ := List.cons.inj hrest
      cases hmore : more ++ chars chunks with
      | nil =>
          rw [hmore] at hmunch
          obtain ⟨rfl, -⟩ := Munch.token.inj hmunch
          exact absurd rfl hcolon
      | cons d later =>
          by_cases hd : d = ':'
          · rw [hd, List.head?_cons]
          · -- A colon alone is a word of its own kind.
            have hsymbol : munch ':' (d :: later) = .token .colon 0 :=
              munch_symbol rfl (fun e he => by
                obtain rfl := Option.some.inj he
                simp [clings, symbolOfPair?, hd]) fun heq => absurd heq (by decide)
            rw [hmore, hsymbol] at hmunch
            obtain ⟨rfl, -⟩ := Munch.token.inj hmunch
            exact absurd rfl hcolon
  | @recut chunks _ d _ hhead hnumber _ _ _ =>
      obtain ⟨later, hchars⟩ := List.head?_eq_some_iff.mp hhead
      rw [hchars, List.dropWhile_cons, if_neg (by simp [isBlank_of_number hnumber])] at hrest
      rw [(List.cons.inj hrest).1] at hnumber
      exact absurd hnumber (by decide)

/-- A `%` before chunks opens no pragma if their second word is no colon. -/
theorem afterPragma_chars {fused : Bool} {chunks : List Chunk} (h : Apart fused chunks)
    (hcolon : (kinds chunks)[1]? ≠ some .colon) : afterPragma (chars chunks) = none := by
  induction h with
  | nil => rfl
  | @gap text chunks hwhite _ ih =>
      have hnone := ih hcolon
      rw [chars_gap]
      generalize text.toList = gap at hwhite
      -- blanks are passed, and no other white space begins a key
      induction gap with
      | nil => exact hnone
      | cons c gap ihgap =>
          rw [List.all_cons, Bool.and_eq_true] at hwhite
          rw [List.cons_append, afterPragma, List.dropWhile_cons]
          split
          · exact ihgap hwhite.2
          · have hstart : isIdentStart c = false := by
              cases hc : isIdentStart c with
              | false => rfl
              | true => simp [isWhite_of_isIdentStart hc] at hwhite
            simp [afterIdent, hstart]
  | @word kind text chunks hmunches happart _ =>
      obtain ⟨c, rest, htext, hmunch, hwhite⟩ := hmunches.not_white
      rw [chars_word, htext, List.cons_append, afterPragma, List.dropWhile_cons,
        if_neg (by simp [isBlank_of_isWhite hwhite]), afterIdent]
      by_cases hstart : isIdentStart c = true
      · -- The first word is the key, so a colon would have to come next.
        have hspan : spanLength isIdentRest (rest ++ chars chunks) = rest.length := by
          simp only [munch, hwhite, hstart, Bool.false_eq_true, if_false, if_true,
            Munch.token.injEq] at hmunch
          exact hmunch.2
        have hkey : (rest ++ chars chunks).dropWhile isIdentRest = chars chunks := by
          rw [← drop_spanLength, hspan, List.drop_left]
        rw [if_pos hstart, hkey]
        simp only [Option.bind_eq_bind, Option.bind_some]
        split
        · rename_i more hmore
          have hhead := colons_of_dropWhile happart (by simpa [List.head?_eq_getElem?] using hcolon)
            hmore
          obtain ⟨later, rfl⟩ : ∃ later, more = ':' :: later := by
            cases more with
            | nil => cases hhead
            | cons d later => exact ⟨later, by rw [Option.some.inj hhead]⟩
          rfl
        · rfl
      · rw [if_neg hstart]
        rfl
  | @recut chunks _ d _ hhead hnumber _ _ _ =>
      obtain ⟨later, hchars⟩ := List.head?_eq_some_iff.mp hhead
      -- a number is no key
      have hstart : isIdentStart d = false := by
        rcases hnumber with hdigit | rfl
        · exact isIdentStart_of_isDigit hdigit
        · rfl
      rw [afterPragma, hchars, List.dropWhile_cons, if_neg (by simp [isBlank_of_number hnumber]),
        afterIdent, if_neg (by simp [hstart])]
      rfl

/-- A `%` with a blank behind it opens no pragma if the second word after it is no colon. -/
theorem Apart.percent {fused : Bool} {chunks : List Chunk}
    (hcolon : (kinds chunks)[1]? ≠ some .colon)
    (later : Apart fused chunks) : Apart fused (Chunk.sign .percent :: Chunk.blank :: chunks) :=
  .word (munches_sign rfl (fun d hd => by cases hd; rfl)
    fun _ => afterPragma_chars later.blank hcolon) later.blank

end Lustre
