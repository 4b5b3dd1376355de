import Lustre.Proofs.Printer.Program
import Lustre.Proofs.Reader.Program

/-!
# Printed programs are lexically sound

Nothing is wrong with the words of a printed program, and only white space stands between
them: no two pieces that the printer writes next to each other open a comment, leave a string
open or leave a character that begins no word.  Two forms are excepted.  An operator `*` that is
the first argument in parentheses opens a comment with them, and a field that is selected from
an integer may lose all of its name but a quote.

Whether the words are those that were printed does not matter here, so numbers may run into the
fields behind them (`Apart true`).
-/

namespace Lustre

open Chunk

/-! ## The words of a text, integers with a dot among them -/

/-- Every word of a text is spelt as words are. -/
theorem Lexed.spelt_of_mem_tokens {text : String} {token : Token}
    (h : token ∈ (ofText text).tokens) : (Lexeme.ofToken token).Spelt true := by
  by_cases hkind : token.kind = .intLit
  · obtain ⟨c, rest, more, hmunched, htext⟩ := munched_of_mem_tokens h
    have hint := (hkind ▸ hmunched).int
    rw [← htext] at hint
    have hword : Lexeme.ofToken token = .plain .intLit token.text := by
      rw [Lexeme.ofToken, if_neg (by simp [hkind]), hkind]
    rw [hword]
    exact hint.imp_right fun hdotted => ⟨rfl, hdotted⟩
  · exact (proper_of_mem_tokens h fun hint => absurd hint hkind).spelt true

/-- What is read without a diagnostic has the words of its text. -/
theorem spelt_of_parse {text : String} {options : ParseOptions} {fused : Bool}
    (h : (parse text options).diagnostics = [])
    (hspelt : ∀ token ∈ (Lexed.ofText text).tokens, (Lexeme.ofToken token).Spelt fused) :
    ∀ word ∈ (parse text options).program.words, word.Spelt fused := by
  intro word hmem
  rw [(parse_spec h).1] at hmem
  obtain ⟨token, hnormal, rfl⟩ := List.mem_map.mp hmem
  have htoken := mem_of_mem_normal hnormal
  have hword := hspelt token htoken
  rwa [Lexeme.ofToken, ← Lexed.describe_of_mem_tokens htoken] at hword

/-! ## White space between words -/

namespace Lexed

/-- Only white space stands between the words. -/
def Spaced (lexed : Lexed) : Prop :=
  ∀ filler, .filler filler ∈ lexed.pieces → filler.trivia = .whitespace

/-- White space is joined to what stands behind it. -/
theorem Spaced.white {c : Char} {start : Nat} {rest : List Char} (hc : isWhite c = true)
    (h : (scan 0 (start + c.utf8Size) rest).Spaced) : (scan 0 start (c :: rest)).Spaced := by
  have hmunch : ∀ d later, isWhite d = true →
      munch d later = .filler .whitespace (spanLength isWhite later) := by
    intro d later hd
    simp [munch, hd]
  intro filler hmem
  rw [scan_cons, hmunch c rest hc] at hmem
  rcases List.mem_cons.mp hmem with hfirst | hlater
  · cases hfirst
    rfl
  · apply h filler
    cases rest with
    | nil => exact hlater
    | cons d rest =>
        cases hd : isWhite d with
        | false => simpa [spanLength_cons, hd] using hlater
        | true =>
            rw [scan_cons, hmunch d rest hd]
            apply List.mem_cons_of_mem
            simpa [spanLength_cons, hd, Nat.add_assoc] using hlater

theorem Spaced.gap {gap rest : List Char} {start : Nat} (hgap : gap.all isWhite = true)
    (h : (scan 0 (start + byteLength gap) rest).Spaced) : (scan 0 start (gap ++ rest)).Spaced := by
  induction gap generalizing start with
  | nil => exact h
  | cons c gap ih =>
      rw [List.all_cons, Bool.and_eq_true] at hgap
      rw [byteLength_cons, ← Nat.add_assoc] at h
      exact .white hgap.1 (ih hgap.2 h)

/-- Between the words of chunks that are apart, there are only their gaps. -/
theorem spaced_chars {chunks : List Chunk} (h : Apart false chunks) (start : Nat) :
    (scan 0 start (chars chunks)).Spaced := by
  induction h generalizing start with
  | nil => exact fun filler hmem => by cases hmem
  | gap hwhite _ ih => exact .gap hwhite (ih _)
  | @word kind text chunks hmunches _ ih =>
      obtain ⟨c, rest, htext, hmunch⟩ := hmunches
      intro filler hmem
      rw [chars_word, htext, List.cons_append, scan_cons, hmunch] at hmem
      simp only [List.drop_left, List.mem_cons, reduceCtorEq, false_or] at hmem
      exact ih _ filler hmem
  | recut hfused => cases hfused

/-- What is fused is cut into words too, and nothing else. -/
theorem sound_render {fused : Bool} {chunks : List Chunk} (h : Apart fused chunks) :
    (ofText (render chunks)).truncated = false ∧ (ofText (render chunks)).diagnostics = [] ∧
      (ofText (render chunks)).Spaced := by
  obtain ⟨cut, hsame, hcut⟩ := h.exists_cut
  have htext : ofText (render chunks) = scan 0 0 (chars cut) := by
    rw [ofText, toList_render, hsame]
  have hdiagnostics : (scan 0 0 (chars cut)).diagnostics = [] := (scan_chars hcut 0).2
  have hfault : (scan 0 0 (chars cut)).fault = none := by
    have hnone := (List.append_eq_nil_iff.mp hdiagnostics).2
    rwa [Option.toList_eq_nil_iff] at hnone
  rw [htext]
  exact ⟨by rw [truncated, hfault]; rfl, hdiagnostics, spaced_chars hcut 0⟩

end Lexed

/-! ## Printing what was read -/

/-- The text of a program that was read without a diagnostic is not truncated, has no diagnostics
and no comments: it is cut into words and white space.  This takes that no arguments for a model
open a comment, and that no number takes all of the name of a field but a quote. -/
theorem printing_is_lexically_sound (text : String) (options : ParseOptions)
    (h : (parse text options).diagnostics = [])
    (hcomment : ∀ package ∈ (parse text options).program.packages,
      package.body.opensComment = false)
    (hbreak : ∀ expr ∈ exprs (parse text options).program, expr.breaksNumber = false) :
    let printed := Lexed.ofText (parse text options).program.print
    printed.truncated = false ∧ printed.diagnostics = [] ∧ printed.Spaced := by
  have hwritable : (parse text options).program.Writable (lexical true false) :=
    (inherited_lexical true false).program (parse_spec h).2.1 hcomment
      (spelt_of_parse h fun _ hmem => Lexed.spelt_of_mem_tokens hmem) hbreak
  exact Lexed.sound_render hwritable.apart

/-- Operators stand next to brackets, and numbers run into the dot of a field or into another
dot. -/
theorem printing_is_sound_for_operators :
    let text := "package p = m(/, -); const a = 1 .e5 + 1. .x + 2.5 .x; const b = f<<-;*>>(- - 1);"
    (parse text).diagnostics = [] ∧
      (parse text).program.print =
      "package p = m(/, -);\n\nconst a = 1.e5 + 1..x + 2.5.x;\n\nconst b = f<<-, * >>(- (-1));\n" ∧
      (Lexed.ofText (parse text).program.print).truncated = false ∧
      (Lexed.ofText (parse text).program.print).diagnostics = [] ∧
      (Lexed.ofText (parse text).program.print).Spaced := by
  intro text
  have hread : (parse text).diagnostics = [] := by decide +kernel
  exact ⟨hread, by decide +kernel,
    printing_is_lexically_sound text {} hread (by decide +kernel) (by decide +kernel)⟩

/-- A parenthesis and the operator `*` open a comment.  A number takes the beginning of a name for
its exponent, and no word begins with the quote that is left. -/
theorem printing_leaves_text_unsound :
    ((parse "package p = m( *);").diagnostics = [] ∧
      (parse "package p = m( *);").program.print = "package p = m(*);\n" ∧
      (Lexed.ofText "package p = m(*);\n").truncated = true) ∧
    (parse "const a = 1 .e5';").diagnostics = [] ∧
      (parse "const a = 1 .e5';").program.print = "const a = 1.e5';\n" ∧
      (Lexed.ofText "const a = 1.e5';\n").diagnostics = [⟨.unknownCharacter "'", ⟨14, 15, 0⟩⟩] := by
  decide +kernel

end Lustre
