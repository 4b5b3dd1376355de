import Lustre.Proofs.Printer.Kept
import Lustre.Proofs.Printer.Program
import Lustre.Proofs.Reader.Verbatim
import Lustre.Proofs.Reread.Whole

/-!
# A printed expression has the words of its text

The words of a text stand in the tree that is read from it, and printing the tree writes
them again, with other parentheses and separators.  Cut into words, the printed text has
those of the text that was read, except where printed words run into each other.  They do
so only where a dot comes next behind an integer, or behind a real that ends in a dot
itself, and where an integer ends in a dot.
-/

namespace Lustre

open Chunk

/-! ## The words of a text -/

/-- The words of a text, apart from some kinds. -/
def Lexed.wordsBut (lexed : Lexed) (erased : Kind → Bool) : List Lexeme :=
  (lexed.tokens.filter fun token => !erased token.kind).map Lexeme.ofToken

theorem Lexeme.kind_ofToken (token : Token) : (ofToken token).kind = token.kind := by
  unfold ofToken
  split
  · rename_i hpragma
    exact hpragma.symm
  · rfl

/-- More kinds may be left out later. -/
theorem Lexed.filter_wordsBut (lexed : Lexed) {erased others : Kind → Bool}
    (h : ∀ kind, erased kind = true → others kind = true) :
    (lexed.wordsBut erased).filter (fun word => !others word.kind) = lexed.wordsBut others := by
  rw [wordsBut, wordsBut, List.filter_map, List.filter_filter]
  congr 1
  refine List.filter_congr fun token _ => ?_
  cases hkind : erased token.kind with
  | false => simp [Lexeme.kind_ofToken]
  | true => simp [Lexeme.kind_ofToken, h _ hkind]

/-! ## Printed words -/

namespace Chunk

/-- The word that a chunk should be cut off as, if it is one. -/
def lexeme? : Chunk → Option Lexeme
  | word kind text => some (.ofToken ⟨kind, text, ⟨0, 0, 0⟩⟩)
  | gap _ => none

/-- The tokens of chunks, as words. -/
theorem words_tokens (start : Nat) (chunks : List Chunk) :
    ((tokens start chunks).filter fun token => !token.kind.isFraming).map Lexeme.ofToken =
      (firm chunks).filterMap lexeme? := by
  induction chunks generalizing start with
  | nil => rfl
  | cons chunk chunks ih =>
      cases chunk with
      | gap text => exact ih _
      | word kind text =>
          rw [tokens, firm, List.filter_cons, List.filter_cons]
          split
          · rw [if_pos (by assumption), List.map_cons, ih]
            rfl
          · rw [if_neg (by assumption), ih]
            rfl

end Chunk

namespace Lexeme

/-- A word that is cut off as itself when it is printed. -/
def Lasting (word : Lexeme) : Prop := word.chunk.lexeme? = some word

/-- The words of a text last, if the parts of their pragmas are identifiers. -/
theorem lasting_ofToken {token : Token} (h : (ofToken token).Proper) : (ofToken token).Lasting := by
  by_cases hpragma : token.kind = .pragma
  · rw [ofToken, if_pos hpragma] at h ⊢
    have hread := @Pragma.ofToken_text ⟨_, _, ⟨0, 0, 0⟩⟩ h ⟨0, 0, 0⟩
    simp only [Pragma.strip, Pragma.mk.injEq, and_true] at hread
    rw [Lasting, chunk, lexeme?, ofToken, if_pos rfl, hread.1, hread.2]
  · rw [ofToken, if_neg hpragma, Lasting, chunk, lexeme?, ofToken, if_neg hpragma]

/-- Printed words are cut off as themselves. -/
theorem filterMap_firmWords {words : List Lexeme} (h : ∀ word ∈ words, word.Lasting) :
    (firmWords words).filterMap lexeme? = words.filter fun word => !word.kind.isFraming := by
  induction words with
  | nil => rfl
  | cons word words ih =>
      have hlater := ih fun other hmem => h other (List.mem_cons_of_mem _ hmem)
      have hfirm : word.chunk.isFirm = !word.kind.isFraming := by cases word <;> rfl
      rw [firmWords, List.map_cons, firm, List.filter_cons, List.filter_cons, hfirm]
      split
      · rw [List.filterMap_cons_some (h word List.mem_cons_self)]
        exact congrArg (List.cons word) hlater
      · exact hlater

end Lexeme

theorem Lexed.wordsBut_render {chunks : List Chunk} (h : Apart false chunks) :
    (ofText (render chunks)).wordsBut Kind.isFraming = (firm chunks).filterMap lexeme? := by
  have hscan := (scan_chars h 0).1
  rw [← toList_render] at hscan
  have htokens : (ofText (render chunks)).tokens = Chunk.tokens 0 chunks := hscan
  rw [wordsBut, htokens, words_tokens]

/-! ## Printing what was read -/

/-- What an answer was read from. -/
theorem wholeExpr_of_parseExpr {text : String} {expr : Expr} (h : (parseExpr text).1 = some expr) :
    ∃ c, Recover.wholeExpr (.upTo maxNesting) (Run.ofText text (Lexed.ofText text)).cursor =
      .ok expr c := by
  unfold parseExpr Run.expr at h
  cases hwhole : Recover.wholeExpr (.upTo maxNesting)
      (Run.ofText text (Lexed.ofText text)).cursor with
  | ok read c =>
      rw [Recover.standaloneExpr_of_ok hwhole] at h
      dsimp only at h
      split at h
      · exact ⟨c, by rw [Option.some.inj h]⟩
      · cases h
  | error e c =>
      rw [Recover.standaloneExpr_of_error hwhole] at h
      dsimp only at h
      split at h <;> cases h

/-- The words of an answer are those of the text, apart from separators. -/
theorem words_of_parseExpr {text : String} {expr : Expr} (h : (parseExpr text).1 = some expr) :
    expr.Shaped false ∧ expr.words = (Lexed.ofText text).wordsBut Kind.isSeparator := by
  obtain ⟨c, hwhole⟩ := wholeExpr_of_parseExpr h
  obtain ⟨hshaped, hwords⟩ := Recover.meets_wholeExpr maxNesting _ expr c hwhole
  refine ⟨hshaped, hwords.trans (List.map_congr_left fun token hmem => ?_)⟩
  have hword := Lexed.describe_of_mem_tokens (List.mem_of_mem_filter hmem)
  rw [Token.word, Lexeme.ofToken, hword]

/-- They last if no literal integer of the text ends in a dot. -/
theorem lasting_of_parseExpr {text : String} {expr : Expr} (h : (parseExpr text).1 = some expr)
    (hdigits : ∀ token ∈ (Lexed.ofText text).tokens, token.kind = .intLit →
      '.' ∉ token.text.toList) :
    ∀ word ∈ expr.words, word.Proper ∧ word.Lasting := by
  intro word hmem
  rw [(words_of_parseExpr h).2, Lexed.wordsBut, List.mem_map] at hmem
  obtain ⟨token, htoken, rfl⟩ := hmem
  have hmem := List.mem_of_mem_filter htoken
  have hproper := Lexed.proper_of_mem_tokens hmem (hdigits token hmem)
  exact ⟨hproper, Lexeme.lasting_ofToken hproper⟩

/-- The answer can be printed if moreover no literal number stands before a dot. -/
theorem printable_of_parseExpr {text : String} {expr : Expr} (h : (parseExpr text).1 = some expr)
    (hdots : dotsNumber ((Lexed.ofText text).wordsBut Kind.isSeparator) = false)
    (hdigits : ∀ token ∈ (Lexed.ofText text).tokens, token.kind = .intLit →
      '.' ∉ token.text.toList) :
    expr.Printable false := by
  obtain ⟨hshaped, hwords⟩ := words_of_parseExpr h
  have hspelt : ∀ word ∈ expr.words, word.Spelt false :=
    fun word hmem => (lasting_of_parseExpr h hdigits word hmem).1.spelt false
  exact inherited_printable.ofExpr expr hshaped hspelt
    (Expr.selectsNumber_of_dots (hwords ▸ hdots))

/-- Printed words of the answer do not run into each other if no number before a dot goes on with
it. -/
theorem solid_of_parseExpr {text : String} {expr : Expr} (h : (parseExpr text).1 = some expr)
    (hdots : meetsDot Lexeme.runsIntoDot ((Lexed.ofText text).wordsBut Kind.isSeparator) = false)
    (hdigits : ∀ token ∈ (Lexed.ofText text).tokens, token.kind = .intLit → '.' ∉ token.text.toList)
    (full : Bool) : expr.IsSolid false full := by
  obtain ⟨hshaped, hwords⟩ := words_of_parseExpr h
  have hspelt : ∀ word ∈ expr.words, word.Spelt false :=
    fun word hmem => (lasting_of_parseExpr h hdigits word hmem).1.spelt false
  exact ((inherited_lexical false full).ofExpr expr hshaped hspelt
    (Expr.joinsNumber_of_dots (hwords ▸ hdots))).1

/-- Printing an expression keeps the words of the text that it was read from, apart from parentheses
and separators: no two of them run into each other, and none changes its kind.  This takes that no
literal integer and no real with a dot at its end stands before a dot, and that no literal integer
ends in one. -/
theorem printing_keeps_words {text : String} {expr : Expr} (h : (parseExpr text).1 = some expr)
    (hdots : meetsDot Lexeme.runsIntoDot ((Lexed.ofText text).wordsBut Kind.isSeparator) = false)
    (hdigits : ∀ token ∈ (Lexed.ofText text).tokens, token.kind = .intLit → '.' ∉ token.text.toList)
    {printed : String} (hprinted : printed = expr.print ∨ printed = expr.printFull) :
    (Lexed.ofText printed).wordsBut Kind.isFraming =
      (Lexed.ofText text).wordsBut Kind.isFraming := by
  obtain ⟨full, rfl⟩ : ∃ full, printed = render (expr.chunks full 0) := by
    rcases hprinted with rfl | rfl
    · exact ⟨false, rfl⟩
    · exact ⟨true, rfl⟩
  have hsolid := solid_of_parseExpr h hdots hdigits full
  have happart : Apart false (expr.chunks full 0 ++ []) := hsolid.expr.apart [] .nil .nil
  rw [List.append_nil] at happart
  calc (Lexed.ofText (render (expr.chunks full 0))).wordsBut Kind.isFraming
      = (firmWords expr.words).filterMap lexeme? := by
        rw [Lexed.wordsBut_render happart, Expr.firm_chunks]
    _ = expr.words.filter fun word => !word.kind.isFraming :=
        Lexeme.filterMap_firmWords fun word hmem => (lasting_of_parseExpr h hdigits word hmem).2
    _ = (Lexed.ofText text).wordsBut Kind.isFraming := by
        rw [(words_of_parseExpr h).2]
        refine Lexed.filter_wordsBut _ fun kind hkind => ?_
        cases kind <;> first | rfl | cases hkind

/-- A blank within a pragma, a separator that ends a list and parentheses that printing adds make no
difference, and a real with a fraction or an exponent does not run into a dot. -/
theorem printing_keeps_merge :
    let text := "merge c % p : q % (true -> - - 2.5 .f) (false -> g<<+ , 2;>>((y), 1e3 .g))"
    ∃ expr, (parseExpr text).1 = some expr ∧
      expr.print = "merge c %p:q% (true -> - (-2.5.f)) (false -> g<<+, 2>>((y), 1e3.g))" ∧
      (Lexed.ofText expr.print).wordsBut Kind.isFraming =
        (Lexed.ofText text).wordsBut Kind.isFraming := by
  intro text
  obtain ⟨expr, hexpr, hprint⟩ : ∃ expr, (parseExpr text).1 = some expr ∧
      expr.print = "merge c %p:q% (true -> - (-2.5.f)) (false -> g<<+, 2>>((y), 1e3.g))" :=
    Option.map_eq_some_iff.mp (by decide +kernel)
  exact ⟨expr, hexpr, hprint,
    printing_keeps_words hexpr (by decide +kernel) (by decide +kernel) (.inl rfl)⟩

/-- Behind a literal integer a dot is lost to the number, and a dot that ends a literal integer
makes it real. -/
theorem printing_runs_words_together :
    (∃ expr, (parseExpr "1 .x").1 = some expr ∧ expr.print = "1.x" ∧
      (Lexed.ofText "1.x").wordsBut Kind.isFraming = [.plain .realLit "1.", .plain .ident "x"] ∧
      (Lexed.ofText "1 .x").wordsBut Kind.isFraming =
        [.plain .intLit "1", .sign .dot, .plain .ident "x"]) ∧
    ∃ expr, (parseExpr "if c then 1.else 2").1 = some expr ∧ expr.print = "if c then 1. else 2" ∧
      (Lexed.ofText "if c then 1. else 2").wordsBut Kind.isFraming ≠
        (Lexed.ofText "if c then 1.else 2").wordsBut Kind.isFraming := by
  constructor
  · obtain ⟨expr, hexpr, hprint⟩ : ∃ expr, (parseExpr "1 .x").1 = some expr ∧ expr.print = "1.x" :=
      Option.map_eq_some_iff.mp (by decide +kernel)
    exact ⟨expr, hexpr, hprint, by decide +kernel, by decide +kernel⟩
  · obtain ⟨expr, hexpr, hprint⟩ : ∃ expr, (parseExpr "if c then 1.else 2").1 = some expr ∧
        expr.print = "if c then 1. else 2" :=
      Option.map_eq_some_iff.mp (by decide +kernel)
    exact ⟨expr, hexpr, hprint, by decide +kernel⟩

end Lustre
