import Lustre.Token.Lexer

/-!
# The pieces of a text tile it

`Lexed.ofText` loses nothing.  The pieces of a text, read in order, are cut off
one after another from its beginning (`Cuts`), so their spans tile a part of the
text that begins at byte zero, and the texts under the spans spell that part.
It is the whole text unless an unterminated string or comment ends the pieces;
then it ends where that string or comment opens.

## Strategy

`scan` is put into a form without its counter of skipped characters (`scan_cons`),
and one induction on the length of the text shows that its pieces are cuts
(`scan_cuts`).  Everything else is read off the cuts.  The fillers before each
token and after the last one are a view of the pieces that keeps their order
(`rejoin_attach`), so the same facts hold of them.
-/

namespace Lustre

/-! ## Counting bytes -/

@[simp] theorem byteLength_nil : byteLength [] = 0 := rfl

@[simp] theorem byteLength_cons (c : Char) (text : List Char) :
    byteLength (c :: text) = c.utf8Size + byteLength text := rfl

@[simp] theorem byteLength_append (first second : List Char) :
    byteLength (first ++ second) = byteLength first + byteLength second := by
  induction first with
  | nil => simp
  | cons c rest ih => simp [ih, Nat.add_assoc]

/-- Only the empty text has no bytes. -/
theorem byteLength_pos {text : List Char} (h : text ≠ []) : 0 < byteLength text := by
  cases text with
  | nil => exact absurd rfl h
  | cons c rest =>
      have hc : 0 < c.utf8Size := c.utf8Size_pos
      simp only [byteLength_cons]
      omega

/-- Dropping the bytes of a beginning leaves what follows it. -/
theorem dropBytes_append (first second : List Char) :
    dropBytes (byteLength first) (first ++ second) = some second := by
  induction first with
  | nil => cases second <;> simp [dropBytes]
  | cons c rest ih =>
      have hc : 0 < c.utf8Size := c.utf8Size_pos
      rw [List.cons_append, dropBytes, if_neg (by simp only [byteLength_cons]; omega),
        if_pos (by simp only [byteLength_cons]; omega)]
      simpa using ih

/-- Taking the bytes of a beginning gives that beginning. -/
theorem takeBytes_append (first second : List Char) :
    takeBytes (byteLength first) (first ++ second) = some first := by
  induction first with
  | nil => cases second <;> simp [takeBytes]
  | cons c rest ih =>
      have hc : 0 < c.utf8Size := c.utf8Size_pos
      rw [List.cons_append, takeBytes, if_neg (by simp only [byteLength_cons]; omega),
        if_pos (by simp only [byteLength_cons]; omega)]
      simp [ih]

/-- The text under the span of a middle part. -/
theorem slice_middle (before middle after : List Char) (file : UInt32) :
    Span.slice ⟨byteLength before, byteLength before + byteLength middle, file⟩
      (String.ofList (before ++ (middle ++ after))) = String.ofList middle := by
  simp [Span.slice, dropBytes_append, takeBytes_append]

/-- Whether a character of `text` begins at byte `offset`, or `text` ends there. -/
def IsBoundary (text : String) (offset : Nat) : Prop :=
  ∃ before after, text = String.ofList (before ++ after) ∧ byteLength before = offset

/-! ## Tilings -/

/-- Spans that follow one another from byte `start` to byte `stop`, without a gap and without an
overlap, none of them empty. -/
def Tiles (start : Nat) : List Span → Nat → Prop
  | [], stop => start = stop
  | span :: spans, stop => span.start = start ∧ start < span.stop ∧ Tiles span.stop spans stop

theorem Tiles.start_lt_stop {start stop : Nat} {spans : List Span} (h : Tiles start spans stop) :
    ∀ span ∈ spans, span.start < span.stop := by
  induction spans generalizing start with
  | nil => simp
  | cons span spans ih =>
      obtain ⟨hstart, hlt, hrest⟩ := h
      intro other hother
      rcases List.mem_cons.mp hother with rfl | hmem
      · rwa [hstart]
      · exact ih hrest other hmem

/-- Pieces that are cut off one after another from the beginning of `text`, whose first byte is
byte `start` of the whole, until `left` remains. -/
def Cuts (start : Nat) : List Piece → List Char → List Char → Prop
  | [], text, left => text = left
  | piece :: pieces, text, left =>
      ∃ rest, piece.text.toList ≠ [] ∧ text = piece.text.toList ++ rest ∧
        piece.span = ⟨start, start + byteLength piece.text.toList, 0⟩ ∧
        Cuts (start + byteLength piece.text.toList) pieces rest left

namespace Cuts

/-- The texts of the pieces spell what was cut off. -/
theorem spells {pieces : List Piece} {start : Nat} {text left : List Char}
    (h : Cuts start pieces text left) :
    text = pieces.flatMap (fun piece => piece.text.toList) ++ left := by
  induction pieces generalizing start text with
  | nil => simpa [Cuts] using h
  | cons piece pieces ih =>
      obtain ⟨rest, -, rfl, -, hrest⟩ := h
      rw [ih hrest]
      simp

/-- The spans of the pieces tile what was cut off. -/
theorem tiles {pieces : List Piece} {start : Nat} {text left : List Char}
    (h : Cuts start pieces text left) :
    Tiles start (pieces.map Piece.span)
      (start + byteLength (pieces.flatMap fun piece => piece.text.toList)) := by
  induction pieces generalizing start text with
  | nil => simp [Tiles]
  | cons piece pieces ih =>
      obtain ⟨rest, hne, -, hspan, hrest⟩ := h
      have hpos := byteLength_pos hne
      refine ⟨by simp [hspan], by simp [hspan]; omega, ?_⟩
      simpa [hspan, Nat.add_assoc] using ih hrest

/-- Every span of a piece begins and ends at a character, and the text under it is the text of the
piece. -/
theorem slice {pieces : List Piece} {text left : List Char} (before : List Char)
    (h : Cuts (byteLength before) pieces text left) :
    ∀ piece ∈ pieces,
      IsBoundary (String.ofList (before ++ text)) piece.span.start ∧
        IsBoundary (String.ofList (before ++ text)) piece.span.stop ∧
        piece.span.slice (String.ofList (before ++ text)) = piece.text := by
  induction pieces generalizing before text with
  | nil => simp
  | cons piece pieces ih =>
      obtain ⟨rest, -, rfl, hspan, hrest⟩ := h
      have hlater := ih (before ++ piece.text.toList) (by simpa using hrest)
      simp only [List.append_assoc] at hlater
      intro other hother
      rcases List.mem_cons.mp hother with rfl | hmem
      · refine ⟨⟨before, _, rfl, by simp [hspan]⟩, ⟨before ++ other.text.toList, rest, ?_, ?_⟩, ?_⟩
        · simp
        · simp [hspan]
        · rw [hspan, slice_middle]
          exact String.ofList_toList
      · exact hlater other hmem

end Cuts

namespace Lexed

/-! ## Scanning -/

/-- Skipped characters belong to no further piece. -/
theorem scan_skip (skip start : Nat) (text : List Char) :
    scan skip start text = scan 0 start (text.drop skip) := by
  induction text generalizing skip with
  | nil => simp [scan]
  | cons c rest ih =>
      cases skip with
      | zero => simp
      | succ skip => simpa [scan] using ih skip

/-- The pieces of a text, without the counter of skipped characters. -/
theorem scan_cons (start : Nat) (c : Char) (rest : List Char) :
    scan 0 start (c :: rest) =
      match munch c rest with
      | .token kind more =>
          let text := c :: rest.take more
          let stop := start + byteLength text
          let later := scan 0 stop (rest.drop more)
          ⟨.token ⟨kind, String.ofList text, ⟨start, stop, 0⟩⟩ :: later.pieces, later.fault⟩
      | .filler trivia more =>
          let text := c :: rest.take more
          let stop := start + byteLength text
          let later := scan 0 stop (rest.drop more)
          ⟨.filler ⟨trivia, String.ofList text, ⟨start, stop, 0⟩⟩ :: later.pieces, later.fault⟩
      | .unterminated cause width => ⟨[], some ⟨cause, start, start + width, 0⟩⟩ := by
  rw [scan]
  cases munch c rest <;> simp [scan_skip _ _ rest]

end Lexed

/-- What is never closed is a string or a comment. -/
theorem unterminated_of_munch {c : Char} {rest : List Char} {cause : Cause} {width : Nat}
    (h : munch c rest = .unterminated cause width) :
    cause = .unterminatedString ∨ cause = .unterminatedComment := by
  have hsymbol : munchSymbol c rest ≠ .unterminated cause width := by
    unfold munchSymbol
    split
    · simp
    · split <;> simp
  have hcomment : ∀ first second text,
      munchComment first second text = .unterminated cause width →
      cause = .unterminatedComment := by
    intro first second text hopen
    unfold munchComment at hopen
    split at hopen
    · simp at hopen
    · simp only [Munch.unterminated.injEq] at hopen
      exact hopen.1.symm
  have hstring : munchString rest = .unterminated cause width → cause = .unterminatedString := by
    intro hopen
    unfold munchString at hopen
    dsimp only at hopen
    split at hopen
    · simp at hopen
    · simp only [Munch.unterminated.injEq] at hopen
      exact hopen.1.symm
  unfold munch at h
  split at h
  · simp at h
  split at h
  · simp at h
  split at h
  · simp at h
  -- One case for each way to open something, in the order of the definition.
  split at h
  · exact .inl (hstring h)
  · simp at h
  · exact .inr (hcomment _ _ _ h)
  · exact .inr (hcomment _ _ _ h)
  · split at h
    · simp at h
    · exact absurd h hsymbol
  · split at h
    · simp at h
    · exact absurd h hsymbol
  · exact absurd h hsymbol

namespace Lexed

/-- The pieces of a text are cut off from its beginning.  If nothing is wrong, nothing is left, and
otherwise the fault is about what is left. -/
theorem scan_cuts (start : Nat) (text : List Char) :
    ∃ left, Cuts start (scan 0 start text).pieces text left ∧
      ((scan 0 start text).fault = none → left = []) ∧
      ∀ fault, (scan 0 start text).fault = some fault →
        (fault.cause = .unterminatedString ∨ fault.cause = .unterminatedComment) ∧
          fault.span.start + byteLength left = start + byteLength text := by
  -- Every piece takes at least the character that it begins with, so the text gets shorter.
  induction hlength : text.length using Nat.strongRecOn generalizing start text with
  | ind length ih =>
      cases text with
      | nil => exact ⟨[], by simp [scan, Cuts]⟩
      | cons c rest =>
          rw [scan_cons]
          have hsplit : ∀ more, c :: rest = (c :: rest.take more) ++ rest.drop more := by simp
          have hlater := fun more => ih (rest.drop more).length
            (by simp only [List.length_cons, List.length_drop] at hlength ⊢; omega)
            (start + byteLength (c :: rest.take more)) (rest.drop more) rfl
          cases hmunch : munch c rest with
          | token kind more =>
              obtain ⟨left, hcuts, hclean, hfault⟩ := hlater more
              refine ⟨left, ⟨rest.drop more, by simp [Piece.text], ?_, ?_, ?_⟩, hclean, ?_⟩
              · simp [Piece.text]
              · simp [Piece.span, Piece.text]
              · simpa [Piece.text] using hcuts
              · intro fault h
                refine ⟨(hfault fault h).1, ?_⟩
                rw [(hfault fault h).2, hsplit more, byteLength_append]
                omega
          | filler trivia more =>
              obtain ⟨left, hcuts, hclean, hfault⟩ := hlater more
              refine ⟨left, ⟨rest.drop more, by simp [Piece.text], ?_, ?_, ?_⟩, hclean, ?_⟩
              · simp [Piece.text]
              · simp [Piece.span, Piece.text]
              · simpa [Piece.text] using hcuts
              · intro fault h
                refine ⟨(hfault fault h).1, ?_⟩
                rw [(hfault fault h).2, hsplit more, byteLength_append]
                omega
          | unterminated cause width =>
              refine ⟨c :: rest, by simp [Cuts], by simp, ?_⟩
              rintro fault h
              simp only [Option.some.injEq] at h
              subst h
              exact ⟨unterminated_of_munch hmunch, rfl⟩

/-- What opens a string or a comment that is never closed is as wide as the text says. -/
theorem width_of_munch {c : Char} {rest : List Char} {cause : Cause} {width : Nat}
    (h : munch c rest = .unterminated cause width) :
    ∃ inside, byteLength (c :: rest.take inside) = width := by
  have hcomment : ∀ {first second : Char} {text : List Char},
      munchComment first second text = .unterminated cause width → width = 2 := by
    intro first second text hopen
    unfold munchComment at hopen
    split at hopen <;> cases hopen
    rfl
  have hsymbol : munchSymbol c rest ≠ .unterminated cause width := by
    unfold munchSymbol
    split
    · simp
    · split <;> simp
  unfold munch at h
  split at h
  · cases h
  split at h
  · cases h
  split at h
  · cases h
  -- one case for each way to open something, in the order of the definition
  split at h
  · unfold munchString at h
    dsimp only at h
    split at h <;> cases h
    exact ⟨0, rfl⟩
  · cases h
  · exact ⟨1, (hcomment h).symm⟩
  · exact ⟨1, (hcomment h).symm⟩
  · split at h
    · cases h
    · exact absurd h hsymbol
  · split at h
    · cases h
    · exact absurd h hsymbol
  · exact absurd h hsymbol

/-- The fault of a text is at what opens a string or a comment. -/
theorem span_of_fault (start : Nat) (text : List Char) {fault : Diagnostic}
    (h : (scan 0 start text).fault = some fault) : ∃ before opener after,
      text = before ++ (opener ++ after) ∧
        fault.span = ⟨start + byteLength before, start + byteLength (before ++ opener), 0⟩ := by
  induction hlength : text.length using Nat.strongRecOn generalizing start text with
  | ind length ih =>
      cases text with
      | nil => cases h
      | cons c rest =>
          rw [scan_cons] at h
          -- a fault behind the first piece lies in the rest of the text
          have hlater : ∀ more, (scan 0 (start + byteLength (c :: rest.take more))
              (rest.drop more)).fault = some fault → ∃ before opener after,
                c :: rest = before ++ (opener ++ after) ∧ fault.span =
                  ⟨start + byteLength before, start + byteLength (before ++ opener), 0⟩ := by
            intro more hfault
            obtain ⟨before, opener, after, hsplit, hspan⟩ := ih (rest.drop more).length
              (by simp only [List.length_cons, List.length_drop] at hlength ⊢; omega) _ _ hfault rfl
            refine ⟨c :: rest.take more ++ before, opener, after, ?_, ?_⟩
            · rw [List.append_assoc, ← hsplit]
              simp
            · rw [hspan]
              simp [Nat.add_assoc]
          cases hmunch : munch c rest with
          | token kind more =>
              rw [hmunch] at h
              exact hlater more h
          | filler trivia more =>
              rw [hmunch] at h
              exact hlater more h
          | unterminated cause width =>
              rw [hmunch] at h
              obtain rfl := Option.some.inj h
              obtain ⟨inside, hwidth⟩ := width_of_munch hmunch
              refine ⟨[], c :: rest.take inside, rest.drop inside, by simp, ?_⟩
              rw [← hwidth]
              rfl

/-! ## Fillers and tokens in order -/

/-- The pieces that some tokens, with the fillers before each, and the fillers after the last were
made of. -/
def rejoin (attached : List (List Filler × Token) × List Filler) : List Piece :=
  (attached.1.flatMap fun one => one.1.map .filler ++ [.token one.2]) ++ attached.2.map .filler

/-- Attaching fillers to tokens keeps the order of the text. -/
theorem rejoin_attach (pieces : List Piece) : rejoin (attach pieces) = pieces := by
  induction pieces with
  | nil => rfl
  | cons piece pieces ih =>
      cases piece with
      | token token => simpa [attach, rejoin] using ih
      | filler filler =>
          rcases hattach : attach pieces with ⟨tokens, trailing⟩
          rw [hattach] at ih
          cases tokens with
          | nil => simpa [attach, rejoin, hattach] using ih
          | cons one later => simpa [attach, rejoin, hattach] using ih

/-- Attaching fillers to tokens keeps the tokens. -/
theorem map_snd_attach (lexed : Lexed) : (attach lexed.pieces).1.map Prod.snd = lexed.tokens := by
  unfold tokens
  induction lexed.pieces with
  | nil => rfl
  | cons piece pieces ih =>
      cases piece with
      | token token => simpa [attach] using ih
      | filler filler =>
          rcases hattach : attach pieces with ⟨tokens, trailing⟩
          rw [hattach] at ih
          cases tokens <;> simpa [attach, hattach] using ih

/-- The fillers before each token, each such list followed by its token, and at last the fillers
after the last token. -/
def inOrder (lexed : Lexed) : List Piece :=
  ((lexed.leading.zip lexed.tokens).flatMap fun one => one.1.map .filler ++ [.token one.2]) ++
    lexed.trailing.map .filler

/-- Fillers and tokens read in order are the pieces of the text. -/
theorem inOrder_eq_pieces (lexed : Lexed) : lexed.inOrder = lexed.pieces := by
  have hzip : lexed.leading.zip lexed.tokens = (attach lexed.pieces).1 := by
    rw [leading, ← map_snd_attach]
    induction (attach lexed.pieces).1 with
    | nil => rfl
    | cons one later ih => simpa using ih
  rw [inOrder, hzip]
  exact rejoin_attach lexed.pieces

/-- The text of a token or filler is what stands in the source under its span. -/
theorem covered_eq_slices (text : String) :
    (ofText text).covered =
      String.join ((ofText text).inOrder.map fun piece => piece.span.slice text) := by
  obtain ⟨left, hcuts, -⟩ := scan_cuts 0 text.toList
  rw [inOrder_eq_pieces, covered]
  congr 1
  refine List.map_congr_left fun piece hpiece => ?_
  have hslice := (Cuts.slice [] hcuts piece hpiece).2.2
  rw [List.nil_append, String.ofList_toList] at hslice
  exact hslice.symm

/-! ## Nothing is lost -/

/-- The characters that begin no word, in the order of the text. -/
def unknownFillers (lexed : Lexed) : List Filler :=
  (lexed.leading.flatten ++ lexed.trailing).filter fun filler => filler.trivia == .unknown

/-- The fillers, in order, are those of the pieces. -/
theorem fillers_eq (lexed : Lexed) :
    lexed.leading.flatten ++ lexed.trailing =
      lexed.pieces.filterMap fun
        | .token _ => none
        | .filler filler => some filler := by
  unfold leading trailing
  induction lexed.pieces with
  | nil => rfl
  | cons piece pieces ih =>
      cases piece with
      | token token => simpa [attach] using ih
      | filler filler =>
          rcases hattach : attach pieces with ⟨tokens, trailing⟩
          rw [hattach] at ih
          cases tokens <;> simpa [attach, hattach] using ih

/-- The diagnostics are one for each unknown character, and the fault. -/
theorem diagnostics_eq (lexed : Lexed) :
    lexed.diagnostics =
      (lexed.unknownFillers.map fun filler => ⟨.unknownCharacter filler.text, filler.span⟩) ++
        lexed.fault.toList := by
  rw [diagnostics, unknownFillers, fillers_eq]
  congr 1
  induction lexed.pieces with
  | nil => rfl
  | cons piece pieces ih =>
      rcases piece with token | ⟨trivia, text, span⟩
      · simpa using ih
      · cases trivia <;> simpa using ih

/-! ## On character boundaries -/

/-- A token of a text is one of its pieces. -/
theorem mem_pieces_of_mem_tokens {lexed : Lexed} {token : Token} (h : token ∈ lexed.tokens) :
    .token token ∈ lexed.pieces := by
  obtain ⟨piece, hpiece, hsame⟩ := List.mem_filterMap.mp h
  cases piece with
  | filler filler => cases hsame
  | token one =>
      cases hsame
      exact hpiece

theorem boundaries_of_mem_pieces
    {text : String} {piece : Piece} (h : piece ∈ (ofText text).pieces) :
    IsBoundary text piece.span.start ∧ IsBoundary text piece.span.stop := by
  obtain ⟨left, hcuts, -, -⟩ := scan_cuts 0 text.toList
  have hslices := hcuts.slice []
  rw [List.nil_append, String.ofList_toList] at hslices
  exact ⟨(hslices piece h).1, (hslices piece h).2.1⟩

/-- What is wrong with a word is said of characters of the text. -/
theorem boundaries_of_mem_diagnostics {text : String} {d : Diagnostic}
    (h : d ∈ (ofText text).diagnostics) :
    d.span.start ≤ d.span.stop ∧ IsBoundary text d.span.start ∧ IsBoundary text d.span.stop := by
  rw [diagnostics_eq, List.mem_append, List.mem_map] at h
  rcases h with ⟨filler, hfiller, rfl⟩ | h
  · rw [unknownFillers, fillers_eq] at hfiller
    obtain ⟨piece, hpiece, hsame⟩ := List.mem_filterMap.mp (List.mem_filter.mp hfiller).1
    obtain ⟨left, hcuts, -, -⟩ := scan_cuts 0 text.toList
    have hlt := hcuts.tiles.start_lt_stop _ (List.mem_map_of_mem hpiece)
    have hboundaries := boundaries_of_mem_pieces hpiece
    cases piece with
    | token token => cases hsame
    | filler filler =>
        cases hsame
        exact ⟨Nat.le_of_lt hlt, hboundaries⟩
  · have hsome : (ofText text).fault = some d := by simpa using h
    obtain ⟨before, opener, after, hsplit, hspan⟩ := span_of_fault 0 text.toList hsome
    have htext : text = String.ofList (before ++ (opener ++ after)) := by
      rw [← hsplit, String.ofList_toList]
    rw [hspan]
    refine ⟨by simp, ⟨before, opener ++ after, htext, by simp⟩,
      ⟨before ++ opener, after, ?_, by simp⟩⟩
    rw [htext, List.append_assoc]

/-! ## Nothing is lost -/

/-- Fillers and tokens, read in order, tile a beginning of the text.  It is the whole text unless
the text is truncated; then it ends where the last diagnostic, on the string or comment that is
never closed, begins.  Apart from that one there is a diagnostic for each unknown character. -/
theorem lexing_is_lossless (text : String) :
    let lexed := ofText text
    let spans := lexed.inOrder.map Piece.span
    let stop := byteLength lexed.covered.toList
    Tiles 0 spans stop ∧
      (∀ span ∈ spans, IsBoundary text span.start ∧ IsBoundary text span.stop) ∧
      String.join (spans.map fun span => span.slice text) = lexed.covered ∧
      lexed.leading.length = lexed.tokens.length ∧
      (∀ token ∈ lexed.tokens, token.kind.label ∉
        ["IntRange", "UnterminatedString", "Whitespace", "LineComment", "BlockComment"]) ∧
      (lexed.truncated = false → lexed.covered = text) ∧
      (lexed.truncated = true → takeBytes stop text.toList = some lexed.covered.toList ∧
        ∃ last, lexed.diagnostics.getLast? = some last ∧ last.span.start = stop ∧
          (last.cause = .unterminatedString ∨ last.cause = .unterminatedComment)) ∧
      (∀ diagnostic ∈ lexed.diagnostics, diagnostic.category = .lexical) ∧
      ∃ last,
        lexed.diagnostics =
          (lexed.unknownFillers.map fun filler => ⟨.unknownCharacter filler.text, filler.span⟩) ++
            last ∧
          last.length = if lexed.truncated then 1 else 0 := by
  intro lexed spans stop
  obtain ⟨left, hcuts, hclean, hfault⟩ := scan_cuts 0 text.toList
  change Cuts 0 lexed.pieces text.toList left at hcuts
  change lexed.fault = none → left = [] at hclean
  change ∀ fault, lexed.fault = some fault → _ at hfault
  have hspans : spans = lexed.pieces.map Piece.span := by
    rw [← inOrder_eq_pieces]
  have hcovered : lexed.covered.toList = lexed.pieces.flatMap fun piece => piece.text.toList := by
    rw [covered, String.toList_join, List.flatMap_map]
  have hwhole : text.toList = lexed.covered.toList ++ left := by
    rw [hcovered]
    exact hcuts.spells
  have hslices := hcuts.slice []
  rw [List.nil_append, String.ofList_toList] at hslices
  refine ⟨?_, ?_, ?_, ?_, ?_, ?_, ?_, ?_, ?_⟩
  · -- the spans tile
    rw [hspans]
    simpa [stop, hcovered] using hcuts.tiles
  · -- on character boundaries
    intro span hspan
    rw [hspans, List.mem_map] at hspan
    obtain ⟨piece, hpiece, rfl⟩ := hspan
    exact ⟨(hslices piece hpiece).1, (hslices piece hpiece).2.1⟩
  · -- the slices spell what is covered
    rw [covered_eq_slices, List.map_map]
    rfl
  · rw [leading, List.length_map, ← map_snd_attach, List.length_map]
  · -- kinds of fillers are no kinds of tokens
    intro token _
    cases token.kind <;> decide
  · -- without a fault nothing is left
    intro htruncated
    have hnone : lexed.fault = none := by simpa [truncated] using htruncated
    rw [hclean hnone, List.append_nil] at hwhole
    exact (String.toList_inj.mp hwhole).symm
  · -- with a fault, it begins where the pieces end
    intro htruncated
    obtain ⟨fault, hsome⟩ := Option.isSome_iff_exists.mp htruncated
    obtain ⟨hcause, hstart⟩ := hfault fault hsome
    refine ⟨?_, fault, ?_, ?_, hcause⟩
    · rw [hwhole]
      exact takeBytes_append _ _
    · rw [diagnostics_eq, hsome]
      simp
    · rw [hwhole, byteLength_append] at hstart
      simp only [stop]
      omega
  · -- all diagnostics are lexical
    intro diagnostic hmem
    rw [diagnostics_eq, List.mem_append, List.mem_map] at hmem
    rcases hmem with ⟨filler, -, rfl⟩ | hmem
    · rfl
    · have hsome : lexed.fault = some diagnostic := by simpa using hmem
      rcases (hfault _ hsome).1 with hcause | hcause <;>
        simp [Diagnostic.category, hcause, Cause.category]
  · refine ⟨lexed.fault.toList, diagnostics_eq lexed, ?_⟩
    cases hcase : lexed.fault <;> simp [truncated, hcase]

end Lexed

/-! ## Tokens -/

namespace Token

/-- Tokens of one file, each behind the one before it, between two offsets. -/
def Ordered (start stop : Nat) : List Token → Prop
  | [] => start ≤ stop
  | token :: rest => start ≤ token.span.start ∧ token.span.start ≤ token.span.stop ∧
      token.span.file = 0 ∧ Ordered token.span.stop stop rest

namespace Ordered

variable {start stop : Nat} {tokens : List Token}

theorem le (h : Ordered start stop tokens) : start ≤ stop := by
  induction tokens generalizing start with
  | nil => exact h
  | cons token rest ih =>
      obtain ⟨hfirst, hwide, -, hrest⟩ := h
      have := ih hrest
      omega

theorem stop_le (h : Ordered start stop tokens) : ∀ token ∈ tokens, token.span.stop ≤ stop := by
  induction tokens generalizing start with
  | nil => exact nofun
  | cons token rest ih =>
      obtain ⟨-, -, -, hrest⟩ := h
      rintro other (_ | ⟨_, hmem⟩)
      · exact hrest.le
      · exact ih hrest other hmem

theorem start_le (h : Ordered start stop tokens) :
    ∀ token ∈ tokens, start ≤ token.span.start ∧ token.span.start ≤ token.span.stop := by
  induction tokens generalizing start with
  | nil => exact nofun
  | cons token rest ih =>
      obtain ⟨hfirst, hwide, -, hrest⟩ := h
      rintro other (_ | ⟨_, hmem⟩)
      · exact ⟨hfirst, hwide⟩
      · have hother := ih hrest other hmem
        omega

theorem mono {start' : Nat} (h : Ordered start' stop tokens) (hle : start ≤ start') :
    Ordered start stop tokens := by
  cases tokens with
  | nil => exact Nat.le_trans hle h
  | cons token rest => exact ⟨Nat.le_trans hle h.1, h.2⟩

end Ordered

end Token

theorem utf8ByteSize_eq_byteLength (text : String) :
    text.utf8ByteSize = byteLength text.toList := by
  have hlist : ∀ chars : List Char, (String.ofList chars).utf8ByteSize = byteLength chars := by
    intro chars
    induction chars with
    | nil => rfl
    | cons c chars ih =>
        have hcons : String.ofList (c :: chars) = String.singleton c ++ String.ofList chars := by
          apply String.toList_inj.mp
          simp
        rw [hcons, String.utf8ByteSize_append, String.utf8ByteSize_singleton, ih]
        rfl
  rw [← hlist, String.ofList_toList]

/-- No character of a text begins behind its end. -/
theorem IsBoundary.le_size {text : String} {offset : Nat} (h : IsBoundary text offset) :
    offset ≤ text.utf8ByteSize := by
  obtain ⟨before, after, rfl, rfl⟩ := h
  rw [utf8ByteSize_eq_byteLength, String.toList_ofList, byteLength_append]
  exact Nat.le_add_right _ _

/-- The end of a text is a boundary. -/
theorem isBoundary_size (text : String) : IsBoundary text text.utf8ByteSize :=
  ⟨text.toList, [], by simp, (utf8ByteSize_eq_byteLength text).symm⟩

namespace Token

/-- The tokens among the pieces that are cut off a text. -/
theorem ordered_of_cuts {pieces : List Piece} {start : Nat} {text left : List Char}
    (h : Cuts start pieces text left) (fault : Option Diagnostic) :
    Ordered start (start + byteLength text) (Lexed.tokens ⟨pieces, fault⟩) := by
  induction pieces generalizing start text with
  | nil => exact Nat.le_add_right _ _
  | cons piece pieces ih =>
      obtain ⟨rest, -, rfl, hspan, hrest⟩ := h
      have hlater := ih hrest
      rw [byteLength_append, ← Nat.add_assoc]
      cases piece with
      | filler filler => exact hlater.mono (Nat.le_add_right _ _)
      | token token =>
          have htoken : token.span = ⟨start, start + byteLength token.text.toList, 0⟩ := hspan
          have hstart : token.span.start = start := by rw [htoken]
          have hstop : token.span.stop = start + byteLength token.text.toList := by rw [htoken]
          have hfile : token.span.file = 0 := by rw [htoken]
          refine ⟨Nat.le_of_eq hstart.symm, ?_, hfile, ?_⟩
          · rw [hstart, hstop]
            exact Nat.le_add_right _ _
          · rw [hstop]
            exact hlater

/-- No token of a text is empty. -/
theorem start_lt_stop (text : String) :
    ∀ token ∈ (Lexed.ofText text).tokens, token.span.start < token.span.stop := by
  intro token htoken
  obtain ⟨left, hcuts, -, -⟩ := Lexed.scan_cuts 0 text.toList
  exact hcuts.tiles.start_lt_stop _ (List.mem_map_of_mem (Lexed.mem_pieces_of_mem_tokens htoken))

/-- Every token of a text begins and ends at a character. -/
theorem boundaries (text : String) : ∀ token ∈ (Lexed.ofText text).tokens,
    IsBoundary text token.span.start ∧ IsBoundary text token.span.stop := fun _ htoken =>
  Lexed.boundaries_of_mem_pieces (Lexed.mem_pieces_of_mem_tokens htoken)

/-- The tokens of a text are one behind the other. -/
theorem ordered_tokens (text : String) :
    Ordered 0 text.utf8ByteSize (Lexed.ofText text).tokens := by
  obtain ⟨left, hcuts, -, -⟩ := Lexed.scan_cuts 0 text.toList
  have hordered := ordered_of_cuts hcuts (Lexed.ofText text).fault
  rw [Nat.zero_add, ← utf8ByteSize_eq_byteLength] at hordered
  exact hordered

/-- No token lies behind the end of the text. -/
theorem le_size (text : String) : ∀ token ∈ (Lexed.ofText text).tokens,
    token.span.start ≤ text.utf8ByteSize ∧ token.span.stop ≤ text.utf8ByteSize := by
  intro token htoken
  have hlt := start_lt_stop text token htoken
  have hstop := (ordered_tokens text).stop_le token htoken
  exact ⟨by omega, hstop⟩

end Token

end Lustre
