import Lustre.Proofs.Reader.Confined
import Lustre.Proofs.Reader.Ending
import Lustre.Proofs.Token.Unclosed

/-!
# A text that is cut short

A string or a comment that is never closed cuts a text short.  The text has the tokens
that stand before the opener, and what is read from it is what is read if the text ends
there.  Only diagnostics tell the difference: with the first report at the end of the
tokens, the reader of the text that is cut short gives up.

## Strategy

Between the two texts stands a run over the tokens of the shorter one, which is taken to
end where the longer one ends (`Run.padded`).  Beside the longer text, it goes on in step
until something is reported at the end of the tokens (`Pair.Agrees`).  Beside the shorter
text, only the end is another one, and no tree mentions it (`Confined`).
-/

namespace Lustre

open Movable LawfulMovable

/-! ## The end of a text in another place -/

/-- The end of a text of `size` bytes as byte `stop`.  Other offsets stay as they are. -/
def endAt (stop size offset : Nat) : Nat := if offset = size then stop else offset

/-- A run over the tokens of a text that is taken to be `size` bytes long and not to be cut
short. -/
def Run.padded (text : String) (cap size : Nat) : Run :=
  ⟨⟨(Lexed.ofText text).tokens, 0, size⟩, ⟨(Lexed.ofText text).diagnostics, cap, false, false⟩⟩

theorem Run.within_padded (text : String) (cap size : Nat) :
    (Run.padded text cap size).cursor.Within text.utf8ByteSize :=
  ⟨Token.le_size text, Nat.zero_le _⟩

/-- Only the end of the text can be moved, and it is moved in the diagnostics as well. -/
theorem Run.padded_moved {text : String} {cap size : Nat} {place : Nat → Nat}
    (mono : ∀ a b, a ≤ b → place a ≤ place b)
    (hplace : ∀ offset ≤ text.utf8ByteSize, place offset = offset) {program : Program} {last : Run}
    (h : Recover.program (.upTo maxNesting) (.padded text cap size) = .ok program last) :
    ∃ found last', last.log.entries = (Lexed.ofText text).diagnostics ++ found ∧
      Recover.program (.upTo maxNesting) (.padded text cap (place size)) =
        .ok (move place program) last' ∧
      last'.log.entries = (Lexed.ofText text).diagnostics ++ move place found := by
  have hwithin := (Run.within_padded text cap size).rest
  let M := RunContext.alone place mono (Run.padded text cap size).log
    (Run.padded text cap (place size)).log rfl rfl rfl
  have hrun : M.BesideRun (.padded text cap size) (.padded text cap (place size)) := by
    refine ⟨⟨?_, fun start => ?_, fun _ => rfl, fun first second hpair _ hjoined => ?_⟩,
      .start rfl rfl⟩
    · change (Lexed.ofText text).tokens = move place (Lexed.ofText text).tokens ++ []
      have hkept := (Run.within_padded text cap size).move_rest hplace
      rw [List.append_nil]
      exact hkept.symm
    · change max 0 (place start) = place (max 0 start)
      rw [Nat.zero_max, Nat.zero_max]
    · have hfirst := (hwithin first (hpair.subset (by simp))).2
      have hsecond := (hwithin second (hpair.subset (by simp))).1
      change place first.span.stop = place second.span.start at hjoined
      rwa [hplace _ hfirst, hplace _ hsecond] at hjoined
  have hfollows := RunContext.follows_program (Context.levels_upTo maxNesting) rfl _ _ hrun
  unfold RunContext.Runs Link.Alike at hfollows
  rw [h] at hfollows
  obtain ⟨_, last', hread', rfl, -, found, stopped, hlog, hlog', -⟩ := hfollows (.inl rfl)
  refine ⟨found, last', ?_, hread', ?_⟩
  · rw [hlog]
    rfl
  · rw [hlog']
    rfl

/-- The tree stays as it is, and of the offsets in the diagnostics only the end of the text
changes. -/
theorem Run.padded_ended {text : String} {cap size : Nat} (hsize : text.utf8ByteSize ≤ size)
    {program : Program} {last : Run}
    (h : Recover.program (.upTo maxNesting) (.padded text cap size) = .ok program last) :
    ∃ found last', last.log.entries = (Lexed.ofText text).diagnostics ++ found ∧
      Recover.program (.upTo maxNesting) (.padded text cap text.utf8ByteSize) = .ok program last' ∧
      last'.log.entries =
        (Lexed.ofText text).diagnostics ++ move (endAt text.utf8ByteSize size) found := by
  let stop := text.utf8ByteSize
  -- all offsets behind the text are the end of the run
  let place : Nat → Nat := fun offset => if offset ≤ stop then offset else size
  have hmono : ∀ a b, a ≤ b → place a ≤ place b := by
    intro a b hle
    dsimp only [place]
    split <;> split <;> omega
  obtain ⟨found, last₁, hfound, hread₁, hlast₁⟩ := Run.padded_moved hmono
    (fun offset hle => if_pos hle) h
  have hend : place size = size := by
    dsimp only [place]
    split <;> omega
  rw [hend, h] at hread₁
  obtain ⟨-, rfl⟩ := EStateM.Result.ok.inj hread₁
  have hplaced : move place found = found := List.append_cancel_left (hlast₁.symm.trans hfound)
  obtain ⟨found', last', hfound', hread', hlast'⟩ := Run.padded_moved
    (fun a b (hle : a ≤ b) => (by omega : min a stop ≤ min b stop))
    (fun offset hle => Nat.min_eq_left hle) h
  obtain rfl : found' = found := List.append_cancel_left (hfound'.symm.trans hfound)
  -- no offset of the program lies behind the text
  have hkept : Confined stop program := by
    have hwithin : (Run.padded text cap size).Within stop [] :=
      ⟨Run.within_padded text cap size, (fun hnot => by cases hnot)⟩
    have hconfines := Recover.confines_program (fun M => M.levels_upTo maxNesting) hwithin
    exact (hconfines.1 program last h).2
  have hsame : move (min · stop) found' = move (endAt stop size) found' := by
    rw [← hplaced, move_move, move_move]
    congr 1
    funext offset
    change min (place offset) stop = endAt stop size (place offset)
    dsimp only [endAt, place]
    split <;> split <;> omega
  rw [Nat.min_eq_right hsize, show move (min · stop) program = program from hkept] at hread'
  exact ⟨found', last', hfound, hread', by rw [hlast', hsame]⟩

/-- What is read from a text that is not cut short is read by a run that takes it to be longer. -/
theorem parse_eq_padded {text : String} (hwhole : (Lexed.ofText text).truncated = false)
    {size : Nat}
    (hsize : text.utf8ByteSize ≤ size) (options : ParseOptions) :
    ∃ found last, Recover.program (.upTo maxNesting) (.padded text (max options.maxErrors 1) size) =
        .ok (parse text options).program last ∧
      last.log.entries = (Lexed.ofText text).diagnostics ++ found ∧
      (parse text options).diagnostics =
        (Lexed.ofText text).diagnostics ++ move (endAt text.utf8ByteSize size) found := by
  obtain ⟨program, last, hread⟩ := (Recover.Total.program (.upTo maxNesting)).total
    (.padded text (max options.maxErrors 1) size)
  obtain ⟨found, last', hfound, hread', hlast'⟩ := Run.padded_ended hsize hread
  obtain ⟨program', last'', hparsed, hprogram, hdiagnostics⟩ := parse_eq_run text options
  have hreading : Run.reading text options =
      .padded text (max options.maxErrors 1) text.utf8ByteSize := by
    change (⟨⟨_, _, _⟩, ⟨_, _, (Lexed.ofText text).truncated, _⟩⟩ : Run) = _
    rw [hwhole]
    rfl
  rw [hreading, hread'] at hparsed
  obtain ⟨rfl, rfl⟩ := EStateM.Result.ok.inj hparsed
  exact ⟨found, last, by rw [hread, hprogram], hfound, by rw [hdiagnostics, hlast']⟩

/-! ## The text and what stands before the opener -/

/-- The `count`-th diagnostic of a text is reported at the end of its tokens: there is where a
reader stops that is to stop after so many. -/
def ReportedAtEnd (text : String) (count : Nat) : Prop :=
  (parse text { maxErrors := count }).diagnostics.getLast? =
    some ⟨.tooManyErrors, .point text.utf8ByteSize⟩

instance (text : String) (count : Nat) : Decidable (ReportedAtEnd text count) :=
  inferInstanceAs (Decidable (_ = _))

/-- A text that is cut short, and how it is to be read. -/
structure CutText where
  text : String
  options : ParseOptions
  cut : (Lexed.ofText text).truncated = true

namespace CutText

variable (C : CutText)

/-- What stands before the opener. -/
def short : String := Lexed.beforeLast C.text

/-- The lexical diagnostics that do not have to do with the opener. -/
def lexical : List Diagnostic := (Lexed.ofText C.short).diagnostics

/-- An offset in the shorter text. -/
def place : Nat → Nat := endAt C.short.utf8ByteSize C.text.utf8ByteSize

theorem tokens_short : (Lexed.ofText C.short).tokens = (Lexed.ofText C.text).tokens :=
  (Lexed.ofText_beforeLast C.cut).2.1

theorem size_lt : C.short.utf8ByteSize < C.text.utf8ByteSize :=
  (Lexed.ofText_beforeLast C.cut).2.2.2

/-- How the log of the text compares with the diagnostics `cut` of the shorter one, of which there
may be `cap`: they are the same, the text was given up at the end of its tokens, or the shorter one
was given up before. -/
inductive Compared (cap : Nat) (log : Log) (cut : List Diagnostic) : Prop
  | same (found : List Diagnostic) (running : log.halted = false)
      (entries : log.entries = (Lexed.ofText C.text).diagnostics ++ found)
      (cut_eq : cut = C.lexical ++ move C.place found)
  | ended (before : List Diagnostic) (d : Diagnostic) (more : List Diagnostic)
      (halted : log.halted = true)
      (entries : log.entries =
        (Lexed.ofText C.text).diagnostics ++ before ++ [⟨.cutShort d.cause, d.span⟩])
      (cut_eq : cut = C.lexical ++ move C.place (before ++ d :: more))
      (room : before = [] ∨ C.lexical.length + before.length < cap)
      (met : cap ≤ C.lexical.length + before.length + 1 →
        more = [⟨.tooManyErrors, .point C.text.utf8ByteSize⟩])
  | stopped (before : List Diagnostic) (token : Token)
      (htoken : token ∈ (Lexed.ofText C.text).tokens)
      (cut_eq : cut = C.lexical ++ move C.place (before ++ [⟨.tooManyErrors, token.span⟩]))
      (met : cap ≤ C.lexical.length + before.length)
      (went_on : (Lexed.ofText C.text).diagnostics ++ before <+: log.entries)
      (running : log.entries = (Lexed.ofText C.text).diagnostics ++ before → log.halted = false)

/-- The two runs, of which the second may report `cap` diagnostics. -/
def pair (cap : Nat) : Pair where
  first := .reading C.text C.options
  second := .padded C.short cap C.text.utf8ByteSize
  cursor := by
    change (⟨(Lexed.ofText C.short).tokens, 0, _⟩ : Cursor) = ⟨(Lexed.ofText C.text).tokens, 0, _⟩
    rw [C.tokens_short]
  truncated := C.cut
  whole := rfl
  running := rfl
  running' := rfl

variable {C}

/-- The two texts are read as the same program, as long as not too many diagnostics are reported. -/
theorem compared {program : Program} {last : Run}
    (hread : Recover.program (.upTo maxNesting) (.reading C.text C.options) = .ok program last)
    (hbelow : ∀ d ∈ last.log.entries, d.cause ≠ .tooManyErrors) (options : ParseOptions) :
    C.Compared (max options.maxErrors 1) last.log (parse C.short options).diagnostics ∧
      ((∀ d ∈ (parse C.short options).diagnostics, d.cause ≠ .tooManyErrors) →
        program = (parse C.short options).program) := by
  obtain ⟨found, last', hread', hlast', hdiagnostics⟩ := parse_eq_padded
    (Lexed.ofText_beforeLast C.cut).1 (Nat.le_of_lt C.size_lt) options
  let M := C.pair (max options.maxErrors 1)
  have hstart : M.InStep M.first M.second :=
    ⟨M.cursor.symm, .here, [], by simp, by simp, .inl rfl⟩
  have hagrees : M.Agrees (Recover.program (.upTo maxNesting)) := inferInstance
  have hmatched := hagrees.keeps.inStep _ _ hstart
  rw [show Recover.program (.upTo maxNesting) M.first = _ from hread,
    show Recover.program (.upTo maxNesting) M.second = _ from hread'] at hmatched
  -- the entries of the second log say which ones were found
  have hfound : ∀ {others}, last'.log.entries = C.lexical ++ others → others = found :=
    fun h => List.append_cancel_left (h.symm.trans hlast')
  have hended : M.Ended last.log last'.log →
      C.Compared (max options.maxErrors 1) last.log (parse C.short options).diagnostics := by
    rintro ⟨hhalted, before, d, more, hentries, hentries', hroom, hmet⟩
    obtain rfl := hfound (hentries'.trans (List.append_assoc _ _ _))
    rw [List.length_append] at hroom hmet
    exact .ended before d more hhalted hentries hdiagnostics hroom fun hcap => (hmet hcap).2
  -- both runs stay in step, or part at the end of the tokens, or one of them is full
  rcases hmatched.of_ok with ⟨hsame, hstep⟩ | ⟨hsame, hparted⟩ | hstopped
  · obtain ⟨others, hlog, hlog', -⟩ := hstep.log
    obtain rfl := hfound (by rw [hlog']; rfl)
    refine ⟨.same others ?_ ?_ hdiagnostics, fun _ => hsame⟩
    · rw [hlog]
      rfl
    · rw [hlog]
      rfl
  · exact ⟨hended hparted.log, fun _ => hsame⟩
  · cases hstopped with
    | first span htooMany => exact absurd rfl (hbelow _ htooMany)
    | second hhalted token htoken before hentries hmet hbefore =>
        obtain rfl := hfound (hentries.trans (List.append_assoc _ _ _))
        rw [List.length_append] at hmet
        refine ⟨.stopped before token htoken hdiagnostics hmet hbefore.entries fun hsame => ?_,
          fun hfew => ?_⟩
        · exact congrArg Log.halted (hbefore.unchanged hsame)
        · have htooMany : move C.place ⟨.tooManyErrors, token.span⟩ ∈
              (parse C.short options).diagnostics := by
            rw [show (parse C.short options).diagnostics = _ from hdiagnostics]
            simp [place, short]
          exact absurd rfl (hfew _ htooMany)

/-! ## The end of the text in what is reported -/

theorem place_end : C.place C.text.utf8ByteSize = C.short.utf8ByteSize := if_pos rfl

theorem place_of_le {offset : Nat} (h : offset ≤ C.short.utf8ByteSize) :
    C.place offset = offset := by
  have hsize := C.size_lt
  exact if_neg (by omega)

/-- No token of the text ends behind the shorter one. -/
theorem within_reading : (Run.reading C.text C.options).cursor.Within C.short.utf8ByteSize := by
  refine ⟨fun token (htoken : token ∈ (Lexed.ofText C.text).tokens) => ?_, Nat.zero_le _⟩
  rw [← C.tokens_short] at htoken
  exact Token.le_size C.short token htoken

/-- The tokens have the same places in both texts. -/
theorem place_token {token : Token} (h : token ∈ (Lexed.ofText C.text).tokens) :
    move C.place token.span = token.span := by
  obtain ⟨hstart, hstop⟩ := C.within_reading.rest token h
  change (⟨C.place token.span.start, C.place token.span.stop, _⟩ : Span) = _
  rw [place_of_le hstart, place_of_le hstop]

/-- The end of the text does not occur in what is reported before it is given up. -/
theorem place_reported {program : Program} {last : Run}
    (hread : Recover.program (.upTo maxNesting) (.reading C.text C.options) = .ok program last)
    {before after : List Diagnostic}
    (hentries : last.log.entries = (Lexed.ofText C.text).diagnostics ++ before ++ after)
    (hafter : last.log.halted = false ∨ after.length = 1) : move C.place before = before := by
  have hwithin : (Run.reading C.text C.options).Within C.short.utf8ByteSize
      (Lexed.ofText C.text).diagnostics := by
    refine ⟨C.within_reading, fun _ => ⟨[], [], ?_, nofun, Nat.zero_le _, fun _ => rfl⟩⟩
    rw [List.append_nil, List.append_nil]
    rfl
  have hconfines := Recover.confines_program (fun M => M.levels_upTo maxNesting) hwithin
  obtain ⟨hlast, -⟩ := hconfines.1 program last hread
  have htruncated : last.log.truncated = true := by
    have hregular : Regular (Recover.program (.upTo maxNesting)) := inferInstance
    have hextended := hregular.extended (.reading C.text C.options)
    rw [hread] at hextended
    exact hextended.truncated.trans C.cut
  obtain ⟨found, rest, hsplit, hfound, hlength, hrest⟩ := hlast.log htruncated
  rw [hentries, List.append_assoc, List.append_assoc] at hsplit
  have hsame : before ++ after = found ++ rest := List.append_cancel_left hsplit
  have hlengths : before.length + after.length = found.length + rest.length := by
    rw [← List.length_append, hsame, List.length_append]
  have hle : before.length ≤ found.length := by
    rcases hafter with hrunning | hone
    · rw [hrest hrunning, List.length_nil] at hlengths
      omega
    · omega
  have hbefore : before <+: found :=
    List.prefix_of_prefix_length_le ⟨after, hsame⟩ ⟨rest, rfl⟩ hle
  rw [move_list]
  refine (List.map_congr_left fun d hd => ?_).trans before.map_id
  exact (hfound d (hbefore.subset hd)).moved fun offset => place_of_le

/-! ## Reports at the end of the tokens -/

section

variable {log : Log} {count : Nat}

/-- What is reported before the text is given up is not reported at the end of the tokens. -/
theorem Compared.not_reportedAtEnd
    (h : C.Compared count log (parse C.short { maxErrors := count }).diagnostics)
    (hbelow : ∀ d ∈ log.entries, d.cause ≠ .tooManyErrors)
    (hbefore : ∀ before last, log.halted = true →
      log.entries = (Lexed.ofText C.text).diagnostics ++ before ++ [last] →
      before ≠ [] ∧ count ≤ C.lexical.length + before.length) : ¬ReportedAtEnd C.short count := by
  intro hreported
  cases h with
  | same found running entries cut_eq =>
      have hmem := List.mem_of_getLast? hreported
      rw [cut_eq, move_list] at hmem
      obtain ⟨last, hlexical⟩ := (Lexed.ofText_beforeLast C.cut).2.2.1
      rw [entries, hlexical] at hbelow
      rcases List.mem_append.mp hmem with hlexed | hfound
      · exact hbelow _ (List.mem_append_left _ (List.mem_append_left _ hlexed)) rfl
      · obtain ⟨d, hd, hmoved⟩ := List.mem_map.mp hfound
        exact hbelow d (List.mem_append_right _ hd) (congrArg Diagnostic.cause hmoved)
  | ended before d more halted entries cut_eq room met =>
      obtain ⟨hne, hle⟩ := hbefore before _ halted entries
      rcases room with rfl | hlt
      · exact hne rfl
      · omega
  | stopped before token htoken cut_eq met went_on running =>
      unfold ReportedAtEnd at hreported
      rw [cut_eq, move_append, ← List.append_assoc] at hreported
      have hpoint : move C.place ⟨.tooManyErrors, token.span⟩ =
          (⟨.tooManyErrors, .point C.short.utf8ByteSize⟩ : Diagnostic) := by
        simpa using hreported
      have hspan : token.span = .point C.short.utf8ByteSize :=
        (place_token htoken).symm.trans (congrArg Diagnostic.span hpoint)
      have hlt := Token.start_lt_stop C.text token htoken
      rw [hspan] at hlt
      exact Nat.lt_irrefl _ hlt

/-- The report with which the text is given up is one at the end of the tokens. -/
theorem Compared.reportedAtEnd
    (h : C.Compared count log (parse C.short { maxErrors := count }).diagnostics)
    (hhalted : log.halted = true) {before : List Diagnostic} {last : Diagnostic}
    (hentries : log.entries = (Lexed.ofText C.text).diagnostics ++ before ++ [last])
    (hcount : count = C.lexical.length + before.length + 1) : ReportedAtEnd C.short count := by
  cases h with
  | same found running entries cut_eq => exact absurd hhalted (by simp [running])
  | ended before' d more halted entries cut_eq room met =>
      obtain rfl : before = before' := List.append_cancel_left
        (List.append_inj_left' (hentries.symm.trans entries) rfl)
      have hpoint : move C.place ⟨.tooManyErrors, .point C.text.utf8ByteSize⟩ =
          (⟨.tooManyErrors, .point C.short.utf8ByteSize⟩ : Diagnostic) := by
        change (⟨_, ⟨C.place C.text.utf8ByteSize, C.place C.text.utf8ByteSize, 0⟩⟩ : Diagnostic) = _
        rw [place_end]
        rfl
      rw [met (Nat.le_of_eq hcount)] at cut_eq
      rw [ReportedAtEnd, cut_eq, move_append, move_cons, move_cons, hpoint]
      simp
  | stopped before' token htoken cut_eq met went_on running =>
      have hsame : log.entries = (Lexed.ofText C.text).diagnostics ++ before' := by
        refine (went_on.eq_of_length_le ?_).symm
        rw [hentries]
        simp only [List.length_append, List.length_cons, List.length_nil]
        omega
      exact absurd hhalted (by simp [running hsame])

end

end CutText

/-- Truncation affects only the diagnostics.  A text that is cut short is read as the same program
as what stands before the opener, unless there are too many errors.  If nothing is reported at the
end of the tokens of the shorter text, the same is reported for both.  Otherwise the diagnostics
agree up to the first one that is reported there, at which the reader of the text gives up and says
why.  The end of one text stands for the end of the other. -/
theorem truncation_affects_only_diagnostics (text : String) (options : ParseOptions)
    (htruncated : (Lexed.ofText text).truncated = true)
    (hfew : ∀ d ∈ (parse text options).diagnostics, d.cause ≠ .tooManyErrors)
    (hfew' : ∀ d ∈ (parse (Lexed.beforeLast text) options).diagnostics, d.cause ≠ .tooManyErrors) :
    let short := Lexed.beforeLast text
    let lexical := (Lexed.ofText short).diagnostics
    let place := endAt short.utf8ByteSize text.utf8ByteSize
    (parse text options).program = (parse short options).program ∧
      ∃ reported reported' : List Diagnostic,
        (parse text options).diagnostics = (Lexed.ofText text).diagnostics ++ reported ∧
        (parse short options).diagnostics = lexical ++ reported' ∧
        ((∀ i < reported'.length, ¬ReportedAtEnd short (lexical.length + i + 1)) ∧
            reported' = reported ∨
          ∃ (before later : List Diagnostic) (ended d : Diagnostic),
            (∀ i < before.length, ¬ReportedAtEnd short (lexical.length + i + 1)) ∧
            ReportedAtEnd short (lexical.length + before.length + 1) ∧
            reported = before ++ [ended] ∧
            reported' = before ++ move place d :: later ∧
            ended.category = .endOfInput ∧
            ended.message = d.message ++ " (input ends inside an unterminated token)" ∧
            ended.span = d.span ∧ ended.expected = d.expected) := by
  intro short lexical place
  let C : CutText := ⟨text, options, htruncated⟩
  obtain ⟨program, last, hread, hprogram, hdiagnostics⟩ := parse_eq_run text options
  rw [hdiagnostics] at hfew
  -- probing with each count of errors tells which reports were made at the end
  have hprobed : ∀ count, 1 ≤ count →
      C.Compared count last.log (parse short { maxErrors := count }).diagnostics := by
    intro count hpos
    have hcompared := (C.compared hread hfew { maxErrors := count }).1
    rwa [show max ({ maxErrors := count } : ParseOptions).maxErrors 1 = count from
      Nat.max_eq_left hpos] at hcompared
  obtain ⟨hcompared, hsame⟩ := C.compared hread hfew options
  refine ⟨hprogram.trans (hsame hfew'), ?_⟩
  cases hcompared with
  -- no report was made at the end
  | same found running entries cut_eq =>
      have hsame : move place found = found :=
        C.place_reported hread (entries.trans (List.append_nil _).symm) (.inl running)
      refine ⟨found, found, hdiagnostics.trans entries, ?_, .inl ⟨fun i _ => ?_, rfl⟩⟩
      · rw [← hsame]
        exact cut_eq
      refine (hprobed _ (by omega)).not_reportedAtEnd hfew fun _ _ halted => ?_
      rw [running] at halted
      cases halted
  -- the first report at the end halts the run over the longer text
  | ended before d more halted entries cut_eq room met =>
      have hsame : move place before = before := C.place_reported hread entries (.inr rfl)
      refine ⟨before ++ [⟨.cutShort d.cause, d.span⟩], move place (before ++ d :: more), ?_, cut_eq,
        .inr ⟨before, move place more, ⟨.cutShort d.cause, d.span⟩, d, fun i hi => ?_, ?_, rfl, ?_,
          rfl, rfl, rfl, rfl⟩⟩
      · rw [hdiagnostics, entries, List.append_assoc]
      · refine (hprobed _ (by omega)).not_reportedAtEnd hfew fun before' _ _ entries' => ?_
        obtain rfl : before = before' := List.append_cancel_left
          (List.append_inj_left' (entries.symm.trans entries') rfl)
        refine ⟨List.ne_nil_of_length_pos (by omega), ?_⟩
        change lexical.length + i + 1 ≤ lexical.length + before.length
        omega
      · exact (hprobed _ (by omega)).reportedAtEnd halted entries rfl
      · rw [move_append, move_cons, hsame]
  -- the run over the shorter text met its cap, which was ruled out
  | stopped before token htoken cut_eq met went_on running =>
      refine absurd rfl (hfew' (move C.place ⟨.tooManyErrors, token.span⟩) ?_)
      rw [show (parse (Lexed.beforeLast text) options).diagnostics = _ from cut_eq]
      simp

/-- A broken constant, and a package that breaks off before a comment that is never closed.  Of the
two things that are wrong at the end of the shorter text, only the first is reported for the
longer one. -/
theorem truncation_of_broken_package :
    Lexed.beforeLast "const c = ; package p body node n (*" = "const c = ; package p body node n " ∧
      (parse "const c = ; package p body node n (*").program =
        (parse "const c = ; package p body node n ").program ∧
      (parse "const c = ; package p body node n (*").diagnostics.map Diagnostic.category =
        [.lexical, .syntactic, .endOfInput] ∧
      (parse "const c = ; package p body node n ").diagnostics.map Diagnostic.category =
        [.syntactic, .syntactic, .syntactic] ∧
      ¬ReportedAtEnd "const c = ; package p body node n " 1 ∧
      ReportedAtEnd "const c = ; package p body node n " 2 := by
  have hshort : Lexed.beforeLast "const c = ; package p body node n (*" =
    "const c = ; package p body node n " := by decide +kernel
  have hsame := truncation_affects_only_diagnostics "const c = ; package p body node n (*" {}
    (by decide +kernel) (by decide +kernel) (by decide +kernel)
  rw [hshort] at hsame
  exact ⟨hshort, hsame.1, by decide +kernel, by decide +kernel, by
    decide +kernel, by decide +kernel⟩

end Lustre
