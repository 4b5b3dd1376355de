import Lustre.Proofs.Reader.Follows
import Lustre.Proofs.Token.Lines

/-!
# One file after another

A text that is read without a diagnostic can be followed by any other text that begins
an item: the items of the second come behind those of the first, and what is wrong
with the second is reported as if it stood alone.

Three runs are compared: of the first text, of the second, and of both with a line
break between them.  As long as the first run has tokens to come, the third does what
the first does (`items_before`).  Each reader that looks for an optional tail at the end of
the first text finds the beginning of an item instead of the end, and takes neither.
Where the first run ends, the third stands at the tokens of the second with nothing
reported but what is wrong with their words, and from there on it does what the second does.
-/

namespace Lustre

open Movable LawfulMovable

namespace Recover

variable {α : Type} {step : α → Recover (ForInStep α)}

/-! ## Loops without their bounds -/

theorem iterateUpTo_eq (hadvancing : Advancing step) (bound bound' : Nat) (a : α) (run : Run)
    (hbound : run.left < bound) (hbound' : run.left < bound') :
    iterateUpTo step bound a run = iterateUpTo step bound' a run := by
  induction bound generalizing bound' a run with
  | zero => omega
  | succ bound ih =>
      obtain ⟨bound', rfl⟩ : ∃ n, bound' = n + 1 := ⟨bound' - 1, by omega⟩
      have hkeeps := hadvancing a run
      change EStateM.bind (step a) _ run = EStateM.bind (step a) _ run
      unfold EStateM.bind
      cases hstep : step a run with
      | error e run₁ => rfl
      | ok next run₁ =>
          have hlt := hkeeps next run₁ hstep
          cases next with
          | done b => rfl
          | yield b =>
              rw [stepKeeps_yield] at hlt
              exact ih bound' b run₁ (by omega) (by omega)

theorem iterate_done {a b : α} {run run₁ : Run} (h : step a run = .ok (.done b) run₁) :
    iterate a step run = .ok b run₁ := by
  change (step a >>= _) run = _
  rw [bind_of_ok h]
  rfl

theorem iterate_yield (hadvancing : Advancing step) {a b : α} {run run₁ : Run}
    (h : step a run = .ok (.yield b) run₁) : iterate a step run = iterate b step run₁ := by
  have hlt := hadvancing a run _ _ h
  rw [stepKeeps_yield] at hlt
  change (step a >>= _) run = iterateUpTo step (run₁.left + 1) b run₁
  rw [bind_of_ok h]
  exact iterateUpTo_eq hadvancing _ _ b run₁ hlt (Nat.lt_succ_self _)

theorem iterate_error {a : α} {run run₁ : Run} {e : Diagnostic} (h : step a run = .error e run₁) :
    iterate a step run = .error e run₁ := by
  change (step a >>= _) run = _
  rw [bind_of_error h]

/-! ## The ends of a file -/

variable {deep : Nested}

theorem itemStep_end (done : List (Located Item)) {run : Run} (hrest : run.cursor.rest = []) :
    itemStep deep done run = .ok (.done done) run := by
  obtain ⟨⟨_, size, last⟩, log⟩ := run
  cases hrest
  change (if log.halted = true then _ else _ : Recover _) _ = _
  split <;> rfl

/-- Only the end of the tokens and a halt end the items. -/
theorem itemStep_goes (done : List (Located Item)) {run : Run} (hrest : run.cursor.rest ≠ [])
    (hrunning : run.log.halted = false) :
    Meets (itemStep deep done) run fun next _ => ∃ items, next = .yield items := by
  obtain ⟨⟨_, size, last⟩, log⟩ := run
  obtain ⟨token, rest, rfl⟩ := List.exists_cons_of_ne_nil hrest
  refine .get ?_
  change Meets (if log.halted = true then _ else _ : Recover _) _ _
  rw [if_neg (Bool.eq_false_iff.mp hrunning)]
  refine .bind .any fun result run₁ _ => ?_
  cases result with
  | ok one => exact .bind .any fun span run₂ _ => .pure ⟨_, rfl⟩
  | error e =>
      refine .bind .any fun _ run₂ _ => .bind .any fun _ run₃ _ => ?_
      exact .bind .any fun span run₄ _ => .pure ⟨_, rfl⟩

theorem includes_none {run : Run} (h : run.cursor.peek ≠ some .kwInclude) :
    includes run = .ok [] run := by
  apply iterate_done
  have hat : run.cursor.isAt .kwInclude = false := by simpa [Cursor.isAt] using h
  change (if !run.cursor.isAt .kwInclude || run.log.halted then _ else _ : Recover _) run = _
  rw [hat]
  rfl

/-- A program is read in two parts. -/
theorem program_eq_ok {program : Program} {run last : Run} :
    Recover.program deep run = .ok program last ↔ ∃ run₁,
      includes run = .ok program.includes run₁ ∧ items deep run₁ = .ok program.items last := by
  change EStateM.bind includes _ run = _ ↔ _
  unfold EStateM.bind
  cases hincludes : includes run with
  | error e run₁ => simp
  | ok files run₁ =>
      change EStateM.bind (items deep) _ run₁ = _ ↔ _
      unfold EStateM.bind
      cases hitems : items deep run₁ with
      | error e run₂ => simp +contextual [hitems]
      | ok read run₂ =>
          change EStateM.Result.ok (⟨files, read⟩ : Program) run₂ = _ ↔ _
          cases program
          simp only [EStateM.Result.ok.injEq, Program.mk.injEq]
          constructor
          · rintro ⟨⟨rfl, rfl⟩, rfl⟩
            exact ⟨run₁, ⟨rfl, rfl⟩, hitems⟩
          · rintro ⟨_, ⟨rfl, rfl⟩, hread⟩
            rw [hitems] at hread
            cases hread
            exact ⟨⟨rfl, rfl⟩, rfl⟩

end Recover

/-! ## Before the second text -/

namespace RunContext

variable {M : RunContext} {deep : Nested} [deep.Advances]

open Recover

/-- A run without a report comes to the end of its tokens, and a run beside it to those that follow,
with the same items. -/
theorem items_before (hdeep : M.Levels deep) (hlater : M.later ≠ [])
    {done items : List (Located Item)}
    {run run' last : Run} (hrun : M.BesideRun run run')
    (hread : iterate done (itemStep deep) run = .ok items last) (hclean : last.log.entries = []) :
    ∃ last', M.BesideRun last last' ∧ last.cursor.rest = [] ∧ run'.cursor.Onward last'.cursor ∧
      iterate (move M.place done) (itemStep deep) run' =
        iterate (move M.place items) (itemStep deep) last' := by
  induction hleft : run.left using Nat.strongRecOn generalizing run run' done with
  | ind left ih =>
      by_cases hrest : run.cursor.rest = []
      · rw [iterate_done (itemStep_end done hrest)] at hread
        cases hread
        exact ⟨run', hrun, hrest, .here, rfl⟩
      cases hstep : itemStep deep done run with
      | error e run₁ =>
          rw [iterate_error hstep] at hread
          cases hread
      | ok next run₁ =>
          obtain ⟨more, rfl⟩ := itemStep_goes done hrest (hrun.log.running hlater) next run₁ hstep
          have hlt := advancing_itemStep done run _ _ hstep
          rw [iterate_yield advancing_itemStep hstep] at hread
          -- the rest of the run shows that this step has reported nothing
          have hnone : run₁.log.entries = [] := by
            have hlog := (inferInstance : Regular (iterate more (itemStep deep))).extended run₁
            rw [hread] at hlog
            exact hlog.entries_eq_nil hclean
          have halike := runs_itemStep hdeep [] done run run' hrun (.inl hrest)
          unfold Runs Link.Alike at halike
          rw [hstep] at halike
          obtain ⟨next', run₁', hstep', hnext, hrun₁⟩ := halike (.inr ⟨hnone, trivial⟩)
          cases hnext with
          | yield hmore =>
              cases hmore
              have honward := (inferInstance : Regular
                (itemStep deep ([] ++ move M.place done))).onward run'
              rw [hstep'] at honward
              rw [stepKeeps_yield, hleft] at hlt
              obtain ⟨last', hlast, hend, hreach, hsame⟩ := ih run₁.left hlt hrun₁ hread rfl
              refine ⟨last', hlast, hend, honward.trans hreach, ?_⟩
              rw [← hsame]
              exact iterate_yield advancing_itemStep hstep'

/-- The first text in its place before the tokens of a second. -/
def ahead (later : List Token) (hopens : ∀ token ∈ later.head?, token.kind ∈ itemHeads)
    (hlater : later ≠ []) (first second : Log) : RunContext where
  place := id
  later := later
  mono _ _ h := h
  opens := hopens
  first := first
  second := second
  agree hnil := absurd hnil hlater

/-- A second log to which nothing was added. -/
theorem Noted.unchanged {log log' : Log} (h : M.Noted log log') (hlater : M.later ≠ [])
    (hempty : log.entries = []) (hrunning : M.second.halted = false) : log' = M.second := by
  obtain ⟨found, stopped, rfl, rfl, hstopped⟩ := h
  obtain ⟨-, rfl⟩ := List.append_eq_nil_iff.mp hempty
  rw [hstopped hlater, ← hrunning]
  change ({ M.second with entries := M.second.entries ++ [] } : Log) = _
  rw [List.append_nil]

end RunContext

/-! ## Two texts as one -/

section

variable {text more : String} {options : ParseOptions}

/-- The words of a text that is read without a diagnostic are in order. -/
theorem lexed_of_clean (h : (parse text options).diagnostics = []) :
    (Lexed.ofText text).diagnostics = [] ∧ (Lexed.ofText text).fault = none := by
  obtain ⟨program, last, hread, -, hdiagnostics⟩ := parse_eq_run text options
  have hlog := (Recover.regular_program : Regular (Recover.program (.upTo maxNesting))).extended
    (.reading text options)
  rw [hread] at hlog
  have hnone : (Lexed.ofText text).diagnostics = [] :=
    hlog.entries_eq_nil (hdiagnostics.symm.trans h)
  refine ⟨hnone, ?_⟩
  have hfault := (List.append_eq_nil_iff.mp hnone).2
  cases heq : (Lexed.ofText text).fault with
  | none => rfl
  | some fault =>
      rw [heq] at hfault
      cases hfault

/-- Where the first text ends, a run of both stands before the second text with the items of the
first. -/
theorem program_before (hclean : (parse text options).diagnostics = [])
    (hopens : ∀ token ∈ (Lexed.ofText more).tokens.head?, token.kind ∈ itemHeads)
    (hsome : (Lexed.ofText more).tokens ≠ []) :
    let start := Run.reading (text ++ "\n" ++ more) options
    ∃ run₁ last, Recover.includes start = .ok (parse text options).program.includes run₁ ∧
      Recover.items (.upTo maxNesting) run₁ =
        Recover.iterate (parse text options).program.items
          (Recover.itemStep (.upTo maxNesting)) last ∧
      last.log = start.log ∧ last.cursor.last ≤ text.utf8ByteSize ∧
      last.cursor.size = start.cursor.size ∧
      last.cursor.rest = move (· + (text.utf8ByteSize + 1)) (Lexed.ofText more).tokens := by
  intro start
  obtain ⟨hlexical, hfault⟩ := lexed_of_clean hclean
  obtain ⟨htokens, -, -⟩ := Lexed.split_ofText text more hfault
  obtain ⟨program, last, hread, hprogram, hdiagnostics⟩ := parse_eq_run text options
  have hempty : last.log.entries = [] := hdiagnostics.symm.trans hclean
  obtain ⟨run₁, hfiles, hitems⟩ := Recover.program_eq_ok.mp hread
  rw [hprogram]
  let later := move (· + (text.utf8ByteSize + 1)) (Lexed.ofText more).tokens
  have hlater : later ≠ [] := fun hnil => hsome (List.map_eq_nil_iff.mp hnil)
  have hhead : ∀ token ∈ later.head?, token.kind ∈ itemHeads := by
    intro token htoken
    change token ∈ ((Lexed.ofText more).tokens.map _).head? at htoken
    rw [List.head?_map] at htoken
    obtain ⟨original, horiginal, rfl⟩ := Option.map_eq_some_iff.mp htoken
    exact hopens original horiginal
  let M := RunContext.ahead later hhead hlater (Run.reading text options).log start.log
  -- the tokens of the first text come first among those of both
  have hrun : M.BesideRun (.reading text options) start := by
    refine ⟨⟨?_, fun _ => rfl, fun hnil => absurd hnil hlater, fun _ _ _ _ h => h⟩, .start rfl rfl⟩
    change (Lexed.ofText (text ++ "\n" ++ more)).tokens = move id _ ++ later
    rw [htokens, move_id]
    rfl
  -- the directives
  have hnone : run₁.log.entries = [] := by
    have hlog := (Recover.regular_items : Regular (Recover.items (.upTo maxNesting))).extended run₁
    rw [hitems] at hlog
    exact hlog.entries_eq_nil hempty
  have halike := RunContext.follows_includes _ _ hrun
  unfold RunContext.Runs Link.Alike at halike
  rw [hfiles] at halike
  obtain ⟨files', run₁', hfiles', hmoved, hrun₁⟩ := halike (.inr ⟨hnone, trivial⟩)
  have hsame : files' = program.includes := hmoved.trans (move_id _)
  have honward := (inferInstance : Regular Recover.includes).onward start
  rw [hfiles'] at honward
  -- the items
  obtain ⟨last', hlast, hend, hreach, hgoes⟩ :=
    RunContext.items_before (Context.levels_upTo maxNesting)
    hlater hrun₁ hitems hempty
  have hpassed : last.cursor.last ≤ text.utf8ByteSize := by
    have hfrom := (Recover.regular_program : Regular (Recover.program (.upTo maxNesting))).onward
      (.reading text options)
    rw [hread] at hfrom
    exact hfrom.last_le (Nat.zero_le _) (Token.ordered_tokens text).stop_le
  refine ⟨run₁', last', hsame ▸ hfiles', ?_, ?_, ?_, ?_, ?_⟩
  · have hitem : move M.place program.items = program.items := move_id _
    rwa [hitem] at hgoes
  · exact hlast.log.unchanged hlater hempty rfl
  · have hplace : max last'.cursor.last 0 = max last.cursor.last 0 := hlast.cursor.last 0
    rw [Nat.max_zero, Nat.max_zero] at hplace
    rwa [hplace]
  · exact (honward.trans hreach).size
  · rw [hlast.cursor.rest, hend]
    rfl

/-- Files compose.  If a text is read without a diagnostic and another text begins with the first
word of an item, then in both together, on lines of their own, the directives are those of the
first, the items of the second come behind those of the first, and the diagnostics are those of the
second, all in their new places. -/
theorem files_compose (text more : String) (options : ParseOptions)
    (hclean : (parse text options).diagnostics = [])
    (hopens : ∃ token, (Lexed.ofText more).tokens.head? = some token ∧ token.kind ∈ itemHeads) :
    (parse (text ++ "\n" ++ more) options).program.includes =
      (parse text options).program.includes ∧
      (parse (text ++ "\n" ++ more) options).program.items =
        (parse text options).program.items ++
          move (· + (text.utf8ByteSize + 1)) (parse more options).program.items ∧
      (parse (text ++ "\n" ++ more) options).diagnostics =
        move (· + (text.utf8ByteSize + 1)) (parse more options).diagnostics := by
  obtain ⟨token, htoken, hkind⟩ := hopens
  have hsome : (Lexed.ofText more).tokens ≠ [] := by
    intro hnil
    rw [hnil] at htoken
    cases htoken
  obtain ⟨run₁, last, hfiles, hitems, hlog, hpassed, hsize, hrest⟩ :=
    program_before hclean (fun other hother => by cases htoken.symm.trans hother; exact hkind) hsome
  obtain ⟨hlexical, hfault⟩ := lexed_of_clean hclean
  obtain ⟨-, hdiagnostics, htruncated⟩ := Lexed.split_ofText text more hfault
  rw [hlexical, List.nil_append] at hdiagnostics
  -- the second text alone has no directives
  obtain ⟨second, end₂, hread₂, hprogram₂, hdiagnostics₂⟩ := parse_eq_run more options
  obtain ⟨run₂, hfiles₂, hitems₂⟩ := Recover.program_eq_ok.mp hread₂
  have hpeek : (Run.reading more options).cursor.peek ≠ some .kwInclude := by
    change (Lexed.ofText more).tokens.head?.map Token.kind ≠ _
    rw [htoken]
    intro hinclude
    rw [Option.map_some, Option.some.injEq] at hinclude
    rw [hinclude] at hkind
    exact absurd hkind (by decide)
  rw [Recover.includes_none hpeek] at hfiles₂
  obtain ⟨-, rfl⟩ := EStateM.Result.ok.inj hfiles₂
  -- behind the first text, the items of the second are read as if they stood alone
  let M := RunContext.alone (· + (text.utf8ByteSize + 1)) (fun _ _ h => Nat.add_le_add_right h _)
    (Run.reading more options).log (Run.reading (text ++ "\n" ++ more) options).log
    ((congrArg List.length hdiagnostics).trans (length_move _ _)) rfl htruncated
  have hrun : M.BesideRun (.reading more options) last := by
    refine ⟨⟨?_, fun start => ?_, fun _ => ?_, fun _ _ _ _ h => Nat.add_right_cancel h⟩, ?_⟩
    · rw [hrest]
      exact (List.append_nil _).symm
    · change max last.cursor.last (start + (text.utf8ByteSize + 1)) =
        max 0 start + (text.utf8ByteSize + 1)
      omega
    · rw [hsize]
      change (text ++ "\n" ++ more).utf8ByteSize = more.utf8ByteSize + (text.utf8ByteSize + 1)
      rw [String.utf8ByteSize_append, String.utf8ByteSize_append, Nat.add_comm]
      rfl
    · rw [hlog]
      exact .start rfl rfl
  -- both loops over items then do the same
  have halike := RunContext.runs_items (Context.levels_upTo maxNesting) rfl
    (parse text options).program.items hrun
  unfold RunContext.Runs Link.Alike at halike
  rw [hitems₂] at halike
  obtain ⟨both, end₃, hboth, rfl, -, found, stopped, hfound, hfound', -⟩ := halike (.inl rfl)
  obtain ⟨third, end₄, hread₃, hprogram₃, hdiagnostics₃⟩ :=
    parse_eq_run (text ++ "\n" ++ more) options
  rw [hboth] at hitems
  -- so the program of both texts is put together from those two
  have hwhole : Recover.program (.upTo maxNesting) (.reading (text ++ "\n" ++ more) options) =
      .ok ⟨(parse text options).program.includes,
        (parse text options).program.items ++ move M.place second.items⟩ end₃ :=
    Recover.program_eq_ok.mpr ⟨run₁, hfiles, hitems⟩
  rw [hread₃] at hwhole
  obtain ⟨rfl, rfl⟩ := EStateM.Result.ok.inj hwhole
  rw [hprogram₃, hdiagnostics₃, hprogram₂, hdiagnostics₂]
  refine ⟨rfl, rfl, ?_⟩
  rw [hfound, hfound']
  change (Lexed.ofText (text ++ "\n" ++ more)).diagnostics ++ _ =
    move _ ((Lexed.ofText more).diagnostics ++ found)
  rw [hdiagnostics, move_append]
  rfl

/-- A node without a mark behind its `tel`, and behind it a constant with a string that is never
closed. -/
theorem files_compose_unclosed :
    let text := "function f(x: int) returns (y: int); let y = x; tel"
    let joined := parse (text ++ "\n" ++ "const c = \"")
    joined.program.items = (parse text).program.items ++
      move (· + 52) (parse "const c = \"").program.items ∧
      joined.diagnostics = move (· + 52) (parse "const c = \"").diagnostics ∧
      joined.diagnostics.length = 2 := by
  have hcompose := files_compose "function f(x: int) returns (y: int); let y = x; tel"
    "const c = \"" {}
    (by decide +kernel) ⟨⟨.kwConst, "const", 0, 5, 0⟩, by decide +kernel, by decide⟩
  exact ⟨hcompose.2.1, hcompose.2.2, by decide +kernel⟩

end

end Lustre
