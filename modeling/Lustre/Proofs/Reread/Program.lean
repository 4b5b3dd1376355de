import Lustre.Proofs.Printer.Reprinted
import Lustre.Proofs.Reread.Package
import Lustre.Proofs.Reread.Sound
import Lustre.Proofs.Reread.Whole

/-!
# Printed programs, read back

A program that was read without a diagnostic and then printed is read back as the same program, up
to places and parentheses around one expression.  Only the limit on nesting can get in the way, and
then it is reported: parentheses that printing puts in nest more deeply than the tree did.

Printed a second time, a program has the same text unless a minus stands directly under a
minus.  Printing keeps the two signs apart with a blank and with parentheses; the parentheses are
read back as a tuple, behind which the blank is no longer needed.
-/

namespace Lustre

open Chunk

namespace Recover

variable {deep : Nested} [deep.Advances] {c : Cursor} {later : List Chunk}

/-! ## Included files -/

theorem unquote_quoted (path : String) : unquote ("\"" ++ path ++ "\"") = path := by
  have hlist : ("\"" ++ path ++ "\"").toList = '"' :: (path.toList ++ ['"']) := by
    simp [String.toList_append]
  rw [unquote, hlist, List.drop_one, List.tail_cons, List.dropLast_concat, String.ofList_toList]

omit [deep.Advances] in
theorem gives_includeDirective (file : Located String) (hlater : (kinds later).head? ≠ some .semi)
    (hshows : c.Shows (includeChunks file.value ++ later)) :
    Gives includeDirective c (Regains file later) := by
  obtain ⟨path, span⟩ := file
  apply Gives.regainLocated
  have hwords : c.Shows (sign .kwInclude :: blank ::
      word .stringLit ("\"" ++ path ++ "\"") :: newline :: later) := hshows
  have hquoted := hwords.pass_sign.blank
  have hend : c.pass.pass.Shows later := hquoted.pass.gap
  refine .expect hwords.peek fun _ => .take?_word hquoted fun span => ?_
  exact .eat_no (hend.peek ▸ hlater) (.pure ⟨unquote_quoted path, hend⟩)

/-- The `include` directives at the beginning of a file. -/
theorem restores_includes {files : List (Located String)} (hlater : EndsDeclaration later)
    (hother : (kinds later).head? ≠ some .kwInclude)
    (hshows : c.Shows ((files.flatMap fun file => includeChunks file.value) ++ later)) :
    Restores includes c (Regains files later) := by
  refine restores_listed (fun done => done) EndsDeclaration (.flatMap files)
    (fun file _ => ⟨?_, ?_⟩)
    hlater (fun _ _ hgood => hgood) ?_ ?_ hshows
  · simp [includeChunks, line]
  · intro more
    have hbegin : Before [.kwInclude] (includeChunks file.value ++ more) :=
      ⟨.kwInclude, by simp, rfl⟩
    exact hbegin.endsDeclaration (by decide)
  · intro file hmem done c more hmore hshows
    have hat : c.isAt .kwInclude = true := by
      rw [Cursor.isAt, hshows.peek]
      rfl
    refine .get fun log => .halted ?_
    dsimp only
    rw [if_neg (by simp [hat])]
    exact .caughtRead (gives_includeDirective file (hmore.head_ne (by decide)) hshows)
      (fun read c' hread => .pure ⟨read, rfl, hread⟩) fun e c' he => .report he
  · intro read c hread
    refine .get fun log => .halted ?_
    dsimp only
    rw [if_pos (by simp [hread.2.isAt_eq_false hother])]
    exact .pure hread

end Recover

/-! ## Items -/

theorem Item.Writable.begins {item : Item} (h : item.Writable printable) :
    Before (.kwPackage :: .kwModel :: Recover.declarationStarts) item.chunks := by
  cases item with
  | decl single =>
      have hdecl : single.value.Writable printable := h
      exact hdecl.begins.mono (by decide)
  | package whole => exact ⟨.kwPackage, by simp, rfl⟩
  | model whole => exact ⟨.kwModel, by simp, rfl⟩
  | error => exact h.elim

theorem Item.Writable.isError_eq_false {item : Item} (h : item.Writable printable) :
    item.isError = false := by
  cases item with
  | error => exact h.elim
  | _ => rfl

namespace Recover

variable {deep : Nested} [deep.Advances] {c : Cursor} {later : List Chunk}

theorem restores_item (hdeep : deep.Rereads) {item : Item} (h : item.Writable printable)
    (hlater : EndsDeclaration later) {kind : Kind} (hpeek : c.peek = some kind)
    (hshows : c.Shows (item.chunks ++ later)) :
    Restores (Recover.item deep c kind) c (Regains item later) := by
  have hkind : (kinds (item.chunks ++ later)).head? = some kind := hshows.peek.symm.trans hpeek
  unfold Recover.item
  cases item with
  | decl single =>
      have hdecl : single.value.Writable printable := h
      obtain ⟨first, hmem, hhead⟩ := hdecl.begins.append later
      obtain rfl : first = kind := Option.some.inj (hhead.symm.trans hkind)
      have hother : ∀ kind ∈ declarationStarts,
          kind ≠ .kwPackage ∧ kind ≠ .kwModel ∧ kind ≠ .kwInclude := by decide
      obtain ⟨hpackage, hmodel, hinclude⟩ := hother first hmem
      rw [if_neg hpackage, if_neg hmodel, if_neg hinclude, if_pos (by simpa using hmem)]
      exact (restores_declaration hdeep hdecl hlater hshows).bind fun read c' hread =>
        .pure ⟨congrArg Item.decl hread.1, hread.2⟩
  | package whole =>
      obtain rfl : Kind.kwPackage = kind := Option.some.inj hkind
      rw [if_pos rfl]
      exact (restores_package hdeep h hlater hshows).bind fun read c' hread =>
        .pure ⟨congrArg Item.package hread.1, hread.2⟩
  | model whole =>
      obtain rfl : Kind.kwModel = kind := Option.some.inj hkind
      rw [if_neg (by decide), if_pos rfl]
      exact (restores_model hdeep h hshows).bind fun read c' hread =>
        .pure ⟨congrArg Item.model hread.1, hread.2⟩
  | error => exact h.elim

/-- The items of a file go on to its end. -/
theorem restores_items (hdeep : deep.Rereads) {items : List (Located Item)}
    (h : ∀ item ∈ items, item.value.Writable printable) {chunks : List Chunk}
    (hlisted : Listed (fun item : Located Item => item.value.chunks) items chunks)
    (hshows : c.Shows chunks) : Restores (Recover.items deep) c (Regains items []) := by
  have hnil : EndsDeclaration [] := fun kind hhead => (by cases hhead)
  refine restores_listed (fun done => done) EndsDeclaration hlisted (fun item hmem => ?_) hnil
    (fun _ _ hgood => hgood) ?_ ?_ (by rwa [List.append_nil])
  · have hbegin := (h item hmem).begins
    exact ⟨hbegin.kinds_ne_nil, fun more => (hbegin.append more).endsDeclaration (by decide)⟩
  · intro item hmem done c more hmore hshows
    obtain ⟨kind, -, hhead⟩ := (h item hmem).begins.append more
    have hpeek : c.peek = some kind := hshows.peek.trans hhead
    refine .get fun log => .halted ?_
    dsimp only
    rw [hpeek]
    refine .caught (restores_item hdeep (h item hmem) hmore hpeek hshows) (fun read c' hread => ?_)
      fun e c' he => .report he
    exact .spanFrom fun span => .pure ⟨_, rfl, congrArg Located.nowhere hread.1, hread.2⟩
  · intro read c hread
    have hpeek : c.peek = none := hread.2.peek
    refine .get fun log => .halted ?_
    dsimp only
    rw [hpeek]
    exact .pure hread

end Recover

/-! ## Programs -/

/-- Every item that is printed is read. -/
theorem exists_listed_items {program : Program} (h : program.Writable printable) :
    ∃ chunks, program.chunks =
        (program.includes.flatMap fun file => includeChunks file.value) ++ chunks ∧
      Listed (fun item : Located Item => item.value.chunks) program.items chunks := by
  obtain ⟨includes, items⟩ := program
  have hkept : (items.filter fun item => !item.value.isError) = items := by
    refine List.filter_eq_self.mpr fun item hmem => ?_
    rw [(h.items item hmem).isError_eq_false]
    rfl
  rw [Program.chunks_eq, hkept]
  generalize (includes.flatMap fun file => includeChunks file.value) = head
  cases head with
  | nil =>
      cases items with
      | nil => exact ⟨[], rfl, .nil⟩
      | cons first rest =>
          refine ⟨_, ?_, .cons (.flatMap_newline rest)⟩
          simp [programLines, List.flatMap_map]
  | cons chunk head =>
      refine ⟨_, ?_, .flatMap_newline items⟩
      simp [programLines, List.flatMap_map]

namespace Recover

theorem restores_program {deep : Nested} [deep.Advances] (hdeep : deep.Rereads) {program : Program}
    (h : program.Writable printable) {c : Cursor} (hshows : c.Shows program.chunks) :
    Restores (Recover.program deep) c (Regains program []) := by
  obtain ⟨chunks, hchunks, hlisted⟩ := exists_listed_items h
  rw [hchunks] at hshows
  have hitems : EndsDeclaration chunks ∧ (kinds chunks).head? ≠ some .kwInclude := by
    have hgood := hlisted.good
      (fun chunks => EndsDeclaration chunks ∧ (kinds chunks).head? ≠ some .kwInclude) []
      (fun _ => ⟨fun kind hhead => (by cases hhead), by simp⟩) (fun item hmem more => ?_)
      (fun _ _ hgood => hgood)
    · rwa [List.append_nil] at hgood
    · have hbegin := (h.items item hmem).begins.append more
      exact ⟨hbegin.endsDeclaration (by decide), hbegin.head_ne (by decide)⟩
  refine .bind (restores_includes hitems.1 hitems.2 hshows) fun includes c₁ hincludes => ?_
  refine .bind (restores_items hdeep h.items hlisted hincludes.2) fun items c₂ hread =>
    .pure ⟨?_, hread.2⟩
  show Program.mk (rebuild Expr.keep includes) (rebuild Expr.keep items) = Program.mk _ _
  rw [hincludes.1, hread.1]

end Recover

/-! ## Texts -/

/-- The text of a writable program is read back without a diagnostic, unless something is nested too
deeply. -/
theorem parse_print {program : Program} (h : program.Writable printable)
    (happart : Apart false program.chunks) (options : ParseOptions) :
    (∃ d ∈ (parse program.print options).diagnostics, d.message = "expression nested too deeply") ∨
      (parse program.print options).diagnostics = [] ∧
        rebuild Expr.keep (parse program.print options).program =
          rebuild (Expr.settle false) program := by
  obtain ⟨read, run, hread, hprogram, hdiagnostics⟩ := parse_eq_run program.print options
  obtain ⟨hshows, hlog⟩ := Run.ofText_render happart
  have hopen : (Run.reading program.print options).log.Open := by
    rw [Run.reading, Program.print, Run.withCap, hlog]
    exact ⟨rfl, rfl⟩
  have hempty : (Run.reading program.print options).log.entries = [] := by
    rw [Run.reading, Program.print, Run.withCap, hlog]
  have hrestored := Recover.restores_program (Nested.rereads_upTo maxNesting) h hshows _ hopen
  change Restored _ _
    (Recover.program (.upTo maxNesting) (Run.reading program.print options)) at hrestored
  rw [hread] at hrestored
  rw [hprogram, hdiagnostics]
  cases hrestored with
  | answered hregains => exact .inr ⟨hempty, hregains.1⟩
  | reported hdeep =>
      obtain ⟨d, hmem, hcause⟩ := hdeep
      refine .inl ⟨d, hmem, ?_⟩
      rw [Diagnostic.message, hcause]
      rfl

/-- A text that is read without a diagnostic, printed and read again: there is no diagnostic, the
program is the same up to places and parentheses around one expression, and printing it gives the
same text exactly if no minus stands directly under a minus.  This takes that no field is selected
directly from a number, that no arguments for a model open a comment, that no integer of the text
has a dot in it, and that the second reading does not meet the limit on nesting. -/
theorem printed_program_reads_back (text : String) (options again : ParseOptions)
    (h : (parse text options).diagnostics = [])
    (hselect : ∀ expr ∈ exprs (parse text options).program, expr.selectsNumber = false)
    (hcomment : ∀ package ∈ (parse text options).program.packages,
      package.body.opensComment = false)
    (hdigits : ∀ token ∈ (Lexed.ofText text).tokens, token.kind = .intLit → '.' ∉ token.text.toList)
    (hshallow : ∀ d ∈ (parse (parse text options).program.print again).diagnostics,
      d.message ≠ "expression nested too deeply") :
    let program := (parse text options).program
    let second := parse program.print again
    second.diagnostics = [] ∧ second.program.core = program.core ∧
      (second.program.print = program.print ↔
        ∀ expr ∈ exprs program, expr.doublesMinus = false) := by
  intro program second
  have hspelt : ∀ word ∈ program.words, word.Spelt false := spelt_of_parse h fun token hmem =>
    (Lexed.proper_of_mem_tokens hmem (hdigits token hmem)).spelt false
  have hshaped : program.Shaped := (parse_spec h).2.1
  have hwritable : program.Writable printable :=
    inherited_printable.program hshaped hcomment hspelt hselect
  have happart : Apart false program.chunks :=
    ((inherited_lexical false false).program hshaped hcomment hspelt fun expr hmem =>
      Expr.joinsNumber_eq_false (hselect expr hmem)).apart
  rcases parse_print hwritable happart again with ⟨d, hmem, hmessage⟩ | ⟨hclean, hread⟩
  · exact absurd hmessage (hshallow d hmem)
  · have hcore := Program.core_eq hread
    have hprint := Program.print_eq_iff hread
    exact ⟨hclean, hcore, hprint⟩

/-- A model, an instance of it and a constant are read back. -/
theorem printed_model_reads_back :
    let text := "model m needs type t; body end package i is m<<int>>; const c = 2 * (1 + i::x);"
    let program := (parse text).program
    let second := parse program.print
    (parse text).diagnostics = [] ∧ second.diagnostics = [] ∧ second.program.core = program.core ∧
      second.program.print = program.print := by
  intro text program second
  have hread : (parse text).diagnostics = [] ∧
      (∀ expr ∈ exprs (parse text).program, expr.selectsNumber = false) ∧
      (∀ package ∈ (parse text).program.packages, package.body.opensComment = false) ∧
      (∀ token ∈ (Lexed.ofText text).tokens, token.kind = .intLit → '.' ∉ token.text.toList) ∧
      (∀ d ∈ (parse (parse text).program.print).diagnostics,
        d.message ≠ "expression nested too deeply") ∧
      ∀ expr ∈ exprs (parse text).program, expr.doublesMinus = false := by decide +kernel
  obtain ⟨hclean, hselect, hcomment, hdigits, hshallow, hminus⟩ := hread
  obtain ⟨hagain, hcore, hprint⟩ :=
    printed_program_reads_back text {} {} hclean hselect hcomment hdigits hshallow
  exact ⟨hclean, hagain, hcore, hprint.mpr hminus⟩

/-- A minus under a minus is printed with a blank between, and without it the second time. -/
theorem printing_twice_drops_blank :
    let text := "node f(x: int) returns (y: int); let y = - - x; tel"
    let program := (parse text).program
    let second := parse program.print
    (parse text).diagnostics = [] ∧
      (∀ expr ∈ exprs program, expr.selectsNumber = false) ∧
      (∀ package ∈ program.packages, package.body.opensComment = false) ∧
      (∀ token ∈ (Lexed.ofText text).tokens, token.kind = .intLit → '.' ∉ token.text.toList) ∧
      second.diagnostics = [] ∧
      program.print = "node f(x: int) returns (y: int);\nlet\n    y = - (-x);\ntel\n" ∧
      second.program.print = "node f(x: int) returns (y: int);\nlet\n    y = -(-x);\ntel\n" := by
  decide +kernel

end Lustre
