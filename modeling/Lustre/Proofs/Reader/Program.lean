import Lustre.Proofs.Reader.Declaration
import Lustre.Parse
import Lustre.Proofs.Token.Kinds

/-!
# Reading programs passes their words

A program that is read without a diagnostic is flattened to the tokens of its
text, brought into normal form (`words_eq_normal_tokens`): reading loses nothing
but separators.
-/

namespace Lustre

open Cursor Lexeme

namespace Recover

variable {deep : Nested} [deep.Advances] {log : Log}

/-! ## Readers of declarations are regular -/

instance forward_instanceWord : Forward instanceWord := by
  unfold instanceWord
  infer_instance

instance forward_includeDirective : Forward includeDirective := by
  refine @Read.forward_located _ _ (.after fun _ => .after fun file => ?_)
  cases file <;> infer_instance

instance regular_bodyStep (done : List (Located Declaration)) : Regular (bodyStep deep done) := by
  refine .look (fun run => ?_) fun _ _ _ => rfl
  refine .after fun stopped => .choose inferInstance (.after fun found => ?_)
  refine .choose inferInstance ?_
  dsimp only
  split
  · infer_instance
  · refine .choose inferInstance ?_
    have hread : ∀ kind, Regular (if declarationStarts.contains kind then declaration deep .body
        else throw (run.cursor.missing .declarationOrEnd)) := fun kind => inferInstance
    refine .after fun result => ?_
    cases result <;> infer_instance

instance regular_bodyDeclarations : Regular (bodyDeclarations deep) := by
  unfold bodyDeclarations
  infer_instance

instance regular_body : Regular (body deep) := by
  refine .after fun result => ?_
  cases result <;> infer_instance

instance regular_instantiation (name : Ident) (word : InstanceWord) :
    Regular (instantiation deep name word) := by
  refine .after fun model => .after fun (brackets, args) => .after fun _ => ?_
  exact .look (fun run => inferInstance) fun _ _ _ => rfl

instance regular_package : Regular (package deep) := by
  refine .after fun _ => .after fun name => .after fun word => ?_
  cases word <;> infer_instance

instance regular_needsStep (done : List (Located StaticParam)) : Regular (needsStep deep done) := by
  refine .after fun result => ?_
  cases result with
  | error e => infer_instance
  | ok param =>
      refine .after fun result => ?_
      cases result <;> infer_instance

instance regular_needs : Regular (needs deep) := by
  unfold needs
  infer_instance

instance regular_requiredNeeds (name : Ident) : Regular (requiredNeeds deep name) := by
  unfold requiredNeeds
  infer_instance

instance regular_modelContents (name : Ident) (uses : List Ident)
    (read : Partial (List (Located StaticParam))) :
    Regular (modelContents deep name uses read) := by
  obtain ⟨needs, failure⟩ := read
  cases failure with
  | some e => exact .pure _
  | none =>
      refine .after fun result => ?_
      cases result <;> infer_instance

instance regular_modelTail (name : Ident) : Regular (modelTail deep name) := by
  refine .after fun result => ?_
  cases result <;> infer_instance

instance regular_closeModel (read : Partial Model) : Regular (closeModel read) := by
  obtain ⟨model, failure⟩ := read
  cases failure <;> unfold closeModel <;> infer_instance

instance regular_model : Regular (model deep) := by
  unfold model
  infer_instance

instance regular_includeStep (done : List (Located String)) : Regular (includeStep done) := by
  refine .look (fun run => ?_) fun _ _ _ => rfl
  refine .after fun stopped => .choose inferInstance (.after fun result => ?_)
  cases result <;> infer_instance

instance regular_includes : Regular includes := by
  unfold includes
  infer_instance

instance regular_item (c : Cursor) (kind : Kind) : Regular (item deep c kind) := by
  unfold item
  infer_instance

instance regular_itemStep (done : List (Located Item)) : Regular (itemStep deep done) := by
  refine .look (fun run => ?_) fun _ _ _ => rfl
  refine .after fun stopped => .choose inferInstance ?_
  split
  · infer_instance
  · refine .after fun result => ?_
    cases result <;> infer_instance

instance regular_items : Regular (items deep) := by
  unfold items
  infer_instance

instance regular_program : Regular (program deep) := by
  unfold program
  infer_instance

section

variable (hdeep : deep.Faithful)
include hdeep

/-! ## Packages -/

/-- The declarations of a body end at its `end`. -/
theorem cleanly_bodyDeclarations (c : Cursor) :
    Cleanly (bodyDeclarations deep) ⟨c, log⟩ fun read c' => read.2 = none →
      c.Passes ((read.1.flatMap fun decl => decl.value.words) ++ [sign .kwEnd]) c' ∧
        ∀ decl ∈ read.1, decl.value.Shaped := by
  refine .iterate (I := fun read c' =>
    c.Passes (read.1.flatMap fun decl => decl.value.words) c' ∧
      ∀ decl ∈ read.1, decl.value.Shaped) ⟨.refl c, by simp⟩ ?_
  rintro ⟨done, _⟩ c' ⟨hpasses, hall⟩
  refine .get (.unlessHalted ?_)
  refine .ifEat (fun hend => .pure fun _ => ⟨hpasses.trans (.sign hend rfl), hall⟩) fun _ => ?_
  split
  · exact .pure nofun
  · split
    · exact .pure nofun
    · rename_i kind _ _
      refine .caught (P := fun decl c₁ => c'.Passes decl.value.words c₁ ∧ decl.value.Shaped) ?_
        (fun decl c₁ ⟨hdecl, hgood⟩ => ?_) fun e c₁ => .report
      · split
        · exact cleanly_declaration hdeep c'
        · exact .throw
      · refine .pure ⟨⟨?_, ?_⟩, hdecl.shorter (Declaration.words_ne_nil hgood)⟩
        · simpa using hpasses.trans hdecl
        · exact List.forall_mem_append.mpr ⟨hall, by simpa using hgood⟩

theorem cleanly_body (c : Cursor) :
    Cleanly (body deep) ⟨c, log⟩ fun read c' => read.2 = none →
      c.Passes (bodyWords read.1) c' ∧ ∀ decl ∈ read.1, decl.value.Shaped := by
  refine .caughtRead (P := fun _ c' => c.Passes [sign .kwBody] c') ?_ (fun _ c₁ hbody => ?_)
    fun e c₁ => .pure nofun
  · exact .ifAt (fun hbody => .get (.advance (.pure (.sign hbody rfl)))) fun _ => .unexpected
  · refine (cleanly_bodyDeclarations hdeep c₁).mono fun read c' hread hnone => ⟨?_, (hread hnone).2⟩
    simpa [bodyWords] using hbody.trans (hread hnone).1

omit hdeep in
theorem meets_instanceWord (c : Cursor) :
    Meets instanceWord c fun word c' =>
      (∀ linking, word = some linking → c.peek = some linking.word.kind ∧ c' = c.pass) ∧
        (word = none → c' = c) :=
  .ifEat (fun heq => .pure ⟨by rintro _ ⟨⟩; exact ⟨heq, rfl⟩, nofun⟩) fun _ =>
    .ifEat (fun his => .pure ⟨by rintro _ ⟨⟩; exact ⟨his, rfl⟩, nofun⟩) fun _ =>
      .pure ⟨nofun, fun _ => rfl⟩

omit [deep.Advances] in
theorem cleanly_instantiation (name : Ident) (linking : InstanceWord) (c : Cursor) :
    Cleanly (instantiation deep name linking) ⟨c, log⟩ fun package c' => ∃ model brackets args,
      package = ⟨name, .instantiated linking model brackets args⟩ ∧
        c.Passes (model.words ++ sign brackets.opening ::
          (args.flatMap fun arg => arg.value.words) ++ [sign brackets.closing]) c' ∧
        ∀ arg ∈ args, arg.value.Shaped := by
  refine .read (Read.meets_ident c) fun model c₁ hmodel => ?_
  refine .read (Read.meets_modelArgs hdeep c₁) fun (brackets, args) c₂ ⟨hargs, hall⟩ => ?_
  refine .expect fun hsemi _ => .get ?_
  dsimp only
  split
  · exact .report
  · refine .pure ⟨model, brackets, args, rfl, ?_, hall⟩
    simpa using hmodel.trans (hargs.trans (.separator hsemi rfl))

theorem cleanly_package (c : Cursor) :
    Cleanly (package deep) ⟨c, log⟩ fun package c' =>
      c.Passes package.words c' ∧ package.body.Shaped := by
  refine .expect fun hpackage _ => .read (Read.meets_ident _) fun name c₁ hname => ?_
  refine .read (meets_instanceWord c₁) fun word c₂ ⟨hsome, hnone⟩ => ?_
  have hopened := (Passes.sign hpackage rfl).trans hname
  -- an instance of a model, or a package with contents of its own
  cases word with
  | some linking =>
      obtain ⟨hpeek, rfl⟩ := hsome linking rfl
      refine (cleanly_instantiation hdeep name linking _).mono ?_
      rintro _ c' ⟨model, brackets, args, rfl, hpasses, hall⟩
      refine ⟨?_, hall⟩
      have hlinked : c₁.Passes (PackageBody.words (.instantiated linking model brackets args))
          c' := by
        cases linking with
        | eq =>
            simpa [PackageBody.words, InstanceWord.word] using Passes.eq hpeek
              hpasses ⟨_, _, rfl, rfl⟩
        | isWord =>
            have his : c₁.peek = some .kwIs := hpeek
            simpa [PackageBody.words, InstanceWord.word] using (Passes.sign his rfl).trans hpasses
      exact hopened.trans hlinked
  | none =>
      obtain rfl := hnone rfl
      refine .read (Read.meets_uses c₂) fun uses c₃ huses => ?_
      refine .read (Read.meets_provides hdeep c₃) fun provides c₄ ⟨hprovides, hshown⟩ => ?_
      refine .bind (cleanly_body hdeep c₄) fun (decls, failure) c₅ hbody => ?_
      cases failure with
      | some e => exact .report
      | none =>
          obtain ⟨hdecls, hall⟩ := hbody rfl
          refine .pure ⟨?_, hshown, hall⟩
          simpa [Package.words, PackageBody.words] using
            hopened.trans (huses.trans (hprovides.trans hdecls))

/-! ## Models -/

theorem cleanly_needs (c : Cursor) :
    Cleanly (needs deep) ⟨c, log⟩ fun read c' => read.2 = none →
      c.Passes (read.1.flatMap fun param => param.value.words) c' ∧ read.1 ≠ [] ∧
        ∀ param ∈ read.1, param.value.Shaped := by
  refine .iterate (I := fun read c' =>
    c.Passes (read.1.flatMap fun param => param.value.words) c' ∧
      ∀ param ∈ read.1, param.value.Shaped) ⟨.refl c, by simp⟩ ?_
  rintro ⟨done, _⟩ c' ⟨hpasses, hall⟩
  refine .caughtRead (Read.meets_staticParam hdeep c') (fun param c₁ ⟨hparam, hgood⟩ => ?_)
    fun e c₁ => .pure nofun
  refine .caughtRead (P := fun _ c₂ => c₁.Passes [] c₂) ?_ (fun _ c₂ hsemi => ?_)
    fun e c₂ => .pure nofun
  · exact .ifAt (fun hsemi => .get (.advance (.pure (.separator hsemi rfl)))) fun _ => .unexpected
  · have hpasses₁ : c.Passes ((done ++ [param]).flatMap fun param => param.value.words) c₂ := by
      simpa using hpasses.trans (hparam.trans hsemi)
    have hall₁ : ∀ other ∈ done ++ [param], other.value.Shaped :=
      List.forall_mem_append.mpr ⟨hall, by simpa using hgood⟩
    refine .peek ?_
    split
    · refine .pure ⟨⟨hpasses₁, hall₁⟩, ?_⟩
      have hshorter := hparam.shorter
        (by cases param.value <;> simp [StaticParam.words, NodeHead.words])
      have hle := hsemi.suffix.length_le
      omega
    · exact .pure fun _ => ⟨hpasses₁, by simp, hall₁⟩

theorem cleanly_requiredNeeds (name : Ident) (c : Cursor) :
    Cleanly (requiredNeeds deep name) ⟨c, log⟩ fun read c' => read.2 = none →
      c.Passes (sign .kwNeeds :: read.1.flatMap fun param => param.value.words) c' ∧ read.1 ≠ [] ∧
        ∀ param ∈ read.1, param.value.Shaped := by
  refine .ifEat (fun hneeds => ?_) fun _ => .report
  refine (cleanly_needs hdeep _).mono fun read c' h hnone => ?_
  exact ⟨(Passes.sign hneeds rfl).trans (h hnone).1, (h hnone).2⟩

theorem cleanly_modelTail (name : Ident) (c₀ c : Cursor)
    (hname : c₀.Passes (sign .kwModel :: name.words) c) :
    Cleanly (modelTail deep name) ⟨c, log⟩ fun read c' => read.2 = none →
      c₀.Passes read.1.words c' ∧ read.1.Shaped := by
  refine .caughtRead (Read.meets_uses c) (fun uses c₁ huses => ?_) fun e c₁ => .pure nofun
  refine .bind (cleanly_requiredNeeds hdeep name c₁) fun (needs, failure) c₂ hneeds => ?_
  cases failure with
  | some e => exact .pure nofun
  | none =>
      obtain ⟨hneeds, hne, hall⟩ := hneeds rfl
      refine .caughtRead (Read.meets_provides hdeep c₂) (fun provides c₃ ⟨hprovides, hshown⟩ => ?_)
        fun e c₃ => .pure nofun
      refine .bind (cleanly_body hdeep c₃) fun read c₄ hbody => .pure fun hnone => ?_
      obtain ⟨hdecls, hgood⟩ := hbody hnone
      refine ⟨?_, hne, hall, hshown, hgood⟩
      simpa [Model.words] using
        hname.trans (huses.trans (hneeds.trans (hprovides.trans hdecls)))

theorem cleanly_model (c : Cursor) :
    Cleanly (model deep) ⟨c, log⟩ fun model c' => c.Passes model.words c' ∧ model.Shaped := by
  refine .expect fun hmodel _ => .read (Read.meets_ident _) fun name c₁ hname => ?_
  refine .bind (cleanly_modelTail hdeep name c c₁ ((Passes.sign hmodel rfl).trans hname))
    fun (model, failure) c₂ htail => ?_
  cases failure with
  | some e => exact .report
  | none => exact .pure (htail rfl)

/-! ## Files -/

theorem cleanly_item (c : Cursor) (kind : Kind) :
    Cleanly (item deep c kind) ⟨c, log⟩ fun item c' => c.Passes item.words c' ∧ item.Shaped := by
  unfold item
  split
  · exact .bind (cleanly_package hdeep c) fun package c' h => .pure h
  · split
    · exact .bind (cleanly_model hdeep c) fun model c' h => .pure h
    · split
      · exact .throw
      · split
        · exact .bind (cleanly_declaration hdeep c) fun decl c' h => .pure h
        · exact .throw

omit hdeep in
theorem Item.words_ne_nil {item : Item} (h : item.Shaped) : item.words ≠ [] := by
  cases item with
  | decl single => exact Declaration.words_ne_nil h
  | package whole => simp [Item.words, Package.words]
  | model whole => simp [Item.words, Model.words]
  | error => exact absurd h id

/-- The items of a file go on to its end. -/
theorem cleanly_items (c : Cursor) :
    Cleanly (items deep) ⟨c, log⟩ fun items c' =>
      (c.Passes (items.flatMap fun item => item.value.words) c' ∧
        ∀ item ∈ items, item.value.Shaped) ∧ c'.rest = [] := by
  refine .iterate (I := fun items c' => c.Passes (items.flatMap fun item => item.value.words) c' ∧
    ∀ item ∈ items, item.value.Shaped) ⟨.refl c, by simp⟩ ?_
  rintro done c' ⟨hpasses, hall⟩
  refine .get (.unlessHalted ?_)
  split
  · rename_i hnone
    refine .pure ⟨⟨hpasses, hall⟩, ?_⟩
    simpa [Cursor.peek] using hnone
  · rename_i kind _
    refine .caught (cleanly_item hdeep c' kind) (fun one c₁ hread => ?_) fun e c₁ => .report
    obtain ⟨hone, hgood⟩ := hread
    refine .spanFrom fun span => .pure ⟨⟨?_, ?_⟩, hone.shorter (Item.words_ne_nil hgood)⟩
    · simpa using hpasses.trans hone
    · exact List.forall_mem_append.mpr ⟨hall, by simpa using hgood⟩

end

/-- Every string to come stands between quotes. -/
def Quoted (c : Cursor) : Prop :=
  ∀ token ∈ c.rest, token.kind = .stringLit → token.text = "\"" ++ unquote token.text ++ "\""

theorem meets_includeDirective {c : Cursor} (hquoted : Quoted c) :
    Meets includeDirective c fun file c' => c.Passes (includeWords file.value) c' := by
  refine .located (.expect fun hinclude _ => ?_)
  refine .take? (fun file rest hrest hkind => ?_) fun _ => .missing
  have hword : file.word = plain .stringLit ("\"" ++ unquote file.text ++ "\"") := by
    have hmem : file ∈ c.rest := by
      refine List.mem_of_mem_tail ?_
      rw [← rest_pass, hrest]
      exact List.mem_cons_self
    rw [Token.word_of_class (by rw [hkind]; rfl) (by simp [hkind]), hkind,
      ← hquoted file hmem hkind]
  have hfile : c.pass.Passes [plain .stringLit ("\"" ++ unquote file.text ++ "\"")]
      c.pass.pass := by
    rw [← hword]
    exact .token hrest (by simp [hkind, Kind.isSeparator]) (by simp [hkind]) (by simp [hkind])
      (by simp [hkind])
  have hpasses := (Passes.sign hinclude rfl).trans hfile
  refine .eat (fun hsemi => .pure fun _ => ?_) fun _ => .pure fun _ => hpasses
  simpa [includeWords] using hpasses.trans (.separator hsemi rfl)

theorem cleanly_includes {c : Cursor} (hquoted : Quoted c) :
    Cleanly includes ⟨c, log⟩ fun files c' =>
      c.Passes (files.flatMap fun file => includeWords file.value) c' := by
  refine .iterate (I := fun files c' =>
    c.Passes (files.flatMap fun file => includeWords file.value) c') (.refl c) ?_
  intro files c' hpasses
  refine .get (.halted ?_)
  dsimp only
  split
  · exact .pure hpasses
  · have hquoted' : Quoted c' := fun token hmem => hquoted token (hpasses.suffix.mem hmem)
    refine .caughtRead (meets_includeDirective hquoted') (fun file c₁ hfile => ?_)
      fun e c₁ => .report
    refine .pure ⟨?_, hfile.shorter (by simp [includeWords])⟩
    simpa using hpasses.trans hfile

/-- A program goes on to the end of the tokens. -/
theorem cleanly_program (hdeep : deep.Faithful) {c : Cursor} (hquoted : Quoted c) :
    Cleanly (program deep) ⟨c, log⟩ fun program c' =>
      c.Passes program.words c' ∧ program.Shaped ∧ c'.rest = [] := by
  refine .bind (cleanly_includes hquoted) fun files c₁ hfiles => ?_
  refine .bind (cleanly_items hdeep c₁) fun items c₂ ⟨⟨hitems, hall⟩, hend⟩ =>
    .pure ⟨?_, hall, hend⟩
  exact hfiles.trans hitems

/-! ## Reading a program does not fail -/

/-- A reader that does not fail. -/
class Total {α : Type} (read : Recover α) : Prop where
  total : ∀ run, ∃ a run', read run = .ok a run'

namespace Total

variable {α β : Type}

instance pure (a : α) : Total (Pure.pure a : Recover α) := ⟨fun run => ⟨a, run, rfl⟩⟩

instance get : Total (MonadState.get : Recover Run) := ⟨fun run => ⟨run, run, rfl⟩⟩

instance bind (read : Recover α) (next : α → Recover β) [h : Total read]
    [hnext : ∀ a, Total (next a)] : Total (read >>= next) where
  total run := by
    obtain ⟨a, middle, hread⟩ := h.total run
    obtain ⟨b, run', hok⟩ := (hnext a).total middle
    refine ⟨b, run', ?_⟩
    rw [bind_of_ok hread]
    exact hok

instance ite (p : Prop) [Decidable p] (yes no : Recover α) [hyes : Total yes] [hno : Total no] :
    Total (if p then yes else no) := by
  split
  · exact hyes
  · exact hno

instance attempt (read : Recover α) : Total (Recover.attempt read) where
  total run := by
    unfold Recover.attempt
    split
    · exact ⟨_, _, rfl⟩
    · exact ⟨_, _, rfl⟩

instance report (d : Diagnostic) : Total (Recover.report d) := ⟨fun _ => ⟨_, _, rfl⟩⟩

instance halted : Total Recover.halted := ⟨fun _ => ⟨_, _, rfl⟩⟩

instance spanFrom (start : Nat) : Total (monadLift (Read.spanFrom start) : Recover Span) :=
  ⟨fun _ => ⟨_, _, rfl⟩⟩

instance synchronize (scope : Scope) (stops : List Kind) :
    Total (Recover.synchronize scope stops) :=
  ⟨fun _ => ⟨_, _, rfl⟩⟩

instance advance : Total (monadLift Read.advance : Recover Unit) := ⟨fun _ => ⟨_, _, rfl⟩⟩

instance remaining : Total Recover.remaining := ⟨fun _ => ⟨_, _, rfl⟩⟩

instance skipDeclaration (scope : Scope) (start : Nat) : Total (skipDeclaration scope start) := by
  unfold Recover.skipDeclaration leave
  infer_instance

theorem iterateUpTo {step : α → Recover (ForInStep α)} (h : ∀ a, Total (step a)) (bound : Nat)
    (a : α) : Total (Lustre.iterateUpTo step bound a) := by
  induction bound generalizing a with
  | zero => exact pure a
  | succ bound ih =>
      refine @bind _ _ (step a) _ (h a) fun next => ?_
      cases next
      · exact pure _
      · exact ih _

/-- A loop does not fail if none of its steps does. -/
theorem iterate {step : α → Recover (ForInStep α)} {a : α} (h : ∀ a, Total (step a)) :
    Total (Recover.iterate a step) := by
  have hbounded := iterateUpTo h
  unfold Recover.iterate
  infer_instance

theorem after {read : Recover α} {next : α → Recover β} [Total read] (h : ∀ a, Total (next a)) :
    Total (read >>= next) :=
  bind read next

theorem choose {p : Prop} [Decidable p] {yes no : Recover α} (hyes : Total yes) (hno : Total no) :
    Total (if p then yes else no) :=
  ite p yes no

instance includes : Total includes := by
  refine iterate fun done => after fun run => after fun stopped => choose inferInstance ?_
  refine after fun result => ?_
  cases result <;> infer_instance

instance items (deep : Nested) : Total (items deep) := by
  refine iterate fun done => after fun run => after fun stopped => choose inferInstance ?_
  split
  · infer_instance
  · refine after fun result => ?_
    cases result <;> infer_instance

instance program (deep : Nested) : Total (program deep) := by
  unfold Recover.program
  infer_instance

end Total

end Recover

/-! ## The tokens of a text -/

/-- The run that reads a text. -/
def Run.reading (text : String) (options : ParseOptions) : Run :=
  (Run.ofText text (Lexed.ofText text)).withCap options.maxErrors

/-- What was read from a text is the answer of one run. -/
theorem parse_eq_run (text : String) (options : ParseOptions) :
    ∃ program run', Recover.program (.upTo maxNesting) (.reading text options) = .ok program run' ∧
      (parse text options).program = program ∧
      (parse text options).diagnostics = run'.log.entries := by
  obtain ⟨program, run', hread⟩ := (Recover.Total.program (.upTo maxNesting)).total
    (.reading text options)
  refine ⟨program, run', hread, ?_⟩
  rw [Run.reading] at hread
  simp [parse, Run.program, hread]

/-- From a text that is read without a diagnostic, the whole program was read. -/
theorem parse_spec {text : String} {options : ParseOptions}
    (h : (parse text options).diagnostics = []) :
    (parse text options).program.words = (normal (Lexed.ofText text).tokens).map Token.word ∧
      (parse text options).program.Shaped ∧
      ((Run.reading text options).program maxNesting).2.cursor.atEnd = true := by
  have hquoted : Recover.Quoted (.start (Lexed.ofText text).tokens text.utf8ByteSize) := by
    intro token hmem hkind
    obtain ⟨inside, htext, -⟩ := Lexed.quoted_of_mem_tokens hmem hkind
    rw [htext, Recover.unquote]
    simp [← String.toList_inj]
  obtain ⟨program, run', hread, hprogram, hdiagnostics⟩ := parse_eq_run text options
  rw [hdiagnostics] at h
  rw [hprogram]
  obtain ⟨hpasses, hshaped, hend⟩ :=
    Recover.cleanly_program (Nested.faithful_upTo maxNesting) hquoted
    rfl program run' hread h
  have hspelt := hpasses.spelt (by rw [hend]; exact settled_nil)
  have hlast : run'.cursor.words = [] := by rw [Cursor.words, hend]; rfl
  rw [hlast, List.append_nil] at hspelt
  refine ⟨hspelt.symm, hshaped, ?_⟩
  rw [Run.program, hread, Cursor.atEnd, hend]
  rfl

/-- Nothing is lost but separators: a program that is read without a diagnostic is flattened to the
tokens of its text in normal form. -/
theorem words_eq_normal_tokens (text : String) (options : ParseOptions)
    (h : (parse text options).diagnostics = []) :
    (parse text options).program.words =
      (normal (Lexed.ofText text).tokens).map Lexeme.ofToken := by
  rw [(parse_spec h).1]
  refine List.map_congr_left fun token hmem => ?_
  have hword := Lexed.describe_of_mem_tokens (mem_of_mem_normal hmem)
  rw [Token.word, Lexeme.ofToken, hword]

/-- The keyword of a named argument moves before its name, and the separators go. -/
theorem words_of_named_argument :
    (parse "package p = m(n = type int, 2);").diagnostics = [] ∧
      (parse "package p = m(n = type int, 2);").program.words =
        [sign .kwPackage, plain .ident "p", sign .eq, plain .ident "m", sign .lParen, sign .kwType,
          plain .ident "n", sign .eq, sign .kwInt, plain .intLit "2", sign .rParen] :=
  ⟨by decide +kernel,
    (words_eq_normal_tokens "package p = m(n = type int, 2);" {} (by decide +kernel)).trans
      (by decide +kernel)⟩

end Lustre
