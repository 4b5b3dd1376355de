import Lustre.Proofs.Tree.Writable

/-!
# Printed programs are cut into words

The text of a writable program is cut into the words that were printed for it, and in fused
text at least into words.  Three properties of chunks are carried through the forms of
declarations.  `Tidy` ones are those of expressions.  `Neat` ones may hold colons, so they
ask a little more of what goes before them.  `Sealed` ones end with a word or a gap that
nothing goes on with: lines and what stands in brackets.
-/

namespace Lustre

open Chunk

variable {fused : Bool}

/-! ## Expressions of a program -/

/-- What is asked of the parts of a text that is cut into words. -/
def lexical (fused full : Bool) : Standard where
  value expr := expr.IsSolid fused full ∧ (expr.runsIntoDot = true → expr.IsNumeral)
  type type := Solid fused false 0 (type.chunks full)
  arg arg := TidyArg fused arg.isOp (arg.chunks full)

variable {full : Bool}

/-- A field that is selected from a number or from anything else. -/
theorem solid_anyField {span : Span} {value : Expr} {field : Ident}
    (hvalue : (lexical fused full).value value) (hfits : (Expr.field span value field).Fits fused)
    (hfield : field.Printable) : (Expr.field span value field).IsSolid fused full := by
  cases hdot : value.runsIntoDot with
  | false => exact solid_field hvalue.1 hdot hfield
  | true =>
      cases fused with
      | false => exact absurd (hfits.symm.trans hdot) (by decide)
      | true =>
          refine solid_selected (hvalue.2 hdot) hfield ?_ full
          rintro span digits rfl
          exact hfits

/-- A type that is a keyword. -/
theorem solid_builtin {type : TypeExpr} {kind : Kind} (h : type.chunks full = [sign kind])
    (hspelt : kind.spelling?.isSome = true) (hkeyword : Kind.keywords.contains kind = true)
    (hfront : Fronted 0 [sign kind]) : (lexical fused full).type type := by
  have hcolon : kind ≠ .colon := by
    rintro rfl
    exact absurd hkeyword (by decide)
  have hpercent : kind ≠ .percent := by
    rintro rfl
    exact absurd hkeyword (by decide)
  show Solid fused false 0 (type.chunks full)
  rw [h]
  refine ⟨⟨fun later hlater hcalm => ?_, by simpa using hcolon.symm⟩, hfront, by simp⟩
  apply Apart.sign hspelt hpercent _ hlater
  apply hcalm.ident.mono
  intro d hd
  rwa [Kind.clingsTo, if_pos hkeyword] at hd

theorem inherited_lexical (fused full : Bool) : Inherited fused (Expr.Fits fused)
    (fun _ => (lexical fused full).value) (lexical fused full).type (lexical fused full).arg where
  callee := Expr.fits_of_isInst
  bool := ⟨solid_bool, fun h => by cases h⟩
  int h := by
    rcases h with hdigits | ⟨rfl, hdotted⟩
    · exact ⟨solid_int hdigits, fun _ => .inl hdigits⟩
    · exact ⟨solid_dotted hdotted full, fun _ => .inr hdotted⟩
  real h := ⟨solid_real h, fun _ => h⟩
  name href := ⟨href.solid _, fun h => by cases h⟩
  inst hnode hargs := ⟨solid_inst hnode hargs, fun h => by cases h⟩
  tuple hitems := ⟨solid_operands (fun item hitem => (hitems item hitem).1) _ _,
    fun h => by cases h⟩
  array hitems := ⟨solid_array fun item hitem => (hitems item hitem).1, fun h => by cases h⟩
  record htype hbase hnames hvalues :=
    ⟨solid_record htype hbase hnames fun init hinit => (hvalues init hinit).1, fun h => by cases h⟩
  -- a dot goes on with a number, so this is where the condition is needed
  field hvalue hfits hfield := ⟨solid_anyField hvalue hfits hfield, fun h => by cases h⟩
  index hvalue hindex := ⟨solid_index hvalue.1 hindex.1, fun h => by cases h⟩
  slice hvalue hfirst hlast hstep :=
    ⟨solid_slice hvalue.1 hfirst.1 hlast.1 fun width hwidth => (hstep width hwidth).1,
      fun h => by cases h⟩
  call hcallee hargs := ⟨solid_call hcallee.1 fun arg harg => (hargs arg harg).1,
    fun h => by cases h⟩
  cond hcondition hyes hno := ⟨solid_cond hcondition.1 hyes.1 hno.1, fun h => by cases h⟩
  merge hclock _ hpatterns hvalues :=
    ⟨solid_merge hclock hpatterns fun arm harm => (hvalues arm harm).1, fun h => by cases h⟩
  sampled hvalue hclock := ⟨solid_sampled hvalue.1 hclock, fun h => by cases h⟩
  unary hoperand := ⟨solid_unary hoperand.1, fun h => by cases h⟩
  binary hlhs hrhs := ⟨solid_binary hlhs.1 hrhs.1, fun h => by cases h⟩
  list hoperands := ⟨solid_list fun item hitem => (hoperands item hitem).1, fun h => by cases h⟩
  boolType := solid_builtin rfl rfl rfl (.of_head rfl rfl (by decide))
  intType := solid_builtin rfl rfl rfl (.of_head rfl rfl (by decide))
  realType := solid_builtin rfl rfl rfl (.of_head rfl rfl (by decide))
  namedType href := ⟨(href.solid 0).toTidy.weaken, href.front 0, Reference.kinds_chunks_ne_nil _⟩
  table helement hlength :=
    ⟨tidy_table helement.toTidy hlength.1, (helement.front.append _), by simp [TypeExpr.chunks]⟩
  nameArg href := (href.solid 0).toTidy.weaken.arg _
  typeArg _ htype := (tidy_explicit htype.toTidy rfl (by decide)).arg _
  constArg _ hvalue := (tidy_explicit hvalue.1.expr rfl (by decide)).arg _
  nodeArg _ hnode hargs := tidyArg_node hnode hargs
  opArg := tidyArg_op _

/-! ## Chunks with colons -/

/-- Chunks that keep their words apart in front of whatever is calm. -/
def Neat (fused : Bool) (chunks : List Chunk) : Prop :=
  ∀ later, Apart fused later → Calm false later → Apart fused (chunks ++ later)

/-- Chunks that end with a name and keep their words apart in front of what does not go on with
it. -/
def Named (fused : Bool) (chunks : List Chunk) : Prop :=
  ∀ later, Apart fused later → StopsAt isIdentRest (chars later) → Apart fused (chunks ++ later)

/-- Chunks that keep their words apart in front of anything. -/
def Sealed (fused : Bool) (chunks : List Chunk) : Prop :=
  ∀ later, Apart fused later → Apart fused (chunks ++ later)

theorem Tidy.neat {dotted : Bool} {chunks : List Chunk} (h : Tidy fused dotted chunks) :
    Neat fused chunks :=
  fun later hlater hcalm => h.apart later hlater hcalm.dot

theorem Named.neat {chunks : List Chunk} (h : Named fused chunks) : Neat fused chunks :=
  fun later hlater hcalm => h later hlater hcalm.ident

theorem Calm.semi {dotted : Bool} {later : List Chunk} : Calm dotted (sign .semi :: later) :=
  .of_head rfl rfl (by simp)

theorem Apart.newline {chunks : List Chunk} (later : Apart fused chunks) :
    Apart fused (newline :: chunks) :=
  .gap rfl later

namespace Neat

variable {chunks more : List Chunk}

/-- A keyword or a symbol with a blank behind it. -/
theorem lead (h : Neat fused chunks) {kind : Kind} (hspelt : kind.spelling?.isSome = true)
    (hkind : kind ≠ .percent) : Neat fused (sign kind :: blank :: chunks) :=
  fun later hlater hcalm => .spaced hspelt hkind (h later hlater hcalm)

/-- A keyword or a symbol between blanks. -/
theorem spaced (h : Neat fused chunks) (hmore : Neat fused more) {kind : Kind}
    (hspelt : kind.spelling?.isSome = true) (hkind : kind ≠ .percent ∧ kind ≠ .colon) :
    Neat fused (chunks ++ ([blank, sign kind, blank] ++ more)) := by
  intro later hlater hcalm
  rw [List.append_assoc]
  apply h _ _ (.blank (by simpa using hkind.2))
  exact (hmore.lead hspelt hkind.1 later hlater hcalm).blank

/-- Parts with semicolons between. -/
theorem separate {parts : List (List Chunk)} (h : ∀ part ∈ parts, Neat fused part) :
    Neat fused (Chunk.separate .semi parts) := by
  induction parts with
  | nil => exact fun later hlater _ => hlater
  | cons part parts ih =>
      have hparts := ih fun other hother => h other (List.mem_cons_of_mem _ hother)
      cases parts with
      | nil => exact h part List.mem_cons_self
      | cons next parts =>
          intro later hlater hcalm
          rw [separate_cons_cons, List.append_assoc]
          exact h part List.mem_cons_self _ (.loose rfl (hparts later hlater hcalm).blank) .semi

/-- A line that ends with a semicolon. -/
theorem ended (h : Neat fused chunks) : Sealed fused (Chunk.line (chunks ++ [sign .semi])) := by
  intro later hlater
  rw [Chunk.line, List.append_assoc, List.append_assoc]
  exact h _ (.loose rfl hlater.newline) .semi

/-- An indented line that ends with a semicolon. -/
theorem entry (h : Neat fused chunks) : Sealed fused (Chunk.entry chunks) := by
  intro later hlater
  rw [Chunk.entry, List.cons_append, List.cons_append, List.append_assoc]
  exact .gap rfl (h _ (.loose rfl hlater.newline) .semi)

end Neat

namespace Named

variable {chunks more : List Chunk}

theorem lead (h : Named fused chunks) {kind : Kind} (hspelt : kind.spelling?.isSome = true)
    (hkind : kind ≠ .percent) : Named fused (sign kind :: blank :: chunks) :=
  fun later hlater hstop => .spaced hspelt hkind (h later hlater hstop)

/-- What is sealed asks nothing of what follows. -/
theorem append (h : Named fused chunks) (hmore : Sealed fused more)
    (hstop : ∀ later, StopsAt isIdentRest (chars (more ++ later))) :
    Sealed fused (chunks ++ more) := by
  intro later hlater
  rw [List.append_assoc]
  exact h _ (hmore later hlater) (hstop later)

/-- A line that ends with a name. -/
theorem line (h : Named fused chunks) : Sealed fused (Chunk.line chunks) := by
  intro later hlater
  rw [Chunk.line, List.append_assoc]
  exact h _ hlater.newline (.of_head rfl rfl)

end Named

namespace Sealed

variable {chunks more : List Chunk}

theorem nil : Sealed fused [] := fun _ hlater => hlater

theorem neat (h : Sealed fused chunks) : Neat fused chunks := fun later hlater _ => h later hlater

theorem lead (h : Sealed fused chunks) {kind : Kind} (hspelt : kind.spelling?.isSome = true)
    (hkind : kind ≠ .percent) : Sealed fused (sign kind :: blank :: chunks) :=
  fun later hlater => .spaced hspelt hkind (h later hlater)

theorem blank (h : Sealed fused chunks) : Sealed fused (blank :: chunks) :=
  fun later hlater => (h later hlater).blank

/-- A line of its own. -/
theorem line (h : Sealed fused chunks) : Sealed fused (Chunk.line chunks) := by
  intro later hlater
  rw [Chunk.line, List.append_assoc]
  exact h _ hlater.newline

theorem append (h : Sealed fused chunks) (hmore : Sealed fused more) :
    Sealed fused (chunks ++ more) := by
  intro later hlater
  rw [List.append_assoc]
  exact h _ (hmore later hlater)

theorem newline (h : Sealed fused chunks) : Sealed fused (newline :: chunks) :=
  fun later hlater => (h later hlater).newline

theorem flatMap {α : Type} {print : α → List Chunk} {items : List α}
    (h : ∀ item ∈ items, Sealed fused (print item)) : Sealed fused (items.flatMap print) := by
  induction items with
  | nil => exact nil
  | cons item items ih =>
      rw [List.flatMap_cons]
      exact (h item List.mem_cons_self).append
        (ih fun other hother => h other (List.mem_cons_of_mem _ hother))

/-- A keyword on a line of its own. -/
theorem keyword {kind : Kind} (hspelt : kind.spelling?.isSome = true) (hkind : kind ≠ .percent)
    (hstop : kind.clingsTo '\n' = false) : Sealed fused (Chunk.line [sign kind]) :=
  fun _ hlater => .sign hspelt hkind (.of_head rfl hstop) hlater.newline

end Sealed

/-! ## Names and types -/

theorem Ident.Printable.named {ident : Ident} (h : ident.Printable) : Named fused ident.chunks :=
  fun _ hlater hstop => h.apart hlater hstop

theorem named_names {names : List Ident} (h : ∀ name ∈ names, name.Printable) :
    Named fused (identChunks names) := by
  intro later hlater hstop
  induction names with
  | nil => exact hlater
  | cons name names ih =>
      have hname := h name List.mem_cons_self
      have hnames := ih fun other hother => h other (List.mem_cons_of_mem _ hother)
      cases names with
      | nil => exact hname.apart hlater hstop
      | cons next names =>
          rw [identChunks, List.map_cons, List.map_cons, separate_cons_cons, List.append_assoc]
          exact hname.apart (.loose rfl hnames.blank) (.of_head rfl rfl)

theorem front_names {names : List Ident} (h : NamesPrintable names) (later : List Chunk) :
    Fronted 0 (identChunks names ++ later) := by
  obtain ⟨hne, hnames⟩ := h
  obtain ⟨name, names, rfl⟩ := List.exists_cons_of_ne_nil hne
  have hfront := (hnames name List.mem_cons_self).front 0
  cases names with
  | nil => exact hfront.append later
  | cons next names =>
      rw [identChunks, List.map_cons, List.map_cons, separate_cons_cons, List.append_assoc]
      exact hfront.append _

/-- A type after a colon. -/
theorem neat_typing {type : TypeExpr} (h : (lexical fused false).type type) :
    Neat fused (typing type) :=
  h.toTidy.neat.lead rfl (by decide)

theorem Named.typing {chunks : List Chunk} (h : Named fused chunks) {type : TypeExpr}
    (htype : (lexical fused false).type type) : Neat fused (chunks ++ Lustre.typing type) := by
  intro later hlater hcalm
  rw [List.append_assoc]
  exact h _ (neat_typing htype later hlater hcalm) (.of_head rfl rfl)

theorem neat_assignment {chunks more : List Chunk} (h : Neat fused chunks)
    (hmore : Neat fused more) : Neat fused (chunks ++ assignment more) :=
  h.spaced hmore rfl (by decide)

theorem neat_value {expr : Expr} (h : (lexical fused false).value expr) :
    Neat fused (expr.chunks false 0) :=
  h.1.expr.neat

theorem neat_optionalValue {chunks : List Chunk} (h : Neat fused chunks) {value : Option Expr}
    (hvalue : ∀ init, value = some init → (lexical fused false).value init) :
    Neat fused (chunks ++ optionalValue value) := by
  cases value with
  | none => rwa [optionalValue, List.append_nil]
  | some init => exact neat_assignment h (neat_value (hvalue init rfl))

/-! ## Variables, constants and types -/

/-- Parts between parentheses, which begin like expressions. -/
theorem sealed_parens {chunks : List Chunk} (h : Neat fused chunks)
    (hfront : chunks = [] ∨ Fronted 0 chunks) : Sealed fused (between .lParen .rParen chunks) := by
  intro later hlater
  simp only [between, List.cons_append, List.append_assoc, List.nil_append]
  apply Apart.sign rfl (by decide) _ (h _ (.loose rfl hlater) (.of_head rfl rfl (by simp)))
  rcases hfront with rfl | hfront
  · exact .of_head rfl rfl
  · exact hfront.stopsAt_lParen _

theorem front_separate {kind : Kind} {parts : List (List Chunk)}
    (h : ∀ part ∈ parts, Fronted 0 part) :
    separate kind parts = [] ∨ Fronted 0 (separate kind parts) := by
  match parts with
  | [] => exact .inl rfl
  | [part] => exact .inr (h part List.mem_cons_self)
  | part :: next :: parts => exact .inr ((h part List.mem_cons_self).append _)

theorem TypedNames.Writable.neat {group : TypedNames} (h : group.Writable (lexical fused false)) :
    Neat fused group.chunks :=
  (named_names h.1.2).typing h.2

theorem TypedNames.Writable.front {s : Standard} {group : TypedNames} (h : group.Writable s) :
    Fronted 0 group.chunks :=
  front_names h.1 _

namespace VarDecl

/-- The groups of a declaration of variables as they are printed. -/
def groupChunks (decl : VarDecl) : List Chunk :=
  let groups := separate .semi (decl.groups.map TypedNames.chunks)
  if decl.parenthesized then between .lParen .rParen groups else groups

/-- The clock of a declaration of variables as it is printed. -/
def clockChunks (clock : Option (Located Clock)) : List Chunk :=
  match clock with
  | some clock => [blank, sign .kwWhen, blank] ++ clock.value.chunks
  | none => []

theorem chunks_eq (decl : VarDecl) : decl.chunks = decl.groupChunks ++ clockChunks decl.clock := rfl

namespace Writable

variable {decl : VarDecl}

theorem front {s : Standard} (h : decl.Writable s) : Fronted 0 decl.chunks := by
  rw [chunks_eq, groupChunks]
  obtain ⟨group, groups, hgroups⟩ := List.exists_cons_of_ne_nil h.nonempty
  have hgroup := (h.groups group (hgroups ▸ List.mem_cons_self)).front
  split
  · exact .of_head rfl rfl (by decide)
  · rw [hgroups, List.map_cons, separate_cons, List.append_assoc]
    exact hgroup.append _

theorem neat (h : decl.Writable (lexical fused false)) : Neat fused decl.chunks := by
  have hseparate : Neat fused (separate .semi (decl.groups.map TypedNames.chunks)) := by
    apply Neat.separate
    intro part hpart
    obtain ⟨group, hmem, rfl⟩ := List.mem_map.mp hpart
    exact (h.groups group hmem).neat
  have hgroups : Neat fused decl.groupChunks := by
    unfold groupChunks
    split
    · apply Sealed.neat
      apply sealed_parens hseparate
      apply front_separate
      intro part hpart
      obtain ⟨group, hmem, rfl⟩ := List.mem_map.mp hpart
      exact (h.groups group hmem).front
    · exact hseparate
  rw [chunks_eq]
  cases hclock : decl.clock with
  | none => rwa [clockChunks, List.append_nil]
  | some clock =>
      have htidy : Tidy fused true clock.value.chunks := (h.clock clock hclock).tidy
      exact hgroups.spaced htidy.neat rfl (by decide)

end Writable

end VarDecl

namespace Profile

theorem sealed_params {params : List (Located VarDecl)}
    (h : ∀ param ∈ params, param.value.Writable (lexical fused false)) :
    Sealed fused (Profile.params params) := by
  apply sealed_parens
  · apply Neat.separate
    intro part hpart
    obtain ⟨param, hmem, rfl⟩ := List.mem_map.mp hpart
    exact (h param hmem).neat
  · apply front_separate
    intro part hpart
    obtain ⟨param, hmem, rfl⟩ := List.mem_map.mp hpart
    exact (h param hmem).front

theorem Writable.sealed {profile : Profile} (h : profile.Writable (lexical fused false)) :
    Sealed fused profile.chunks := by
  have houtputs := (sealed_params h.outputs).lead (rfl : Kind.kwReturns.spelling?.isSome = true)
    (by decide)
  rw [Profile.chunks, List.append_assoc]
  exact (sealed_params h.inputs).append houtputs.blank

end Profile

theorem ConstDef.Writable.neat {decl : ConstDef} (h : decl.Writable (lexical fused false)) :
    Neat fused decl.chunks := by
  cases decl with
  | typed names type => exact (named_names h.1.2).typing h.2
  | typedValue name type init => exact neat_assignment (h.1.named.typing h.2.1) (neat_value h.2.2)
  | value name init => exact neat_assignment h.1.named.neat (neat_value h.2)

theorem FieldDecl.Writable.neat {decl : FieldDecl} (h : decl.Writable (lexical fused false)) :
    Neat fused decl.chunks :=
  neat_optionalValue ((named_names h.names.2).typing h.type) fun init hinit =>
    (h.default init hinit).1

/-- The end of a list in braces. -/
theorem sealed_closing : Sealed fused [blank, sign .rBrace] :=
  fun _ hlater => (Apart.loose rfl hlater).blank

theorem TypeBody.Writable.neat {body : TypeBody} (h : body.Writable (lexical fused false)) :
    Neat fused body.chunks := by
  cases body with
  | synonym type => exact h.toTidy.neat
  | enumeration names =>
      have hnames : Sealed fused (identChunks names ++ [blank, sign .rBrace]) :=
        (named_names h.2).append sealed_closing fun later => .of_head rfl rfl
      have hbraces := hnames.lead (rfl : Kind.lBrace.spelling?.isSome = true) (by decide)
      have hwhole := hbraces.lead (rfl : Kind.kwEnum.spelling?.isSome = true) (by decide)
      simpa [chunks] using hwhole.neat
  | record keyword fields =>
      have hfields : Neat fused (separate .semi (fields.map fun decl => decl.value.chunks)) := by
        apply Neat.separate
        intro part hpart
        obtain ⟨decl, hmem, rfl⟩ := List.mem_map.mp hpart
        exact (h decl hmem).neat
      have hclosed : Sealed fused (separate .semi (fields.map fun decl => decl.value.chunks) ++
          [blank, sign .rBrace]) := by
        intro later hlater
        rw [List.append_assoc]
        exact hfields _ (sealed_closing later hlater) (.blank (by simp))
      have hbraces := hclosed.lead (rfl : Kind.lBrace.spelling?.isSome = true) (by decide)
      cases keyword with
      | true =>
          have hwhole := hbraces.lead (rfl : Kind.kwStruct.spelling?.isSome = true) (by decide)
          simpa [chunks] using hwhole.neat
      | false => simpa [chunks] using hbraces.neat

theorem TypeDef.Writable.neat {entry : TypeDef} (h : entry.Writable (lexical fused false)) :
    Neat fused entry.chunks := by
  obtain ⟨name, body⟩ := entry
  cases body with
  | none => exact h.name.named.neat
  | some body => exact neat_assignment h.name.named.neat (h.body body rfl).neat

/-! ## Nodes -/

theorem NodeHead.named {head : NodeHead} (h : head.name.Printable) {keyword : List Chunk}
    (hkeyword : keyword = [] ∨ keyword = [sign .kwExtern, blank]) :
    Named fused (head.chunks keyword) := by
  have hname : Named fused ([sign head.kind.symbol, blank] ++ head.name.chunks) :=
    h.named.lead (by cases head.kind <;> rfl) (by cases head.kind <;> decide)
  have hkind : Named fused (keyword ++ ([sign head.kind.symbol, blank] ++ head.name.chunks)) := by
    rcases hkeyword with rfl | rfl
    · exact hname
    · exact hname.lead rfl (by decide)
  rw [chunks, List.append_assoc, List.append_assoc, unsafeSign]
  split
  · exact hkind.lead rfl (by decide)
  · exact hkind

namespace StaticParam

theorem Writable.neat {param : StaticParam} (h : param.Writable (lexical fused false)) :
    Neat fused param.chunks := by
  cases param with
  | type name => exact (Ident.Printable.named h).neat.lead rfl (by decide)
  | const name range => exact (h.1.named.typing h.2).lead rfl (by decide)
  | node head profile =>
      exact ((NodeHead.named h.1 (.inl rfl)).append h.2.sealed fun later => .of_head rfl rfl).neat

theorem ListWritable.sealed {params : Option (List (Located StaticParam))}
    (h : ListWritable (lexical fused false) params) : Sealed fused (list params) := by
  cases params with
  | none => exact .nil
  | some params =>
      have hparams : Neat fused (separate .semi (params.map fun param => param.value.chunks)) := by
        apply Neat.separate
        intro part hpart
        obtain ⟨param, hmem, rfl⟩ := List.mem_map.mp hpart
        exact (h params rfl param hmem).neat
      intro later hlater
      simp only [list, between, List.cons_append, List.append_assoc, List.nil_append]
      exact .loose rfl (hparams _ (.loose rfl hlater) (.of_head rfl rfl (by simp)))

end StaticParam

namespace LeftExpr

/-- A left-hand side keeps its words apart like an expression. -/
theorem Writable.tidy : ∀ {left : LeftExpr}, left.Writable (lexical fused false) →
    Tidy fused true left.chunks
  | .name _, h => Ident.Printable.tidy h
  | .field _ _ _, h => h.1.tidy.append (tidy_selection h.2) fun _ _ => .of_dot rfl (by simp)
  | .index _ _ _, h =>
      h.1.tidy.append h.2.1.expr.brackets fun _ _ => .of_head rfl rfl (by simp [between])
  | .slice _ _ first last step, h => by
      have hrange : Tidy fused false (first.chunks false 0 ++ [blank, sign .dotDot, blank] ++
          last.chunks false 0) := by
        rw [List.append_assoc]
        exact h.2.1.1.expr.spaced h.2.2.1.1.expr .dotDot rfl (by decide)
      have hinside := tidy_step hrange fun width hwidth => (h.2.2.2 width hwidth).1
      exact h.1.tidy.append hinside.brackets fun _ _ => .of_head rfl rfl (by simp [between])

theorem Writable.front {s : Standard} : ∀ {left : LeftExpr}, left.Writable s → Fronted 0 left.chunks
  | .name _, h => Ident.Printable.front h 0
  | .field _ _ _, h => h.1.front.append _
  | .index _ _ _, h => h.1.front.append _
  | .slice _ _ _ _ _, h => h.1.front.append _

end LeftExpr

theorem LeftList.Writable.neat {lhs : LeftList} (h : lhs.Writable (lexical fused false)) :
    Neat fused lhs.chunks := by
  have hitems : Tidy fused false (separate .comma (lhs.items.map LeftExpr.chunks)) := by
    apply Tidy.separate (.inl rfl)
    intro part hpart
    obtain ⟨item, hmem, rfl⟩ := List.mem_map.mp hpart
    exact (h.2 item hmem).tidy.weaken
  unfold chunks
  split
  · apply Sealed.neat
    apply sealed_parens hitems.neat
    apply front_separate
    intro part hpart
    obtain ⟨item, hmem, rfl⟩ := List.mem_map.mp hpart
    exact (h.2 item hmem).front
  · exact hitems.neat

theorem Equation.Writable.sealed
    {equation : Equation} (h : equation.Writable (lexical fused false)) :
    Sealed fused equation.chunks := by
  cases equation with
  | assertion condition => exact ((neat_value h).lead rfl (by decide)).entry
  | define lhs rhs => exact (neat_assignment h.1.neat (neat_value h.2)).entry
  | error => exact h.elim

theorem LocalBlock.Writable.sealed {block : LocalBlock} (h : block.Writable (lexical fused false)) :
    Sealed fused block.chunks := by
  cases block with
  | vars decls =>
      exact (Sealed.keyword rfl (by decide) rfl).append
        (.flatMap fun decl hmem => (h.2 decl hmem).neat.entry)
  | consts decls =>
      exact (Sealed.keyword rfl (by decide) rfl).append
        (.flatMap fun decl hmem => (h.2 decl hmem).neat.entry)

theorem NodeDefinition.Writable.sealed
    {own : NodeDefinition} (h : own.Writable (lexical fused false)) :
    Sealed fused own.chunks :=
  ((Sealed.flatMap fun block hmem => (h.locals block hmem).sealed).append
    (.keyword rfl (by decide) rfl)).append
      (.flatMap fun equation hmem => (h.equations equation hmem).sealed) |>.append
        (.keyword rfl (by decide) rfl)

theorem NodeBody.Writable.sealed {body : NodeBody} {profile : Option Profile}
    (h : body.Writable (lexical fused false) profile) : Sealed fused body.chunks := by
  cases body with
  | definition own => exact (Sealed.keyword rfl (by decide) rfl).append h.2.sealed
  | synonym target =>
      have htarget : Tidy fused true target.chunks := tidy_node h.1 h.2
      have hline := (htarget.neat.lead (rfl : Kind.eq.spelling?.isSome = true) (by decide)).ended
      exact hline.blank
  | missing => exact h.elim

theorem NodeBody.Writable.head {body : NodeBody} {s : Standard} {profile : Option Profile}
    (h : body.Writable s profile) (later : List Chunk) :
    StopsAt isIdentRest (chars (body.chunks ++ later)) := by
  cases body with
  | definition own => exact .of_head rfl rfl
  | synonym target => exact .of_head rfl rfl
  | missing => exact h.elim

theorem NodeDecl.Writable.sealed {decl : NodeDecl} (h : decl.Writable (lexical fused false)) :
    Sealed fused decl.chunks := by
  obtain ⟨head, params, profile, body⟩ := decl
  have hhead : Named fused (head.chunks []) := NodeHead.named h.name (.inl rfl)
  have hbody : Sealed fused body.chunks := h.body.sealed
  have hparams : Sealed fused (StaticParam.list params) := h.params.sealed
  simp only [chunks, List.append_assoc]
  cases profile with
  | none =>
      apply hhead.append (hparams.append hbody)
      intro later
      cases params with
      | none => exact h.body.head later
      | some params => exact .of_head rfl rfl
  | some profile =>
      apply hhead.append (hparams.append ((h.profile profile rfl).sealed.append hbody))
      intro later
      cases params with
      | none => exact .of_head rfl rfl
      | some params => exact .of_head rfl rfl

theorem ExternalNode.Writable.sealed
    {node : ExternalNode} (h : node.Writable (lexical fused false)) :
    Sealed fused node.chunks :=
  ((NodeHead.named h.name (.inr rfl)).append h.profile.sealed
    fun _ => .of_head rfl rfl).neat.ended

/-! ## Declarations -/

theorem sealed_block {kind : Kind} {entries : List (List Chunk)}
    (hspelt : kind.spelling?.isSome = true) (hkind : kind ≠ .percent)
    (hstop : kind.clingsTo '\n' = false) (h : ∀ entry ∈ entries, Neat fused entry) :
    Sealed fused (block kind entries) := by
  unfold block
  split
  · exact ((h _ List.mem_cons_self).lead hspelt hkind).ended
  · apply (Sealed.keyword hspelt hkind hstop).append
    exact .flatMap fun entry hmem => (h entry hmem).entry

theorem Declaration.Writable.sealed {decl : Declaration} (h : decl.Writable (lexical fused false)) :
    Sealed fused decl.chunks := by
  cases decl with
  | node decl => exact NodeDecl.Writable.sealed h
  | types defs =>
      apply sealed_block rfl (by decide) rfl
      intro part hpart
      obtain ⟨entry, hmem, rfl⟩ := List.mem_map.mp hpart
      exact (h.2 entry hmem).neat
  | consts defs =>
      apply sealed_block rfl (by decide) rfl
      intro part hpart
      obtain ⟨entry, hmem, rfl⟩ := List.mem_map.mp hpart
      exact (h.2 entry hmem).neat
  | external decl => exact ExternalNode.Writable.sealed h
  | error => exact h.elim

theorem sealed_body {decls : List (Located Declaration)}
    (h : ∀ decl ∈ decls, decl.value.Writable (lexical fused false)) :
    Sealed fused (bodyLines decls) := by
  have hdecls : Sealed fused (bodyChunks decls) := by
    cases decls with
    | nil => exact .nil
    | cons first rest =>
        apply (h first List.mem_cons_self).sealed.append
        apply Sealed.flatMap
        intro decl hmem
        exact (h decl (List.mem_cons_of_mem _ (List.mem_filter.mp hmem).1)).sealed.newline
  exact ((Sealed.keyword rfl (by decide) rfl).append hdecls).append (.keyword rfl (by decide) rfl)

/-! ## Packages and models -/

theorem Provide.Writable.neat {provide : Provide} (h : provide.Writable (lexical fused false)) :
    Neat fused provide.chunks := by
  cases provide with
  | const name range value =>
      have htyped := (h.1.named.typing h.2.1).lead (rfl : Kind.kwConst.spelling?.isSome = true)
        (by decide)
      exact neat_optionalValue htyped h.2.2
  | node head params profile =>
      have hrest : Sealed fused (StaticParam.list params ++ profile.chunks) :=
        h.2.1.sealed.append h.2.2.sealed
      rw [chunks, List.append_assoc]
      refine ((NodeHead.named h.1 (.inl rfl)).append hrest fun later => ?_).neat
      cases params <;> exact .of_head rfl rfl
  | type entry => exact (TypeDef.Writable.neat h).lead rfl (by decide)

theorem sealed_provides {provides : Option (List (Located Provide))}
    (h : Provide.ListWritable (lexical fused false) provides) :
    Sealed fused (providesChunks provides) := by
  cases provides with
  | none => exact .nil
  | some provides =>
      apply (Sealed.keyword rfl (by decide) rfl).append
      exact .flatMap fun provide hmem => ((h provides rfl).2 provide hmem).neat.entry

theorem sealed_uses {names : List Ident} (h : ∀ name ∈ names, name.Printable) :
    Sealed fused (usesChunks names) := by
  cases names with
  | nil => exact .nil
  | cons name names => exact ((named_names h).neat.lead rfl (by decide)).ended

namespace StaticArg.Writable

theorem tidy {arg : StaticArg} (h : arg.Writable (lexical fused false)) :
    TidyArg fused arg.isOp (arg.chunks false) := by
  cases arg with
  | name _ ref => exact (Reference.Printable.solid h 0).toTidy.weaken.arg _
  | type _ type _ => exact (tidy_explicit h.2.toTidy rfl (by decide)).arg _
  | const _ value _ => exact (tidy_explicit h.2.1.expr rfl (by decide)).arg _
  | node _ keyword _ node args => exact tidyArg_node h.2.1 h.2.2
  | op _ op => exact tidyArg_op op

/-- An argument begins like an expression, if it is no operator. -/
theorem front {arg : StaticArg} (h : arg.Writable (lexical fused false)) (hop : arg.isOp = false) :
    Fronted 0 (arg.chunks false) := by
  cases arg with
  | name _ ref => exact Reference.Printable.front h 0
  | type _ type explicit =>
      cases explicit with
      | true => exact .of_head rfl rfl (by decide)
      | false => exact h.2.front
  | const _ value explicit =>
      cases explicit with
      | true => exact .of_head rfl rfl (by decide)
      | false => exact (h.2.1.enclose 0 (by decide)).front
  | node _ keyword _ node args =>
      cases keyword with
      | none => exact (h.2.1.front 0).append _
      | some kind => cases kind <;> exact .of_head rfl rfl (by decide)
  | op => cases hop

end StaticArg.Writable

namespace NamedArg

/-- An argument behind its name. -/
theorem tidy_assigned {name : Ident} (hname : name.Printable) {op : Bool} {chunks : List Chunk}
    (h : TidyArg fused op chunks) : TidyArg fused op (name.chunks ++ assignment chunks) := by
  constructor
  · intro later hlater hcalm hop
    rw [List.append_assoc]
    apply hname.apart _ (.of_head rfl rfl)
    exact (Apart.spaced rfl (by decide) (h.apart later hlater hcalm hop)).blank
  · have hcolon : .colon ∉ kinds name.chunks := by
      simpa [Ident.chunks_eq] using no_colon_in_pragmas name.pragmas
    simpa [assignment] using ⟨hcolon, h.colon⟩

theorem Writable.tidy {named : NamedArg} (h : named.Writable (lexical fused false)) :
    TidyArg fused named.arg.isOp named.chunks := by
  obtain ⟨name, arg⟩ := named
  cases name with
  | none => exact h.arg.tidy
  | some name =>
      have hname : name.Printable := h.name name rfl
      have hplain := tidy_assigned hname h.arg.tidy
      have hkeyword : ∀ {kind : Kind} {chunks : List Chunk}, Tidy fused false chunks →
          kind.spelling?.isSome = true → kind ≠ .percent ∧ kind ≠ .colon →
          Tidy fused false ([sign kind, blank] ++ name.chunks ++ assignment chunks) := by
        intro kind chunks htidy hspelt hkind
        exact (hname.tidy.spaced htidy .eq rfl (by decide)).lead kind hspelt hkind
      cases arg with
      | name | op => exact hplain
      | type _ type explicit =>
          cases explicit with
          | false => exact hplain
          | true => exact (hkeyword h.arg.2.toTidy rfl (by decide)).arg _
      | const _ value explicit =>
          cases explicit with
          | false => exact hplain
          | true => exact (hkeyword h.arg.2.1.expr rfl (by decide)).arg _
      | node _ keyword _ node args =>
          cases keyword with
          | none => exact hplain
          | some kind =>
              refine (hkeyword (tidy_node h.arg.2.1 h.arg.2.2).weaken ?_ ?_).arg _
              · cases kind <;> rfl
              · cases kind <;> decide

/-- Nothing that an argument begins with opens a comment behind a parenthesis, if it is not the
operator `*` alone. -/
theorem Writable.stopsAt_lParen {named : NamedArg} (h : named.Writable (lexical fused false))
    (hstar : ∀ span, named.arg = .op span .star → named.name.isSome = true) (later : List Chunk) :
    StopsAt (Kind.clingsTo .lParen) (chars (named.chunks ++ later)) := by
  obtain ⟨name, arg⟩ := named
  cases name with
  | none =>
      cases arg with
      | op span op =>
          cases op with
          | star => exact absurd (hstar span rfl) Bool.false_ne_true
          | _ => exact .of_head rfl rfl
      | _ => exact (h.arg.front rfl).stopsAt_lParen later
  | some name =>
      have hname := (h.name name rfl).front 0
      have hplain := (hname.append (assignment (arg.chunks false))).stopsAt_lParen later
      cases arg with
      | name | op => exact hplain
      | type _ type explicit =>
          cases explicit with
          | false => exact hplain
          | true => exact .of_head rfl rfl
      | const _ value explicit =>
          cases explicit with
          | false => exact hplain
          | true => exact .of_head rfl rfl
      | node _ keyword _ node args =>
          cases keyword with
          | none => exact hplain
          | some kind => cases kind <;> exact .of_head rfl rfl

theorem list_angle (args : List (Located NamedArg)) : NamedArg.list .angle args =
    sign .ltLt :: separate .comma (args.map fun arg => arg.value.chunks) ++
      closingAngle (args.getLast?.any fun arg => arg.value.arg.isOp) := rfl

/-- The arguments for a model, which do not open a comment. -/
theorem sealed_list {brackets : Brackets} {args : List (Located NamedArg)}
    (h : ∀ arg ∈ args, arg.value.Writable (lexical fused false))
    {linking : InstanceWord} {model : Ident}
    (hcomment : (PackageBody.instantiated linking model brackets args).opensComment = false) :
    Sealed fused (NamedArg.list brackets args) := by
  have hargs : ∀ arg ∈ args, TidyArg fused arg.value.arg.isOp arg.value.chunks :=
    fun arg hmem => (h arg hmem).tidy
  intro later hlater
  cases brackets with
  | angle =>
      obtain ⟨hclosing, hcalm, hop⟩ :=
        apart_closingAngle hlater (args.getLast?.any fun arg => arg.value.arg.isOp)
      rw [list_angle, List.append_assoc, List.cons_append]
      exact .loose rfl (apart_args hargs hclosing hcalm hop)
  | paren =>
      have hclosing : Apart fused (sign .rParen :: later) := .loose rfl hlater
      have hinside := apart_args hargs hclosing (.of_head rfl rfl (by simp))
        fun _ => ⟨')', rfl, rfl⟩
      simp only [NamedArg.list, between, List.cons_append, List.append_assoc, List.nil_append]
      apply Apart.sign rfl (by decide) _ hinside
      cases args with
      | nil => exact .of_head rfl rfl
      | cons first args =>
          -- only `*` alone would open a comment behind the parenthesis, and that was ruled out
          have hfirst := (h first List.mem_cons_self).stopsAt_lParen (by
            intro span harg
            obtain ⟨⟨name, arg⟩, place⟩ := first
            obtain rfl : arg = .op span .star := harg
            cases name with
            | none => cases hcomment
            | some name => rfl)
          cases args with
          | nil => exact hfirst _
          | cons next args =>
              rw [List.map_cons, List.map_cons, separate_cons_cons, List.append_assoc]
              exact hfirst _

end NamedArg

theorem Package.Writable.sealed {package : Package} (h : package.Writable (lexical fused false)) :
    Sealed fused package.chunks := by
  obtain ⟨name, body⟩ := package
  have hname : Named fused ([sign .kwPackage, blank] ++ name.chunks) :=
    h.name.named.lead rfl (by decide)
  cases body with
  | definition uses provides decls =>
      obtain ⟨huses, hprovides, hdecls⟩ := h.body
      have hbody : Sealed fused (newline :: usesChunks uses ++ providesChunks provides ++
          bodyLines decls) :=
        ((sealed_uses huses).newline.append (sealed_provides hprovides)).append (sealed_body hdecls)
      exact hname.append hbody fun later => .of_head rfl rfl
  | instantiated linking model brackets args =>
      obtain ⟨hmodel, hargs⟩ := h.body
      have hlist : Sealed fused (NamedArg.list brackets args) :=
        NamedArg.sealed_list hargs h.comment
      have hmodel : Sealed fused (model.chunks ++ NamedArg.list brackets args) :=
        hmodel.named.append hlist fun later => by cases brackets <;> exact .of_head rfl rfl
      have hlinking : Sealed fused
          ([sign linking.symbol, blank] ++ (model.chunks ++ NamedArg.list brackets args)) :=
        hmodel.lead (by cases linking <;> rfl) (by cases linking <;> decide)
      have hline := hlinking.blank.neat.ended
      refine hname.append ?_ fun later => .of_head rfl rfl
      simpa [chunks] using hline
  | missing => exact h.body.elim

theorem Model.Writable.sealed {model : Model} (h : model.Writable (lexical fused false)) :
    Sealed fused model.chunks := by
  obtain ⟨name, uses, needs, provides, decls⟩ := model
  obtain ⟨param, needs, rfl⟩ := List.exists_cons_of_ne_nil h.nonempty
  have hname : Sealed fused (line ([sign .kwModel, blank] ++ name.chunks)) :=
    Named.line (h.name.named.lead rfl (by decide))
  have hneeds : Sealed fused (line [sign .kwNeeds] ++
      (param :: needs).flatMap fun param => entry param.value.chunks) := by
    apply (Sealed.keyword rfl (by decide) rfl).append
    exact .flatMap fun param hmem => (h.needs param hmem).neat.entry
  exact (((hname.append (sealed_uses h.uses)).append hneeds).append
    (sealed_provides h.provides)).append (sealed_body h.decls)

/-! ## Programs -/

theorem Item.Writable.sealed {item : Item} (h : item.Writable (lexical fused false)) :
    Sealed fused item.chunks := by
  cases item with
  | decl single => exact Declaration.Writable.sealed h
  | package whole => exact Package.Writable.sealed h
  | model whole => exact Model.Writable.sealed h
  | error => exact h.elim

theorem sealed_include {path : String} (h : '"' ∉ path.toList) :
    Sealed fused (includeChunks path) := by
  intro later hlater
  have hquoted : "\"" ++ path ++ "\"" = String.ofList ('"' :: path.toList ++ ['"']) := by
    rw [← String.toList_inj]
    simp [String.toList_append]
  have hstring : Munches .stringLit ("\"" ++ path ++ "\"") (chars (newline :: later)) := by
    rw [hquoted]
    exact munches_string _ h
  exact .spaced rfl (by decide) (.word hstring hlater.newline)

/-- The text of a writable program is cut into words. -/
theorem Program.Writable.apart {program : Program} (h : program.Writable (lexical fused false)) :
    Apart fused program.chunks := by
  have hincludes : Sealed fused (program.includes.flatMap fun file => includeChunks file.value) :=
    .flatMap fun file hmem => sealed_include (h.includes file hmem)
  have hitems : ∀ chunks ∈ (program.items.filter fun item => !item.value.isError).map
      fun item => item.value.chunks, Sealed fused chunks := by
    intro chunks hchunks
    obtain ⟨item, hmem, rfl⟩ := List.mem_map.mp hchunks
    exact (h.items item (List.mem_filter.mp hmem).1).sealed
  have hlines : ∀ items : List (List Chunk), (∀ chunks ∈ items, Sealed fused chunks) →
      Sealed fused (items.flatMap (newline :: ·)) :=
    fun items hall => .flatMap fun chunks hmem => (hall chunks hmem).newline
  have hwhole : Sealed fused program.chunks := by
    unfold chunks
    dsimp only
    split
    · rename_i first rest _ heq
      rw [heq] at hitems
      exact (hitems first List.mem_cons_self).append
        (hlines rest fun chunks hmem => hitems chunks (List.mem_cons_of_mem _ hmem))
    · exact hincludes.append (hlines _ hitems)
  simpa using hwhole [] .nil

end Lustre
