import Lustre.Proofs.Printer.Apart
import Lustre.Proofs.Tree.Printable

/-!
# Printed expressions are cut into the words that were printed

Every form of expression keeps its words apart, whatever stands after it, as long as
that does not go on with its last word.  What is carried from the parts of an
expression to the whole is `Solid`: besides being kept apart, the words hold no colon,
so that no `%` among them opens a pragma, and the first character is one that no
bracket or `-` before it clings to.
-/

namespace Lustre

open Chunk

attribute [grind =] Expr.bare TypeExpr.chunks StaticArg.chunks

variable {fused : Bool}

/-! ## What may follow -/

/-- What could go on with a word, or with the exponent of a number. -/
def carriesOn (d : Char) : Bool := endsNumber d || d == '+' || d == '-'

/-- Chunks that do not go on with the last word before them.  They may begin with a dot if
`dotted`, where the last word is no number. -/
structure Calm (dotted : Bool) (later : List Chunk) : Prop where
  stops : StopsAt (fun d => carriesOn d && !(dotted && d == '.')) (chars later)
  colon : (kinds later).head? ≠ some .colon

theorem StopsAt.of_head {p : Char → Bool} {after : List Char} {d : Char}
    (h : after.head? = some d) (hp : p d = false) : StopsAt p after := by
  intro e he
  rw [h] at he
  exact Option.some.inj he ▸ hp

namespace Calm

variable {dotted : Bool} {later : List Chunk}

theorem ident (h : Calm dotted later) : StopsAt isIdentRest (chars later) := by
  refine h.stops.mono fun d hd => ?_
  have hdot : d ≠ '.' := by
    rintro rfl
    exact absurd hd (by decide)
  simp [carriesOn, endsNumber_of_isIdentRest hd, hdot]

theorem number (h : Calm false later) : StopsAt endsNumber (chars later) :=
  h.stops.mono fun d hd => by simp [carriesOn, hd]

/-- No sign follows, as it would have to in an exponent. -/
theorem signless (h : Calm dotted later) :
    StopsAt (fun d => d == '+' || d == '-') (chars later) := by
  refine h.stops.mono fun d hd => ?_
  simp only [Bool.or_eq_true, beq_iff_eq] at hd
  rcases hd with rfl | rfl <;> cases dotted <;> rfl

theorem dot (h : Calm false later) : Calm dotted later :=
  ⟨h.stops.mono fun d hd => by simp_all, h.colon⟩

theorem of_head {d : Char} (h : (chars later).head? = some d) (hend : carriesOn d = false)
    (hcolon : (kinds later).head? ≠ some .colon) : Calm dotted later :=
  dot ⟨.of_head h (by simp [hend]), hcolon⟩

/-- What begins with a dot is calm behind anything but a number. -/
theorem of_dot (h : (chars later).head? = some '.') (hcolon : (kinds later).head? ≠ some .colon) :
    Calm true later :=
  ⟨.of_head h rfl, hcolon⟩

theorem nil : Calm dotted [] :=
  ⟨fun _ hd => (by cases hd), fun hd => (by cases hd)⟩

theorem blank (h : (kinds later).head? ≠ some .colon) : Calm dotted (blank :: later) :=
  .of_head rfl rfl h

end Calm

/-! ## Signs -/

namespace Kind

/-- Whether nothing clings to a symbol. -/
def isLoose : Kind → Bool
  | .ltLt | .gtGt | .ltEq | .gtEq | .neq | .arrow | .fatArrow | .starStar | .colonColon | .dotDot
  | .plus | .caret | .pipe | .hash | .rParen | .lBracket | .rBracket | .lBrace | .rBrace | .comma
  | .semi => true
  | _ => false

theorem clingsTo_of_isLoose {kind : Kind} (h : kind.isLoose = true) (d : Char) :
    kind.clingsTo d = false := by
  unfold isLoose at h
  split at h <;> first
    | exact absurd h Bool.false_ne_true
    | rfl

theorem clingsTo_blank (kind : Kind) : kind.clingsTo ' ' = false := by
  cases kind <;> rfl

theorem isSome_spelling_of_isLoose {kind : Kind} (h : kind.isLoose = true) :
    kind.spelling?.isSome = true := by
  unfold isLoose at h
  split at h <;> first
    | rfl
    | exact absurd h Bool.false_ne_true

end Kind

namespace Apart

variable {chunks : List Chunk}

theorem loose {kind : Kind} (h : kind.isLoose = true) (later : Apart fused chunks) :
    Apart fused (Chunk.sign kind :: chunks) :=
  .sign (Kind.isSome_spelling_of_isLoose h) (by rintro rfl; cases h)
    (fun d _ => Kind.clingsTo_of_isLoose h d) later

theorem spaced {kind : Kind} (h : kind.spelling?.isSome = true) (hpercent : kind ≠ .percent)
    (later : Apart fused chunks) : Apart fused (Chunk.sign kind :: Chunk.blank :: chunks) :=
  .sign h hpercent (.of_head rfl kind.clingsTo_blank) later.blank

end Apart

/-! ## Chunks that keep their words apart -/

/-- Chunks whose words are kept apart in front of whatever is calm, without a colon among them. -/
structure Tidy (fused dotted : Bool) (chunks : List Chunk) : Prop where
  apart : ∀ later, Apart fused later → Calm dotted later → Apart fused (chunks ++ later)
  colon : .colon ∉ kinds chunks

/-- What an expression may begin with. -/
def opensExpr (d : Char) : Bool :=
  isIdentStart d || d.isDigit || d == '.' || d == '(' || d == '[' || d == '#' || d == '-'

/-- The first character is that of an expression, and no `-` if the expression binds tighter than
prefix operators. -/
def Fronted (rank : Nat) (chunks : List Chunk) : Prop :=
  ∃ c, (chars chunks).head? = some c ∧ opensExpr c = true ∧ (Prec.sign.level < rank → c ≠ '-')

/-- What is carried from the parts of an expression to the whole. -/
structure Solid (fused dotted : Bool) (rank : Nat) (chunks : List Chunk) : Prop
    extends Tidy fused dotted chunks where
  front : Fronted rank chunks
  wordy : kinds chunks ≠ []

namespace Fronted

variable {rank : Nat} {chunks : List Chunk}

theorem append (h : Fronted rank chunks) (later : List Chunk) : Fronted rank (chunks ++ later) := by
  obtain ⟨c, hhead, hopens, hminus⟩ := h
  refine ⟨c, ?_, hopens, hminus⟩
  rw [chars_append, List.head?_append, hhead, Option.some_or]

theorem mono (h : Fronted rank chunks) {least : Nat} (hle : least ≤ rank) :
    Fronted least chunks := by
  obtain ⟨c, hhead, hopens, hminus⟩ := h
  exact ⟨c, hhead, hopens, fun hleast => hminus (by omega)⟩

theorem of_head {c : Char} (h : (chars chunks).head? = some c) (hopens : opensExpr c = true)
    (hminus : c ≠ '-') : Fronted rank chunks :=
  ⟨c, h, hopens, fun _ => hminus⟩

theorem of_identifier {kind : Kind} {name : String} (h : isIdentifier name = true)
    (later : List Chunk) : Fronted rank (.word kind name :: later) := by
  unfold isIdentifier at h
  split at h
  · rename_i c rest htext
    rw [Bool.and_eq_true] at h
    refine .of_head (c := c) (by rw [chars_word, htext]; rfl) (by simp [opensExpr, h.1]) ?_
    rintro rfl
    exact absurd h.1 (by decide)
  · cases h

/-- Nothing that an expression begins with is taken for the second character of an opener. -/
theorem stopsAt_lParen (h : Fronted rank chunks) (later : List Chunk) :
    StopsAt (Kind.clingsTo .lParen) (chars (chunks ++ later)) := by
  obtain ⟨c, hhead, hopens, -⟩ := h.append later
  have hstar : c ≠ '*' := by
    rintro rfl
    cases hopens
  refine .of_head hhead ?_
  show clings '(' c = false
  simp [clings, symbolOfPair?, hstar]

theorem stopsAt_minus (h : Fronted rank chunks) (hrank : Prec.sign.level < rank)
    (later : List Chunk) : StopsAt (Kind.clingsTo .minus) (chars (chunks ++ later)) := by
  obtain ⟨c, hhead, hopens, hminus⟩ := h.append later
  have hgt : c ≠ '>' := by
    rintro rfl
    cases hopens
  refine .of_head hhead ?_
  show clings '-' c = false
  simp [clings, symbolOfPair?, hgt, hminus hrank]

end Fronted

namespace Tidy

variable {dotted : Bool} {chunks : List Chunk}

theorem nil : Tidy fused dotted [] := ⟨fun _ hlater _ => hlater, by simp⟩

theorem weaken (h : Tidy fused dotted chunks) : Tidy fused false chunks :=
  ⟨fun later hlater hcalm => h.apart later hlater hcalm.dot, h.colon⟩

theorem append {first : Bool} (h : Tidy fused first chunks) {more : List Chunk}
    (hmore : Tidy fused dotted more)
    (hcalm : ∀ later, Calm dotted later → Calm first (more ++ later)) :
    Tidy fused dotted (chunks ++ more) := by
  refine ⟨fun later hlater hlast => ?_, ?_⟩
  · rw [List.append_assoc]
    exact h.apart _ (hmore.apart later hlater hlast) (hcalm later hlast)
  · rw [kinds_append, List.mem_append]
    rintro (hmem | hmem)
    · exact h.colon hmem
    · exact hmore.colon hmem

/-- A keyword or a symbol with a blank behind it. -/
theorem lead (h : Tidy fused dotted chunks) (kind : Kind) (hfixed : kind.spelling?.isSome = true)
    (hkind : kind ≠ .percent ∧ kind ≠ .colon) : Tidy fused dotted (sign kind :: blank :: chunks) :=
  ⟨fun later hlater hcalm => .spaced hfixed hkind.1 (h.apart later hlater hcalm),
    by simpa using ⟨hkind.2.symm, h.colon⟩⟩

/-- A keyword or a symbol between blanks. -/
theorem spaced {first : Bool} (h : Tidy fused first chunks) {more : List Chunk}
    (hmore : Tidy fused dotted more)
    (kind : Kind) (hfixed : kind.spelling?.isSome = true)
    (hkind : kind ≠ .percent ∧ kind ≠ .colon) :
    Tidy fused dotted (chunks ++ ([blank, sign kind, blank] ++ more)) := by
  have hlead := hmore.lead kind hfixed hkind
  have hblank : Tidy fused dotted (blank :: sign kind :: blank :: more) :=
    ⟨fun later hlater hcalm => (hlead.apart later hlater hcalm).blank, hlead.colon⟩
  exact h.append hblank fun later _ => .blank (by simpa using hkind.2)

/-- Parts with separators between. -/
theorem separate {kind : Kind} (hkind : kind = .comma ∨ kind = .semi) {parts : List (List Chunk)}
    (h : ∀ part ∈ parts, Tidy fused false part) : Tidy fused false (separate kind parts) := by
  have hloose : kind.isLoose = true := by rcases hkind with rfl | rfl <;> rfl
  have hcolon : Kind.colon ≠ kind := by rcases hkind with rfl | rfl <;> decide
  have hhead : ∀ later, Calm false (sign kind :: later) := by
    intro later
    rcases hkind with rfl | rfl <;> exact .of_head rfl rfl (by simp)
  induction parts with
  | nil => exact .nil
  | cons part parts ih =>
      have hpart := h part List.mem_cons_self
      have hparts := ih fun other hother => h other (List.mem_cons_of_mem _ hother)
      cases parts with
      | nil => exact hpart
      | cons next parts =>
          have hmore : Tidy fused false
              (sign kind :: blank :: Chunk.separate kind (next :: parts)) :=
            ⟨fun later hlater hcalm => .loose hloose (hparts.apart later hlater hcalm).blank,
              by simpa using ⟨hcolon, hparts.colon⟩⟩
          exact hpart.append hmore fun later _ => hhead _

/-- Chunks between brackets that nothing clings to. -/
theorem brackets (h : Tidy fused false chunks) :
    Tidy fused dotted (between .lBracket .rBracket chunks) := by
  refine ⟨fun later hlater _ => ?_, by simpa [between] using h.colon⟩
  simp only [between, List.cons_append, List.append_assoc, List.nil_append]
  exact .loose rfl (h.apart _ (.loose rfl hlater) (.of_head rfl rfl (by simp)))

/-- Chunks between parentheses, if they begin with nothing that `(` clings to. -/
theorem parens (h : Tidy fused false chunks)
    (hfront : ∀ later, StopsAt (Kind.clingsTo .lParen) (chars (chunks ++ sign .rParen :: later))) :
    Tidy fused dotted (between .lParen .rParen chunks) := by
  refine ⟨fun later hlater _ => ?_, by simpa [between] using h.colon⟩
  simp only [between, List.cons_append, List.append_assoc, List.nil_append]
  exact .sign rfl (by decide) (hfront later)
    (h.apart _ (.loose rfl hlater) (.of_head rfl rfl (by simp)))

end Tidy

/-- Some expressions between parentheses. -/
theorem tidy_operands {dotted : Bool} {parts : List (List Chunk)}
    (h : ∀ part ∈ parts, Solid fused false 0 part) :
    Tidy fused dotted (between .lParen .rParen (separate .comma parts)) := by
  refine .parens (.separate (.inl rfl) fun part hpart => (h part hpart).toTidy) fun later => ?_
  match parts with
  | [] => exact .of_head rfl rfl
  | [part] => exact (h part List.mem_cons_self).front.stopsAt_lParen _
  | part :: next :: parts =>
      have hfront := (h part List.mem_cons_self).front
      exact (hfront.append _).stopsAt_lParen _

/-! ## Names, clocks and patterns -/

/-- Pragmas as they are printed, each with a blank before it. -/
def pragmaChunks (pragmas : List Pragma) : List Chunk :=
  pragmas.flatMap fun pragma => [blank, Chunk.word .pragma pragma.text]

theorem Ident.chunks_eq (ident : Ident) :
    ident.chunks = .word .ident ident.name :: pragmaChunks ident.pragmas := rfl

theorem Calm.pragmas {dotted : Bool} {later : List Chunk} (h : Calm dotted later)
    (pragmas : List Pragma) : Calm dotted (pragmaChunks pragmas ++ later) := by
  cases pragmas with
  | nil => exact h
  | cons pragma pragmas => exact .blank (by simp)

theorem apart_pragmas {pragmas : List Pragma} (h : ∀ pragma ∈ pragmas, pragma.Printable)
    {later : List Chunk} (hlater : Apart fused later) :
    Apart fused (pragmaChunks pragmas ++ later) := by
  induction pragmas with
  | nil => exact hlater
  | cons pragma pragmas ih =>
      obtain ⟨hkey, hvalue⟩ := h pragma List.mem_cons_self
      exact (Apart.pragma hkey hvalue
        (ih fun other hother => h other (List.mem_cons_of_mem _ hother))).blank

theorem no_colon_in_pragmas (pragmas : List Pragma) : .colon ∉ kinds (pragmaChunks pragmas) := by
  induction pragmas with
  | nil => simp [pragmaChunks]
  | cons pragma pragmas ih => simpa [pragmaChunks] using ih

/-- A name is cut off in front of whatever does not go on with it. -/
theorem Ident.Printable.apart {ident : Ident} (h : ident.Printable) {later : List Chunk}
    (hlater : Apart fused later) (hstop : StopsAt isIdentRest (chars later)) :
    Apart fused (ident.chunks ++ later) := by
  obtain ⟨hname, hkeyword⟩ := isProperName_iff.mp h.1
  refine .ident hname hkeyword ?_ (apart_pragmas h.2 hlater)
  show StopsAt isIdentRest (chars (pragmaChunks ident.pragmas ++ later))
  cases ident.pragmas with
  | nil => exact hstop
  | cons pragma pragmas => exact .of_head rfl rfl

theorem Ident.Printable.tidy {ident : Ident} (h : ident.Printable) :
    Tidy fused true ident.chunks :=
  ⟨fun _ hlater hcalm => h.apart hlater hcalm.ident,
    by simpa [chunks_eq] using no_colon_in_pragmas ident.pragmas⟩

theorem Ident.Printable.front {ident : Ident} (h : ident.Printable) (rank : Nat) :
    Fronted rank ident.chunks :=
  .of_identifier (isProperName_iff.mp h.1).1 _

theorem Reference.Printable.front {ref : Reference} (h : ref.Printable) (rank : Nat) :
    Fronted rank ref.chunks := by
  unfold chunks
  split
  · rename_i package heq
    exact .of_identifier (isProperName_iff.mp (h.2 package heq)).1 _
  · exact .of_identifier (isProperName_iff.mp h.1).1 _

theorem Reference.kinds_chunks_ne_nil (ref : Reference) : kinds ref.chunks ≠ [] := by
  unfold chunks
  split <;> simp

theorem Reference.Printable.solid {ref : Reference} (h : ref.Printable) (rank : Nat) :
    Solid fused true rank ref.chunks := by
  refine ⟨?_, h.front rank, ref.kinds_chunks_ne_nil⟩
  obtain ⟨hmember, hpackage⟩ := h
  rw [isProperName_iff] at hmember
  unfold chunks
  split
  · rename_i package heq
    have hname := isProperName_iff.mp (hpackage package heq)
    refine ⟨fun later hlater hcalm => ?_, by simp⟩
    exact .ident hname.1 hname.2 (.of_head rfl rfl)
      (.loose rfl (.ident hmember.1 hmember.2 hcalm.ident hlater))
  · refine ⟨fun later hlater hcalm => ?_, by simp⟩
    exact .ident hmember.1 hmember.2 hcalm.ident hlater

/-- A name between parentheses. -/
theorem Ident.Printable.parens {ident : Ident} (h : ident.Printable) {dotted : Bool} :
    Tidy fused dotted (between .lParen .rParen ident.chunks) :=
  h.tidy.weaken.parens fun _ => (h.front 0).stopsAt_lParen _

theorem Clock.Printable.tidy {clock : Clock} (h : clock.Printable) :
    Tidy fused true clock.chunks := by
  cases clock with
  | on clock => exact Ident.Printable.tidy h
  | not clock parenthesized =>
      cases parenthesized with
      | true => exact (Ident.Printable.parens h).lead .kwNot rfl (by decide)
      | false => exact (Ident.Printable.tidy h).lead .kwNot rfl (by decide)
  | case name clock =>
      exact (h.1.solid 0).toTidy.append (Ident.Printable.parens h.2)
        fun later _ => .of_head rfl rfl (by simp [between])

theorem Pattern.Printable.tidy {pattern : Pattern} (h : pattern.Printable) :
    Tidy fused true pattern.chunks := by
  cases pattern with
  | name ref => exact (Reference.Printable.solid h 0).toTidy
  | bool value =>
      refine ⟨fun later hlater hcalm => ?_, by cases value <;> simp [chunks, boolSign]⟩
      cases value <;> exact .sign rfl (by decide) hcalm.ident hlater

theorem Pattern.Printable.front {pattern : Pattern} (h : pattern.Printable) :
    Fronted 0 pattern.chunks := by
  cases pattern with
  | name ref => exact Reference.Printable.front h 0
  | bool value => cases value <;> exact .of_head rfl rfl (by decide)

/-! ## Static arguments -/

/-- What may follow an operator that stands for itself. -/
def endsOp (d : Char) : Bool := d == ' ' || d == ',' || d == ')'

theorem clingsTo_of_endsOp {d : Char} (op : PredefinedOp) (h : endsOp d = true) :
    op.symbol.clingsTo d = false := by
  simp only [endsOp, Bool.or_eq_true, beq_iff_eq] at h
  rcases h with (rfl | rfl) | rfl <;> cases op <;> rfl

/-- A static argument, which keeps its words apart; an operator (`op`) does only in front of what
ends one. -/
structure TidyArg (fused op : Bool) (chunks : List Chunk) : Prop where
  apart : ∀ later, Apart fused later → Calm false later →
    (op = true → ∃ d, (chars later).head? = some d ∧ endsOp d = true) →
      Apart fused (chunks ++ later)
  colon : .colon ∉ kinds chunks

theorem Tidy.arg {chunks : List Chunk} (h : Tidy fused false chunks) (op : Bool) :
    TidyArg fused op chunks :=
  ⟨fun later hlater hcalm _ => h.apart later hlater hcalm, h.colon⟩

theorem tidyArg_op (op : PredefinedOp) : TidyArg fused true [sign op.symbol] := by
  refine ⟨fun later hlater _ hop => ?_, by cases op <;> decide⟩
  obtain ⟨d, hhead, hd⟩ := hop rfl
  exact .sign (by cases op <;> rfl) (by cases op <;> decide)
    (.of_head hhead (clingsTo_of_endsOp op hd)) hlater

section

variable {α : Type} {op : α → Bool} {print : α → List Chunk} {items : List α}

/-- Arguments with commas between, in front of what ends the last one. -/
theorem apart_args (h : ∀ item ∈ items, TidyArg fused (op item) (print item)) {later : List Chunk}
    (hlater : Apart fused later) (hcalm : Calm false later)
    (hop : items.getLast?.any op = true → ∃ d, (chars later).head? = some d ∧ endsOp d = true) :
    Apart fused (Chunk.separate .comma (items.map print) ++ later) := by
  induction items with
  | nil => exact hlater
  | cons item items ih =>
      have hitem := h item List.mem_cons_self
      cases items with
      | nil => exact hitem.apart later hlater hcalm hop
      | cons next items =>
          have hlast := ih (fun other hother => h other (List.mem_cons_of_mem _ hother)) hop
          rw [List.map_cons, List.map_cons, separate_cons_cons, List.append_assoc]
          exact hitem.apart _ (.loose rfl hlast.blank) (.of_head rfl rfl (by simp))
            fun _ => ⟨',', rfl, rfl⟩

theorem no_colon_in_args (h : ∀ item ∈ items, TidyArg fused (op item) (print item)) :
    .colon ∉ kinds (Chunk.separate .comma (items.map print)) := by
  induction items with
  | nil => simp [Chunk.separate]
  | cons item items ih =>
      have hitem := (h item List.mem_cons_self).colon
      have hitems := ih fun other hother => h other (List.mem_cons_of_mem _ hother)
      cases items with
      | nil => simpa [Chunk.separate] using hitem
      | cons next items =>
          rw [List.map_cons] at hitems
          simpa [Chunk.separate] using ⟨hitem, hitems⟩

end

/-- The end of a list of arguments, with a blank behind an operator. -/
def closingAngle (spaced : Bool) : List Chunk :=
  if spaced then [blank, sign .gtGt] else [sign .gtGt]

theorem apart_closingAngle {later : List Chunk} (hlater : Apart fused later) (spaced : Bool) :
    Apart fused (closingAngle spaced ++ later) ∧ Calm false (closingAngle spaced ++ later) ∧
      (spaced = true → ∃ d, (chars (closingAngle spaced ++ later)).head? = some d ∧
        endsOp d = true) := by
  cases spaced with
  | true => exact ⟨(Apart.loose rfl hlater).blank, .blank (by simp), fun _ => ⟨' ', rfl, rfl⟩⟩
  | false =>
      exact ⟨.loose rfl hlater, .of_head rfl rfl (by simp [closingAngle]), fun h => by cases h⟩

theorem StaticArg.parts_eq (full : Bool) (args : List StaticArg) :
    StaticArg.parts full args = args.map (StaticArg.chunks full) := by
  induction args with
  | nil => rfl
  | cons arg args ih => rw [StaticArg.parts, ih, List.map_cons]

/-- Some static arguments between `<<` and `>>`. -/
theorem tidy_args {dotted full : Bool} {args : List StaticArg}
    (h : ∀ arg ∈ args, TidyArg fused arg.isOp (arg.chunks full)) :
    Tidy fused dotted (StaticArg.enclose args (StaticArg.parts full args)) := by
  have hshape : StaticArg.enclose args (StaticArg.parts full args) =
      sign .ltLt :: (separate .comma (args.map (StaticArg.chunks full)) ++
        closingAngle (args.getLast?.any StaticArg.isOp)) := by
    rw [StaticArg.parts_eq]
    rfl
  rw [hshape]
  refine ⟨fun later hlater _ => ?_, ?_⟩
  · obtain ⟨hclosing, hcalm, hop⟩ :=
      apart_closingAngle hlater (args.getLast?.any StaticArg.isOp)
    rw [List.cons_append, List.append_assoc]
    exact .loose rfl (apart_args h hclosing hcalm hop)
  · have hcolon := no_colon_in_args h
    rw [closingAngle]
    split <;> simpa using hcolon

/-! ## Parentheses -/

namespace Expr

/-- Whether a dot directly behind an expression would go on with it: it is an integer, or a real
that ends in a dot already, of which two make a range. -/
def runsIntoDot : Expr → Bool
  | int _ _ => true
  | real _ digits => digits.toList.getLast? == some '.'
  | _ => false

theorem runsIntoDot_eq_false {expr : Expr} (h : expr.isNumber = false) :
    expr.runsIntoDot = false := by
  cases expr with
  | int | real => cases h
  | _ => rfl

/-- Whether a dot may follow an expression that stands where a tight one is demanded. -/
def takesDot (expr : Expr) : Bool := expr.rank == Prec.atom && !expr.runsIntoDot

theorem rank_le_atom (expr : Expr) : expr.rank ≤ Prec.atom := by
  have hlevel : ∀ prec : Prec, prec.level ≤ Prec.atom := by
    intro prec
    cases prec <;> decide
  cases expr with
  | cond => exact hlevel .alternative
  | sampled => exact hlevel .sampling
  | unary _ op => exact hlevel op.prec
  | binary _ op => exact hlevel op.strength.prec
  | _ => exact Nat.le_refl _

end Expr

namespace Solid

variable {dotted : Bool} {rank : Nat} {chunks : List Chunk}

theorem parens (h : Solid fused dotted rank chunks) {dotted' : Bool} {rank' : Nat} :
    Solid fused dotted' rank' (between .lParen .rParen chunks) :=
  ⟨h.toTidy.weaken.parens fun _ => h.front.stopsAt_lParen _, .of_head rfl rfl (by decide),
    by simp [between]⟩

/-- An expression where its place demands a rank. -/
theorem enclose {full : Bool} {expr : Expr}
    (h : Solid fused expr.takesDot expr.rank (expr.bare full)) (least : Nat)
    (hleast : least ≤ Prec.atom) :
    Solid fused false least (expr.chunks full least) := by
  unfold Expr.chunks Expr.enclose
  split
  · exact h.parens
  · rename_i hle
    have hrank : least ≤ expr.rank := by
      have := expr.rank_le_atom
      omega
    exact ⟨h.toTidy.weaken, h.front.mono hrank, h.wordy⟩

/-- The same in front of a dot that does not go on with it. -/
theorem select {full : Bool} {expr : Expr}
    (h : Solid fused expr.takesDot expr.rank (expr.bare full)) (hdot : expr.runsIntoDot = false) :
    Solid fused true Prec.atom (expr.chunks full Prec.atom) := by
  unfold Expr.chunks Expr.enclose
  split
  · exact h.parens
  · rename_i hle
    have hrank : expr.rank = Prec.atom := by
      have := expr.rank_le_atom
      omega
    have htakes : expr.takesDot = true := by simp [Expr.takesDot, hrank, hdot]
    rw [htakes, hrank] at h
    exact h

/-- A full expression. -/
theorem expr {full : Bool} {expr : Expr}
    (h : Solid fused expr.takesDot expr.rank (expr.bare full)) :
    Tidy fused false (expr.chunks full 0) :=
  (h.enclose 0 (Nat.zero_le _)).toTidy

end Solid

theorem Expr.parts_eq (full : Bool) (exprs : List Expr) :
    Expr.parts full exprs = exprs.map fun expr => expr.chunks full 0 := by
  induction exprs with
  | nil => rfl
  | cons expr exprs ih =>
      rw [Expr.parts, ih]
      rfl

theorem MergeArm.parts_cons (full : Bool) (arm : MergeArm) (arms : List MergeArm) :
    MergeArm.parts full (arm :: arms) =
      blank :: between .lParen .rParen
        (arm.pattern.chunks ++ [blank, sign .arrow, blank] ++ arm.value.chunks full 0) ++
        MergeArm.parts full arms := by
  cases arm
  rfl

/-- The chunks of an expression in its bare form are solid. -/
abbrev Expr.IsSolid (fused full : Bool) (expr : Expr) : Prop :=
  Solid fused expr.takesDot expr.rank (expr.bare full)

/-! ## The forms of expressions -/

section

variable {full : Bool} {span : Span} {value first last lhs rhs : Expr} {exprs : List Expr}

theorem solid_operands (h : ∀ expr ∈ exprs, expr.IsSolid fused full) (dotted : Bool) (rank : Nat) :
    Solid fused dotted rank (between .lParen .rParen
      (separate .comma (Expr.parts full exprs))) := by
  refine ⟨tidy_operands fun part hpart => ?_, .of_head rfl rfl (by decide), by simp [between]⟩
  rw [Expr.parts_eq, List.mem_map] at hpart
  obtain ⟨expr, hmem, rfl⟩ := hpart
  exact (h expr hmem).enclose 0 (Nat.zero_le _)

theorem tidy_exprs (h : ∀ expr ∈ exprs, expr.IsSolid fused full) :
    Tidy fused false (separate .comma (Expr.parts full exprs)) := by
  refine .separate (.inl rfl) fun part hpart => ?_
  rw [Expr.parts_eq, List.mem_map] at hpart
  obtain ⟨expr, hmem, rfl⟩ := hpart
  exact (h expr hmem).expr

theorem solid_bool {value : Bool} : (Expr.bool span value).IsSolid fused full := by
  have hpattern : (Pattern.bool value).Printable := trivial
  refine ⟨hpattern.tidy, ?_, ?_⟩
  · cases value <;> exact .of_head rfl rfl (by decide)
  · cases value <;> simp [Expr.bare, boolSign]

theorem solid_int {digits : String} (h : isDigits digits = true) :
    (Expr.int span digits).IsSolid fused full := by
  refine ⟨⟨fun later hlater hcalm => .digits h hcalm.number hlater, by simp [Expr.bare]⟩, ?_,
    by simp [Expr.bare]⟩
  simp only [isDigits, Bool.and_eq_true, Bool.not_eq_true', List.isEmpty_eq_false_iff] at h
  obtain ⟨c, rest, htext⟩ := List.exists_cons_of_ne_nil h.1
  rw [htext, List.all_cons, Bool.and_eq_true] at h
  refine .of_head (c := c) (by simp [Expr.bare, htext]) (by simp [opensExpr, h.2.1]) ?_
  rintro rfl
  exact absurd h.2.1 (by decide)

theorem solid_real {digits : String} (h : isWhole .realLit digits = true) :
    (Expr.real span digits).IsSolid fused full := by
  refine ⟨⟨fun later hlater hcalm => ?_, by simp [Expr.bare]⟩, ?_, by simp [Expr.bare]⟩
  · refine .word (munches_real_before h hcalm.ident fun hlast => ?_) hlater
    -- digits and a dot are the one real that a second dot would go on with
    have hend : digits.toList.getLast? = some '.' := by
      rw [← List.take_append_drop (spanLength Char.isDigit digits.toList) digits.toList, hlast]
      exact List.getLast?_concat
    have htakes : (Expr.real span digits).takesDot = false := by
      simp [Expr.takesDot, Expr.runsIntoDot, hend]
    rw [htakes] at hcalm
    exact hcalm.number.mono fun d hd => by simp [endsNumber, beq_iff_eq.mp hd]
  obtain ⟨c, rest, htext, hopens⟩ := opens_of_real h
  refine .of_head (c := c) (by simp [Expr.bare, htext]) ?_ ?_
  · rcases hopens with hopens | rfl
    · simp [opensExpr, hopens]
    · rfl
  · rintro rfl
    rcases hopens with hopens | hopens
    · exact absurd hopens (by decide)
    · exact absurd hopens (by decide)

theorem solid_inst {node : Reference} (hnode : node.Printable) {args : List StaticArg}
    (hargs : ∀ arg ∈ args, TidyArg fused arg.isOp (arg.chunks full)) :
    (Expr.inst span node (some args)).IsSolid fused full := by
  refine ⟨(hnode.solid 0).toTidy.append (tidy_args hargs)
    fun _ _ => .of_head rfl rfl (by simp [optionalArgs, StaticArg.enclose]),
    (hnode.front _).append _, ?_⟩
  simp [Expr.bare, node.kinds_chunks_ne_nil]

theorem solid_array (h : ∀ expr ∈ exprs, expr.IsSolid fused full) :
    (Expr.array span exprs).IsSolid fused full :=
  ⟨(tidy_exprs h).brackets, .of_head rfl rfl (by decide), by simp [Expr.bare, between]⟩

/-- A dot does not go on with a name. -/
theorem stopsAt_dot {name : String} (h : isIdentifier name = true) (after : List Char) :
    StopsAt (Kind.clingsTo .dot) (name.toList ++ after) := by
  obtain ⟨c, rest, htext, hstart⟩ := opens_of_identifier h
  have hdigit : c.isDigit = false := by
    cases hc : c.isDigit with
    | false => rfl
    | true => simp [isIdentStart_of_isDigit hc] at hstart
  have hdot : c ≠ '.' := by
    rintro rfl
    cases hstart
  have hhead : (name.toList ++ after).head? = some c := by
    rw [htext]
    rfl
  refine .of_head hhead ?_
  show clings '.' c = false
  simp [clings, symbolOfPair?, hdigit, hdot]

/-- The selection of a field, behind whatever a dot does not go on with. -/
theorem tidy_selection {field : Ident} (hfield : field.Printable) :
    Tidy fused true (sign .dot :: field.chunks) := by
  have htidy : Tidy fused true field.chunks := hfield.tidy
  refine ⟨fun later hlater hcalm => ?_, by simpa using htidy.colon⟩
  apply Apart.sign rfl (by decide) _ (htidy.apart later hlater hcalm)
  exact stopsAt_dot (isProperName_iff.mp hfield.1).1 _

theorem solid_field (hvalue : value.IsSolid fused full) (hdot : value.runsIntoDot = false)
    {field : Ident} (hfield : field.Printable) :
    (Expr.field span value field).IsSolid fused full := by
  have hselect := hvalue.select hdot
  refine ⟨hselect.toTidy.append (tidy_selection hfield) fun later _ => .of_dot rfl (by simp),
    hselect.front.append _, ?_⟩
  simp [Expr.bare]

theorem solid_index {index : Expr} (hvalue : value.IsSolid fused full)
    (hindex : index.IsSolid fused full) :
    (Expr.index span value index).IsSolid fused full := by
  have hselect := hvalue.enclose Prec.atom (Nat.le_refl _)
  exact ⟨hselect.toTidy.append hindex.expr.brackets fun _ _ => .of_head rfl rfl (by simp [between]),
    hselect.front.append _, by simp [Expr.bare, between]⟩

theorem tidy_step {step : Option Expr} {chunks : List Chunk} (h : Tidy fused false chunks)
    (hstep : ∀ width, step = some width → width.IsSolid fused full) :
    Tidy fused false (chunks ++ stepPart full step) := by
  cases step with
  | none => simpa [stepPart] using h
  | some width => exact h.spaced (hstep width rfl).expr .kwStep rfl (by decide)

theorem solid_slice {step : Option Expr} (hvalue : value.IsSolid fused full)
    (hfirst : first.IsSolid fused full) (hlast : last.IsSolid fused full)
    (hstep : ∀ width, step = some width → width.IsSolid fused full) :
    (Expr.slice span value first last step).IsSolid fused full := by
  have hselect := hvalue.enclose Prec.atom (Nat.le_refl _)
  have hrange : Tidy fused false (first.chunks full 0 ++ [blank, sign .dotDot, blank] ++
      last.chunks full 0) := by
    rw [List.append_assoc]
    exact hfirst.expr.spaced hlast.expr .dotDot rfl (by decide)
  have hinside := tidy_step hrange hstep
  exact ⟨hselect.toTidy.append hinside.brackets fun _ _ => .of_head rfl rfl (by simp [between]),
    hselect.front.append _, by simp [Expr.bare, between]⟩

theorem solid_call {callee : Expr} (hcallee : callee.IsSolid fused full)
    (hargs : ∀ expr ∈ exprs, expr.IsSolid fused full) :
    (Expr.call span callee exprs).IsSolid fused full := by
  have hselect := hcallee.enclose Prec.atom (Nat.le_refl _)
  have hlist := solid_operands hargs true 0
  exact ⟨hselect.toTidy.append hlist.toTidy fun _ _ => .of_head rfl rfl (by simp [between]),
    hselect.front.append _, by simp [Expr.bare, between]⟩

theorem solid_cond {opening : CondWord} {condition yes no : Expr}
    (hcondition : condition.IsSolid fused full) (hyes : yes.IsSolid fused full)
    (hno : no.IsSolid fused full) :
    (Expr.cond span opening condition yes no).IsSolid fused full := by
  have hparts := ((hcondition.expr.spaced hyes.expr .kwThen rfl (by decide)).spaced
    hno.expr .kwElse rfl (by decide)).lead opening.symbol
      (by cases opening <;> rfl) (by cases opening <;> decide)
  refine ⟨?_, ?_, ?_⟩
  · simp only [List.append_assoc, List.cons_append, List.nil_append] at hparts
    simp only [Expr.bare, List.append_assoc, List.cons_append, List.nil_append]
    exact hparts
  · cases opening <;> exact .of_head rfl rfl (by decide)
  · simp [Expr.bare]

theorem tidy_arms {arms : List MergeArm} (hpatterns : ∀ arm ∈ arms, arm.pattern.Printable)
    (hvalues : ∀ arm ∈ arms, arm.value.IsSolid fused full) :
    Tidy fused true (MergeArm.parts full arms) := by
  induction arms with
  | nil => exact .nil
  | cons arm arms ih =>
      have hpattern := hpatterns arm List.mem_cons_self
      have hvalue := (hvalues arm List.mem_cons_self).expr
      have hlater := ih (fun arm harm => hpatterns arm (List.mem_cons_of_mem _ harm))
        fun arm harm => hvalues arm (List.mem_cons_of_mem _ harm)
      have harm : Tidy fused true (between .lParen .rParen
          (arm.pattern.chunks ++ ([blank, sign .arrow, blank] ++ arm.value.chunks full 0))) :=
        (hpattern.tidy.spaced hvalue .arrow rfl (by decide)).parens fun _ =>
          (hpattern.front.append _).stopsAt_lParen _
      have hjoined := harm.append hlater fun later hcalm => by
        cases arms with
        | nil => exact hcalm
        | cons arm arms =>
            rw [MergeArm.parts_cons]
            exact .blank (by simp [between])
      rw [MergeArm.parts_cons]
      rw [← List.append_assoc] at hjoined
      exact ⟨fun later hapart hcalm => (hjoined.apart later hapart hcalm).blank, hjoined.colon⟩

theorem solid_merge {clock : Ident} (hclock : clock.Printable) {arms : List MergeArm}
    (hpatterns : ∀ arm ∈ arms, arm.pattern.Printable)
    (hvalues : ∀ arm ∈ arms, arm.value.IsSolid fused full) :
    (Expr.merge span clock arms).IsSolid fused full := by
  have hparts := (hclock.tidy.append (tidy_arms hpatterns hvalues) fun later hcalm => by
    cases arms with
    | nil => exact hcalm
    | cons arm arms =>
        rw [MergeArm.parts_cons]
        exact .blank (by simp [between])).lead .kwMerge rfl (by decide)
  exact ⟨hparts, .of_head rfl rfl (by decide), by simp [Expr.bare]⟩

theorem solid_sampled {clock : Located Clock} (hvalue : value.IsSolid fused full)
    (hclock : clock.value.Printable) : (Expr.sampled span value clock).IsSolid fused full := by
  have hselect := hvalue.enclose Prec.sampling.level (by decide)
  refine ⟨?_, (hselect.front.append _).append _, by simp [Expr.bare]⟩
  have hparts := (hselect.toTidy.spaced hclock.tidy .kwWhen rfl (by decide)).weaken
  rw [← List.append_assoc] at hparts
  exact hparts

theorem solid_unary {op : UnaryOp} {operand : Expr} (hoperand : operand.IsSolid fused full) :
    (Expr.unary span op operand).IsSolid fused full := by
  have hselect := hoperand.enclose (op.prec.level + 1) (by cases op <;> decide)
  have hfixed : op.symbol.spelling?.isSome = true := by cases op <;> rfl
  have hkind : op.symbol ≠ .percent ∧ op.symbol ≠ .colon := by cases op <;> decide
  have hloose : (Expr.unary span op operand).takesDot = false := by cases op <;> rfl
  rw [Expr.IsSolid, hloose, Expr.bare, UnaryOp.chunks]
  split
  · -- A `-` close to its operand.
    rename_i hclose
    obtain ⟨rfl, -⟩ := hclose
    refine ⟨⟨fun later hlater hcalm => ?_, by simpa using ⟨hkind.2.symm, hselect.colon⟩⟩,
      ⟨'-', rfl, rfl, fun h => absurd h (Nat.lt_irrefl _)⟩, by simp⟩
    exact .sign rfl (by decide) (hselect.front.stopsAt_minus (by decide) later)
      (hselect.apart later hlater hcalm)
  · refine ⟨hselect.toTidy.lead _ hfixed hkind, ?_, by simp⟩
    cases op with
    | neg => exact ⟨'-', rfl, rfl, fun h => absurd h (Nat.lt_irrefl _)⟩
    | _ => exact .of_head rfl rfl (by decide)

/-- The second word of an operand, or what follows it, is no colon. -/
theorem Solid.no_second_colon {rank : Nat} {chunks later : List Chunk}
    (h : Solid fused false rank chunks) (hlater : Calm false later) :
    (kinds (chunks ++ later))[1]? ≠ some .colon := by
  obtain ⟨kind, rest, hkinds⟩ := List.exists_cons_of_ne_nil h.wordy
  have hcolon := h.colon
  rw [kinds_append, hkinds, List.cons_append, List.getElem?_cons_succ]
  rw [hkinds, List.mem_cons, not_or] at hcolon
  cases rest with
  | nil => simpa [← List.head?_eq_getElem?] using hlater.colon
  | cons next rest =>
      rw [List.mem_cons, not_or] at hcolon
      simpa using fun heq => hcolon.2.1 heq.symm

theorem solid_binary {op : BinaryOp} (hlhs : lhs.IsSolid fused full)
    (hrhs : rhs.IsSolid fused full) :
    (Expr.binary span op lhs rhs).IsSolid fused full := by
  have hleft := hlhs.enclose op.strength.leftMin (by cases op <;> decide)
  have hright := hrhs.enclose op.strength.rightMin (by cases op <;> decide)
  have hfixed : op.symbol.spelling?.isSome = true := by cases op <;> rfl
  have hcolon : op.symbol ≠ .colon := by cases op <;> decide
  have hloose : (Expr.binary span op lhs rhs).takesDot = false := by cases op <;> rfl
  have hrank : (Expr.binary span op lhs rhs).rank ≤ op.strength.leftMin := by
    show op.strength.prec.level ≤ _
    cases op <;> decide
  rw [Expr.IsSolid, hloose, Expr.bare, List.append_assoc]
  refine ⟨?_, (hleft.front.append _).mono hrank, by simp⟩
  by_cases hpercent : op.symbol = .percent
  · rw [hpercent]
    have hmore : Tidy fused false (blank :: sign .percent :: blank ::
        rhs.chunks full op.strength.rightMin) := by
      refine ⟨fun later hlater hcalm => Apart.blank ?_, by simpa using hright.colon⟩
      exact .percent (hright.no_second_colon hcalm) (hright.apart later hlater hcalm)
    exact hleft.toTidy.append hmore fun later _ => .blank (by simp)
  · exact hleft.toTidy.spaced hright.toTidy _ hfixed ⟨hpercent, hcolon⟩

theorem solid_list {op : ListOp} (h : ∀ expr ∈ exprs, expr.IsSolid fused full) :
    (Expr.list span op exprs).IsSolid fused full := by
  have hlist := solid_operands h true 0
  refine ⟨⟨fun later hlater hcalm => ?_, ?_⟩, ?_, by simp [Expr.bare]⟩
  · exact .sign (by cases op <;> rfl) (by cases op <;> decide)
      (.of_head rfl (by cases op <;> rfl)) (hlist.apart later hlater hcalm)
  · have hcolon := hlist.colon
    cases op <;> simpa [Expr.bare, ListOp.symbol] using hcolon
  · cases op <;> exact .of_head rfl rfl (by decide)

theorem FieldInit.parts_eq (full : Bool) (fields : List FieldInit) :
    FieldInit.parts full fields = fields.map fun init =>
      init.field.chunks ++ [blank, sign .eq, blank] ++ init.value.chunks full 0 := by
  induction fields with
  | nil => rfl
  | cons init fields ih =>
      cases init
      rw [FieldInit.parts, ih]
      rfl

/-- The base of a record as it is printed, with a blank before it. -/
def baseChunks (base : Option Reference) : List Chunk :=
  match base with
  | some base => blank :: base.chunks ++ [blank, sign .kwWith]
  | none => []

/-- The fields of a record as they are printed, with a blank before them. -/
def fieldsChunks (full : Bool) (fields : List FieldInit) : List Chunk :=
  match fields with
  | [] => []
  | _ => blank :: separate .semi (FieldInit.parts full fields)

theorem Expr.bare_record (type : Reference) (base : Option Reference) (fields : List FieldInit) :
    (Expr.record span type base fields).bare full =
      type.chunks ++ (blank :: sign .lBrace ::
        (baseChunks base ++ (fieldsChunks full fields ++ [blank, sign .rBrace]))) := by
  cases base <;> cases fields <;> simp [Expr.bare, baseChunks, fieldsChunks]

/-- The fields of a record and its closing brace. -/
theorem tidy_fields {fields : List FieldInit} (hnames : ∀ init ∈ fields, init.field.Printable)
    (hvalues : ∀ init ∈ fields, init.value.IsSolid fused full) :
    Tidy fused true (fieldsChunks full fields ++ [blank, sign .rBrace]) := by
  have hfields : Tidy fused false (separate .semi (FieldInit.parts full fields)) := by
    refine .separate (.inr rfl) fun part hpart => ?_
    rw [FieldInit.parts_eq, List.mem_map] at hpart
    obtain ⟨init, hmem, rfl⟩ := hpart
    rw [List.append_assoc]
    exact (hnames init hmem).tidy.spaced (hvalues init hmem).expr .eq rfl (by decide)
  unfold fieldsChunks
  split
  · exact ⟨fun later hlater _ => (Apart.loose rfl hlater).blank, by simp⟩
  · refine ⟨fun later hlater _ => ?_, by simpa using hfields.colon⟩
    rw [List.cons_append, List.cons_append, List.append_assoc]
    exact (hfields.apart _ (Apart.loose rfl hlater).blank (.blank (by simp))).blank

theorem head?_fieldsChunks (fields : List FieldInit) (later : List Chunk) :
    (chars (fieldsChunks full fields ++ [blank, sign .rBrace] ++ later)).head? = some ' ' := by
  unfold fieldsChunks
  split <;> rfl

theorem solid_record {type : Reference} {base : Option Reference} {fields : List FieldInit}
    (htype : type.Printable) (hbase : ∀ ref, base = some ref → ref.Printable)
    (hnames : ∀ init ∈ fields, init.field.Printable)
    (hvalues : ∀ init ∈ fields, init.value.IsSolid fused full) :
    (Expr.record span type base fields).IsSolid fused full := by
  have htype : Solid fused true Prec.atom type.chunks := htype.solid _
  have hclosed := tidy_fields hnames hvalues
  have hopened : Tidy fused true
      (baseChunks base ++ (fieldsChunks full fields ++ [blank, sign .rBrace])) := by
    cases base with
    | none => exact hclosed
    | some ref =>
        have href : Solid fused true 0 ref.chunks := (hbase ref rfl).solid 0
        refine ⟨fun later hlater hcalm => ?_, ?_⟩
        · have hwith : Apart fused (sign .kwWith :: _) := .sign rfl (by decide)
            (.of_head (head?_fieldsChunks fields later) rfl) (hclosed.apart later hlater hcalm)
          have happart := (href.apart _ hwith.blank (.blank (by simp))).blank
          simpa only [baseChunks, List.append_assoc, List.cons_append,
            List.nil_append] using happart
        · simpa [baseChunks] using ⟨href.colon, by simpa using hclosed.colon⟩
  rw [Expr.IsSolid, Expr.bare_record]
  refine ⟨htype.toTidy.append ⟨fun later hlater hcalm => ?_, ?_⟩ fun _ _ => .blank (by simp),
    htype.front.append _, by simp⟩
  · have hbrace : Apart fused (sign .lBrace :: _) := .loose rfl (hopened.apart later hlater hcalm)
    exact hbrace.blank
  · simpa using hopened.colon

/-! ## Types and static arguments -/

theorem tidy_table {element : TypeExpr} {length : Expr}
    (helement : Tidy fused false (element.chunks full))
    (hlength : length.IsSolid fused full) :
    Tidy fused false ((TypeExpr.table span element length).chunks full) := by
  have hselect := hlength.enclose (Prec.hat.level + 1) (by decide)
  have hmore : Tidy fused false (sign .caret :: length.chunks full (Prec.hat.level + 1)) :=
    ⟨fun later hlater hcalm => .loose rfl (hselect.apart later hlater hcalm),
      by simpa using hselect.colon⟩
  exact helement.append hmore fun later _ => .of_head rfl rfl (by simp)

theorem tidy_explicit {explicit : Bool} {kind : Kind} {chunks : List Chunk}
    (h : Tidy fused false chunks) (hfixed : kind.spelling?.isSome = true)
    (hkind : kind ≠ .percent ∧ kind ≠ .colon) :
    Tidy fused false (explicitSign explicit kind ++ chunks) := by
  cases explicit with
  | true => exact h.lead _ hfixed hkind
  | false => exact h

theorem tidy_optionalArgs {dotted : Bool} {args : Option (List StaticArg)}
    (h : ∀ list, args = some list → ∀ arg ∈ list, TidyArg fused arg.isOp (arg.chunks full)) :
    Tidy fused dotted (optionalArgs full args) := by
  cases args with
  | none => exact .nil
  | some list => exact tidy_args (h list rfl)

/-- A node with its static arguments. -/
theorem tidy_node {node : Reference} (hnode : node.Printable) {args : Option (List StaticArg)}
    (h : ∀ list, args = some list → ∀ arg ∈ list, TidyArg fused arg.isOp (arg.chunks full)) :
    Tidy fused true (node.chunks ++ optionalArgs full args) := by
  refine (hnode.solid 0).toTidy.append (tidy_optionalArgs h) fun later hcalm => ?_
  cases args with
  | none => exact hcalm
  | some list => exact .of_head rfl rfl (by simp [optionalArgs, StaticArg.enclose])

theorem tidyArg_node {keyword : Option NodeKind} {target : Span} {node : Reference}
    {args : Option (List StaticArg)} (hnode : node.Printable)
    (h : ∀ list, args = some list → ∀ arg ∈ list, TidyArg fused arg.isOp (arg.chunks full)) :
    TidyArg fused false ((StaticArg.node span keyword target node args).chunks full) := by
  have hplain := (tidy_node hnode h).weaken
  refine Tidy.arg ?_ _
  rw [StaticArg.chunks, List.append_assoc]
  cases keyword with
  | none => exact hplain
  | some kind => exact hplain.lead _ (by cases kind <;> rfl) (by cases kind <;> decide)

end

/-! ## All forms together -/

mutual

/-- Every printable expression keeps its words apart. -/
theorem Expr.Printable.solid : ∀ {called : Bool} {expr : Expr}, expr.Printable called →
    ∀ full, expr.IsSolid fused full
  | _, _, .bool, _ => solid_bool
  | _, _, .int h, _ => solid_int h
  | _, _, .real h, _ => solid_real h
  | _, _, .name href, _ => href.solid _
  | _, _, .inst hnode hargs, full => solid_inst hnode fun arg harg => (hargs arg harg).tidy full
  | _, _, .tuple hitems, full =>
      solid_operands (fun item hitem => (hitems item hitem).solid full) _ _
  | _, _, .array hitems, full => solid_array fun item hitem => (hitems item hitem).solid full
  | _, _, .record htype hbase hnames hvalues, full =>
      solid_record htype hbase hnames fun init hinit => (hvalues init hinit).solid full
  | _, _, .field hvalue hnumber hfield, full =>
      solid_field (hvalue.solid full) (Expr.runsIntoDot_eq_false hnumber) hfield
  | _, _, .index hvalue hindex, full => solid_index (hvalue.solid full) (hindex.solid full)
  | _, _, .slice hvalue hfirst hlast hstep, full =>
      solid_slice (hvalue.solid full) (hfirst.solid full) (hlast.solid full)
        fun width hwidth => (hstep width hwidth).solid full
  | _, _, .call hcallee hargs, full =>
      solid_call (hcallee.solid full) fun arg harg => (hargs arg harg).solid full
  | _, _, .cond hcondition hyes hno, full =>
      solid_cond (hcondition.solid full) (hyes.solid full) (hno.solid full)
  | _, _, .merge hclock _ hpatterns hvalues, full =>
      solid_merge hclock hpatterns fun arm harm => (hvalues arm harm).solid full
  | _, _, .sampled hvalue hclock, full => solid_sampled (hvalue.solid full) hclock
  | _, _, .unary hoperand, full => solid_unary (hoperand.solid full)
  | _, _, .binary hlhs hrhs, full => solid_binary (hlhs.solid full) (hrhs.solid full)
  | _, _, .list hoperands, full => solid_list fun item hitem => (hoperands item hitem).solid full

/-- Every printable type keeps its words apart. -/
theorem TypeExpr.Printable.tidy : ∀ {type : TypeExpr}, type.Printable →
    ∀ full, Tidy fused false (type.chunks full)
  | _, .bool, _ | _, .int, _ | _, .real, _ =>
      ⟨fun _ hlater hcalm => .sign rfl (by decide) hcalm.ident hlater, by simp [TypeExpr.chunks]⟩
  | _, .named href, _ => (href.solid 0).toTidy.weaken
  | _, .table helement hlength, full => tidy_table (helement.tidy full) (hlength.solid full)

/-- Every printable static argument keeps its words apart. -/
theorem StaticArg.Printable.tidy : ∀ {arg : StaticArg}, arg.Printable →
    ∀ full, TidyArg fused arg.isOp (arg.chunks full)
  | _, .name href, _ => (href.solid 0).toTidy.weaken.arg _
  | _, .type _ htype, full => (tidy_explicit (htype.tidy full) rfl (by decide)).arg _
  | _, .const _ hvalue, full => (tidy_explicit (hvalue.solid full).expr rfl (by decide)).arg _
  | _, .node _ hnode hargs, full =>
      tidyArg_node hnode fun list hlist arg harg => (hargs list hlist arg harg).tidy full
  | _, .op, _ => tidyArg_op _

end

end Lustre
