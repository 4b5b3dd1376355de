import Lustre.Proofs.Printer.Fused
import Lustre.Proofs.Token.Spelling
import Lustre.Proofs.Tree.Subexpr

/-!
# Trees whose words can be printed

What was read from a text is shaped, and its words are spelt like words of a text.  This is
nearly enough for it to be printable: only a literal number that a field is selected from is
not, since it runs into the dot.  Two properties are asked of the trees in fused text as of
others: what the words of a tree are, and what the expressions in it select from.

Both are handed down from a tree to its parts.  From a list of words they follow where no
number stands directly before a dot, since the words of an expression stand among those of
the whole tree without a gap.
-/

namespace Lustre

open Lexeme

/-! ## Words -/

namespace Lexeme

/-- A word is spelt as the words of its kind are.  In fused text an integer may end in a dot. -/
def Spelt (fused : Bool) : Lexeme → Prop
  | plain .intLit text => isDigits text = true ∨ fused = true ∧ IsDotted text
  | word => word.Proper

theorem Proper.spelt {word : Lexeme} (h : word.Proper) (fused : Bool) : word.Spelt fused := by
  unfold Spelt
  split
  · exact .inl h
  · exact h

/-- Whether a word is a literal number. -/
def isNumber : Lexeme → Bool
  | plain kind _ => kind == .intLit || kind == .realLit
  | pragma _ _ => false

/-- Whether a dot directly behind a word would go on with it: it is an integer, or a real that ends
in a dot already. -/
def runsIntoDot : Lexeme → Bool
  | plain .intLit _ => true
  | plain .realLit digits => digits.toList.getLast? == some '.'
  | _ => false

end Lexeme

/-! ## Selections from numbers -/

namespace Expr

/-- Whether a field is selected directly from a literal number. -/
def selectsNumber : Expr → Bool
  | field _ value _ => value.isNumber
  | _ => false

/-- Whether a field is selected directly from a number that the dot goes on with. -/
def joinsNumber : Expr → Bool
  | field _ value _ => value.runsIntoDot
  | _ => false

theorem joinsNumber_eq_false {expr : Expr} (h : expr.selectsNumber = false) :
    expr.joinsNumber = false := by
  cases expr with
  | field => exact runsIntoDot_eq_false h
  | _ => rfl

/-- Whether a field is selected directly from an integer, which leaves of its name what begins no
word. -/
def breaksNumber : Expr → Bool
  | field _ (int _ _) selected => Lustre.breaksNumber selected.name
  | _ => false

/-- A selection from a number does no harm: the dot does not go on with the number, or in fused text
what comes of it can be cut. -/
def Fits (fused : Bool) (expr : Expr) : Prop :=
  if fused then expr.breaksNumber = false else expr.joinsNumber = false

theorem fits_of_isInst {fused : Bool} {callee : Expr} (h : callee.isInst = true) :
    callee.Fits fused := by
  cases callee with
  | inst => cases fused <;> rfl
  | _ => cases h

end Expr

/-! ## Names, clocks and patterns -/

section

variable {fused : Bool}

theorem Ident.printable {ident : Ident} (h : ∀ word ∈ ident.words, word.Spelt fused) :
    ident.Printable := by
  rw [words, List.forall_mem_cons] at h
  refine ⟨h.1, fun pragma hmem => ?_⟩
  exact h.2 (.pragma pragma.key pragma.value) (List.mem_map.mpr ⟨pragma, hmem, rfl⟩)

theorem Reference.printable {ref : Reference} (h : ∀ word ∈ ref.words, word.Spelt fused) :
    ref.Printable := by
  obtain ⟨package, member, place⟩ := ref
  cases package with
  | none => exact ⟨h _ List.mem_cons_self, fun package hpackage => by cases hpackage⟩
  | some package =>
      simp only [words, List.forall_mem_cons] at h
      refine ⟨h.2.2.1, fun other hother => ?_⟩
      cases hother
      exact h.1

theorem Clock.printable {clock : Clock} (h : ∀ word ∈ clock.words, word.Spelt fused) :
    clock.Printable := by
  cases clock with
  | on clock => exact Ident.printable h
  | not clock parenthesized =>
      cases parenthesized with
      | true =>
          simp only [words, List.forall_mem_append, List.forall_mem_cons] at h
          exact Ident.printable h.1.2.2
      | false =>
          simp only [words, List.forall_mem_cons] at h
          exact Ident.printable h.2
  | case name clock =>
      simp only [words, List.forall_mem_append, List.forall_mem_cons] at h
      exact ⟨Reference.printable h.1.1, Ident.printable h.1.2.2⟩

theorem Pattern.printable {pattern : Pattern} (h : ∀ word ∈ pattern.words, word.Spelt fused) :
    pattern.Printable := by
  cases pattern with
  | name ref => exact Reference.printable h
  | bool value => trivial

end

/-! ## Expressions, types and static arguments -/

/-- Predicates on expressions, on types and on static arguments that a tree has if its parts have
them, where its words are spelt as in a text and selections of fields do no harm (`F`).  The
predicate on expressions may tell those that are called at once. -/
structure Inherited (fused : Bool) (F : Expr → Prop) (E : Bool → Expr → Prop) (T : TypeExpr → Prop)
    (A : StaticArg → Prop) : Prop where
  callee {callee : Expr} (h : callee.isInst = true) : F callee
  bool {called span value} : E called (.bool span value)
  int {called span digits} (h : (plain .intLit digits).Spelt fused) : E called (.int span digits)
  real {called span digits} (h : isWhole .realLit digits = true) : E called (.real span digits)
  name {called span ref} (href : ref.Printable) : E called (.name span ref)
  inst {span node args} (hnode : node.Printable) (hargs : ∀ arg ∈ args, A arg) :
    E true (.inst span node (some args))
  tuple {called span items} (hitems : ∀ item ∈ items, E false item) : E called (.tuple span items)
  array {called span items} (hitems : ∀ item ∈ items, E false item) : E called (.array span items)
  record {called span type base fields} (htype : type.Printable)
    (hbase : ∀ ref, base = some ref → ref.Printable)
    (hnames : ∀ init ∈ fields, init.field.Printable)
    (hvalues : ∀ init ∈ fields, E false init.value) : E called (.record span type base fields)
  field {called span value field} (hvalue : E false value)
    (hfits : F (.field span value field)) (hfield : field.Printable) :
    E called (.field span value field)
  index {called span value index} (hvalue : E false value) (hindex : E false index) :
    E called (.index span value index)
  slice {called span value first last step} (hvalue : E false value) (hfirst : E false first)
    (hlast : E false last) (hstep : ∀ width, step = some width → E false width) :
    E called (.slice span value first last step)
  call {called span callee args} (hcallee : E true callee) (hargs : ∀ arg ∈ args, E false arg) :
    E called (.call span callee args)
  cond {called span opening condition yes no} (hcondition : E false condition) (hyes : E false yes)
    (hno : E false no) : E called (.cond span opening condition yes no)
  merge {span clock arms} (hclock : clock.Printable) (hnil : arms ≠ [])
    (hpatterns : ∀ arm ∈ arms, arm.pattern.Printable) (hvalues : ∀ arm ∈ arms, E false arm.value) :
    E false (.merge span clock arms)
  sampled {called span value clock} (hvalue : E false value) (hclock : clock.value.Printable) :
    E called (.sampled span value clock)
  unary {called span op operand} (hoperand : E false operand) : E called (.unary span op operand)
  binary {called span op lhs rhs} (hlhs : E false lhs) (hrhs : E false rhs) :
    E called (.binary span op lhs rhs)
  list {called span op operands} (hoperands : ∀ item ∈ operands, E false item) :
    E called (.list span op operands)
  boolType {span} : T (.bool span)
  intType {span} : T (.int span)
  realType {span} : T (.real span)
  namedType {span ref} (href : ref.Printable) : T (.named span ref)
  table {span element length} (helement : T element) (hlength : E false length) :
    T (.table span element length)
  nameArg {span ref} (href : ref.Printable) : A (.name span ref)
  typeArg {span type explicit} (hsort : explicit = true ∨ type.isBuiltin = true) (htype : T type) :
    A (.type span type explicit)
  constArg {span value explicit} (hsort : explicit = true ∨ value.isName = false)
    (hvalue : E false value) : A (.const span value explicit)
  nodeArg {span keyword target node args} (hsort : keyword.isSome = true ∨ args.isSome = true)
    (hnode : node.Printable) (hargs : ∀ list, args = some list → ∀ arg ∈ list, A arg) :
    A (.node span keyword target node args)
  opArg {span op} : A (.op span op)

namespace Inherited

theorem exprs_callee {callee : Expr} {P : Expr → Prop} (hinst : callee.isInst = true → P callee)
    (h : ∀ expr ∈ if callee.isInst then callee.within else callee :: callee.within, P expr) :
    ∀ expr ∈ callee.exprs, P expr := by
  split at h
  · rename_i heq
    exact List.forall_mem_cons.mpr ⟨hinst heq, h⟩
  · exact h

variable {fused : Bool} {F : Expr → Prop} {E : Bool → Expr → Prop} {T : TypeExpr → Prop}
  {A : StaticArg → Prop}

mutual

/-- Every shaped expression has what is inherited. -/
theorem ofExpr (h : Inherited fused F E T A) : ∀ {called : Bool} (e : Expr), e.Shaped called →
    (∀ word ∈ e.words, word.Spelt fused) → (∀ s ∈ e.exprs, F s) → E called e
  | _, .error _, hshaped, _, _ => absurd hshaped id
  | _, .bool _ _, _, _, _ => h.bool
  | _, .int _ _, _, hw, _ => by
      rw [Expr.words, List.forall_mem_singleton] at hw
      exact h.int hw
  | _, .real _ _, _, hw, _ => h.real (hw _ List.mem_cons_self)
  | _, .name _ _, _, hw, _ => h.name (Reference.printable hw)
  | _, .inst _ node args, hshaped, hw, he => by
      obtain ⟨rfl, hsome, hargs⟩ := hshaped
      obtain ⟨-, he⟩ := List.forall_mem_cons.mp he
      -- an instance without arguments is a name
      cases args with
      | none => cases hsome
      | some args =>
          simp only [Expr.words, argsWords, List.forall_mem_append, List.forall_mem_cons] at hw
          exact h.inst (Reference.printable hw.1) (h.ofArgs args hargs hw.2.1.2 he)
  | _, .tuple _ items, hshaped, hw, he => by
      simp only [Expr.words, List.forall_mem_append, List.forall_mem_cons] at hw
      exact h.tuple (h.ofExprs items hshaped hw.1.2 (List.forall_mem_cons.mp he).2)
  | _, .array _ items, hshaped, hw, he => by
      simp only [Expr.words, List.forall_mem_append, List.forall_mem_cons] at hw
      exact h.array (h.ofExprs items hshaped hw.1.2 (List.forall_mem_cons.mp he).2)
  | _, .record _ type base fields, hshaped, hw, he => by
      simp only [Expr.words, List.forall_mem_append, List.forall_mem_cons] at hw
      obtain ⟨⟨⟨htype, -, hbase⟩, hfields⟩, -⟩ := hw
      have hfields := h.ofFields fields hshaped hfields (List.forall_mem_cons.mp he).2
      refine h.record (Reference.printable htype) ?_ (fun init hinit => (hfields init hinit).1)
        fun init hinit => (hfields init hinit).2
      rintro ref rfl
      rw [baseWords, List.forall_mem_append] at hbase
      exact Reference.printable hbase.1
  | _, .field _ value field, hshaped, hw, he => by
      simp only [Expr.words, List.forall_mem_append, List.forall_mem_cons] at hw
      obtain ⟨hself, he⟩ := List.forall_mem_cons.mp he
      exact h.field (h.ofExpr value hshaped hw.1 he) hself (Ident.printable hw.2.2)
  | _, .index _ value index, hshaped, hw, he => by
      simp only [Expr.words, List.forall_mem_append, List.forall_mem_cons] at hw
      obtain ⟨⟨hvalue, -, hindex⟩, -⟩ := hw
      obtain ⟨-, he⟩ := List.forall_mem_cons.mp he
      rw [Expr.within, List.forall_mem_append] at he
      exact h.index (h.ofExpr value hshaped.1 hvalue he.1)
        (h.ofExpr index hshaped.2 hindex he.2)
  | _, .slice _ value first last step, hshaped, hw, he => by
      simp only [Expr.words, List.forall_mem_append, List.forall_mem_cons] at hw
      obtain ⟨⟨⟨⟨hvalue, -, hfirst⟩, -, hlast⟩, hstep⟩, -⟩ := hw
      obtain ⟨-, he⟩ := List.forall_mem_cons.mp he
      simp only [Expr.within, List.forall_mem_append] at he
      refine h.slice (h.ofExpr value hshaped.1 hvalue he.1.1.1)
        (h.ofExpr first hshaped.2.1 hfirst he.1.1.2)
        (h.ofExpr last hshaped.2.2.1 hlast he.1.2) ?_
      rintro width rfl
      exact h.ofExpr width hshaped.2.2.2 (List.forall_mem_cons.mp hstep).2 he.2
  | _, .call _ callee args, hshaped, hw, he => by
      simp only [Expr.words, List.forall_mem_append, List.forall_mem_cons] at hw
      obtain ⟨-, he⟩ := List.forall_mem_cons.mp he
      rw [Expr.within, List.forall_mem_append] at he
      -- an instance that is called is no expression by itself, but what is inside it fits
      have hcallee := exprs_callee h.callee he.1
      exact h.call (h.ofExpr callee hshaped.1 hw.1.1 hcallee)
        (h.ofExprs args hshaped.2 hw.1.2.2 he.2)
  | _, .cond _ _ condition yes no, hshaped, hw, he => by
      simp only [Expr.words, List.forall_mem_append, List.forall_mem_cons] at hw
      obtain ⟨⟨⟨-, hcondition⟩, -, hyes⟩, -, hno⟩ := hw
      obtain ⟨-, he⟩ := List.forall_mem_cons.mp he
      simp only [Expr.within, List.forall_mem_append] at he
      exact h.cond (h.ofExpr condition hshaped.1 hcondition he.1.1)
        (h.ofExpr yes hshaped.2.1 hyes he.1.2) (h.ofExpr no hshaped.2.2 hno he.2)
  | _, .merge _ clock arms, hshaped, hw, he => by
      obtain ⟨rfl, hnil, harms⟩ := hshaped
      simp only [Expr.words, List.forall_mem_append, List.forall_mem_cons] at hw
      have harms := h.ofArms arms harms hw.2 (List.forall_mem_cons.mp he).2
      exact h.merge (Ident.printable hw.1.2) hnil (fun arm harm => (harms arm harm).1)
        fun arm harm => (harms arm harm).2
  | _, .sampled _ value clock, hshaped, hw, he => by
      simp only [Expr.words, List.forall_mem_append, List.forall_mem_cons] at hw
      exact h.sampled (h.ofExpr value hshaped.2 hw.1 (List.forall_mem_cons.mp he).2)
        (Clock.printable hw.2.2)
  | _, .unary _ _ operand, hshaped, hw, he =>
      h.unary (h.ofExpr operand hshaped.2 (List.forall_mem_cons.mp hw).2
        (List.forall_mem_cons.mp he).2)
  | _, .binary _ _ lhs rhs, hshaped, hw, he => by
      simp only [Expr.words, List.forall_mem_append, List.forall_mem_cons] at hw
      obtain ⟨-, he⟩ := List.forall_mem_cons.mp he
      rw [Expr.within, List.forall_mem_append] at he
      exact h.binary (h.ofExpr lhs hshaped.2.1 hw.1 he.1)
        (h.ofExpr rhs hshaped.2.2 hw.2.2 he.2)
  | _, .list _ _ operands, hshaped, hw, he => by
      simp only [Expr.words, List.forall_mem_append, List.forall_mem_cons] at hw
      exact h.list (h.ofExprs operands hshaped hw.1.2.2 (List.forall_mem_cons.mp he).2)

theorem ofExprs (h : Inherited fused F E T A) : ∀ exprs : List Expr, Expr.listShaped exprs →
    (∀ word ∈ Expr.listWords exprs, word.Spelt fused) → (∀ s ∈ Expr.listExprs exprs, F s) →
    ∀ expr ∈ exprs, E false expr
  | [], _, _, _ => fun _ hmem => (by cases hmem)
  | expr :: exprs, hshaped, hw, he => by
      rw [Expr.listWords, List.forall_mem_append] at hw
      rw [Expr.listExprs, List.forall_mem_append] at he
      exact List.forall_mem_cons.mpr ⟨h.ofExpr expr hshaped.1 hw.1 he.1,
        h.ofExprs exprs hshaped.2 hw.2 he.2⟩

theorem ofFields (h : Inherited fused F E T A) :
    ∀ fields : List FieldInit, FieldInit.listShaped fields →
    (∀ word ∈ FieldInit.listWords fields, word.Spelt fused) →
    (∀ s ∈ FieldInit.listExprs fields, F s) →
    ∀ init ∈ fields, init.field.Printable ∧ E false init.value
  | [], _, _, _ => fun _ hmem => (by cases hmem)
  | ⟨_, field, value⟩ :: fields, hshaped, hw, he => by
      simp only [FieldInit.listWords, List.forall_mem_append, List.forall_mem_cons] at hw
      rw [FieldInit.listExprs, List.forall_mem_append] at he
      obtain ⟨⟨hfield, -, hvalue⟩, hw⟩ := hw
      exact List.forall_mem_cons.mpr ⟨⟨Ident.printable hfield,
        h.ofExpr value hshaped.1 hvalue he.1⟩, h.ofFields fields hshaped.2 hw he.2⟩

theorem ofArms (h : Inherited fused F E T A) : ∀ arms : List MergeArm, MergeArm.listShaped arms →
    (∀ word ∈ MergeArm.listWords arms, word.Spelt fused) →
    (∀ s ∈ MergeArm.listExprs arms, F s) →
    ∀ arm ∈ arms, arm.pattern.Printable ∧ E false arm.value
  | [], _, _, _ => fun _ hmem => (by cases hmem)
  | ⟨_, pattern, value⟩ :: arms, hshaped, hw, he => by
      simp only [MergeArm.listWords, List.forall_mem_append, List.forall_mem_cons] at hw
      rw [MergeArm.listExprs, List.forall_mem_append] at he
      obtain ⟨⟨⟨-, hpattern⟩, -, hvalue⟩, -, hw⟩ := hw
      exact List.forall_mem_cons.mpr ⟨⟨Pattern.printable hpattern,
        h.ofExpr value hshaped.1 hvalue he.1⟩, h.ofArms arms hshaped.2 hw he.2⟩

/-- Every shaped type has. -/
theorem ofType (h : Inherited fused F E T A) : ∀ type : TypeExpr, type.Shaped →
    (∀ word ∈ type.words, word.Spelt fused) → (∀ s ∈ type.within, F s) → T type
  | .bool _, _, _, _ => h.boolType
  | .int _, _, _, _ => h.intType
  | .real _, _, _, _ => h.realType
  | .named _ _, _, hw, _ => h.namedType (Reference.printable hw)
  | .table _ element length, hshaped, hw, he => by
      simp only [TypeExpr.words, List.forall_mem_append, List.forall_mem_cons] at hw
      rw [TypeExpr.within, List.forall_mem_append] at he
      exact h.table (h.ofType element hshaped.1 hw.1 he.1)
        (h.ofExpr length hshaped.2 hw.2.2 he.2)

/-- Every shaped static argument has. -/
theorem ofArg (h : Inherited fused F E T A) : ∀ arg : StaticArg, arg.Shaped →
    (∀ word ∈ arg.words, word.Spelt fused) → (∀ s ∈ arg.within, F s) → A arg
  | .name _ _, _, hw, _ => h.nameArg (Reference.printable hw)
  | .type _ type _, hshaped, hw, he =>
      h.typeArg hshaped.1 (h.ofType type hshaped.2 (List.forall_mem_append.mp hw).2 he)
  | .const _ value _, hshaped, hw, he =>
      h.constArg hshaped.1 (h.ofExpr value hshaped.2 (List.forall_mem_append.mp hw).2 he)
  | .node _ _ _ node args, hshaped, hw, he => by
      simp only [StaticArg.words, List.forall_mem_append] at hw
      refine h.nodeArg hshaped.1 (Reference.printable hw.1.2) ?_
      rintro list rfl
      simp only [argsWords, List.forall_mem_append, List.forall_mem_cons] at hw
      exact h.ofArgs list hshaped.2 hw.2.1.2 he
  | .op _ _, _, _, _ => h.opArg

theorem ofArgs (h : Inherited fused F E T A) : ∀ args : List StaticArg, StaticArg.listShaped args →
    (∀ word ∈ StaticArg.listWords args, word.Spelt fused) →
    (∀ s ∈ StaticArg.listExprs args, F s) → ∀ arg ∈ args, A arg
  | [], _, _, _ => fun _ hmem => (by cases hmem)
  | arg :: args, hshaped, hw, he => by
      rw [StaticArg.listWords, List.forall_mem_append] at hw
      rw [StaticArg.listExprs, List.forall_mem_append] at he
      exact List.forall_mem_cons.mpr ⟨h.ofArg arg hshaped.1 hw.1 he.1,
        h.ofArgs args hshaped.2 hw.2 he.2⟩

end

end Inherited

/-- What is read from a text with no selection from a number is printable. -/
theorem inherited_printable : Inherited false (fun expr => expr.selectsNumber = false)
    Expr.Printable TypeExpr.Printable StaticArg.Printable where
  callee {callee} h := by
    cases callee with
    | inst => rfl
    | _ => cases h
  bool := .bool
  -- an integer with a dot is no word of a text whose numbers are not fused
  int h := .int (h.resolve_right fun hdotted => absurd hdotted.1 (by decide))
  real := .real
  name := .name
  inst := .inst
  tuple := .tuple
  array := .array
  record := .record
  field hvalue hfits hfield := .field hvalue hfits hfield
  index := .index
  slice := .slice
  call := .call
  cond := .cond
  merge := .merge
  sampled := .sampled
  unary := .unary
  binary := .binary
  list := .list
  boolType := .bool
  intType := .int
  realType := .real
  namedType := .named
  table := .table
  nameArg := .name
  typeArg := .type
  constArg := .const
  nodeArg := .node
  opArg := .op

/-! ## Words of the expressions inside -/

section

variable {α : Type} {part first second : List α} {a : α}

theorem infix_left (h : part <:+: first) : part <:+: first ++ second :=
  h.trans (List.prefix_append _ _).isInfix

theorem infix_right (h : part <:+: second) : part <:+: first ++ second :=
  h.trans (List.suffix_append _ _).isInfix

theorem infix_tail (h : part <:+: first) : part <:+: a :: first :=
  h.trans (List.suffix_cons _ _).isInfix

end

mutual

/-- The words of an expression inside a tree stand together among those of the tree. -/
theorem Expr.words_segment : ∀ (e : Expr), ∀ s ∈ e.within, s.words <:+: e.words
  | .error _, _, hs | .bool _ _, _, hs | .int _ _, _, hs | .real _ _, _, hs | .name _ _, _, hs => by
      cases hs
  | .inst _ _ args, s, hs => infix_right (argsWords_segment args s hs)
  | .tuple _ items, s, hs | .array _ items, s, hs =>
      infix_left (infix_tail (Expr.listWords_segment items s hs))
  | .record _ _ _ fields, s, hs =>
      infix_left (infix_right (FieldInit.listWords_segment fields s hs))
  | .field _ value _, s, hs => infix_left (Expr.exprs_segment value s hs)
  | .index _ value index, s, hs => by
      rcases List.mem_append.mp hs with hs | hs
      · exact infix_left (infix_left (Expr.exprs_segment value s hs))
      · exact infix_left (infix_right (infix_tail (Expr.exprs_segment index s hs)))
  | .slice _ value first last step, s, hs => by
      simp only [Expr.within, List.mem_append] at hs
      rcases hs with ((hs | hs) | hs) | hs
      · exact infix_left (infix_left (infix_left (infix_left (Expr.exprs_segment value s hs))))
      · exact infix_left (infix_left (infix_left (infix_right (infix_tail
          (Expr.exprs_segment first s hs)))))
      · exact infix_left (infix_left (infix_right (infix_tail (Expr.exprs_segment last s hs))))
      · exact infix_left (infix_right (stepWords_segment step s hs))
  | .call _ callee args, s, hs => by
      rcases List.mem_append.mp hs with hs | hs
      · -- an instance that is called is left out, but not what is inside it
        have hcallee : s ∈ callee.exprs := by
          split at hs
          · exact List.mem_cons_of_mem _ hs
          · exact hs
        exact infix_left (infix_left (Expr.exprs_segment callee s hcallee))
      · exact infix_left (infix_right (infix_tail (Expr.listWords_segment args s hs)))
  | .cond _ _ condition yes no, s, hs => by
      simp only [Expr.within, List.mem_append] at hs
      rcases hs with (hs | hs) | hs
      · exact infix_left (infix_left (infix_tail (Expr.exprs_segment condition s hs)))
      · exact infix_left (infix_right (infix_tail (Expr.exprs_segment yes s hs)))
      · exact infix_right (infix_tail (Expr.exprs_segment no s hs))
  | .merge _ _ arms, s, hs => infix_right (MergeArm.listWords_segment arms s hs)
  | .sampled _ value _, s, hs => infix_left (Expr.exprs_segment value s hs)
  | .unary _ _ operand, s, hs => infix_tail (Expr.exprs_segment operand s hs)
  | .binary _ _ lhs rhs, s, hs => by
      rcases List.mem_append.mp hs with hs | hs
      · exact infix_left (Expr.exprs_segment lhs s hs)
      · exact infix_right (infix_tail (Expr.exprs_segment rhs s hs))
  | .list _ _ operands, s, hs =>
      infix_left (infix_tail (infix_tail (Expr.listWords_segment operands s hs)))

/-- The same for the expression itself and those inside it. -/
theorem Expr.exprs_segment (e : Expr) : ∀ s ∈ e.exprs, s.words <:+: e.words := by
  intro s hs
  rcases List.mem_cons.mp hs with rfl | hs
  · exact List.infix_refl _
  · exact Expr.words_segment e s hs

theorem Expr.listWords_segment : ∀ exprs : List Expr,
    ∀ s ∈ Expr.listExprs exprs, s.words <:+: Expr.listWords exprs
  | [], _, hs => by cases hs
  | expr :: exprs, s, hs => by
      rcases List.mem_append.mp hs with hs | hs
      · exact infix_left (Expr.exprs_segment expr s hs)
      · exact infix_right (Expr.listWords_segment exprs s hs)

theorem stepWords_segment : ∀ step : Option Expr, ∀ s ∈ stepExprs step, s.words <:+: stepWords step
  | none, _, hs => by cases hs
  | some width, s, hs => infix_tail (Expr.exprs_segment width s hs)

theorem FieldInit.listWords_segment : ∀ fields : List FieldInit,
    ∀ s ∈ FieldInit.listExprs fields, s.words <:+: FieldInit.listWords fields
  | [], _, hs => by cases hs
  | ⟨_, _, value⟩ :: fields, s, hs => by
      rcases List.mem_append.mp hs with hs | hs
      · exact infix_left (infix_right (infix_tail (Expr.exprs_segment value s hs)))
      · exact infix_right (FieldInit.listWords_segment fields s hs)

theorem MergeArm.listWords_segment : ∀ arms : List MergeArm,
    ∀ s ∈ MergeArm.listExprs arms, s.words <:+: MergeArm.listWords arms
  | [], _, hs => by cases hs
  | ⟨_, _, value⟩ :: arms, s, hs => by
      rcases List.mem_append.mp hs with hs | hs
      · exact infix_left (infix_right (infix_tail (Expr.exprs_segment value s hs)))
      · exact infix_right (infix_tail (MergeArm.listWords_segment arms s hs))

theorem TypeExpr.words_segment : ∀ type : TypeExpr, ∀ s ∈ type.within, s.words <:+: type.words
  | .bool _, _, hs | .int _, _, hs | .real _, _, hs | .named _ _, _, hs => by cases hs
  | .table _ element length, s, hs => by
      rcases List.mem_append.mp hs with hs | hs
      · exact infix_left (TypeExpr.words_segment element s hs)
      · exact infix_right (infix_tail (Expr.exprs_segment length s hs))

theorem StaticArg.words_segment : ∀ arg : StaticArg, ∀ s ∈ arg.within, s.words <:+: arg.words
  | .name _ _, _, hs | .op _ _, _, hs => by cases hs
  | .type _ type _, s, hs => infix_right (TypeExpr.words_segment type s hs)
  | .const _ value _, s, hs => infix_right (Expr.exprs_segment value s hs)
  | .node _ _ _ _ args, s, hs => infix_right (argsWords_segment args s hs)

theorem StaticArg.listWords_segment : ∀ args : List StaticArg,
    ∀ s ∈ StaticArg.listExprs args, s.words <:+: StaticArg.listWords args
  | [], _, hs => by cases hs
  | arg :: args, s, hs => by
      rcases List.mem_append.mp hs with hs | hs
      · exact infix_left (StaticArg.words_segment arg s hs)
      · exact infix_right (StaticArg.listWords_segment args s hs)

theorem argsWords_segment : ∀ args : Option (List StaticArg),
    ∀ s ∈ argsExprs args, s.words <:+: argsWords args
  | none, _, hs => by cases hs
  | some args, s, hs => infix_left (infix_tail (StaticArg.listWords_segment args s hs))

end

/-! ## Numbers before dots -/

/-- Whether a word with some property stands directly before a dot. -/
def meetsDot (before : Lexeme → Bool) : List Lexeme → Bool
  | word :: next :: words => before word && next == sign .dot || meetsDot before (next :: words)
  | _ => false

/-- Whether a literal number stands directly before a dot. -/
def dotsNumber (words : List Lexeme) : Bool := meetsDot Lexeme.isNumber words

section

variable {before : Lexeme → Bool}

theorem meetsDot_left {first second : List Lexeme}
    (h : meetsDot before (first ++ second) = false) : meetsDot before first = false := by
  induction first with
  | nil => rfl
  | cons word first ih =>
      cases first with
      | nil => rfl
      | cons next first =>
          rw [List.cons_append, List.cons_append, meetsDot, Bool.or_eq_false_iff] at h
          rw [meetsDot, h.1, ih h.2]
          rfl

theorem meetsDot_right {first second : List Lexeme}
    (h : meetsDot before (first ++ second) = false) : meetsDot before second = false := by
  induction first with
  | nil => exact h
  | cons word first ih =>
      apply ih
      rw [List.cons_append] at h
      cases hrest : first ++ second with
      | nil => rfl
      | cons next rest =>
          rw [hrest] at h
          exact (Bool.or_eq_false_iff.mp h).2

/-- Where no such word stands before a dot, no field is selected from an expression that is one. -/
theorem Expr.meetsDot_selected {e : Expr} (h : meetsDot before e.words = false) {span : Span}
    {value : Expr} {field : Ident} (hmem : .field span value field ∈ e.exprs) {word : Lexeme}
    (hword : value.words = [word]) : before word = false := by
  obtain ⟨first, last, hwords⟩ := Expr.exprs_segment e _ hmem
  rw [← hwords] at h
  have hdots := meetsDot_right (meetsDot_left h)
  rw [Expr.words, hword, List.singleton_append, meetsDot, Bool.or_eq_false_iff] at hdots
  simpa using hdots.1

end

/-- Where no number stands before a dot, no field is selected from a number. -/
theorem Expr.selectsNumber_of_dots {e : Expr} (h : dotsNumber e.words = false) :
    ∀ s ∈ e.exprs, s.selectsNumber = false := by
  intro s hs
  cases s with
  | field _ value field =>
      cases value with
      | int _ digits => cases Expr.meetsDot_selected h hs rfl
      | real _ digits => cases Expr.meetsDot_selected h hs rfl
      | _ => rfl
  | _ => rfl

/-- Where no number stands before a dot that goes on with it, none is selected from that one. -/
theorem Expr.joinsNumber_of_dots {e : Expr} (h : meetsDot Lexeme.runsIntoDot e.words = false) :
    ∀ s ∈ e.exprs, s.joinsNumber = false := by
  intro s hs
  cases s with
  | field _ value field =>
      cases value with
      | int _ digits => cases Expr.meetsDot_selected h hs rfl
      | real _ digits => exact Expr.meetsDot_selected h hs rfl
      | _ => rfl
  | _ => rfl

end Lustre
