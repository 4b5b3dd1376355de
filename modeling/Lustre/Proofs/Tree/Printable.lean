import Lustre.Proofs.Token.Munching
import Lustre.Proofs.Tree.Shape

/-!
# Trees that can be printed

The types of the trees admit more than any text can say: names that are no words,
instances that are not called, arguments that would be taken for one of another
sort.  An expression is `Printable` if it has none of these.

The one condition that is not about a single tree is on the value of a field: a
literal number there would run into the dot.
-/

namespace Lustre

/-! ## Names -/

/-- Whether a text is the name of something: an identifier that is no keyword. -/
def isProperName (name : String) : Bool := isIdentifier name && !isKeyword name

theorem isProperName_iff {name : String} :
    isProperName name = true ↔ isIdentifier name = true ∧ isKeyword name = false := by
  simp [isProperName]

/-- The key and the value have the shape of identifiers. -/
def Pragma.Printable (pragma : Pragma) : Prop :=
  isIdentifier pragma.key = true ∧ isIdentifier pragma.value = true

/-- The name is one, and its pragmas are printable. -/
def Ident.Printable (ident : Ident) : Prop :=
  isProperName ident.name = true ∧ ∀ pragma ∈ ident.pragmas, pragma.Printable

/-- The name is one, and so is that of its package. -/
def Reference.Printable (ref : Reference) : Prop :=
  isProperName ref.member = true ∧
    ∀ package, ref.package = some package → isProperName package = true

/-- The names in a clock are printable. -/
def Clock.Printable : Clock → Prop
  | on clock => clock.Printable
  | not clock _ => clock.Printable
  | case name clock => name.Printable ∧ clock.Printable

/-- The name in a pattern is printable. -/
def Pattern.Printable : Pattern → Prop
  | name ref => ref.Printable
  | bool _ => True

/-! ## Expressions, types and static arguments -/

mutual

/-- An expression can be printed, where it is called at once if `called`. -/
inductive Expr.Printable : Bool → Expr → Prop
  | bool {called span value} : Expr.Printable called (.bool span value)
  | int {called span digits} (h : isDigits digits = true) :
      Expr.Printable called (.int span digits)
  | real {called span digits} (h : isWhole .realLit digits = true) :
      Expr.Printable called (.real span digits)
  | name {called span ref} (href : ref.Printable) : Expr.Printable called (.name span ref)
  | inst {span node args} (hnode : node.Printable)
      (hargs : ∀ arg ∈ args, StaticArg.Printable arg) :
      Expr.Printable true (.inst span node (some args))
  | tuple {called span items} (hitems : ∀ item ∈ items, Expr.Printable false item) :
      Expr.Printable called (.tuple span items)
  | array {called span items} (hitems : ∀ item ∈ items, Expr.Printable false item) :
      Expr.Printable called (.array span items)
  | record {called span type base fields} (htype : type.Printable)
      (hbase : ∀ ref, base = some ref → ref.Printable)
      (hnames : ∀ init ∈ fields, init.field.Printable)
      (hvalues : ∀ init ∈ fields, Expr.Printable false init.value) :
      Expr.Printable called (.record span type base fields)
  | field {called span value field} (hvalue : Expr.Printable false value)
      (hnumber : value.isNumber = false) (hfield : field.Printable) :
      Expr.Printable called (.field span value field)
  | index {called span value index} (hvalue : Expr.Printable false value)
      (hindex : Expr.Printable false index) : Expr.Printable called (.index span value index)
  | slice {called span value first last step} (hvalue : Expr.Printable false value)
      (hfirst : Expr.Printable false first) (hlast : Expr.Printable false last)
      (hstep : ∀ width, step = some width → Expr.Printable false width) :
      Expr.Printable called (.slice span value first last step)
  | call {called span callee args} (hcallee : Expr.Printable true callee)
      (hargs : ∀ arg ∈ args, Expr.Printable false arg) :
      Expr.Printable called (.call span callee args)
  | cond {called span opening condition yes no} (hcondition : Expr.Printable false condition)
      (hyes : Expr.Printable false yes) (hno : Expr.Printable false no) :
      Expr.Printable called (.cond span opening condition yes no)
  | merge {span clock arms} (hclock : clock.Printable) (hnil : arms ≠ [])
      (hpatterns : ∀ arm ∈ arms, arm.pattern.Printable)
      (hvalues : ∀ arm ∈ arms, Expr.Printable false arm.value) :
      Expr.Printable false (.merge span clock arms)
  | sampled {called span value clock} (hvalue : Expr.Printable false value)
      (hclock : clock.value.Printable) : Expr.Printable called (.sampled span value clock)
  | unary {called span op operand} (hoperand : Expr.Printable false operand) :
      Expr.Printable called (.unary span op operand)
  | binary {called span op lhs rhs} (hlhs : Expr.Printable false lhs)
      (hrhs : Expr.Printable false rhs) : Expr.Printable called (.binary span op lhs rhs)
  | list {called span op operands} (hoperands : ∀ item ∈ operands, Expr.Printable false item) :
      Expr.Printable called (.list span op operands)

/-- A type can be printed. -/
inductive TypeExpr.Printable : TypeExpr → Prop
  | bool {span} : TypeExpr.Printable (.bool span)
  | int {span} : TypeExpr.Printable (.int span)
  | real {span} : TypeExpr.Printable (.real span)
  | named {span ref} (href : ref.Printable) : TypeExpr.Printable (.named span ref)
  | table {span element length} (helement : TypeExpr.Printable element)
      (hlength : Expr.Printable false length) : TypeExpr.Printable (.table span element length)

/-- A static argument can be printed, and is told apart from those of other sorts by its keyword
or by what it begins with. -/
inductive StaticArg.Printable : StaticArg → Prop
  | name {span ref} (href : ref.Printable) : StaticArg.Printable (.name span ref)
  | type {span type explicit} (hsort : explicit = true ∨ type.isBuiltin = true)
      (htype : TypeExpr.Printable type) : StaticArg.Printable (.type span type explicit)
  | const {span value explicit} (hsort : explicit = true ∨ value.isName = false)
      (hvalue : Expr.Printable false value) : StaticArg.Printable (.const span value explicit)
  | node {span keyword target node args} (hsort : keyword.isSome = true ∨ args.isSome = true)
      (hnode : node.Printable)
      (hargs : ∀ list, args = some list → ∀ arg ∈ list, StaticArg.Printable arg) :
      StaticArg.Printable (.node span keyword target node args)
  | op {span op} : StaticArg.Printable (.op span op)

end

end Lustre
