import Lustre.Tree.Program
import Lustre.Diagnostic
import Lustre.Token

/-!
# Trees in another place

`move f` applies `f` to every offset in a tree, in a token or in a diagnostic, and
leaves everything else as it is.  Moving by nothing changes nothing and two moves
are one (`LawfulMovable`).  With `f` constant, what is left is the tree without its
places.
-/

namespace Lustre

/-- What has places in a text. -/
class Movable (α : Type) where
  /-- The same with every offset replaced by its image. -/
  move : (Nat → Nat) → α → α

/-- Moves can be put together. -/
class LawfulMovable (α : Type) [Movable α] : Prop where
  move_id : ∀ a : α, Movable.move id a = a
  move_move : ∀ (f g : Nat → Nat) (a : α),
    Movable.move f (Movable.move g a) = Movable.move (f ∘ g) a

open Movable LawfulMovable

attribute [simp] move_id move_move

variable {α β : Type}

/-! ## Collections -/

section

variable [Movable α] [Movable β]

instance List.instMovable : Movable (List α) := ⟨fun f => List.map (move f)⟩

instance Option.instMovable : Movable (Option α) := ⟨fun f => Option.map (move f)⟩

instance Prod.instMovable : Movable (α × β) := ⟨fun f pair => (move f pair.1, move f pair.2)⟩

@[simp] theorem move_nil (f : Nat → Nat) : move f ([] : List α) = [] := rfl

@[simp] theorem move_cons (f : Nat → Nat) (a : α) (as : List α) :
    move f (a :: as) = move f a :: move f as := rfl

@[simp] theorem move_append (f : Nat → Nat) (as bs : List α) :
    move f (as ++ bs) = move f as ++ move f bs :=
  List.map_append

theorem move_list (f : Nat → Nat) (as : List α) : move f as = as.map (move f) := rfl

@[simp] theorem length_move (f : Nat → Nat) (as : List α) : (move f as).length = as.length :=
  List.length_map _

@[simp] theorem isEmpty_move (f : Nat → Nat) (as : List α) :
    (move f as).isEmpty = as.isEmpty := by
  cases as <;> rfl

@[simp] theorem move_none (f : Nat → Nat) : move f (none : Option α) = none := rfl

@[simp] theorem move_some (f : Nat → Nat) (a : α) : move f (some a) = some (move f a) := rfl

@[simp] theorem move_pair (f : Nat → Nat) (a : α) (b : β) : move f (a, b) = (move f a, move f b) :=
  rfl

variable [LawfulMovable α] [LawfulMovable β]

instance List.instLawfulMovable : LawfulMovable (List α) where
  move_id as := by
    induction as with
    | nil => rfl
    | cons a as ih => simp [ih]
  move_move f g as := by
    induction as with
    | nil => rfl
    | cons a as ih => simp [ih]

instance Option.instLawfulMovable : LawfulMovable (Option α) where
  move_id a := by cases a <;> simp
  move_move f g a := by cases a <;> simp

instance Prod.instLawfulMovable : LawfulMovable (α × β) where
  move_id pair := by
    obtain ⟨a, b⟩ := pair
    simp
  move_move f g pair := by
    obtain ⟨a, b⟩ := pair
    simp

end

/-! ## Places, tokens and diagnostics -/

instance Span.instMovable : Movable Span := ⟨fun f span => ⟨f span.start, f span.stop, span.file⟩⟩

instance Span.instLawfulMovable : LawfulMovable Span := ⟨fun _ => rfl, fun _ _ _ => rfl⟩

@[simp] theorem Span.move_start (f : Nat → Nat) (span : Span) :
    (move f span).start = f span.start :=
  rfl

@[simp] theorem Span.move_stop (f : Nat → Nat) (span : Span) : (move f span).stop = f span.stop :=
  rfl

instance Token.instMovable : Movable Token :=
  ⟨fun f token => { token with span := move f token.span }⟩

@[simp] theorem Token.move_kind (f : Nat → Nat) (token : Token) :
    (move f token).kind = token.kind :=
  rfl

@[simp] theorem Token.move_text (f : Nat → Nat) (token : Token) :
    (move f token).text = token.text :=
  rfl

@[simp] theorem Token.move_span (f : Nat → Nat) (token : Token) :
    (move f token).span = move f token.span :=
  rfl

instance Token.instLawfulMovable : LawfulMovable Token := ⟨fun _ => rfl, fun _ _ _ => rfl⟩

instance Diagnostic.instMovable : Movable Diagnostic :=
  ⟨fun f diagnostic => { diagnostic with span := move f diagnostic.span }⟩

instance Diagnostic.instLawfulMovable : LawfulMovable Diagnostic := ⟨fun _ => rfl, fun _ _ _ => rfl⟩

instance Located.instMovable [Movable α] : Movable (Located α) :=
  ⟨fun f located => ⟨move f located.value, move f located.span⟩⟩

@[simp] theorem Located.move_mk [Movable α] (f : Nat → Nat) (value : α) (span : Span) :
    move f (⟨value, span⟩ : Located α) = ⟨move f value, move f span⟩ := rfl

@[simp] theorem Located.move_span [Movable α] (f : Nat → Nat) (located : Located α) :
    (move f located).span = move f located.span := rfl

@[simp] theorem Located.move_value [Movable α] (f : Nat → Nat) (located : Located α) :
    (move f located).value = move f located.value := rfl

instance Located.instLawfulMovable [Movable α] [LawfulMovable α] : LawfulMovable (Located α) where
  move_id located := by
    obtain ⟨value, span⟩ := located
    simp
  move_move f g located := by
    obtain ⟨value, span⟩ := located
    simp

/-! ## What has no place -/

instance String.instMovable : Movable String := ⟨fun _ text => text⟩

instance String.instLawfulMovable : LawfulMovable String := ⟨fun _ => rfl, fun _ _ _ => rfl⟩

@[simp] theorem move_string (f : Nat → Nat) (text : String) : move f text = text := rfl

instance Unit.instMovable : Movable Unit := ⟨fun _ nothing => nothing⟩

instance Bool.instMovable : Movable Bool := ⟨fun _ value => value⟩

@[simp] theorem move_bool (f : Nat → Nat) (value : Bool) : move f value = value := rfl

instance NodeKind.instMovable : Movable NodeKind := ⟨fun _ kind => kind⟩

@[simp] theorem move_nodeKind (f : Nat → Nat) (kind : NodeKind) : move f kind = kind := rfl

instance Brackets.instMovable : Movable Brackets := ⟨fun _ brackets => brackets⟩

instance Brackets.instLawfulMovable : LawfulMovable Brackets := ⟨fun _ => rfl, fun _ _ _ => rfl⟩

@[simp] theorem move_brackets (f : Nat → Nat) (brackets : Brackets) : move f brackets = brackets :=
  rfl

instance InstanceWord.instMovable : Movable InstanceWord := ⟨fun _ word => word⟩

instance InstanceWord.instLawfulMovable : LawfulMovable InstanceWord :=
  ⟨fun _ => rfl, fun _ _ _ => rfl⟩

@[simp] theorem move_instanceWord (f : Nat → Nat) (word : InstanceWord) : move f word = word := rfl

/-! ## Names, clocks and patterns -/

instance Pragma.instMovable : Movable Pragma :=
  ⟨fun f pragma => { pragma with span := move f pragma.span }⟩

instance Pragma.instLawfulMovable : LawfulMovable Pragma := ⟨fun _ => rfl, fun _ _ _ => rfl⟩

instance Ident.instMovable : Movable Ident :=
  ⟨fun f ident => ⟨ident.name, move f ident.span, move f ident.pragmas⟩⟩

@[simp] theorem Ident.move_mk (f : Nat → Nat) (name : String) (span : Span)
    (pragmas : List Pragma) :
    move f (⟨name, span, pragmas⟩ : Ident) = ⟨name, move f span, move f pragmas⟩ := rfl

@[simp] theorem Ident.move_name (f : Nat → Nat) (ident : Ident) :
    (move f ident).name = ident.name :=
  rfl

@[simp] theorem Ident.move_span (f : Nat → Nat) (ident : Ident) :
    (move f ident).span = move f ident.span := rfl

instance Ident.instLawfulMovable : LawfulMovable Ident where
  move_id ident := by
    obtain ⟨name, span, pragmas⟩ := ident
    simp
  move_move f g ident := by
    obtain ⟨name, span, pragmas⟩ := ident
    simp

instance Reference.instMovable : Movable Reference :=
  ⟨fun f ref => { ref with span := move f ref.span }⟩

@[simp] theorem Reference.move_mk (f : Nat → Nat) (package : Option String) (member : String)
    (span : Span) :
    move f (⟨package, member, span⟩ : Reference) = ⟨package, member, move f span⟩ := rfl

@[simp] theorem Reference.move_describe (f : Nat → Nat) (ref : Reference) :
    (move f ref).describe = ref.describe := rfl

instance Reference.instLawfulMovable : LawfulMovable Reference := ⟨fun _ => rfl, fun _ _ _ => rfl⟩

/-- A clock in another place. -/
def Clock.relocate (f : Nat → Nat) : Clock → Clock
  | on clock => on (move f clock)
  | not clock parenthesized => not (move f clock) parenthesized
  | case name clock => case (move f name) (move f clock)

instance Clock.instMovable : Movable Clock := ⟨Clock.relocate⟩

@[simp] theorem Clock.move_on (f : Nat → Nat) (clock : Ident) :
    move f (on clock) = on (move f clock) := rfl

@[simp] theorem Clock.move_not (f : Nat → Nat) (clock : Ident) (parenthesized : Bool) :
    move f (not clock parenthesized) = not (move f clock) parenthesized := rfl

@[simp] theorem Clock.move_case (f : Nat → Nat) (name : Reference) (clock : Ident) :
    move f (case name clock) = case (move f name) (move f clock) := rfl

instance Clock.instLawfulMovable : LawfulMovable Clock where
  move_id clock := by cases clock <;> simp
  move_move f g clock := by cases clock <;> simp

/-- A pattern in another place. -/
def Pattern.relocate (f : Nat → Nat) : Pattern → Pattern
  | name ref => name (move f ref)
  | bool value => bool value

instance Pattern.instMovable : Movable Pattern := ⟨Pattern.relocate⟩

@[simp] theorem Pattern.move_name (f : Nat → Nat) (ref : Reference) :
    move f (name ref) = name (move f ref) := rfl

@[simp] theorem Pattern.move_bool (f : Nat → Nat) (value : Bool) :
    move f (bool value) = bool value := rfl

instance Pattern.instLawfulMovable : LawfulMovable Pattern where
  move_id pattern := by cases pattern <;> simp
  move_move f g pattern := by cases pattern <;> simp

/-! ## Expressions, types and static arguments -/

mutual

/-- An expression in another place. -/
def Expr.relocate (f : Nat → Nat) : Expr → Expr
  | .error span => .error (move f span)
  | .bool span value => .bool (move f span) value
  | .int span digits => .int (move f span) digits
  | .real span digits => .real (move f span) digits
  | .name span ref => .name (move f span) (move f ref)
  | .inst span node args => .inst (move f span) (move f node) (argsRelocate f args)
  | .tuple span items => .tuple (move f span) (Expr.listRelocate f items)
  | .array span items => .array (move f span) (Expr.listRelocate f items)
  | .record span type base fields =>
      .record (move f span) (move f type) (move f base)
        (FieldInit.listRelocate f fields)
  | .field span value field => .field (move f span) (value.relocate f) (move f field)
  | .index span value index => .index (move f span) (value.relocate f) (index.relocate f)
  | .slice span value first last step =>
      .slice (move f span) (value.relocate f) (first.relocate f) (last.relocate f)
        (stepRelocate f step)
  | .call span callee args => .call (move f span) (callee.relocate f) (Expr.listRelocate f args)
  | .cond span word condition yes no =>
      .cond (move f span) word (condition.relocate f) (yes.relocate f) (no.relocate f)
  | .merge span clock arms =>
      .merge (move f span) (move f clock) (MergeArm.listRelocate f arms)
  | .sampled span value clock =>
      .sampled (move f span) (value.relocate f) (move f clock)
  | .unary span op operand => .unary (move f span) op (operand.relocate f)
  | .binary span op lhs rhs => .binary (move f span) op (lhs.relocate f) (rhs.relocate f)
  | .list span op operands => .list (move f span) op (Expr.listRelocate f operands)

/-- Some expressions in another place. -/
def Expr.listRelocate (f : Nat → Nat) : List Expr → List Expr
  | [] => []
  | expr :: exprs => expr.relocate f :: Expr.listRelocate f exprs

/-- The step of a slice in another place. -/
def stepRelocate (f : Nat → Nat) : Option Expr → Option Expr
  | some step => some (step.relocate f)
  | none => none

/-- Some fields of a record in another place. -/
def FieldInit.listRelocate (f : Nat → Nat) : List FieldInit → List FieldInit
  | [] => []
  | ⟨span, field, value⟩ :: fields =>
      ⟨move f span, move f field, value.relocate f⟩ :: FieldInit.listRelocate f fields

/-- Some arms of a merge in another place. -/
def MergeArm.listRelocate (f : Nat → Nat) : List MergeArm → List MergeArm
  | [] => []
  | ⟨span, pattern, value⟩ :: arms =>
      ⟨move f span, move f pattern, value.relocate f⟩ :: MergeArm.listRelocate f arms

/-- A type in another place. -/
def TypeExpr.relocate (f : Nat → Nat) : TypeExpr → TypeExpr
  | .bool span => .bool (move f span)
  | .int span => .int (move f span)
  | .real span => .real (move f span)
  | .named span ref => .named (move f span) (move f ref)
  | .table span element length => .table (move f span) (element.relocate f) (length.relocate f)

/-- A static argument in another place. -/
def StaticArg.relocate (f : Nat → Nat) : StaticArg → StaticArg
  | .name span ref => .name (move f span) (move f ref)
  | .type span type explicit => .type (move f span) (type.relocate f) explicit
  | .const span value explicit => .const (move f span) (value.relocate f) explicit
  | .node span keyword target node args =>
      .node (move f span) keyword (move f target) (move f node)
        (argsRelocate f args)
  | .op span op => .op (move f span) op

/-- Some static arguments in another place. -/
def StaticArg.listRelocate (f : Nat → Nat) : List StaticArg → List StaticArg
  | [] => []
  | arg :: args => arg.relocate f :: StaticArg.listRelocate f args

/-- The static arguments of a node in another place, if it has any. -/
def argsRelocate (f : Nat → Nat) : Option (List StaticArg) → Option (List StaticArg)
  | some args => some (StaticArg.listRelocate f args)
  | none => none

end

instance Expr.instMovable : Movable Expr := ⟨Expr.relocate⟩

instance TypeExpr.instMovable : Movable TypeExpr := ⟨TypeExpr.relocate⟩

instance StaticArg.instMovable : Movable StaticArg := ⟨StaticArg.relocate⟩

instance FieldInit.instMovable : Movable FieldInit :=
  ⟨fun f init => ⟨move f init.span, move f init.field, move f init.value⟩⟩

instance MergeArm.instMovable : Movable MergeArm :=
  ⟨fun f arm => ⟨move f arm.span, move f arm.pattern, move f arm.value⟩⟩

section

variable (f : Nat → Nat)

theorem Expr.listRelocate_eq (exprs : List Expr) : Expr.listRelocate f exprs = move f exprs := by
  induction exprs with
  | nil => rfl
  | cons expr exprs ih =>
      rw [Expr.listRelocate, ih]
      rfl

theorem stepRelocate_eq (step : Option Expr) : stepRelocate f step = move f step := by
  cases step <;> rfl

theorem FieldInit.listRelocate_eq (fields : List FieldInit) :
    FieldInit.listRelocate f fields = move f fields := by
  induction fields with
  | nil => rfl
  | cons init fields ih =>
      obtain ⟨span, field, value⟩ := init
      rw [FieldInit.listRelocate, ih]
      rfl

theorem MergeArm.listRelocate_eq (arms : List MergeArm) :
    MergeArm.listRelocate f arms = move f arms := by
  induction arms with
  | nil => rfl
  | cons arm arms ih =>
      obtain ⟨span, pattern, value⟩ := arm
      rw [MergeArm.listRelocate, ih]
      rfl

theorem StaticArg.listRelocate_eq (args : List StaticArg) :
    StaticArg.listRelocate f args = move f args := by
  induction args with
  | nil => rfl
  | cons arg args ih =>
      rw [StaticArg.listRelocate, ih]
      rfl

theorem argsRelocate_eq (args : Option (List StaticArg)) : argsRelocate f args = move f args := by
  cases args with
  | none => rfl
  | some args => exact congrArg some (StaticArg.listRelocate_eq f args)

end

/-! ### One step at a time -/

section

variable (f : Nat → Nat) (span : Span)

namespace Expr

@[simp] theorem move_error : move f (error span) = error (move f span) := rfl

@[simp] theorem move_literal (value : Bool) :
    move f (bool span value) = bool (move f span) value := rfl

@[simp] theorem move_int (digits : String) :
    move f (int span digits) = int (move f span) digits := rfl

@[simp] theorem move_real (digits : String) :
    move f (real span digits) = real (move f span) digits := rfl

@[simp] theorem move_name (ref : Reference) :
    move f (name span ref) = name (move f span) (move f ref) := rfl

@[simp] theorem move_inst (node : Reference) (args : Option (List StaticArg)) :
    move f (inst span node args) =
      inst (move f span) (move f node) (move f args) :=
  congrArg (inst _ _) (argsRelocate_eq f args)

@[simp] theorem move_tuple (items : List Expr) :
    move f (tuple span items) = tuple (move f span) (move f items) :=
  congrArg (tuple _) (listRelocate_eq f items)

@[simp] theorem move_array (items : List Expr) :
    move f (array span items) = array (move f span) (move f items) :=
  congrArg (array _) (listRelocate_eq f items)

@[simp] theorem move_record (type : Reference) (base : Option Reference) (fields : List FieldInit) :
    move f (record span type base fields) =
      record (move f span) (move f type) (move f base)
        (move f fields) :=
  congrArg (record _ _ _) (FieldInit.listRelocate_eq f fields)

@[simp] theorem move_field (value : Expr) (name : Ident) :
    move f (field span value name) =
      field (move f span) (move f value) (move f name) := rfl

@[simp] theorem move_index (value at_ : Expr) :
    move f (index span value at_) =
      index (move f span) (move f value) (move f at_) := rfl

@[simp] theorem move_slice (value first last : Expr) (step : Option Expr) :
    move f (slice span value first last step) =
      slice (move f span) (move f value) (move f first)
        (move f last) (move f step) :=
  congrArg (slice _ _ _ _) (stepRelocate_eq f step)

@[simp] theorem move_call (callee : Expr) (args : List Expr) :
    move f (call span callee args) =
      call (move f span) (move f callee) (move f args) :=
  congrArg (call _ _) (listRelocate_eq f args)

@[simp] theorem move_cond (word : CondWord) (condition yes no : Expr) :
    move f (cond span word condition yes no) =
      cond (move f span) word (move f condition) (move f yes)
        (move f no) := rfl

@[simp] theorem move_merge (clock : Ident) (arms : List MergeArm) :
    move f (merge span clock arms) =
      merge (move f span) (move f clock) (move f arms) :=
  congrArg (merge _ _) (MergeArm.listRelocate_eq f arms)

@[simp] theorem move_sampled (value : Expr) (clock : Located Clock) :
    move f (sampled span value clock) =
      sampled (move f span) (move f value) (move f clock) := rfl

@[simp] theorem move_unary (op : UnaryOp) (operand : Expr) :
    move f (unary span op operand) =
      unary (move f span) op (move f operand) := rfl

@[simp] theorem move_binary (op : BinaryOp) (lhs rhs : Expr) :
    move f (binary span op lhs rhs) =
      binary (move f span) op (move f lhs) (move f rhs) := rfl

@[simp] theorem move_list (op : ListOp) (operands : List Expr) :
    move f (list span op operands) =
      list (move f span) op (move f operands) :=
  congrArg (list _ _) (listRelocate_eq f operands)

@[simp] theorem move_span (expr : Expr) :
    (move f expr).span = move f expr.span := by
  cases expr <;> rfl

end Expr

@[simp] theorem FieldInit.move_mk (field : Ident) (value : Expr) :
    move f (⟨span, field, value⟩ : FieldInit) = ⟨move f span, move f field, move f value⟩ := rfl

@[simp] theorem MergeArm.move_mk (pattern : Pattern) (value : Expr) :
    move f (⟨span, pattern, value⟩ : MergeArm) = ⟨move f span, move f pattern, move f value⟩ := rfl

namespace TypeExpr

@[simp] theorem move_bool : move f (bool span) = bool (move f span) := rfl

@[simp] theorem move_int : move f (int span) = int (move f span) := rfl

@[simp] theorem move_real : move f (real span) = real (move f span) := rfl

@[simp] theorem move_named (ref : Reference) :
    move f (named span ref) = named (move f span) (move f ref) := rfl

@[simp] theorem move_table (element : TypeExpr) (length : Expr) :
    move f (table span element length) =
      table (move f span) (move f element) (move f length) := rfl

@[simp] theorem move_span (type : TypeExpr) :
    (move f type).span = move f type.span := by
  cases type <;> rfl

end TypeExpr

namespace StaticArg

@[simp] theorem move_name (ref : Reference) :
    move f (name span ref) = name (move f span) (move f ref) := rfl

@[simp] theorem move_type (of : TypeExpr) (explicit : Bool) :
    move f (type span of explicit) =
      type (move f span) (move f of) explicit := rfl

@[simp] theorem move_const (value : Expr) (explicit : Bool) :
    move f (const span value explicit) =
      const (move f span) (move f value) explicit := rfl

@[simp] theorem move_node (keyword : Option NodeKind) (target : Span) (ref : Reference)
    (args : Option (List StaticArg)) :
    move f (node span keyword target ref args) =
      node (move f span) keyword (move f target) (move f ref)
        (move f args) :=
  congrArg (node _ _ _ _) (argsRelocate_eq f args)

@[simp] theorem move_op (predefined : PredefinedOp) :
    move f (op span predefined) = op (move f span) predefined := rfl

end StaticArg

end

/-! ### The laws -/

mutual

theorem Expr.relocate_id : ∀ expr : Expr, move id expr = expr
  | .error _ | .bool _ _ | .int _ _ | .real _ _ | .name _ _ => by simp
  | .inst _ _ args => by simp [args_relocate_id args]
  | .tuple _ items | .array _ items | .list _ _ items => by simp [Expr.list_relocate_id items]
  | .record _ _ _ fields => by simp [FieldInit.list_relocate_id fields]
  | .field _ value _ | .sampled _ value _ | .unary _ _ value => by simp [Expr.relocate_id value]
  | .index _ value index => by simp [Expr.relocate_id value, Expr.relocate_id index]
  | .slice _ value first last step => by
      simp [Expr.relocate_id value, Expr.relocate_id first, Expr.relocate_id last,
        step_relocate_id step]
  | .call _ callee args => by simp [Expr.relocate_id callee, Expr.list_relocate_id args]
  | .cond _ _ condition yes no => by
      simp [Expr.relocate_id condition, Expr.relocate_id yes, Expr.relocate_id no]
  | .merge _ _ arms => by simp [MergeArm.list_relocate_id arms]
  | .binary _ _ lhs rhs => by simp [Expr.relocate_id lhs, Expr.relocate_id rhs]

theorem Expr.list_relocate_id : ∀ exprs : List Expr, move id exprs = exprs
  | [] => rfl
  | expr :: exprs => by rw [move_cons, Expr.relocate_id expr, Expr.list_relocate_id exprs]

theorem step_relocate_id : ∀ step : Option Expr, move id step = step
  | some step => by rw [move_some, Expr.relocate_id step]
  | none => rfl

theorem FieldInit.list_relocate_id : ∀ fields : List FieldInit, move id fields = fields
  | [] => rfl
  | ⟨_, _, value⟩ :: fields => by
      simp [Expr.relocate_id value, FieldInit.list_relocate_id fields]

theorem MergeArm.list_relocate_id : ∀ arms : List MergeArm, move id arms = arms
  | [] => rfl
  | ⟨_, _, value⟩ :: arms => by simp [Expr.relocate_id value, MergeArm.list_relocate_id arms]

theorem TypeExpr.relocate_id : ∀ type : TypeExpr, move id type = type
  | .bool _ | .int _ | .real _ | .named _ _ => by simp
  | .table _ element length => by simp [TypeExpr.relocate_id element, Expr.relocate_id length]

theorem StaticArg.relocate_id : ∀ arg : StaticArg, move id arg = arg
  | .name _ _ | .op _ _ => by simp
  | .type _ type _ => by simp [TypeExpr.relocate_id type]
  | .const _ value _ => by simp [Expr.relocate_id value]
  | .node _ _ _ _ args => by simp [args_relocate_id args]

theorem StaticArg.list_relocate_id : ∀ args : List StaticArg, move id args = args
  | [] => rfl
  | arg :: args => by rw [move_cons, StaticArg.relocate_id arg, StaticArg.list_relocate_id args]

theorem args_relocate_id : ∀ args : Option (List StaticArg), move id args = args
  | some args => by rw [move_some, StaticArg.list_relocate_id args]
  | none => rfl

end

section

variable (f g : Nat → Nat)

mutual

theorem Expr.relocate_relocate : ∀ expr : Expr, move f (move g expr) = move (f ∘ g) expr
  | .error _ | .bool _ _ | .int _ _ | .real _ _ | .name _ _ => by simp
  | .inst _ _ args => by simp [args_relocate_relocate args]
  | .tuple _ items | .array _ items | .list _ _ items => by
      simp [Expr.list_relocate_relocate items]
  | .record _ _ _ fields => by simp [FieldInit.list_relocate_relocate fields]
  | .field _ value _ | .sampled _ value _ | .unary _ _ value => by
      simp [Expr.relocate_relocate value]
  | .index _ value index => by simp [Expr.relocate_relocate value, Expr.relocate_relocate index]
  | .slice _ value first last step => by
      simp [Expr.relocate_relocate value, Expr.relocate_relocate first,
        Expr.relocate_relocate last, step_relocate_relocate step]
  | .call _ callee args => by
      simp [Expr.relocate_relocate callee, Expr.list_relocate_relocate args]
  | .cond _ _ condition yes no => by
      simp [Expr.relocate_relocate condition, Expr.relocate_relocate yes, Expr.relocate_relocate no]
  | .merge _ _ arms => by simp [MergeArm.list_relocate_relocate arms]
  | .binary _ _ lhs rhs => by simp [Expr.relocate_relocate lhs, Expr.relocate_relocate rhs]

theorem Expr.list_relocate_relocate : ∀ exprs : List Expr,
    move f (move g exprs) = move (f ∘ g) exprs
  | [] => rfl
  | expr :: exprs => by
      simp only [move_cons, Expr.relocate_relocate expr, Expr.list_relocate_relocate exprs]

theorem step_relocate_relocate : ∀ step : Option Expr, move f (move g step) = move (f ∘ g) step
  | some step => by simp only [move_some, Expr.relocate_relocate step]
  | none => rfl

theorem FieldInit.list_relocate_relocate : ∀ fields : List FieldInit,
    move f (move g fields) = move (f ∘ g) fields
  | [] => rfl
  | ⟨_, _, value⟩ :: fields => by
      simp [Expr.relocate_relocate value, FieldInit.list_relocate_relocate fields]

theorem MergeArm.list_relocate_relocate : ∀ arms : List MergeArm,
    move f (move g arms) = move (f ∘ g) arms
  | [] => rfl
  | ⟨_, _, value⟩ :: arms => by
      simp [Expr.relocate_relocate value, MergeArm.list_relocate_relocate arms]

theorem TypeExpr.relocate_relocate : ∀ type : TypeExpr, move f (move g type) = move (f ∘ g) type
  | .bool _ | .int _ | .real _ | .named _ _ => by simp
  | .table _ element length => by
      simp [TypeExpr.relocate_relocate element, Expr.relocate_relocate length]

theorem StaticArg.relocate_relocate : ∀ arg : StaticArg, move f (move g arg) = move (f ∘ g) arg
  | .name _ _ | .op _ _ => by simp
  | .type _ type _ => by simp [TypeExpr.relocate_relocate type]
  | .const _ value _ => by simp [Expr.relocate_relocate value]
  | .node _ _ _ _ args => by simp [args_relocate_relocate args]

theorem StaticArg.list_relocate_relocate : ∀ args : List StaticArg,
    move f (move g args) = move (f ∘ g) args
  | [] => rfl
  | arg :: args => by
      simp only [move_cons, StaticArg.relocate_relocate arg, StaticArg.list_relocate_relocate args]

theorem args_relocate_relocate : ∀ args : Option (List StaticArg),
    move f (move g args) = move (f ∘ g) args
  | some args => by simp only [move_some, StaticArg.list_relocate_relocate args]
  | none => rfl

end

end

instance Expr.instLawfulMovable : LawfulMovable Expr := ⟨Expr.relocate_id, Expr.relocate_relocate⟩

instance TypeExpr.instLawfulMovable : LawfulMovable TypeExpr :=
  ⟨TypeExpr.relocate_id, TypeExpr.relocate_relocate⟩

instance StaticArg.instLawfulMovable : LawfulMovable StaticArg :=
  ⟨StaticArg.relocate_id, StaticArg.relocate_relocate⟩

/-! ## Declarations and programs -/

/-- A left-hand side in another place. -/
def LeftExpr.relocate (f : Nat → Nat) : LeftExpr → LeftExpr
  | .name ident => .name (move f ident)
  | .field span value part => .field (move f span) (value.relocate f) (move f part)
  | .index span value at_ => .index (move f span) (value.relocate f) (move f at_)
  | .slice span value first last step => .slice (move f span) (value.relocate f) (move f first)
      (move f last) (move f step)

instance LeftExpr.instMovable : Movable LeftExpr := ⟨LeftExpr.relocate⟩

@[simp] theorem LeftExpr.move_name (f : Nat → Nat) (ident : Ident) :
    move f (LeftExpr.name ident) = .name (move f ident) := rfl

@[simp] theorem LeftExpr.move_field (f : Nat → Nat) (span : Span) (value : LeftExpr)
    (part : Ident) :
    move f (LeftExpr.field span value part) =
      .field (move f span) (move f value) (move f part) := rfl

@[simp] theorem LeftExpr.move_index (f : Nat → Nat) (span : Span) (value : LeftExpr) (at_ : Expr) :
    move f (LeftExpr.index span value at_) = .index (move f span) (move f value) (move f at_) := rfl

@[simp] theorem LeftExpr.move_slice (f : Nat → Nat) (span : Span) (value : LeftExpr)
    (first last : Expr) (step : Option Expr) :
    move f (LeftExpr.slice span value first last step) =
      .slice (move f span) (move f value) (move f first) (move f last) (move f step) := rfl

@[simp] theorem LeftExpr.move_span (f : Nat → Nat) (left : LeftExpr) :
    (move f left).span = move f left.span := by
  cases left <;> rfl

instance LeftExpr.instLawfulMovable : LawfulMovable LeftExpr where
  move_id left := by induction left <;> simp_all
  move_move f g left := by induction left <;> simp_all

instance LeftList.instMovable : Movable LeftList :=
  ⟨fun f x => ⟨move f x.items, x.parenthesized⟩⟩

@[simp] theorem LeftList.move_mk (f : Nat → Nat) (items : List LeftExpr) (parenthesized : Bool) :
    move f (⟨items, parenthesized⟩ : LeftList) = ⟨move f items, parenthesized⟩ := rfl

instance LeftList.instLawfulMovable : LawfulMovable LeftList where
  move_id x := by
    cases x
    simp
  move_move f g x := by
    cases x
    simp

/-- A statement in another place. -/
def Equation.relocate (f : Nat → Nat) : Equation → Equation
  | .assertion condition => .assertion (move f condition)
  | .define lhs rhs => .define (move f lhs) (move f rhs)
  | .error => .error

instance Equation.instMovable : Movable Equation := ⟨Equation.relocate⟩

@[simp] theorem Equation.move_assertion (f : Nat → Nat) (condition : Expr) :
    move f (Equation.assertion condition) = .assertion (move f condition) := rfl

@[simp] theorem Equation.move_define (f : Nat → Nat) (lhs : LeftList) (rhs : Expr) :
    move f (Equation.define lhs rhs) = .define (move f lhs) (move f rhs) := rfl

@[simp] theorem Equation.move_error (f : Nat → Nat) : move f Equation.error = .error := rfl

instance Equation.instLawfulMovable : LawfulMovable Equation where
  move_id x := by cases x <;> simp
  move_move f g x := by cases x <;> simp

instance TypedNames.instMovable : Movable TypedNames :=
  ⟨fun f x => ⟨move f x.names, move f x.type⟩⟩

@[simp] theorem TypedNames.move_mk (f : Nat → Nat) (names : List Ident) (type : TypeExpr) :
    move f (⟨names, type⟩ : TypedNames) = ⟨move f names, move f type⟩ := rfl

instance TypedNames.instLawfulMovable : LawfulMovable TypedNames where
  move_id x := by
    cases x
    simp
  move_move f g x := by
    cases x
    simp

instance VarDecl.instMovable : Movable VarDecl :=
  ⟨fun f x => ⟨move f x.groups, move f x.clock, x.parenthesized⟩⟩

@[simp] theorem VarDecl.move_mk (f : Nat → Nat) (groups : List TypedNames)
    (clock : Option (Located Clock)) (parenthesized : Bool) :
    move f (⟨groups, clock, parenthesized⟩ : VarDecl) =
      ⟨move f groups, move f clock, parenthesized⟩ := rfl

instance VarDecl.instLawfulMovable : LawfulMovable VarDecl where
  move_id x := by
    cases x
    simp
  move_move f g x := by
    cases x
    simp

/-- An entry of a `const` block in another place. -/
def ConstDef.relocate (f : Nat → Nat) : ConstDef → ConstDef
  | .typed names type => .typed (move f names) (move f type)
  | .typedValue name type expr => .typedValue (move f name) (move f type) (move f expr)
  | .value name expr => .value (move f name) (move f expr)

instance ConstDef.instMovable : Movable ConstDef := ⟨ConstDef.relocate⟩

@[simp] theorem ConstDef.move_typed (f : Nat → Nat) (names : List Ident) (type : TypeExpr) :
    move f (ConstDef.typed names type) = .typed (move f names) (move f type) := rfl

@[simp] theorem ConstDef.move_typedValue (f : Nat → Nat) (name : Ident) (type : TypeExpr)
    (expr : Expr) :
    move f (ConstDef.typedValue name type expr) =
      .typedValue (move f name) (move f type) (move f expr) := rfl

@[simp] theorem ConstDef.move_value (f : Nat → Nat) (name : Ident) (expr : Expr) :
    move f (ConstDef.value name expr) = .value (move f name) (move f expr) := rfl

instance ConstDef.instLawfulMovable : LawfulMovable ConstDef where
  move_id x := by cases x <;> simp
  move_move f g x := by cases x <;> simp

instance FieldDecl.instMovable : Movable FieldDecl :=
  ⟨fun f x => ⟨move f x.names, move f x.type, move f x.default⟩⟩

@[simp] theorem FieldDecl.move_mk (f : Nat → Nat) (names : List Ident) (type : TypeExpr)
    (default : Option Expr) :
    move f (⟨names, type, default⟩ : FieldDecl) = ⟨move f names, move f type, move f default⟩ := rfl

instance FieldDecl.instLawfulMovable : LawfulMovable FieldDecl where
  move_id x := by
    cases x
    simp
  move_move f g x := by
    cases x
    simp

/-- What a type name stands for in another place. -/
def TypeBody.relocate (f : Nat → Nat) : TypeBody → TypeBody
  | .synonym type => .synonym (move f type)
  | .enumeration names => .enumeration (move f names)
  | .record keyword fields => .record keyword (move f fields)

instance TypeBody.instMovable : Movable TypeBody := ⟨TypeBody.relocate⟩

@[simp] theorem TypeBody.move_synonym (f : Nat → Nat) (type : TypeExpr) :
    move f (TypeBody.synonym type) = .synonym (move f type) := rfl

@[simp] theorem TypeBody.move_enumeration (f : Nat → Nat) (names : List Ident) :
    move f (TypeBody.enumeration names) = .enumeration (move f names) := rfl

@[simp] theorem TypeBody.move_record (f : Nat → Nat) (keyword : Bool)
    (fields : List (Located FieldDecl)) :
    move f (TypeBody.record keyword fields) = .record keyword (move f fields) := rfl

instance TypeBody.instLawfulMovable : LawfulMovable TypeBody where
  move_id x := by cases x <;> simp
  move_move f g x := by cases x <;> simp

instance TypeDef.instMovable : Movable TypeDef :=
  ⟨fun f x => ⟨move f x.name, move f x.body⟩⟩

@[simp] theorem TypeDef.move_mk (f : Nat → Nat) (name : Ident) (body : Option (Located TypeBody)) :
    move f (⟨name, body⟩ : TypeDef) = ⟨move f name, move f body⟩ := rfl

instance TypeDef.instLawfulMovable : LawfulMovable TypeDef where
  move_id x := by
    cases x
    simp
  move_move f g x := by
    cases x
    simp

instance NodeHead.instMovable : Movable NodeHead :=
  ⟨fun f x => ⟨x.isUnsafe, x.kind, move f x.name⟩⟩

@[simp] theorem NodeHead.move_mk (f : Nat → Nat) (isUnsafe : Bool) (kind : NodeKind)
    (name : Ident) :
    move f (⟨isUnsafe, kind, name⟩ : NodeHead) = ⟨isUnsafe, kind, move f name⟩ := rfl

instance NodeHead.instLawfulMovable : LawfulMovable NodeHead where
  move_id x := by
    cases x
    simp
  move_move f g x := by
    cases x
    simp

instance Profile.instMovable : Movable Profile :=
  ⟨fun f x => ⟨move f x.inputs, move f x.outputs⟩⟩

@[simp] theorem Profile.move_mk (f : Nat → Nat) (inputs outputs : List (Located VarDecl)) :
    move f (⟨inputs, outputs⟩ : Profile) = ⟨move f inputs, move f outputs⟩ := rfl

instance Profile.instLawfulMovable : LawfulMovable Profile where
  move_id x := by
    cases x
    simp
  move_move f g x := by
    cases x
    simp

/-- A static parameter in another place. -/
def StaticParam.relocate (f : Nat → Nat) : StaticParam → StaticParam
  | .type name => .type (move f name)
  | .const name of => .const (move f name) (move f of)
  | .node head profile => .node (move f head) (move f profile)

instance StaticParam.instMovable : Movable StaticParam := ⟨StaticParam.relocate⟩

@[simp] theorem StaticParam.move_type (f : Nat → Nat) (name : Ident) :
    move f (StaticParam.type name) = .type (move f name) := rfl

@[simp] theorem StaticParam.move_const (f : Nat → Nat) (name : Ident) (of : TypeExpr) :
    move f (StaticParam.const name of) = .const (move f name) (move f of) := rfl

@[simp] theorem StaticParam.move_node (f : Nat → Nat) (head : NodeHead) (profile : Profile) :
    move f (StaticParam.node head profile) = .node (move f head) (move f profile) := rfl

instance StaticParam.instLawfulMovable : LawfulMovable StaticParam where
  move_id x := by cases x <;> simp
  move_move f g x := by cases x <;> simp

instance NodeUse.instMovable : Movable NodeUse :=
  ⟨fun f x => ⟨move f x.span, move f x.node, move f x.args⟩⟩

@[simp] theorem NodeUse.move_mk (f : Nat → Nat) (span : Span) (node : Reference)
    (args : Option (List StaticArg)) :
    move f (⟨span, node, args⟩ : NodeUse) = ⟨move f span, move f node, move f args⟩ := rfl

instance NodeUse.instLawfulMovable : LawfulMovable NodeUse where
  move_id x := by
    cases x
    simp
  move_move f g x := by
    cases x
    simp

/-- A block of local declarations in another place. -/
def LocalBlock.relocate (f : Nat → Nat) : LocalBlock → LocalBlock
  | .vars decls => .vars (move f decls)
  | .consts defs => .consts (move f defs)

instance LocalBlock.instMovable : Movable LocalBlock := ⟨LocalBlock.relocate⟩

@[simp] theorem LocalBlock.move_vars (f : Nat → Nat) (decls : List (Located VarDecl)) :
    move f (LocalBlock.vars decls) = .vars (move f decls) := rfl

@[simp] theorem LocalBlock.move_consts (f : Nat → Nat) (defs : List (Located ConstDef)) :
    move f (LocalBlock.consts defs) = .consts (move f defs) := rfl

instance LocalBlock.instLawfulMovable : LawfulMovable LocalBlock where
  move_id x := by cases x <;> simp
  move_move f g x := by cases x <;> simp

instance NodeDefinition.instMovable : Movable NodeDefinition :=
  ⟨fun f x => ⟨move f x.locals, move f x.equations⟩⟩

@[simp] theorem NodeDefinition.move_mk (f : Nat → Nat) (locals : List (Located LocalBlock))
    (equations : List (Located Equation)) :
    move f (⟨locals, equations⟩ : NodeDefinition) = ⟨move f locals, move f equations⟩ := rfl

instance NodeDefinition.instLawfulMovable : LawfulMovable NodeDefinition where
  move_id x := by
    cases x
    simp
  move_move f g x := by
    cases x
    simp

/-- The body of a node in another place. -/
def NodeBody.relocate (f : Nat → Nat) : NodeBody → NodeBody
  | .definition body => .definition (move f body)
  | .synonym target => .synonym (move f target)
  | .missing => .missing

instance NodeBody.instMovable : Movable NodeBody := ⟨NodeBody.relocate⟩

@[simp] theorem NodeBody.move_definition (f : Nat → Nat) (body : NodeDefinition) :
    move f (NodeBody.definition body) = .definition (move f body) := rfl

@[simp] theorem NodeBody.move_synonym (f : Nat → Nat) (target : NodeUse) :
    move f (NodeBody.synonym target) = .synonym (move f target) := rfl

@[simp] theorem NodeBody.move_missing (f : Nat → Nat) : move f NodeBody.missing = .missing := rfl

instance NodeBody.instLawfulMovable : LawfulMovable NodeBody where
  move_id x := by cases x <;> simp
  move_move f g x := by cases x <;> simp

instance NodeDecl.instMovable : Movable NodeDecl :=
  ⟨fun f x => ⟨move f x.head, move f x.params, move f x.profile, move f x.body⟩⟩

@[simp] theorem NodeDecl.move_mk (f : Nat → Nat) (head : NodeHead)
    (params : Option (List (Located StaticParam))) (profile : Option Profile) (body : NodeBody) :
    move f (⟨head, params, profile, body⟩ : NodeDecl) =
      ⟨move f head, move f params, move f profile, move f body⟩ := rfl

instance NodeDecl.instLawfulMovable : LawfulMovable NodeDecl where
  move_id x := by
    cases x
    simp
  move_move f g x := by
    cases x
    simp

instance ExternalNode.instMovable : Movable ExternalNode :=
  ⟨fun f x => ⟨move f x.head, move f x.profile⟩⟩

@[simp] theorem ExternalNode.move_mk (f : Nat → Nat) (head : NodeHead) (profile : Profile) :
    move f (⟨head, profile⟩ : ExternalNode) = ⟨move f head, move f profile⟩ := rfl

instance ExternalNode.instLawfulMovable : LawfulMovable ExternalNode where
  move_id x := by
    cases x
    simp
  move_move f g x := by
    cases x
    simp

/-- A declaration in another place. -/
def Declaration.relocate (f : Nat → Nat) : Declaration → Declaration
  | .node decl => .node (move f decl)
  | .types defs => .types (move f defs)
  | .consts defs => .consts (move f defs)
  | .external abroad => .external (move f abroad)
  | .error => .error

instance Declaration.instMovable : Movable Declaration := ⟨Declaration.relocate⟩

@[simp] theorem Declaration.move_node (f : Nat → Nat) (decl : NodeDecl) :
    move f (Declaration.node decl) = .node (move f decl) := rfl

@[simp] theorem Declaration.move_types (f : Nat → Nat) (defs : List (Located TypeDef)) :
    move f (Declaration.types defs) = .types (move f defs) := rfl

@[simp] theorem Declaration.move_consts (f : Nat → Nat) (defs : List (Located ConstDef)) :
    move f (Declaration.consts defs) = .consts (move f defs) := rfl

@[simp] theorem Declaration.move_external (f : Nat → Nat) (abroad : ExternalNode) :
    move f (Declaration.external abroad) = .external (move f abroad) := rfl

@[simp] theorem Declaration.move_error (f : Nat → Nat) : move f Declaration.error = .error := rfl

instance Declaration.instLawfulMovable : LawfulMovable Declaration where
  move_id x := by cases x <;> simp
  move_move f g x := by cases x <;> simp

/-- What a package shows in another place. -/
def Provide.relocate (f : Nat → Nat) : Provide → Provide
  | .const name of value => .const (move f name) (move f of) (move f value)
  | .node head params profile => .node (move f head) (move f params) (move f profile)
  | .type definition => .type (move f definition)

instance Provide.instMovable : Movable Provide := ⟨Provide.relocate⟩

@[simp] theorem Provide.move_const (f : Nat → Nat) (name : Ident) (of : TypeExpr)
    (value : Option Expr) :
    move f (Provide.const name of value) = .const (move f name) (move f of) (move f value) := rfl

@[simp] theorem Provide.move_node (f : Nat → Nat) (head : NodeHead)
    (params : Option (List (Located StaticParam))) (profile : Profile) :
    move f (Provide.node head params profile) =
      .node (move f head) (move f params) (move f profile) := rfl

@[simp] theorem Provide.move_type (f : Nat → Nat) (definition : TypeDef) :
    move f (Provide.type definition) = .type (move f definition) := rfl

instance Provide.instLawfulMovable : LawfulMovable Provide where
  move_id x := by cases x <;> simp
  move_move f g x := by cases x <;> simp

instance NamedArg.instMovable : Movable NamedArg :=
  ⟨fun f x => ⟨move f x.name, move f x.arg⟩⟩

@[simp] theorem NamedArg.move_mk (f : Nat → Nat) (name : Option Ident) (arg : StaticArg) :
    move f (⟨name, arg⟩ : NamedArg) = ⟨move f name, move f arg⟩ := rfl

instance NamedArg.instLawfulMovable : LawfulMovable NamedArg where
  move_id x := by
    cases x
    simp
  move_move f g x := by
    cases x
    simp

/-- The contents of a package in another place. -/
def PackageBody.relocate (f : Nat → Nat) : PackageBody → PackageBody
  | .definition uses provides decls => .definition (move f uses) (move f provides) (move f decls)
  | .instantiated word model brackets args =>
      .instantiated word (move f model) brackets (move f args)
  | .missing => .missing

instance PackageBody.instMovable : Movable PackageBody := ⟨PackageBody.relocate⟩

@[simp] theorem PackageBody.move_definition (f : Nat → Nat) (uses : List Ident)
    (provides : Option (List (Located Provide))) (decls : List (Located Declaration)) :
    move f (PackageBody.definition uses provides decls) =
      .definition (move f uses) (move f provides) (move f decls) := rfl

@[simp] theorem PackageBody.move_instantiated (f : Nat → Nat) (word : InstanceWord) (model : Ident)
    (brackets : Brackets) (args : List (Located NamedArg)) :
    move f (PackageBody.instantiated word model brackets args) =
      .instantiated word (move f model) brackets (move f args) := rfl

@[simp] theorem PackageBody.move_missing (f : Nat → Nat) :
    move f PackageBody.missing = .missing := rfl

instance PackageBody.instLawfulMovable : LawfulMovable PackageBody where
  move_id x := by cases x <;> simp
  move_move f g x := by cases x <;> simp

instance Package.instMovable : Movable Package :=
  ⟨fun f x => ⟨move f x.name, move f x.body⟩⟩

@[simp] theorem Package.move_mk (f : Nat → Nat) (name : Ident) (body : PackageBody) :
    move f (⟨name, body⟩ : Package) = ⟨move f name, move f body⟩ := rfl

instance Package.instLawfulMovable : LawfulMovable Package where
  move_id x := by
    cases x
    simp
  move_move f g x := by
    cases x
    simp

instance Model.instMovable : Movable Model :=
  ⟨fun f x => ⟨move f x.name, move f x.uses, move f x.needs, move f x.provides, move f x.decls⟩⟩

@[simp] theorem Model.move_mk (f : Nat → Nat) (name : Ident) (uses : List Ident)
    (needs : List (Located StaticParam)) (provides : Option (List (Located Provide)))
    (decls : List (Located Declaration)) :
    move f (⟨name, uses, needs, provides, decls⟩ : Model) =
      ⟨move f name, move f uses, move f needs, move f provides, move f decls⟩ := rfl

instance Model.instLawfulMovable : LawfulMovable Model where
  move_id x := by
    cases x
    simp
  move_move f g x := by
    cases x
    simp

/-- An item in another place. -/
def Item.relocate (f : Nat → Nat) : Item → Item
  | .decl single => .decl (move f single)
  | .package closed => .package (move f closed)
  | .model parametric => .model (move f parametric)
  | .error => .error

instance Item.instMovable : Movable Item := ⟨Item.relocate⟩

@[simp] theorem Item.move_decl (f : Nat → Nat) (single : Located Declaration) :
    move f (Item.decl single) = .decl (move f single) := rfl

@[simp] theorem Item.move_package (f : Nat → Nat) (closed : Package) :
    move f (Item.package closed) = .package (move f closed) := rfl

@[simp] theorem Item.move_model (f : Nat → Nat) (parametric : Model) :
    move f (Item.model parametric) = .model (move f parametric) := rfl

@[simp] theorem Item.move_error (f : Nat → Nat) : move f Item.error = .error := rfl

instance Item.instLawfulMovable : LawfulMovable Item where
  move_id x := by cases x <;> simp
  move_move f g x := by cases x <;> simp

instance Program.instMovable : Movable Program :=
  ⟨fun f x => ⟨move f x.includes, move f x.items⟩⟩

@[simp] theorem Program.move_mk (f : Nat → Nat) (includes : List (Located String))
    (items : List (Located Item)) :
    move f (⟨includes, items⟩ : Program) = ⟨move f includes, move f items⟩ := rfl

instance Program.instLawfulMovable : LawfulMovable Program where
  move_id x := by
    cases x
    simp
  move_move f g x := by
    cases x
    simp

end Lustre
