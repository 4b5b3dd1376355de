import Lustre.Reader.Name

/-!
# Reading expressions

Binary operators are read by climbing their levels: an operator is taken if its
level reaches a minimum, and its right operand is read with a minimum of its
own.  Three layers follow the tiers of the operators: `top` over `comparison`
over `inner`, which reads prefix operators and the postfix forms below them.

Every reader here reads one level of nesting.  What lies deeper, a full
expression, the right operand of an operator or a list of static arguments, is
read by the members of a `Nested`, so the recursion is on the number of levels
that are still allowed, and on nothing else.
-/

namespace Lustre

/-- The readers of what is nested one level deeper.  The number is the least level that an
operator outside parentheses must have. -/
structure Nested where
  top : Nat → Read Expr
  inner : Nat → Read Expr
  args : Read (List StaticArg)

namespace Nested

/-- The readers where no further level is allowed. -/
def exhausted : Nested where
  top _ := Read.fail .nestedTooDeeply
  inner _ := Read.fail .nestedTooDeeply
  args := Read.fail .nestedTooDeeply

/-- A full expression one level deeper. -/
def expr (deep : Nested) : Read Expr := deep.top 0

end Nested

namespace Read

variable (deep : Nested)

/-- Comma-separated expressions before `close`, which is not passed. -/
def exprList (close : Kind) : Read (List Expr) := do
  if ← isAt close then return [] else commaList deep.expr

/-! ## Postfix forms -/

/-- What stands between `[` and `]`: one index, or `first .. last` with perhaps a step. -/
def indexing {α : Type} (index : Expr → α) (slice : Expr → Expr → Option Expr → α) :
    Read α := do
  let first ← deep.expr
  if ← eat .dotDot then
    let last ← deep.expr
    let step ← optionalAfter .kwStep deep.expr
    return slice first last step
  else return index first

/-- One of `.field`, `[index]` and `(arguments)` after `value`, if one comes next. -/
def postfixStep (value : Expr) : Read (ForInStep Expr) := do
  match ← peek with
  | some .dot =>
      advance
      let field ← ident
      return .yield (.field (value.span.cover field.span) value field)
  | some .lBracket =>
      advance
      let build ← indexing deep (fun index span => Expr.index span value index)
        (fun first last step span => Expr.slice span value first last step)
      let close ← expect .rBracket
      return .yield (build (value.span.cover close))
  | some .lParen =>
      advance
      let args ← exprList deep .rParen
      let close ← expect .rParen
      return .yield (.call (value.span.cover close) value args)
  | _ => return .done value

/-- Any chain of postfix forms after `value`. -/
def postfixes (value : Expr) : Read Expr := iterate value (postfixStep deep)

/-! ## Primary expressions -/

/-- `field = value` in a record. -/
def fieldInit : Read FieldInit := do
  let start ← here
  let field ← ident
  let _ ← expect .eq
  let value ← deep.expr
  return ⟨← spanFrom start, field, value⟩

/-- The braces after the type of a record that begins at `start`. -/
def record (start : Nat) (type : Reference) : Read Expr := do
  let _ ← expect .lBrace
  let c ← get
  let length := c.referenceLength
  let base ←
    if length > 0 ∧ c.peekAt length = some .kwWith then do
      let base ← reference
      advance
      pure (some base)
    else pure none
  let fields ← separated .rBrace [.comma, .semi] (fieldInit deep)
  let _ ← expect .rBrace
  return .record (← spanFrom start) type base fields

/-- What begins with a name: the name alone, a node with static arguments, which must be called,
or a record. -/
def nameExpr : Read Expr := do
  let start ← here
  let name ← reference
  match ← peek with
  | some .ltLt =>
      let args ← deep.args
      if ← isAt .lParen then return .inst (← spanFrom start) name (some args)
      else throw ⟨.unappliedInstance name.describe, ← spanFrom start⟩
  | some .lBrace => record deep start name
  | _ => return .name (← spanFrom start) name

/-- The pattern of an arm of a merge. -/
def pattern : Read Pattern := do
  match ← peek with
  | some .kwTrue =>
      advance
      return .bool true
  | some .kwFalse =>
      advance
      return .bool false
  | some .ident => return .name (← reference)
  | _ => missing .mergePattern

/-- `(pattern -> value)` in a merge. -/
def mergeArm : Read MergeArm := do
  let start ← here
  let _ ← expect .lParen
  let pattern ← pattern
  let _ ← expect .arrow
  let value ← deep.expr
  let _ ← expect .rParen
  return ⟨← spanFrom start, pattern, value⟩

/-- The clock and the arms of a merge that begins at `start`; there must be an arm. -/
def merge (start : Nat) : Read Expr := do
  let clock ← ident
  let arms ← iterate [] fun arms => do
    if ← isAt .lParen then return .yield (arms ++ [← mergeArm deep]) else return .done arms
  if arms.isEmpty then missing .mergeArm else return .merge (← spanFrom start) clock arms

/-- The rest of a conditional that begins at `start`, after its keyword. -/
def conditional (start : Nat) (word : CondWord) : Read Expr := do
  let condition ← deep.expr
  let _ ← expect .kwThen
  let yes ← deep.expr
  let _ ← expect .kwElse
  let no ← deep.expr
  return .cond (← spanFrom start) word condition yes no

/-- The operands of `op`, which begins at `start`. -/
def operands (start : Nat) (op : ListOp) : Read Expr := do
  let _ ← expect .lParen
  let operands ← exprList deep .rParen
  let _ ← expect .rParen
  return .list (← spanFrom start) op operands

/-- An expression that no operator splits. -/
def primary : Read Expr := do
  let start ← here
  match ← peek with
  | some .intLit =>
      let digits ← takeText
      return .int (← spanFrom start) digits
  | some .realLit =>
      let digits ← takeText
      return .real (← spanFrom start) digits
  | some .kwTrue =>
      advance
      return .bool (← spanFrom start) true
  | some .kwFalse =>
      advance
      return .bool (← spanFrom start) false
  | some .ident => nameExpr deep
  | some .lParen =>
      advance
      let items ← exprList deep .rParen
      let _ ← expect .rParen
      return .tuple (← spanFrom start) items
  | some .lBracket =>
      advance
      let items ← exprList deep .rBracket
      let _ ← expect .rBracket
      return .array (← spanFrom start) items
  | some .kwIf =>
      advance
      conditional deep start .ifWord
  | some .kwWhen =>
      advance
      conditional deep start .whenWord
  | some .kwMerge =>
      advance
      merge deep start
  | some .hash =>
      advance
      operands deep start .atMostOne
  | some .kwNor =>
      advance
      operands deep start .noneOf
  | _ => missing .expression

/-! ## Operators -/

/-- A prefix operator and its operand, or a primary expression and its postfix forms. -/
def prefixed : Read Expr := do
  match (← peek).bind UnaryOp.ofKind? with
  | some op =>
      let start ← here
      advance
      let operand ← deep.inner (op.prec.level + 1)
      return .unary ⟨start, operand.span.stop, 0⟩ op operand
  | none => postfixes deep (← primary deep)

/-- The application of `op` to two operands. -/
def binary (op : BinaryOp) (lhs rhs : Expr) : Expr :=
  .binary (lhs.span.cover rhs.span) op lhs rhs

/-- One operator of the inner tier with its right operand, or one clock, after `lhs`, if it comes
next and its level is at least `min`. -/
def innerStep (min : Nat) (lhs : Expr) : Read (ForInStep Expr) := do
  if ← isAt .kwWhen then
    if Prec.sampling.level < min then return .done lhs
    else
      advance
      let clock ← clock
      return .yield (.sampled (lhs.span.cover clock.span) lhs clock)
  else
    match (← peek).bind (BinaryOp.inTier? .inner) with
    | some op =>
        if op.strength.prec.level < min then return .done lhs
        else
          advance
          let rhs ← deep.inner op.strength.rightMin
          return .yield (binary op lhs rhs)
    | none => return .done lhs

/-- Operands of the inner tier, joined by operators and sampled by clocks from level `min`
on. -/
def inner (min : Nat) : Read Expr := do
  iterate (← prefixed deep) (innerStep deep min)

/-- At most one comparison of two operands of the inner tier. -/
def comparison : Read Expr := do
  let lhs ← inner deep 0
  match (← peek).bind (BinaryOp.inTier? .comparison) with
  | some op =>
      advance
      let rhs ← inner deep 0
      match (← peek).bind (BinaryOp.inTier? .comparison) with
      | some next => fail (.chainedComparison op next)
      | none => return binary op lhs rhs
  | none => return lhs

/-- One operator of the top tier with its right operand, after `lhs`, if it comes next and its
level is at least `min`. -/
def topStep (min : Nat) (lhs : Expr) : Read (ForInStep Expr) := do
  match (← peek).bind (BinaryOp.inTier? .top) with
  | some op =>
      if op.strength.prec.level < min then return .done lhs
      else
        advance
        let rhs ← deep.top op.strength.rightMin
        return .yield (binary op lhs rhs)
  | none => return .done lhs

/-- Comparisons joined by operators of the top tier, from level `min` on. -/
def top (min : Nat) : Read Expr := do
  iterate (← comparison deep) (topStep deep min)

end Read

end Lustre
