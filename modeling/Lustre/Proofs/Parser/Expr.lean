import Lustre.Proofs.Parser.Machine

/-!
# Parsing expressions and static arguments

The procedures that parse expressions call each other.  Each of them is given the procedures that
it calls under `nested`, and `Calls.upTo` puts them in: `Calls.upTo beyond n` is what the
procedures do, except that `beyond` is called where `n` calls under `nested` are open.  With
`maxNesting` for `n` that never happens, since `nested` fails there.

The one place where a parser goes back is `nameLedArg`: `f<<...>>` is a node unless an opening
parenthesis follows, and then it is parsed again as an expression.
-/

namespace Lustre

/-- The procedures that are called under `nested`. -/
structure Calls where
  top : Nat → Parser Expr
  inner : Nat → Parser Expr
  args : Parser (List StaticArg)

/-- A full expression. -/
def Calls.expr (calls : Calls) : Parser Expr := Parser.nested (calls.top 0)

namespace Parser

/-! ## Names and clocks -/

def pragmas : Parser (List Pragma) :=
  loop [] fun read => do
    match ← take? .pragma with
    | some token => return .yield (read ++ [.ofToken token])
    | none => return .done read

def ident : Parser Ident := do
  match ← take? .ident with
  | some token => return ⟨token.text, token.span, ← pragmas⟩
  | none => missing .identifier

def identList : Parser (List Ident) := commaList ident

def reference : Parser Reference := do
  match ← take? .ident with
  | none => missing .identifier
  | some first =>
      match ← take? .colonColon with
      | none => return ⟨none, first.text, first.span⟩
      | some separator =>
          match ← take? .ident with
          | none => missing .member
          | some member =>
              let span := first.span.cover member.span
              if first.span.stop = separator.span.start ∧
                  separator.span.stop = member.span.start then
                return ⟨some first.text, member.text, span⟩
              else throw ⟨.spacedQualifiedName, span⟩

def clock : Parser (Located Clock) := located do
  if ← eat .kwNot then
    if ← eat .lParen then
      let name ← ident
      let _ ← expect .rParen
      return .not name true
    else return .not (← ident) false
  else
    let c ← cursor
    let length := c.referenceLength
    if length > 0 ∧ c.peekAt length = some .lParen then
      let case ← reference
      advance
      let name ← ident
      let _ ← expect .rParen
      return .case case name
    else return .on (← ident)

variable (calls : Calls)

/-! ## Expressions -/

def exprList (close : Kind) : Parser (List Expr) := do
  if ← isAt close then return [] else commaList calls.expr

/-! ## Postfix forms -/

def indexing {α : Type} (index : Expr → α) (slice : Expr → Expr → Option Expr → α) :
    Parser α := do
  let first ← calls.expr
  if ← eat .dotDot then
    let last ← calls.expr
    let step ← optionalAfter .kwStep calls.expr
    return slice first last step
  else return index first

def postfixStep (value : Expr) : Parser (ForInStep Expr) := do
  match ← peek with
  | some .dot =>
      advance
      let field ← ident
      return .yield (.field (value.span.cover field.span) value field)
  | some .lBracket =>
      advance
      let build ← indexing calls (fun index span => Expr.index span value index)
        (fun first last step span => Expr.slice span value first last step)
      let close ← expect .rBracket
      return .yield (build (value.span.cover close))
  | some .lParen =>
      advance
      let args ← exprList calls .rParen
      let close ← expect .rParen
      return .yield (.call (value.span.cover close) value args)
  | _ => return .done value

def postfixes (value : Expr) : Parser Expr := loop value (postfixStep calls)

/-! ## Primary expressions -/

def fieldInit : Parser FieldInit := do
  let start ← here
  let field ← ident
  let _ ← expect .eq
  let value ← calls.expr
  return ⟨← spanFrom start, field, value⟩

def record (start : Nat) (type : Reference) : Parser Expr := do
  let _ ← expect .lBrace
  let c ← cursor
  let length := c.referenceLength
  let base ←
    if length > 0 ∧ c.peekAt length = some .kwWith then do
      let base ← reference
      advance
      pure (some base)
    else pure none
  let fields ← separated .rBrace [.comma, .semi] (fieldInit calls)
  let _ ← expect .rBrace
  return .record (← spanFrom start) type base fields

def nameExpr : Parser Expr := do
  let start ← here
  let name ← reference
  match ← peek with
  | some .ltLt =>
      let args ← nested calls.args
      if ← isAt .lParen then return .inst (← spanFrom start) name (some args)
      else throw ⟨.unappliedInstance name.describe, ← spanFrom start⟩
  | some .lBrace => record calls start name
  | _ => return .name (← spanFrom start) name

def pattern : Parser Pattern := do
  match ← peek with
  | some .kwTrue =>
      advance
      return .bool true
  | some .kwFalse =>
      advance
      return .bool false
  | some .ident => return .name (← reference)
  | _ => missing .mergePattern

def mergeArm : Parser MergeArm := do
  let start ← here
  let _ ← expect .lParen
  let pattern ← pattern
  let _ ← expect .arrow
  let value ← calls.expr
  let _ ← expect .rParen
  return ⟨← spanFrom start, pattern, value⟩

def merge (start : Nat) : Parser Expr := do
  let clock ← ident
  let arms ← loop [] fun arms => do
    if ← isAt .lParen then return .yield (arms ++ [← mergeArm calls]) else return .done arms
  if arms.isEmpty then missing .mergeArm else return .merge (← spanFrom start) clock arms

def conditional (start : Nat) (word : CondWord) : Parser Expr := do
  let condition ← calls.expr
  let _ ← expect .kwThen
  let yes ← calls.expr
  let _ ← expect .kwElse
  let no ← calls.expr
  return .cond (← spanFrom start) word condition yes no

def operands (start : Nat) (op : ListOp) : Parser Expr := do
  let _ ← expect .lParen
  let operands ← exprList calls .rParen
  let _ ← expect .rParen
  return .list (← spanFrom start) op operands

def primary : Parser Expr := do
  let start ← here
  match ← peek with
  | some .intLit =>
      let digits ← takeText
      return .int (← spanFrom start) digits
  | some .realLit =>
      let digits ← takeText
      return .real (← spanFrom start) digits
  | some .kwTrue =>
      advance
      return .bool (← spanFrom start) true
  | some .kwFalse =>
      advance
      return .bool (← spanFrom start) false
  | some .ident => nameExpr calls
  | some .lParen =>
      advance
      let items ← exprList calls .rParen
      let _ ← expect .rParen
      return .tuple (← spanFrom start) items
  | some .lBracket =>
      advance
      let items ← exprList calls .rBracket
      let _ ← expect .rBracket
      return .array (← spanFrom start) items
  | some .kwIf =>
      advance
      conditional calls start .ifWord
  | some .kwWhen =>
      advance
      conditional calls start .whenWord
  | some .kwMerge =>
      advance
      merge calls start
  | some .hash =>
      advance
      operands calls start .atMostOne
  | some .kwNor =>
      advance
      operands calls start .noneOf
  | _ => missing .expression

/-! ## Operators -/

def prefixed : Parser Expr := do
  match (← peek).bind UnaryOp.ofKind? with
  | some op =>
      let start ← here
      advance
      let operand ← nested (calls.inner (op.prec.level + 1))
      return .unary ⟨start, operand.span.stop, 0⟩ op operand
  | none => postfixes calls (← primary calls)

def innerStep (min : Nat) (lhs : Expr) : Parser (ForInStep Expr) := do
  if ← isAt .kwWhen then
    if Prec.sampling.level < min then return .done lhs
    else
      advance
      let clock ← clock
      return .yield (.sampled (lhs.span.cover clock.span) lhs clock)
  else
    match (← peek).bind (BinaryOp.inTier? .inner) with
    | some op =>
        if op.strength.prec.level < min then return .done lhs
        else
          advance
          let rhs ← nested (calls.inner op.strength.rightMin)
          return .yield (Read.binary op lhs rhs)
    | none => return .done lhs

def inner (min : Nat) : Parser Expr := do
  loop (← prefixed calls) (innerStep calls min)

def comparison : Parser Expr := do
  let lhs ← inner calls 0
  match (← peek).bind (BinaryOp.inTier? .comparison) with
  | some op =>
      advance
      let rhs ← inner calls 0
      match (← peek).bind (BinaryOp.inTier? .comparison) with
      | some next => fail (.chainedComparison op next)
      | none => return Read.binary op lhs rhs
  | none => return lhs

def topStep (min : Nat) (lhs : Expr) : Parser (ForInStep Expr) := do
  match (← peek).bind (BinaryOp.inTier? .top) with
  | some op =>
      if op.strength.prec.level < min then return .done lhs
      else
        advance
        let rhs ← nested (calls.top op.strength.rightMin)
        return .yield (Read.binary op lhs rhs)
  | none => return .done lhs

def top (min : Nat) : Parser Expr := do
  loop (← comparison calls) (topStep calls min)

/-! ## Types -/

def simpleType : Parser TypeExpr := do
  let start ← here
  match ← peek with
  | some .kwBool =>
      advance
      return .bool (← spanFrom start)
  | some .kwInt =>
      advance
      return .int (← spanFrom start)
  | some .kwReal =>
      advance
      return .real (← spanFrom start)
  | some .ident =>
      let ref ← reference
      return .named (← spanFrom start) ref
  | _ => missing .typeExpression

def lengthStep (type : TypeExpr) : Parser (ForInStep TypeExpr) := do
  if ← eat .caret then
    let length ← inner calls (Prec.hat.level + 1)
    return .yield (.table (type.span.cover length.span) type length)
  else return .done type

def typeExpr : Parser TypeExpr := do
  loop (← simpleType) (lengthStep calls)

/-! ## Static arguments -/

def nodeUse : Parser NodeUse := do
  let start ← here
  let node ← reference
  let args ← optionalAt .ltLt (nested calls.args)
  return ⟨← spanFrom start, node, args⟩

def typeArg (start : Nat) (explicit : Bool) : Parser StaticArg := do
  let type ← typeExpr calls
  return .type (← spanFrom start) type explicit

def constArg (start : Nat) (explicit : Bool) : Parser StaticArg := do
  let value ← calls.expr
  return .const (← spanFrom start) value explicit

def nodeArg (start : Nat) (kind : NodeKind) : Parser StaticArg := do
  let target ← nodeUse calls
  return .node (← spanFrom start) (some kind) target.span target.node target.args

def nameLedConst (close : Kind) (start : Nat) : Parser StaticArg := do
  let value ← calls.expr
  match value with
  | .name span ref =>
      if (← cursor).endsArg 0 close then throw ⟨.ambiguousArgument ref.describe, span⟩
      else return .const (← spanFrom start) value false
  | _ => return .const (← spanFrom start) value false

def nameLedArg (close : Kind) (start : Nat) : Parser StaticArg := do
  let c ← cursor
  let length := c.referenceLength
  if c.endsArg length close then
    let ref ← reference
    return .name (← spanFrom start) ref
  else if c.peekAt length = some .ltLt then
    let saved ← checkpoint
    let target ← nodeUse calls
    if ← isAt .lParen then
      restore saved
      nameLedConst calls close start
    else return .node (← spanFrom start) none target.span target.node target.args
  else nameLedConst calls close start

def staticArg (close : Kind) : Parser StaticArg := do
  let c ← cursor
  let start := c.span.start
  match (c.peek.bind PredefinedOp.ofKind?).filter fun _ => c.endsArg 1 close with
  | some op =>
      advance
      return .op (← spanFrom start) op
  | none =>
      match c.peek with
      | some .kwType =>
          advance
          typeArg calls start true
      | some .kwConst =>
          advance
          constArg calls start true
      | some .kwNode =>
          advance
          nodeArg calls start .node
      | some .kwFunction =>
          advance
          nodeArg calls start .function
      | some .kwBool | some .kwInt | some .kwReal =>
          if c.endsArg 1 close ∨ c.peekAt 1 = some .caret then typeArg calls start false
          else constArg calls start false
      | some .ident => nameLedArg calls close start
      | _ => constArg calls start false

def staticArgs : Parser (List StaticArg) := do
  let _ ← expect .ltLt
  let args ← separated .gtGt [.comma, .semi] (staticArg calls .gtGt)
  let _ ← expect .gtGt
  return args

end Parser

namespace Calls

/-- The procedures, with those of `beyond` where `n` calls under `nested` are open. -/
def upTo (beyond : Calls) : Nat → Calls
  | 0 => beyond
  | n + 1 =>
      let calls := upTo beyond n
      ⟨Parser.top calls, Parser.inner calls, Parser.staticArgs calls⟩

end Calls

end Lustre
