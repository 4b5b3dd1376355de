import Lustre.Reader.Expr

/-!
# Reading types and static arguments

A static argument is told apart by the token that begins it and the token after
it: an operator that ends the argument at once stands for itself, a name that
does stays a name, and everything else without a keyword is a type, a node or a
constant expression.  Only `f<<...>>` needs a second look: it is a node unless an
opening parenthesis follows, and then it is read again as an expression.

`Nested.upTo` ties the readers of all levels together.
-/

namespace Lustre

namespace Cursor

/-- Whether the token after the next `ahead` ends a static argument. -/
def endsArg (c : Cursor) (ahead : Nat) (close : Kind) : Bool :=
  match c.peekAt ahead with
  | some kind => kind == .comma || kind == .semi || kind == close
  | none => false

end Cursor

namespace Read

variable (deep : Nested)

/-! ## Types -/

/-- The part of a type before its lengths. -/
def simpleType : Read TypeExpr := do
  let start ← here
  match ← peek with
  | some .kwBool =>
      advance
      return .bool (← spanFrom start)
  | some .kwInt =>
      advance
      return .int (← spanFrom start)
  | some .kwReal =>
      advance
      return .real (← spanFrom start)
  | some .ident =>
      let ref ← reference
      return .named (← spanFrom start) ref
  | _ => missing .typeExpression

/-- One length after `type`, if one comes next. -/
def lengthStep (type : TypeExpr) : Read (ForInStep TypeExpr) := do
  if ← eat .caret then
    let length ← inner deep (Prec.hat.level + 1)
    return .yield (.table (type.span.cover length.span) type length)
  else return .done type

/-- A type.  A length binds tighter than `^`, so that `int^2^3` is a table of tables. -/
def typeExpr : Read TypeExpr := do
  iterate (← simpleType) (lengthStep deep)

/-! ## Static arguments -/

/-- A node as a target, with its static arguments if there are any. -/
def nodeUse : Read NodeUse := do
  let start ← here
  let node ← reference
  let args ← optionalAt .ltLt deep.args
  return ⟨← spanFrom start, node, args⟩

/-- A type as an argument that begins at `start`. -/
def typeArg (start : Nat) (explicit : Bool) : Read StaticArg := do
  let type ← typeExpr deep
  return .type (← spanFrom start) type explicit

/-- A constant as an argument that begins at `start`. -/
def constArg (start : Nat) (explicit : Bool) : Read StaticArg := do
  let value ← deep.expr
  return .const (← spanFrom start) value explicit

/-- A node as an argument that begins at `start`, after the keyword for `kind`. -/
def nodeArg (start : Nat) (kind : NodeKind) : Read StaticArg := do
  let target ← nodeUse deep
  return .node (← spanFrom start) (some kind) target.span target.node target.args

/-- A constant expression that begins with a name.  Were it a name alone, it would not have come
here. -/
def nameLedConst (close : Kind) (start : Nat) : Read StaticArg := do
  let value ← deep.expr
  match value with
  | .name span ref =>
      if (← get).endsArg 0 close then throw ⟨.ambiguousArgument ref.describe, span⟩
      else return .const (← spanFrom start) value false
  | _ => return .const (← spanFrom start) value false

/-- An argument that begins with a name at `start`. -/
def nameLedArg (close : Kind) (start : Nat) : Read StaticArg := do
  let c ← get
  let length := c.referenceLength
  if c.endsArg length close then
    let ref ← reference
    return .name (← spanFrom start) ref
  else if c.peekAt length = some .ltLt then
    let target ← nodeUse deep
    if ← isAt .lParen then
      set c
      nameLedConst deep close start
    else return .node (← spanFrom start) none target.span target.node target.args
  else nameLedConst deep close start

/-- A static argument in a list that ends with `close`. -/
def staticArg (close : Kind) : Read StaticArg := do
  let c ← get
  let start := c.span.start
  match (c.peek.bind PredefinedOp.ofKind?).filter fun _ => c.endsArg 1 close with
  | some op =>
      advance
      return .op (← spanFrom start) op
  | none =>
      match c.peek with
      | some .kwType =>
          advance
          typeArg deep start true
      | some .kwConst =>
          advance
          constArg deep start true
      | some .kwNode =>
          advance
          nodeArg deep start .node
      | some .kwFunction =>
          advance
          nodeArg deep start .function
      | some .kwBool | some .kwInt | some .kwReal =>
          if c.endsArg 1 close ∨ c.peekAt 1 = some .caret then typeArg deep start false
          else constArg deep start false
      | some .ident => nameLedArg deep close start
      | _ => constArg deep start false

/-- A list of static arguments in `<<` and `>>`. -/
def staticArgs : Read (List StaticArg) := do
  let _ ← expect .ltLt
  let args ← separated .gtGt [.comma, .semi] (staticArg deep .gtGt)
  let _ ← expect .gtGt
  return args

end Read

/-! ## All levels -/

/-- The number of levels that expressions and lists of static arguments may be nested. -/
def maxNesting : Nat := 64

namespace Nested

/-- The readers where `levels` further levels are allowed. -/
def upTo : Nat → Nested
  | 0 => exhausted
  | levels + 1 =>
      let deep := upTo levels
      ⟨Read.top deep, Read.inner deep, Read.staticArgs deep⟩

end Nested

end Lustre
