import Lustre.Tree.Program

/-!
# Printing expressions

Printing yields `Chunk`s: the words of the text, each with its kind, and the
gaps between them.  The text is what the chunks spell one after another
(`Chunk.render`), so what a printed tree means is decided by its words, and how
it looks by its gaps.

An operand is put in parentheses where its rank is less than its place demands.
In full mode every application of an operator is.
-/

namespace Lustre

/-- A stretch of printed text. -/
inductive Chunk where
  | word (kind : Kind) (text : String)
  | gap (text : String)
deriving DecidableEq

namespace Chunk

/-- A keyword or a symbol. -/
def sign (kind : Kind) : Chunk := .word kind kind.describe

/-- One blank. -/
def blank : Chunk := .gap " "

/-- The characters of a chunk. -/
def text : Chunk → String
  | word _ text => text
  | gap text => text

/-- The text that chunks spell. -/
def render (chunks : List Chunk) : String := String.join (chunks.map text)

/-- `chunks` between two symbols. -/
def between (opening closing : Kind) (chunks : List Chunk) : List Chunk :=
  sign opening :: chunks ++ [sign closing]

/-- Parts, each but the last followed by a symbol and a blank. -/
def separate (separator : Kind) : List (List Chunk) → List Chunk
  | [] => []
  | [part] => part
  | part :: parts => part ++ sign separator :: blank :: separate separator parts

end Chunk

open Chunk

/-! ## Names and clocks -/

namespace Pragma

/-- The text of a pragma. -/
def text (pragma : Pragma) : String := "%" ++ pragma.key ++ ":" ++ pragma.value ++ "%"

end Pragma

namespace Ident

/-- Prints a bound name and its pragmas. -/
def chunks (ident : Ident) : List Chunk :=
  word .ident ident.name ::
    ident.pragmas.flatMap fun pragma => [blank, word .pragma pragma.text]

end Ident

namespace Reference

/-- Prints a used name. -/
def chunks (ref : Reference) : List Chunk :=
  match ref.package with
  | some package => [word .ident package, sign .colonColon, word .ident ref.member]
  | none => [word .ident ref.member]

end Reference

namespace Clock

/-- Prints a clock. -/
def chunks : Clock → List Chunk
  | on clock => clock.chunks
  | not clock true => sign .kwNot :: blank :: between .lParen .rParen clock.chunks
  | not clock false => sign .kwNot :: blank :: clock.chunks
  | case name clock => name.chunks ++ between .lParen .rParen clock.chunks

end Clock

/-- The keyword for a truth value. -/
def boolSign (value : Bool) : Chunk := if value then sign .kwTrue else sign .kwFalse

namespace Pattern

/-- Prints a pattern. -/
def chunks : Pattern → List Chunk
  | name ref => ref.chunks
  | bool value => [boolSign value]

end Pattern

namespace CondWord

/-- The keyword that opens a conditional. -/
def symbol : CondWord → Kind
  | ifWord => .kwIf
  | whenWord => .kwWhen

end CondWord

/-! ## Parentheses -/

namespace Expr

/-- How tightly an expression holds together. -/
def rank : Expr → Nat
  | cond _ _ _ _ _ => Prec.alternative.level
  | binary _ op _ _ => op.strength.prec.level
  | unary _ op _ => op.prec.level
  | sampled _ _ _ => Prec.sampling.level
  | _ => Prec.atom

/-- Whether an expression is the application of `-` to an operand. -/
def isNegation : Expr → Bool
  | unary _ .neg _ => true
  | _ => false

/-- Puts the chunks of an expression into parentheses where its place demands the rank `least`
and it has less, or in full mode where it has less than an atom. -/
def enclose (full : Bool) (least : Nat) (expr : Expr) (chunks : List Chunk) : List Chunk :=
  if expr.rank < Prec.atom ∧ (full ∨ expr.rank < least) then between .lParen .rParen chunks
  else chunks

end Expr

namespace UnaryOp

/-- Prints an operator before its operand.  Only `-` stands close to it, unless the operand
begins with `-` too. -/
def chunks (op : UnaryOp) (operand : Expr) : List Chunk :=
  if op = .neg ∧ !operand.isNegation then [sign op.symbol] else [sign op.symbol, blank]

end UnaryOp

namespace StaticArg

/-- Whether an argument is an operator. -/
def isOp : StaticArg → Bool
  | op _ _ => true
  | _ => false

/-- Static arguments in `<<` and `>>`, whose chunks are `parts`.  A blank keeps an operator at the
end apart from the `>>`. -/
def enclose (args : List StaticArg) (parts : List (List Chunk)) : List Chunk :=
  let closing := if args.getLast?.any isOp then [blank, sign .gtGt] else [sign .gtGt]
  sign .ltLt :: separate .comma parts ++ closing

end StaticArg

/-- The keyword of an explicit argument. -/
def explicitSign (explicit : Bool) (kind : Kind) : List Chunk :=
  if explicit then [sign kind, blank] else []

namespace NodeKind

/-- The keyword for a kind of node, if it is written. -/
def chunks (kind : Option NodeKind) : List Chunk :=
  match kind with
  | some kind => [sign kind.symbol, blank]
  | none => []

end NodeKind

/-! ## Trees -/

mutual

/-- Prints an expression without parentheses around it. -/
def Expr.bare (full : Bool) : Expr → List Chunk
  | .error _ => [.gap "(* error *)"]
  | .bool _ value => [boolSign value]
  | .int _ digits => [word .intLit digits]
  | .real _ digits => [word .realLit digits]
  | .name _ ref => ref.chunks
  | .inst _ node args => node.chunks ++ optionalArgs full args
  | .tuple _ items => between .lParen .rParen (separate .comma (Expr.parts full items))
  | .array _ items => between .lBracket .rBracket (separate .comma (Expr.parts full items))
  | .record _ type base fields =>
      let base :=
        match base with
        | some base => blank :: base.chunks ++ [blank, sign .kwWith]
        | none => []
      let fields :=
        match fields with
        | [] => []
        | _ => blank :: separate .semi (FieldInit.parts full fields)
      type.chunks ++ [blank, sign .lBrace] ++ base ++ fields ++ [blank, sign .rBrace]
  | .field _ value field =>
      value.enclose full Prec.atom (value.bare full) ++ sign .dot :: field.chunks
  | .index _ value index =>
      value.enclose full Prec.atom (value.bare full) ++
        between .lBracket .rBracket (index.enclose full 0 (index.bare full))
  | .slice _ value first last step =>
      value.enclose full Prec.atom (value.bare full) ++
        between .lBracket .rBracket
          (first.enclose full 0 (first.bare full) ++ [blank, sign .dotDot, blank] ++
            last.enclose full 0 (last.bare full) ++ stepPart full step)
  | .call _ callee args =>
      callee.enclose full Prec.atom (callee.bare full) ++
        between .lParen .rParen (separate .comma (Expr.parts full args))
  | .cond _ opening condition yes no =>
      [sign opening.symbol, blank] ++ condition.enclose full 0 (condition.bare full) ++
        [blank, sign .kwThen, blank] ++ yes.enclose full 0 (yes.bare full) ++
        [blank, sign .kwElse, blank] ++ no.enclose full 0 (no.bare full)
  | .merge _ clock arms =>
      [sign .kwMerge, blank] ++ clock.chunks ++ MergeArm.parts full arms
  | .sampled _ value clock =>
      value.enclose full Prec.sampling.level (value.bare full) ++
        [blank, sign .kwWhen, blank] ++ clock.value.chunks
  | .unary _ op operand =>
      op.chunks operand ++ operand.enclose full (op.prec.level + 1) (operand.bare full)
  | .binary _ op lhs rhs =>
      lhs.enclose full op.strength.leftMin (lhs.bare full) ++ [blank, sign op.symbol, blank] ++
        rhs.enclose full op.strength.rightMin (rhs.bare full)
  | .list _ op operands =>
      sign op.symbol :: between .lParen .rParen (separate .comma (Expr.parts full operands))

/-- Prints each of some full expressions. -/
def Expr.parts (full : Bool) : List Expr → List (List Chunk)
  | [] => []
  | expr :: exprs => expr.enclose full 0 (expr.bare full) :: Expr.parts full exprs

/-- Prints the step of a slice. -/
def stepPart (full : Bool) : Option Expr → List Chunk
  | some step => [blank, sign .kwStep, blank] ++ step.enclose full 0 (step.bare full)
  | none => []

/-- Prints each of some fields of a record. -/
def FieldInit.parts (full : Bool) : List FieldInit → List (List Chunk)
  | [] => []
  | ⟨_, field, value⟩ :: fields =>
      (field.chunks ++ [blank, sign .eq, blank] ++ value.enclose full 0 (value.bare full)) ::
        FieldInit.parts full fields

/-- Prints the arms of a merge. -/
def MergeArm.parts (full : Bool) : List MergeArm → List Chunk
  | [] => []
  | ⟨_, pattern, value⟩ :: arms =>
      blank :: between .lParen .rParen
        (pattern.chunks ++ [blank, sign .arrow, blank] ++ value.enclose full 0 (value.bare full)) ++
        MergeArm.parts full arms

/-- Prints a type. -/
def TypeExpr.chunks (full : Bool) : TypeExpr → List Chunk
  | .bool _ => [sign .kwBool]
  | .int _ => [sign .kwInt]
  | .real _ => [sign .kwReal]
  | .named _ ref => ref.chunks
  | .table _ element length =>
      element.chunks full ++ sign .caret ::
        length.enclose full (Prec.hat.level + 1) (length.bare full)

/-- Prints a static argument. -/
def StaticArg.chunks (full : Bool) : StaticArg → List Chunk
  | .name _ ref => ref.chunks
  | .type _ type explicit => explicitSign explicit .kwType ++ type.chunks full
  | .const _ value explicit =>
      explicitSign explicit .kwConst ++ value.enclose full 0 (value.bare full)
  | .node _ keyword _ node args =>
      NodeKind.chunks keyword ++ node.chunks ++ optionalArgs full args
  | .op _ op => [sign op.symbol]

/-- Prints each of some static arguments. -/
def StaticArg.parts (full : Bool) : List StaticArg → List (List Chunk)
  | [] => []
  | arg :: args => arg.chunks full :: StaticArg.parts full args

/-- Prints the static arguments of a node, if it has any. -/
def optionalArgs (full : Bool) : Option (List StaticArg) → List Chunk
  | some args => StaticArg.enclose args (StaticArg.parts full args)
  | none => []

end

namespace Expr

/-- Prints an expression where its place demands the rank `least`. -/
def chunks (full : Bool) (least : Nat) (expr : Expr) : List Chunk :=
  expr.enclose full least (expr.bare full)

/-- The text of an expression, with parentheses only where they are needed. -/
def print (expr : Expr) : String := render (expr.chunks false 0)

/-- The text of an expression, with parentheses around every application of an operator. -/
def printFull (expr : Expr) : String := render (expr.chunks true 0)

end Expr

end Lustre
