import Lustre.Proofs.Tree.Words
import Lustre.Proofs.Printer.Apart

/-!
# Printing keeps the words of a tree

Printing adds parentheses, and decides which separators stand between the parts of a tree.  All
other words of a printed tree, in their order, are those that the tree is flattened to: both
recursions run over a tree in the same way, so this is found form by form.
-/

namespace Lustre

open Chunk

/-! ## Words that printing does not decide about -/

/-- Whether a word is a parenthesis or a separator. -/
def Kind.isFraming : Kind → Bool
  | .lParen | .rParen | .comma | .semi => true
  | _ => false

/-- A word as it is printed. -/
def Lexeme.chunk : Lexeme → Chunk
  | plain kind text => .word kind text
  | pragma key value => .word .pragma (Pragma.text ⟨key, value, ⟨0, 0, 0⟩⟩)

namespace Chunk

/-- Whether a chunk is a word, and neither a parenthesis nor a separator. -/
def isFirm : Chunk → Bool
  | word kind _ => !kind.isFraming
  | gap _ => false

/-- The chunks that are such words. -/
def firm (chunks : List Chunk) : List Chunk := chunks.filter isFirm

@[simp] theorem firm_nil : firm [] = [] := rfl

@[simp] theorem firm_append (first second : List Chunk) :
    firm (first ++ second) = firm first ++ firm second := by
  simp [firm]

@[simp] theorem firm_gap (text : String) (chunks : List Chunk) :
    firm (gap text :: chunks) = firm chunks := rfl

@[simp] theorem firm_blank (chunks : List Chunk) : firm (blank :: chunks) = firm chunks := rfl

/-- A keyword or a symbol, unless it is a parenthesis or a separator. -/
def firmSign (kind : Kind) : List Chunk := firm [sign kind]

@[simp] theorem firmSign_lParen : firmSign .lParen = [] := rfl

@[simp] theorem firmSign_rParen : firmSign .rParen = [] := rfl

@[simp] theorem firmSign_comma : firmSign .comma = [] := rfl

@[simp] theorem firmSign_semi : firmSign .semi = [] := rfl

@[simp] theorem firm_sign (kind : Kind) (chunks : List Chunk) :
    firm (sign kind :: chunks) = firmSign kind ++ firm chunks := by
  rw [← List.singleton_append, firm_append, firmSign]

@[simp] theorem firm_between (opening closing : Kind) (chunks : List Chunk) :
    firm (between opening closing chunks) = firmSign opening ++ firm chunks ++
      firmSign closing := by
  simp [between]

theorem firm_separate {separator : Kind} (h : firmSign separator = []) (parts : List (List Chunk)) :
    firm (separate separator parts) = parts.flatMap firm := by
  cases parts with
  | nil => rfl
  | cons part parts =>
      rw [separate_cons, firm_append, List.flatMap_cons]
      congr 1
      induction parts with
      | nil => rfl
      | cons next parts ih => simp [h, ih]

@[simp] theorem firm_separate_comma (parts : List (List Chunk)) :
    firm (separate .comma parts) = parts.flatMap firm :=
  firm_separate rfl parts

@[simp] theorem firm_separate_semi (parts : List (List Chunk)) :
    firm (separate .semi parts) = parts.flatMap firm :=
  firm_separate rfl parts

end Chunk

/-! ## Names and clocks -/

/-- The words of a tree as they are printed, without parentheses and separators. -/
def firmWords (words : List Lexeme) : List Chunk := firm (words.map Lexeme.chunk)

@[simp] theorem firmWords_nil : firmWords [] = [] := rfl

@[simp] theorem firmWords_append (first second : List Lexeme) :
    firmWords (first ++ second) = firmWords first ++ firmWords second := by
  rw [firmWords, List.map_append, firm_append, firmWords, firmWords]

@[simp] theorem firmWords_sign (kind : Kind) (words : List Lexeme) :
    firmWords (.sign kind :: words) = firmSign kind ++ firmWords words := by
  rw [firmWords, List.map_cons, ← List.singleton_append, firm_append]
  rfl

theorem Ident.firm_chunks (ident : Ident) : firm ident.chunks = firmWords ident.words := by
  obtain ⟨name, place, pragmas⟩ := ident
  refine congrArg (List.cons (word .ident name)) ?_
  induction pragmas with
  | nil => rfl
  | cons pragma pragmas ih => exact congrArg (List.cons (word .pragma pragma.text)) ih

theorem Reference.firm_chunks (ref : Reference) : firm ref.chunks = firmWords ref.words := by
  obtain ⟨package, member, place⟩ := ref
  cases package <;> rfl

theorem Clock.firm_chunks (clock : Clock) : firm clock.chunks = firmWords clock.words := by
  cases clock with
  | on clock => exact clock.firm_chunks
  | not clock parenthesized => cases parenthesized <;> simp [chunks, words, clock.firm_chunks]
  | case name clock => simp [chunks, words, clock.firm_chunks, name.firm_chunks]

theorem firm_boolSign (value : Bool) : firm [boolSign value] = firmWords [boolWord value] := by
  cases value <;> rfl

theorem Pattern.firm_chunks (pattern : Pattern) :
    firm pattern.chunks = firmWords pattern.words := by
  cases pattern with
  | name ref => exact ref.firm_chunks
  | bool value => exact firm_boolSign value

/-! ## Parentheses, operators and keywords -/

@[simp] theorem Expr.firm_enclose (full : Bool) (least : Nat) (expr : Expr) (chunks : List Chunk) :
    firm (expr.enclose full least chunks) = firm chunks := by
  unfold Expr.enclose
  split <;> simp

theorem UnaryOp.firm_chunks (op : UnaryOp) (operand : Expr) :
    firm (op.chunks operand) = firmSign op.symbol := by
  unfold UnaryOp.chunks
  split <;> simp

theorem CondWord.firmWords_word (opening : CondWord) (words : List Lexeme) :
    firmWords (opening.word :: words) = firmSign opening.symbol ++ firmWords words := by
  cases opening <;> exact firmWords_sign _ _

theorem firm_explicitSign (explicit : Bool) (kind : Kind) :
    firm (explicitSign explicit kind) = firmWords (explicitWord explicit kind) := by
  cases explicit <;> rfl

theorem NodeKind.firm_chunks (kind : Option NodeKind) :
    firm (NodeKind.chunks kind) = firmWords (nodeWord kind) := by
  cases kind <;> rfl

theorem StaticArg.firm_enclose (args : List StaticArg) (parts : List (List Chunk)) :
    firm (StaticArg.enclose args parts) =
      firmSign .ltLt ++ (parts.flatMap firm ++ firmSign .gtGt) := by
  unfold StaticArg.enclose
  dsimp only
  split <;> simp

/-! ## Expressions, types and static arguments -/

section

variable (full : Bool)

mutual

/-- A printed expression has the words of the expression, up to parentheses and separators. -/
theorem Expr.firm_bare : ∀ expr : Expr, firm (expr.bare full) = firmWords expr.words
  | .error _ => rfl
  | .bool _ value => firm_boolSign value
  | .int _ _ => rfl
  | .real _ _ => rfl
  | .name _ ref => ref.firm_chunks
  | .inst _ node args => by
      simp [Expr.bare, Expr.words, node.firm_chunks, firm_optionalArgs args]
  | .tuple _ items => by
      simp [Expr.bare, Expr.words, Expr.firm_parts items]
  | .array _ items => by
      simp [Expr.bare, Expr.words, Expr.firm_parts items]
  | .record _ type base fields => by
      -- a blank stands between the braces only if there are fields
      have hfields := FieldInit.firm_parts fields
      cases fields with
      | nil =>
          cases base <;> simp [Expr.bare, Expr.words, type.firm_chunks,
            Reference.firm_chunks, baseWords, FieldInit.listWords]
      | cons init fields =>
          cases base <;> simp [Expr.bare, Expr.words, type.firm_chunks,
            Reference.firm_chunks, baseWords, hfields]
  | .field _ value field => by
      simp [Expr.bare, Expr.words, Expr.firm_bare value, field.firm_chunks]
  | .index _ value index => by
      simp [Expr.bare, Expr.words, Expr.firm_bare value, Expr.firm_bare index]
  | .slice _ value first last step => by
      simp [Expr.bare, Expr.words, Expr.firm_bare value, Expr.firm_bare first, Expr.firm_bare last,
        firm_stepPart step]
  | .call _ callee args => by
      simp [Expr.bare, Expr.words, Expr.firm_bare callee, Expr.firm_parts args]
  | .cond _ opening condition yes no => by
      simp [Expr.bare, Expr.words, Expr.firm_bare condition, Expr.firm_bare yes, Expr.firm_bare no,
        CondWord.firmWords_word]
  | .merge _ clock arms => by
      simp [Expr.bare, Expr.words, clock.firm_chunks, MergeArm.firm_parts arms]
  | .sampled _ value clock => by
      simp [Expr.bare, Expr.words, Expr.firm_bare value, clock.value.firm_chunks]
  | .unary _ op operand => by
      simp [Expr.bare, Expr.words, Expr.firm_bare operand, op.firm_chunks]
  | .binary _ op lhs rhs => by
      simp [Expr.bare, Expr.words, Expr.firm_bare lhs, Expr.firm_bare rhs]
  | .list _ op operands => by
      simp [Expr.bare, Expr.words, Expr.firm_parts operands]

theorem Expr.firm_parts : ∀ exprs : List Expr,
    (Expr.parts full exprs).flatMap firm = firmWords (Expr.listWords exprs)
  | [] => rfl
  | expr :: exprs => by
      simp [Expr.parts, Expr.listWords, Expr.firm_bare expr, Expr.firm_parts exprs]

theorem firm_stepPart : ∀ step : Option Expr, firm (stepPart full step) = firmWords (stepWords step)
  | some step => by simp [stepPart, stepWords, Expr.firm_bare step]
  | none => rfl

theorem FieldInit.firm_parts : ∀ fields : List FieldInit,
    (FieldInit.parts full fields).flatMap firm = firmWords (FieldInit.listWords fields)
  | [] => rfl
  | ⟨_, field, value⟩ :: fields => by
      simp [FieldInit.parts, FieldInit.listWords, field.firm_chunks, Expr.firm_bare value,
        FieldInit.firm_parts fields]

theorem MergeArm.firm_parts : ∀ arms : List MergeArm,
    firm (MergeArm.parts full arms) = firmWords (MergeArm.listWords arms)
  | [] => rfl
  | ⟨_, pattern, value⟩ :: arms => by
      simp [MergeArm.parts, MergeArm.listWords, pattern.firm_chunks, Expr.firm_bare value,
        MergeArm.firm_parts arms]

theorem TypeExpr.firm_chunks : ∀ type : TypeExpr, firm (type.chunks full) = firmWords type.words
  | .bool _ => rfl
  | .int _ => rfl
  | .real _ => rfl
  | .named _ ref => ref.firm_chunks
  | .table _ element length => by
      simp [TypeExpr.chunks, TypeExpr.words, TypeExpr.firm_chunks element, Expr.firm_bare length]

theorem StaticArg.firm_chunks : ∀ arg : StaticArg, firm (arg.chunks full) = firmWords arg.words
  | .name _ ref => ref.firm_chunks
  | .type _ type _ => by
      simp [StaticArg.chunks, StaticArg.words, firm_explicitSign, TypeExpr.firm_chunks type]
  | .const _ value _ => by
      simp [StaticArg.chunks, StaticArg.words, firm_explicitSign, Expr.firm_bare value]
  | .node _ keyword _ node args => by
      simp [StaticArg.chunks, StaticArg.words, NodeKind.firm_chunks, node.firm_chunks,
        firm_optionalArgs args]
  | .op _ op => by simp [StaticArg.chunks, StaticArg.words]

theorem StaticArg.firm_parts : ∀ args : List StaticArg,
    (StaticArg.parts full args).flatMap firm = firmWords (StaticArg.listWords args)
  | [] => rfl
  | arg :: args => by
      simp [StaticArg.parts, StaticArg.listWords, StaticArg.firm_chunks arg,
        StaticArg.firm_parts args]

theorem firm_optionalArgs : ∀ args : Option (List StaticArg),
    firm (optionalArgs full args) = firmWords (argsWords args)
  | some args => by
      simp [optionalArgs, argsWords, StaticArg.firm_enclose, StaticArg.firm_parts args]
  | none => rfl

end

/-- The same in any place. -/
theorem Expr.firm_chunks (least : Nat) (expr : Expr) :
    firm (expr.chunks full least) = firmWords expr.words := by
  rw [Expr.chunks, Expr.firm_enclose, Expr.firm_bare]

end

end Lustre
