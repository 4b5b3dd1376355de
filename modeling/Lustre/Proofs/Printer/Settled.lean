import Lustre.Proofs.Printer.Expr
import Lustre.Proofs.Tree.Rebuildable
import Lustre.Proofs.Tree.Subexpr

/-!
# Printing a tree with the parentheses that were printed for it

Places have no part in what is printed, and parentheses that stand in the tree are printed where
they would have been put in.  Only a minus directly under a minus is printed in another way: the
blank between both is there to keep them apart, so it goes once a parenthesis stands there.

Rebuilding a tree thus drops one blank of its chunks for each such pair (`Drops`), and none if it
leaves expressions as they are.  `Settling` says which rebuildings are meant.
-/

namespace Lustre

open Chunk

/-! ## Chunks without some blanks -/

/-- The second chunks are the first without `count` blanks. -/
inductive Drops : Nat → List Chunk → List Chunk → Prop
  | nil : Drops 0 [] []
  | cons {count : Nat} {first second : List Chunk} (chunk : Chunk)
      (later : Drops count first second) : Drops count (chunk :: first) (chunk :: second)
  | drop {count : Nat} {first second : List Chunk} (later : Drops count first second) :
      Drops (count + 1) (blank :: first) second

namespace Drops

variable {count more : Nat} {first second : List Chunk}

theorem refl (chunks : List Chunk) : Drops 0 chunks chunks := by
  induction chunks with
  | nil => exact .nil
  | cons chunk chunks ih => exact .cons chunk ih

theorem append (h : Drops count first second) {first' second' : List Chunk}
    (h' : Drops more first' second') :
    Drops (count + more) (first ++ first') (second ++ second') := by
  induction h with
  | nil => rwa [Nat.zero_add]
  | cons chunk _ ih => exact .cons chunk ih
  | drop _ ih =>
      rw [Nat.add_right_comm]
      exact .drop ih

theorem lead (chunks : List Chunk) (h : Drops count first second) :
    Drops count (chunks ++ first) (chunks ++ second) := by
  have happend := (refl chunks).append h
  rwa [Nat.zero_add] at happend

theorem trail (h : Drops count first second) (chunks : List Chunk) :
    Drops count (first ++ chunks) (second ++ chunks) :=
  h.append (refl chunks)

theorem between (h : Drops count first second) (opening closing : Kind) :
    Drops count (between opening closing first) (between opening closing second) :=
  .cons _ (h.trail _)

theorem cast (h : Drops count first second) (heq : count = more) : Drops more first second :=
  heq ▸ h

theorem of_eq (h : first = second) : Drops 0 first second :=
  h ▸ refl first

/-- Each blank that is dropped is missing in the text. -/
theorem length_chars (h : Drops count first second) :
    (chars first).length = (chars second).length + count := by
  induction h with
  | nil => rfl
  | cons chunk _ ih =>
      cases chunk <;> simp only [chars_word, chars_gap, List.length_append] <;> omega
  | drop _ ih =>
      have hblank : " ".toList.length = 1 := rfl
      simp only [blank, chars_gap, List.length_append, ih, hblank]
      omega

theorem eq_of_zero (h : Drops 0 first second) : first = second := by
  generalize hzero : 0 = count at h
  induction h with
  | nil => rfl
  | cons chunk _ ih => rw [ih hzero]
  | drop => cases hzero

/-- The text stays the same exactly if no blank is dropped. -/
theorem render_eq_iff (h : Drops count first second) :
    render second = render first ↔ count = 0 := by
  constructor
  · intro heq
    have hlength := h.length_chars
    rw [← toList_render, ← toList_render, heq] at hlength
    omega
  · rintro rfl
    rw [h.eq_of_zero]

end Drops

/-- The same for some parts, one after the other. -/
inductive DropsAll : Nat → List (List Chunk) → List (List Chunk) → Prop
  | nil : DropsAll 0 [] []
  | cons {count more : Nat} {first second : List Chunk} {firsts seconds : List (List Chunk)}
      (head : Drops count first second) (later : DropsAll more firsts seconds) :
      DropsAll (count + more) (first :: firsts) (second :: seconds)

namespace DropsAll

variable {count : Nat} {firsts seconds : List (List Chunk)}

theorem cast (h : DropsAll count firsts seconds) {more : Nat} (heq : count = more) :
    DropsAll more firsts seconds :=
  heq ▸ h

theorem flatten (h : DropsAll count firsts seconds) :
    Drops count firsts.flatten seconds.flatten := by
  induction h with
  | nil => exact .nil
  | cons head _ ih => exact head.append ih

theorem separate (h : DropsAll count firsts seconds) (separator : Kind) :
    Drops count (separate separator firsts) (separate separator seconds) := by
  cases h with
  | nil => exact .nil
  | cons head later =>
      rw [separate_cons, separate_cons]
      apply head.append
      induction later with
      | nil => exact .nil
      | cons head _ ih =>
          simp only [List.flatMap_cons, List.cons_append]
          exact .cons _ (.cons _ (head.append ih))

/-- Lists of things of which each drops what `weight` says, and the whole list `total`. -/
theorem map {α : Type} (total : List α → Nat) {weight : α → Nat} {print : α → List Chunk}
    {change : α → α} (hnil : total [] = 0)
    (hcons : ∀ item items, total (item :: items) = weight item + total items)
    (h : ∀ item, Drops (weight item) (print item) (print (change item))) (items : List α) :
    DropsAll (total items) (items.map print) ((items.map change).map print) := by
  induction items with
  | nil => exact cast .nil hnil.symm
  | cons item items ih => exact (cons (h item) ih).cast (hcons item items).symm

end DropsAll

/-! ## Minus under minus -/

/-- Whether a minus is applied directly to a minus. -/
def Expr.doublesMinus : Expr → Bool
  | unary _ .neg operand => operand.isNegation
  | _ => false

/-- The blanks to be dropped of an expression itself: `w` if it is a minus under a minus. -/
def Expr.blanksAt (w : Nat) (expr : Expr) : Nat := if expr.doublesMinus then w else 0

/-- The blanks to be dropped of some expressions. -/
def blanks (w : Nat) (exprs : List Expr) : Nat :=
  exprs.foldr (fun expr count => expr.blanksAt w + count) 0

@[simp] theorem blanks_nil (w : Nat) : blanks w [] = 0 := rfl

@[simp] theorem blanks_cons (w : Nat) (expr : Expr) (exprs : List Expr) :
    blanks w (expr :: exprs) = expr.blanksAt w + blanks w exprs := rfl

@[simp] theorem blanks_append (w : Nat) (exprs others : List Expr) :
    blanks w (exprs ++ others) = blanks w exprs + blanks w others := by
  induction exprs with
  | nil => simp
  | cons expr exprs ih => rw [List.cons_append, blanks_cons, blanks_cons, ih, Nat.add_assoc]

theorem Expr.blanksAt_of_plain (w : Nat) {expr : Expr} (h : expr.doublesMinus = false) :
    expr.blanksAt w = 0 := by
  rw [blanksAt, h]
  rfl

/-- What is dropped of an expression that is no minus under a minus is dropped inside it. -/
theorem Drops.plain {w count : Nat} {first second : List Chunk} (h : Drops count first second)
    {expr : Expr} (hplain : expr.doublesMinus = false) (heq : count = blanks w expr.within) :
    Drops (blanks w expr.exprs) first second := by
  apply h.cast
  rw [heq, Expr.exprs, blanks_cons, Expr.blanksAt_of_plain w hplain, Nat.zero_add]

/-- Rebuildings with parentheses where printing puts them in, which drop `w` blanks for each minus
under a minus. -/
structure Settling (w : Nat) (wrap : Nat → Expr → Expr) : Prop where
  chunks (least : Nat) {expr : Expr} {count : Nat}
    (h : Drops count (expr.bare false) ((expr.rebuild wrap).bare false)) :
    Drops count (expr.chunks false least) ((wrap least (expr.rebuild wrap)).chunks false least)
  sign (op : UnaryOp) (operand : Expr) (span : Span) :
    Drops ((Expr.unary span op operand).blanksAt w) (op.chunks operand)
      (op.chunks (wrap (op.prec.level + 1) (operand.rebuild wrap)))

theorem Expr.isNegation_rebuild (wrap : Nat → Expr → Expr) (expr : Expr) :
    (expr.rebuild wrap).isNegation = expr.isNegation := by
  cases expr with
  | unary _ op => cases op <;> rfl
  | _ => rfl

/-- Without any change nothing is dropped. -/
theorem settling_keep : Settling 0 Expr.keep where
  chunks least {expr count} h := by
    unfold Expr.chunks Expr.enclose Expr.keep
    rw [Expr.rank_rebuild]
    split
    · exact h.between _ _
    · exact h
  sign op operand span := by
    rw [Expr.blanksAt, ite_self]
    apply Drops.of_eq
    unfold UnaryOp.chunks Expr.keep
    rw [Expr.isNegation_rebuild]

theorem Expr.isNegation_settle {expr : Expr} {least : Nat} (h : UnaryOp.neg.prec.level < least) :
    (Expr.settle false least expr).isNegation = false := by
  unfold Expr.settle
  split
  · rfl
  · rename_i hclosed
    cases expr with
    | unary _ op operand =>
        cases op with
        | neg =>
            have hlow : UnaryOp.neg.prec.level < Prec.atom := by decide
            exact absurd ⟨hlow, .inr h⟩ hclosed
        | _ => rfl
    | _ => rfl

/-- With the parentheses of printing one blank is dropped for each minus under a minus. -/
theorem settling_settle : Settling 1 (Expr.settle false) where
  chunks least {expr count} h := by
    unfold Expr.chunks Expr.enclose
    rw [Expr.settle, Expr.rank_rebuild]
    split
    · -- parentheses that printing puts in are there already once the tree is settled
      have hone : (Expr.tuple .nowhere [expr.rebuild (Expr.settle false)]).bare false =
          Chunk.between .lParen .rParen ((expr.rebuild (Expr.settle false)).bare false) := by
        simp [Expr.enclose, Expr.bare, Expr.parts, separate]
      rw [hone]
      exact h.between _ _
    · rename_i hclosed
      rw [Expr.rank_rebuild, if_neg hclosed]
      exact h
  sign op operand span := by
    by_cases hneg : op = .neg
    · subst hneg
      unfold UnaryOp.chunks
      rw [Expr.isNegation_settle (Nat.lt_succ_self _)]
      cases hminus : operand.isNegation with
      | true =>
          have hone : (Expr.unary span .neg operand).blanksAt 1 = 1 := if_pos hminus
          rw [hone]
          exact .cons _ (.drop .nil)
      | false =>
          have hplain : (Expr.unary span .neg operand).doublesMinus = false := hminus
          rw [Expr.blanksAt_of_plain 1 hplain]
          exact .refl _
    · have hplain : (Expr.unary span op operand).doublesMinus = false := by
        cases op <;> first
          | rfl
          | exact absurd rfl hneg
      rw [Expr.blanksAt_of_plain 1 hplain]
      apply Drops.of_eq
      simp [UnaryOp.chunks, hneg]

/-! ## Names, clocks and patterns -/

@[simp] theorem Ident.chunks_strip (ident : Ident) : ident.strip.chunks = ident.chunks := by
  simp [chunks, strip, List.flatMap_map, Pragma.text, Pragma.strip]

@[simp] theorem Reference.chunks_strip (ref : Reference) : ref.strip.chunks = ref.chunks := rfl

@[simp] theorem Clock.chunks_strip (clock : Clock) : clock.strip.chunks = clock.chunks := by
  cases clock with
  | on | case => simp [chunks, strip]
  | not name parenthesized => cases parenthesized <;> simp [chunks, strip]

@[simp] theorem Pattern.chunks_strip (pattern : Pattern) :
    pattern.strip.chunks = pattern.chunks := by
  cases pattern <;> rfl

@[simp] theorem StaticArg.isOp_rebuild (wrap : Nat → Expr → Expr) (arg : StaticArg) :
    (arg.rebuild wrap).isOp = arg.isOp := by
  cases arg <;> rfl

/-! ## Expressions, types and static arguments -/

section

variable {w : Nat} {wrap : Nat → Expr → Expr}

mutual

/-- Rebuilding an expression drops the blanks of each minus under a minus in it. -/
theorem Expr.drops_bare (h : Settling w wrap) : ∀ expr : Expr,
    Drops (blanks w expr.exprs) (expr.bare false) ((expr.rebuild wrap).bare false)
  | .error _ | .bool _ _ | .int _ _ | .real _ _ | .name _ _ => .refl _
  | .inst _ node args => ((optionalArgs_drops h args).lead node.chunks).plain rfl rfl
  | .tuple _ items =>
      (((Expr.drops_parts h items).separate .comma).between .lParen .rParen).plain rfl rfl
  | .array _ items =>
      (((Expr.drops_parts h items).separate .comma).between .lBracket .rBracket).plain rfl rfl
  | .record _ type base fields => by
      have hbase : baseChunks (base.map Reference.strip) = baseChunks base := by
        cases base <;> rfl
      rw [Expr.rebuild, Expr.bare_record, Expr.bare_record, Reference.chunks_strip, hbase]
      exact (((((FieldInit.drops_chunks h fields).trail _).lead _).lead
        [blank, sign .lBrace]).lead type.chunks).plain rfl rfl
  | .field _ value field => by
      rw [Expr.rebuild, Expr.bare, Expr.bare, Ident.chunks_strip]
      exact ((h.chunks _ (value.drops_bare h)).trail _).plain rfl rfl
  | .index _ value index => by
      apply ((h.chunks _ (value.drops_bare h)).append
        ((h.chunks 0 (index.drops_bare h)).between _ _)).plain rfl
      simp [Expr.within, Expr.exprs, Nat.add_assoc]
  | .slice _ value first last step => by
      have hplaces := ((((h.chunks 0 (first.drops_bare h)).trail
        [blank, sign .dotDot, blank]).append (h.chunks 0 (last.drops_bare h))).append
        (stepPart_drops h step)).between .lBracket .rBracket
      apply ((h.chunks _ (value.drops_bare h)).append hplaces).plain rfl
      simp [Expr.within, Expr.exprs, Nat.add_assoc]
  | .call _ callee args => by
      have hargs := ((Expr.drops_parts h args).separate .comma).between .lParen .rParen
      apply ((h.chunks _ (callee.drops_bare h)).append hargs).plain rfl
      -- an instance that is called is never put in parentheses, so it drops no blank
      cases hinst : callee.isInst with
      | true =>
          have hplain : callee.doublesMinus = false := by
            cases callee <;> first
              | rfl
              | cases hinst
          simp [Expr.within, Expr.exprs, hinst, Expr.blanksAt_of_plain w hplain]
      | false => simp [Expr.within, Expr.exprs, hinst, Nat.add_assoc]
  | .cond _ opening condition yes no => by
      have hcondition := (h.chunks 0 (condition.drops_bare h)).lead [sign opening.symbol, blank]
      have hbranch := ((hcondition.trail [blank, sign .kwThen, blank]).append
        (h.chunks 0 (yes.drops_bare h))).trail [blank, sign .kwElse, blank]
      apply (hbranch.append (h.chunks 0 (no.drops_bare h))).plain rfl
      simp [Expr.within, Expr.exprs, Nat.add_assoc]
  | .merge _ clock arms => by
      rw [Expr.rebuild, Expr.bare, Expr.bare, Ident.chunks_strip]
      exact ((MergeArm.drops_parts h arms).lead _).plain rfl rfl
  | .sampled _ value clock => by
      rw [Expr.rebuild, Expr.bare, Expr.bare, Located.nowhere, Clock.chunks_strip]
      exact (((h.chunks _ (value.drops_bare h)).trail _).trail _).plain rfl rfl
  | .unary span op operand => (h.sign op operand span).append (h.chunks _ (operand.drops_bare h))
  | .binary _ op lhs rhs => by
      have hlhs := (h.chunks op.strength.leftMin (lhs.drops_bare h)).trail
        [blank, sign op.symbol, blank]
      apply (hlhs.append (h.chunks _ (rhs.drops_bare h))).plain rfl
      simp [Expr.within, Expr.exprs, Nat.add_assoc]
  | .list _ op operands =>
      ((((Expr.drops_parts h operands).separate .comma).between .lParen .rParen).lead
        [sign op.symbol]).plain rfl rfl

/-- Rebuilding some full expressions. -/
theorem Expr.drops_parts (h : Settling w wrap) :
    ∀ exprs : List Expr, DropsAll (blanks w (Expr.listExprs exprs))
    (Expr.parts false exprs) (Expr.parts false (Expr.listRebuild wrap exprs))
  | [] => .nil
  | expr :: exprs => by
      apply (DropsAll.cons (h.chunks 0 (expr.drops_bare h)) (Expr.drops_parts h exprs)).cast
      simp [Expr.listExprs, Expr.exprs, Nat.add_assoc]

theorem stepPart_drops (h : Settling w wrap) :
    ∀ step : Option Expr, Drops (blanks w (stepExprs step))
    (stepPart false step) (stepPart false (stepRebuild wrap step))
  | none => .nil
  | some step => (h.chunks 0 (step.drops_bare h)).lead _

theorem FieldInit.drops_parts (h : Settling w wrap) : ∀ fields : List FieldInit,
    DropsAll (blanks w (FieldInit.listExprs fields)) (FieldInit.parts false fields)
      (FieldInit.parts false (FieldInit.listRebuild wrap fields))
  | [] => .nil
  | ⟨_, field, value⟩ :: fields => by
      rw [FieldInit.listRebuild, FieldInit.parts, FieldInit.parts, Ident.chunks_strip]
      apply (DropsAll.cons ((h.chunks _ (value.drops_bare h)).lead _)
        (FieldInit.drops_parts h fields)).cast
      simp [FieldInit.listExprs, Expr.exprs, Nat.add_assoc]

theorem FieldInit.drops_chunks (h : Settling w wrap) : ∀ fields : List FieldInit,
    Drops (blanks w (FieldInit.listExprs fields)) (fieldsChunks false fields)
      (fieldsChunks false (FieldInit.listRebuild wrap fields))
  | [] => .nil
  | ⟨span, field, value⟩ :: fields =>
      .cons _ ((FieldInit.drops_parts h (⟨span, field, value⟩ :: fields)).separate .semi)

theorem MergeArm.drops_parts (h : Settling w wrap) :
    ∀ arms : List MergeArm, Drops (blanks w (MergeArm.listExprs arms))
    (MergeArm.parts false arms) (MergeArm.parts false (MergeArm.listRebuild wrap arms))
  | [] => .nil
  | ⟨_, pattern, value⟩ :: arms => by
      rw [MergeArm.listRebuild, MergeArm.parts, MergeArm.parts, Pattern.chunks_strip]
      apply ((((h.chunks _ (value.drops_bare h)).lead _).between _ _).append
        (MergeArm.drops_parts h arms)).lead [blank] |>.cast
      simp [MergeArm.listExprs, Expr.exprs, Nat.add_assoc]

theorem TypeExpr.drops_chunks (h : Settling w wrap) :
    ∀ type : TypeExpr, Drops (blanks w type.within)
    (type.chunks false) ((type.rebuild wrap).chunks false)
  | .bool _ | .int _ | .real _ | .named _ _ => .refl _
  | .table _ element length => by
      apply ((element.drops_chunks h).append
        ((h.chunks _ (length.drops_bare h)).lead [sign .caret])).cast
      simp [TypeExpr.within, Expr.exprs]

theorem StaticArg.drops_chunks (h : Settling w wrap) :
    ∀ arg : StaticArg, Drops (blanks w arg.within)
    (arg.chunks false) ((arg.rebuild wrap).chunks false)
  | .name _ _ | .op _ _ => .refl _
  | .type _ type explicit => (type.drops_chunks h).lead _
  | .const _ value explicit => (h.chunks _ (value.drops_bare h)).lead _
  | .node _ keyword _ node args => (optionalArgs_drops h args).lead _

theorem StaticArg.drops_parts (h : Settling w wrap) :
    ∀ args : List StaticArg, DropsAll (blanks w (StaticArg.listExprs args))
    (StaticArg.parts false args) (StaticArg.parts false (StaticArg.listRebuild wrap args))
  | [] => .nil
  | arg :: args => by
      apply (DropsAll.cons (arg.drops_chunks h) (StaticArg.drops_parts h args)).cast
      simp [StaticArg.listExprs]

theorem optionalArgs_drops (h : Settling w wrap) :
    ∀ args : Option (List StaticArg), Drops (blanks w (argsExprs args))
    (optionalArgs false args) (optionalArgs false (argsRebuild wrap args))
  | none => .nil
  | some args => by
      have hclosing : (StaticArg.listRebuild wrap args).getLast?.any StaticArg.isOp =
          args.getLast?.any StaticArg.isOp := by
        rw [StaticArg.listRebuild_eq, List.getLast?_map]
        cases args.getLast? <;> simp
      rw [argsRebuild, optionalArgs, optionalArgs, StaticArg.enclose, StaticArg.enclose, hclosing]
      exact (((StaticArg.drops_parts h args).separate .comma).trail _).lead [sign .ltLt]

end

end

end Lustre
