import Lustre.Proofs.Reread.Gives
import Lustre.Proofs.Tree.Printable

/-!
# The words at both ends of an expression

Where an expression ends is decided by the word behind it: `Kind.demand` is the least rank
that an expression before a word must have so that the word belongs to all of it, and not to
its last part alone.  A loop that reads operators ends at a word whose demand is below its
minimum, and also at one whose demand does not exceed the level of the operator before the
loop (`Ends.of_level`).

What an expression is, is decided by its first word, and for an operator as a static
argument also by the second one (`OpensExpr`).
-/

namespace Lustre

open Chunk

/-! ## The word behind an expression -/

namespace BinaryOp

variable {op other : BinaryOp} {tier : Tier} {kind : Kind}

theorem ofKind?_symbol (op : BinaryOp) : ofKind? op.symbol = some op := by
  cases op <;> rfl

theorem inTier?_symbol (op : BinaryOp) : inTier? op.tier op.symbol = some op := by
  rw [inTier?, ofKind?_symbol, Option.filter_some, if_pos (by simp)]

theorem inTier?_of_ne (h : op.tier ≠ tier) : inTier? tier op.symbol = none := by
  rw [inTier?, ofKind?_symbol, Option.filter_some, if_neg (by simpa using h)]

theorem level_le_leftMin (op : BinaryOp) : op.strength.prec.level ≤ op.strength.leftMin := by
  cases op <;> decide

theorem level_le_rightMin (op : BinaryOp) : op.strength.prec.level ≤ op.strength.rightMin := by
  cases op <;> decide

theorem tier_of_lt_level (h : Prec.equality.level < op.strength.prec.level) : op.tier = .inner := by
  cases op <;> first
    | rfl
    | exact absurd h (by decide)

/-- Operators of one level have one associativity. -/
theorem assoc_eq_of_level_eq (h : op.strength.prec.level = other.strength.prec.level) :
    op.strength.assoc = other.strength.assoc := by
  cases op <;> cases other <;> first
    | rfl
    | exact absurd h (by decide)

/-- An operator that may have another to its left does not go on with the right operand of that
one. -/
theorem level_lt_rightMin (h : other.strength.leftMin ≤ op.strength.prec.level) :
    other.strength.prec.level < op.strength.rightMin := by
  have hother := other.level_le_leftMin
  by_cases heq : other.strength.prec.level = op.strength.prec.level
  · have hassoc := assoc_eq_of_level_eq heq
    -- At one level neither operator is right associative, or `other` would demand more.
    unfold Strength.leftMin at h
    unfold Strength.rightMin
    rw [← hassoc]
    cases hkind : other.strength.assoc with
    | left => dsimp only; omega
    | none => dsimp only; omega
    | right => rw [hkind] at h; dsimp only at h; omega
  · have hright := op.level_le_rightMin
    omega

end BinaryOp

namespace Kind

/-- The least rank of an expression that a word behind it can belong to as a whole.  Postfix forms
and what goes on with a name belong to nothing that has a rank as high as that. -/
def demand (kind : Kind) : Nat :=
  match BinaryOp.ofKind? kind with
  | some op => op.strength.leftMin
  | none =>
      match kind with
      | .kwWhen => Prec.sampling.level
      | .dot | .lBracket | .lParen => Prec.atom + 1
      | .ltLt | .lBrace | .colonColon | .pragma => Prec.atom + 2
      | _ => 0

@[simp] theorem demand_symbol (op : BinaryOp) : op.symbol.demand = op.strength.leftMin := by
  cases op <;> rfl

end Kind

/-- What the first of some words demands of an expression before it. -/
def demand (later : List Chunk) : Nat :=
  match (kinds later).head? with
  | some kind => kind.demand
  | none => 0

section

variable {later : List Chunk} {kind : Kind} {tier : Tier} {least : Nat}

theorem demand_of_head (h : (kinds later).head? = some kind) : demand later = kind.demand := by
  rw [demand, h]

/-- No word of some kinds belongs to an expression before it. -/
theorem Before.demand_eq {ends : List Kind} (h : Before ends later)
    (hends : ∀ kind ∈ ends, kind.demand = 0) : demand later = 0 := by
  obtain ⟨kind, hmem, hhead⟩ := h
  rw [demand_of_head hhead, hends kind hmem]

@[simp] theorem demand_sign (kind : Kind) (later : List Chunk) :
    demand (sign kind :: later) = kind.demand := rfl

@[simp] theorem demand_blank (later : List Chunk) : demand (blank :: later) = demand later := rfl

theorem head_ne_of_demand (h : demand later < kind.demand) : (kinds later).head? ≠ some kind := by
  intro heq
  rw [demand_of_head heq] at h
  exact Nat.lt_irrefl _ h

/-- What follows is no operator of a tier with a level of `least` or more. -/
def Ends (tier : Tier) (least : Nat) (later : List Chunk) : Prop :=
  ∀ op : BinaryOp, op.tier = tier → (kinds later).head? = some op.symbol →
  op.strength.prec.level < least

/-- What follows does not sample an expression of rank `least` or more. -/
def Unsampled (least : Nat) (later : List Chunk) : Prop :=
  (kinds later).head? = some .kwWhen → Prec.sampling.level < least

theorem Ends.of_lt (h : demand later < least) : Ends tier least later := by
  intro op _ hop
  rw [demand_of_head hop, Kind.demand_symbol] at h
  exact Nat.lt_of_le_of_lt op.level_le_leftMin h

theorem Unsampled.of_lt (h : demand later < least) : Unsampled least later := by
  intro hwhen
  rwa [demand_of_head hwhen] at h

/-- What closes a bracket or begins no operator ends every loop. -/
theorem Ends.of_closed (h : demand later = 0) : Ends tier least later := by
  intro op _ hop
  rw [demand_of_head hop, Kind.demand_symbol] at h
  have hpositive : 0 < op.strength.leftMin := by cases op <;> decide
  omega

theorem Ends.of_level {op : BinaryOp} (h : demand later ≤ op.strength.prec.level) :
    Ends tier op.strength.rightMin later := by
  intro other _ hother
  rw [demand_of_head hother, Kind.demand_symbol] at h
  exact BinaryOp.level_lt_rightMin h

theorem Unsampled.of_level {op : BinaryOp} (h : demand later ≤ op.strength.prec.level) :
    Unsampled op.strength.rightMin later := by
  intro hwhen
  rw [demand_of_head hwhen] at h
  revert h
  cases op <;> decide

theorem comparison_demand {op : BinaryOp} (h : op.tier = .comparison) :
    op.strength.leftMin = Prec.equality.level + 1 := by
  cases op <;> first
    | rfl
    | cases h

theorem lt_demand_of_inner {op : BinaryOp} (h : op.tier = .inner) :
    Prec.equality.level < op.strength.leftMin := by
  cases op <;> first
    | decide
    | cases h

/-- What a full expression ends at is no operator below the top tier. -/
theorem Ends.of_full (h : demand later ≤ Prec.equality.level) (htier : tier ≠ .top) :
    Ends tier least later := by
  intro op hop hhead
  rw [demand_of_head hhead, Kind.demand_symbol] at h
  have hlow : Prec.equality.level < op.strength.leftMin := by
    cases tier with
    | top => exact absurd rfl htier
    | comparison => rw [comparison_demand hop]; exact Nat.lt_succ_self _
    | inner => exact lt_demand_of_inner hop
  omega

theorem Unsampled.of_full (h : demand later ≤ Prec.equality.level) : Unsampled least later := by
  intro hwhen
  rw [demand_of_head hwhen] at h
  exact absurd h (by decide)

end

/-! ## The first words of an expression -/

namespace Kind

/-- Whether an expression can begin with a word. -/
def opens (kind : Kind) : Bool :=
  match kind with
  | .intLit | .realLit | .kwTrue | .kwFalse | .ident | .lParen | .lBracket | .kwIf | .kwWhen
  | .kwMerge | .hash | .kwNor => true
  | kind => (UnaryOp.ofKind? kind).isSome

/-- Whether an expression that begins with a word goes on with another expression. -/
def opensTwice (kind : Kind) : Bool := kind == .kwIf || (UnaryOp.ofKind? kind).isSome

end Kind

/-- The first word is one that an expression can begin with, and so is the second one if the first
is a prefix operator or opens a conditional. -/
def OpensExpr (chunks : List Chunk) : Prop :=
  ∃ kind rest, kinds chunks = kind :: rest ∧ kind.opens = true ∧
    (kind.opensTwice = true → ∃ next more, rest = next :: more ∧ next.opens = true)

namespace OpensExpr

variable {chunks : List Chunk} {kind : Kind}

theorem of_head (kind : Kind) (h : (kinds chunks).head? = some kind) (hopens : kind.opens = true)
    (hplain : kind.opensTwice = false) : OpensExpr chunks := by
  cases hkinds : kinds chunks with
  | nil => rw [hkinds] at h; cases h
  | cons first rest =>
      rw [hkinds] at h
      obtain rfl := Option.some.inj h
      exact ⟨first, rest, hkinds, hopens, fun htwice => by rw [hplain] at htwice; cases htwice⟩

theorem append (h : OpensExpr chunks) (later : List Chunk) : OpensExpr (chunks ++ later) := by
  obtain ⟨kind, rest, hkinds, hopens, hnext⟩ := h
  refine ⟨kind, rest ++ kinds later, by rw [kinds_append, hkinds]; rfl, hopens, fun htwice => ?_⟩
  obtain ⟨next, more, rfl, hsecond⟩ := hnext htwice
  exact ⟨next, more ++ kinds later, rfl, hsecond⟩

/-- A prefix operator or the keyword of a conditional before its operand. -/
theorem lead (h : OpensExpr chunks) (hopens : kind.opens = true) :
    OpensExpr (sign kind :: chunks) := by
  obtain ⟨next, rest, hkinds, hnext, -⟩ := h
  exact ⟨kind, next :: rest, by rw [kinds_sign, hkinds], hopens, fun _ => ⟨next, rest, rfl, hnext⟩⟩

theorem enclose (h : OpensExpr chunks) (full : Bool) (least : Nat) (expr : Expr) :
    OpensExpr (expr.enclose full least chunks) := by
  unfold Expr.enclose
  split
  · exact .of_head .lParen rfl rfl rfl
  · exact h

theorem head_ne (h : OpensExpr chunks) (hkind : kind.opens = false) (later : List Chunk) :
    (kinds (chunks ++ later)).head? ≠ some kind := by
  obtain ⟨first, rest, hkinds, hopens, -⟩ := h.append later
  rw [hkinds]
  rintro heq
  obtain rfl := Option.some.inj heq
  rw [hkind] at hopens
  cases hopens

end OpensExpr

theorem Reference.opens (ref : Reference) : OpensExpr ref.chunks := by
  refine .of_head .ident ?_ rfl rfl
  unfold Reference.chunks
  split <;> rfl

/-- A printed expression begins like one. -/
theorem Expr.Printable.opens {called : Bool} {expr : Expr} (h : expr.Printable called)
    (full : Bool) : OpensExpr (expr.bare full) := by
  cases h with
  | @bool _ _ value => cases value <;> exact .of_head _ rfl rfl rfl
  | int => exact .of_head .intLit rfl rfl rfl
  | real => exact .of_head .realLit rfl rfl rfl
  | tuple => exact .of_head .lParen rfl rfl rfl
  | array => exact .of_head .lBracket rfl rfl rfl
  | merge => exact .of_head .kwMerge rfl rfl rfl
  | @list _ _ op => cases op <;> exact .of_head _ rfl rfl rfl
  | name => exact Reference.opens _
  | inst => exact (Reference.opens _).append _
  | record =>
      simp only [Expr.bare, List.append_assoc]
      exact (Reference.opens _).append _
  | field hvalue => exact ((hvalue.opens full).enclose _ _ _).append _
  | index hvalue => exact ((hvalue.opens full).enclose _ _ _).append _
  | slice hvalue => exact ((hvalue.opens full).enclose _ _ _).append _
  | call hcallee => exact ((hcallee.opens full).enclose _ _ _).append _
  | sampled hvalue =>
      simp only [Expr.bare, List.append_assoc]
      exact ((hvalue.opens full).enclose _ _ _).append _
  | binary hlhs =>
      simp only [Expr.bare, List.append_assoc]
      exact ((hlhs.opens full).enclose _ _ _).append _
  -- behind the first word begins the operand, which opens an expression itself
  | @unary _ _ op operand hoperand =>
      have hinside := (hoperand.opens full).enclose full (op.prec.level + 1) operand
      have hsymbol : op.symbol.opens = true := by cases op <;> rfl
      have hlead := hinside.lead hsymbol
      rw [Expr.bare, UnaryOp.chunks]
      split
      · exact hlead
      · exact hlead
  | @cond _ _ opening condition _ _ hcondition =>
      have hinside := (hcondition.opens full).enclose full 0 condition
      have hsymbol : opening.symbol.opens = true := by cases opening <;> rfl
      simp only [Expr.bare, List.append_assoc]
      exact (hinside.append _).lead hsymbol
termination_by sizeOf expr

end Lustre
