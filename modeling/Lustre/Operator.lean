import Lustre.Token

/-!
# Operators and how tightly they bind

Every operator has one record of its strength, a level and an associativity,
which both the reader and the printer of expressions consult; nothing else
decides how operators group.  Binary operators come in two tiers: an operand of
an inner operator never is a bare application of an outer one, whatever the
levels say.
-/

namespace Lustre

/-! ## Levels -/

/-- The levels of binding strength, from the weakest. -/
inductive Prec where
  | alternative | bar | arrow | step | dots | implication | disjunction | conjunction | equality
  | negation | additive | multiplicative | power | sampling | cast | sign | hat | bracket | comma
  | delay
deriving DecidableEq

namespace Prec

/-- The rank of a level: higher binds tighter. -/
def level : Prec → Nat
  | .alternative => 0
  | .bar => 1
  | .arrow => 2
  | .step => 3
  | .dots => 4
  | .implication => 5
  | .disjunction => 6
  | .conjunction => 7
  | .equality => 8
  | .negation => 9
  | .additive => 10
  | .multiplicative => 11
  | .power => 12
  | .sampling => 13
  | .cast => 14
  | .sign => 15
  | .hat => 16
  | .bracket => 17
  | .comma => 18
  | .delay => 19

/-- The rank of names, literals and postfix forms, above every operator. -/
def atom : Nat := 20

end Prec

/-- Which operand of an operator may be an application at the same level.  With `none`,
neither may. -/
inductive Assoc where
  | left | right | none
deriving DecidableEq

/-- How an operator groups with its neighbours. -/
structure Strength where
  prec : Prec
  assoc : Assoc
deriving DecidableEq

namespace Strength

/-- The least rank that the left operand must have. -/
def leftMin (strength : Strength) : Nat :=
  match strength.assoc with
  | .left => strength.prec.level
  | .right | .none => strength.prec.level + 1

/-- The least rank that the right operand must have. -/
def rightMin (strength : Strength) : Nat :=
  match strength.assoc with
  | .right => strength.prec.level
  | .left | .none => strength.prec.level + 1

end Strength

/-! ## Binary operators -/

/-- The operators written between two operands. -/
inductive BinaryOp where
  | bar | arrow | implies | or | xor | and
  | lt | le | eq | ge | gt | neq
  | add | sub | mul | slash | percent | mod | div | power | hat | fby
deriving DecidableEq

/-- The tiers of binary operators: `top` combines full expressions, `comparison` stands at most
once between two operands of the `inner` tier. -/
inductive Tier where
  | top | comparison | inner
deriving DecidableEq

namespace BinaryOp

/-- How an operator is written. -/
def symbol : BinaryOp → Kind
  | .bar => .pipe
  | .arrow => .arrow
  | .implies => .fatArrow
  | .or => .kwOr
  | .xor => .kwXor
  | .and => .kwAnd
  | .lt => .lt
  | .le => .ltEq
  | .eq => .eq
  | .ge => .gtEq
  | .gt => .gt
  | .neq => .neq
  | .add => .plus
  | .sub => .minus
  | .mul => .star
  | .slash => .slash
  | .percent => .percent
  | .mod => .kwMod
  | .div => .kwDiv
  | .power => .starStar
  | .hat => .caret
  | .fby => .kwFby

/-- The text of an operator. -/
def text (op : BinaryOp) : String := op.symbol.describe

/-- The tier of an operator. -/
def tier : BinaryOp → Tier
  | .bar | .arrow | .implies | .or | .xor | .and => .top
  | .lt | .le | .eq | .ge | .gt | .neq => .comparison
  | .add | .sub | .mul | .slash | .percent | .mod | .div | .power | .hat | .fby => .inner

/-- The strength of an operator. -/
def strength : BinaryOp → Strength
  | .bar => ⟨.bar, .left⟩
  | .arrow => ⟨.arrow, .left⟩
  | .implies => ⟨.implication, .right⟩
  | .or | .xor => ⟨.disjunction, .left⟩
  | .and => ⟨.conjunction, .left⟩
  | .lt | .le | .eq | .ge | .gt | .neq => ⟨.equality, .none⟩
  | .add | .sub => ⟨.additive, .left⟩
  | .mul | .slash | .percent | .mod | .div => ⟨.multiplicative, .left⟩
  | .power => ⟨.power, .left⟩
  | .hat => ⟨.hat, .left⟩
  | .fby => ⟨.delay, .right⟩

/-- The binary operators. -/
def all : List BinaryOp :=
  [.bar, .arrow, .implies, .or, .xor, .and, .lt, .le, .eq, .ge, .gt, .neq, .add, .sub, .mul,
   .slash, .percent, .mod, .div, .power, .hat, .fby]

/-- The binary operator that a symbol stands for. -/
def ofKind? (kind : Kind) : Option BinaryOp :=
  all.find? fun op => op.symbol == kind

/-- The operator of one tier that a symbol stands for. -/
def inTier? (tier : Tier) (kind : Kind) : Option BinaryOp :=
  (ofKind? kind).filter fun op => op.tier == tier

end BinaryOp

/-! ## Prefix operators -/

/-- The operators written before one operand. -/
inductive UnaryOp where
  | not | intCast | realCast | neg | pre | current
deriving DecidableEq

namespace UnaryOp

/-- How an operator is written. -/
def symbol : UnaryOp → Kind
  | .not => .kwNot
  | .intCast => .kwInt
  | .realCast => .kwReal
  | .neg => .minus
  | .pre => .kwPre
  | .current => .kwCurrent

/-- The text of an operator. -/
def text (op : UnaryOp) : String := op.symbol.describe

/-- The level of an operator; its operand binds tighter. -/
def prec : UnaryOp → Prec
  | .not => .negation
  | .intCast | .realCast => .cast
  | .neg | .pre | .current => .sign

/-- The prefix operators. -/
def all : List UnaryOp := [.not, .intCast, .realCast, .neg, .pre, .current]

/-- The prefix operator that a symbol stands for. -/
def ofKind? (kind : Kind) : Option UnaryOp :=
  all.find? fun op => op.symbol == kind

end UnaryOp

/-! ## Operators over a list of operands -/

/-- The operators applied to a parenthesised list: at most one operand is true, or none is. -/
inductive ListOp where
  | atMostOne | noneOf
deriving DecidableEq

namespace ListOp

/-- How an operator is written. -/
def symbol : ListOp → Kind
  | .atMostOne => .hash
  | .noneOf => .kwNor

/-- The text of an operator. -/
def text (op : ListOp) : String := op.symbol.describe

end ListOp

/-! ## Operators as static arguments -/

/-- The predefined operators that can be passed to a node as a static argument. -/
inductive PredefinedOp where
  | not | fby | pre | current | arrow | and | or | xor | implies | eq | neq | lt | le | gt | ge
  | div | mod | minus | plus | slash | star | cond
deriving DecidableEq

namespace PredefinedOp

/-- How an operator is written. -/
def symbol : PredefinedOp → Kind
  | .not => .kwNot
  | .fby => .kwFby
  | .pre => .kwPre
  | .current => .kwCurrent
  | .arrow => .arrow
  | .and => .kwAnd
  | .or => .kwOr
  | .xor => .kwXor
  | .implies => .fatArrow
  | .eq => .eq
  | .neq => .neq
  | .lt => .lt
  | .le => .ltEq
  | .gt => .gt
  | .ge => .gtEq
  | .div => .kwDiv
  | .mod => .kwMod
  | .minus => .minus
  | .plus => .plus
  | .slash => .slash
  | .star => .star
  | .cond => .kwIf

/-- The text of an operator. -/
def text (op : PredefinedOp) : String := op.symbol.describe

/-- The predefined operators. -/
def all : List PredefinedOp :=
  [.not, .fby, .pre, .current, .arrow, .and, .or, .xor, .implies, .eq, .neq, .lt, .le, .gt, .ge,
   .div, .mod, .minus, .plus, .slash, .star, .cond]

/-- The predefined operator that a symbol stands for. -/
def ofKind? (kind : Kind) : Option PredefinedOp :=
  all.find? fun op => op.symbol == kind

end PredefinedOp

end Lustre
