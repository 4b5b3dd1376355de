import Lustre.Operator

/-!
# Expressions, types and static arguments

Trees keep the spans they were read from and the spelling of literals, so
printing needs nothing but the tree.  Parentheses around one expression are a
`tuple` of one item.  Expressions, types and static arguments contain each
other, hence one mutual definition.
-/

namespace Lustre

/-! ## Names -/

/-- A pragma `%key:value%`. -/
structure Pragma where
  key : String
  value : String
  span : Span
deriving DecidableEq

/-- A name where it is bound, or the name of a field; pragmas may follow it. -/
structure Ident where
  name : String
  span : Span
  pragmas : List Pragma
deriving DecidableEq

/-- A name where it is used: `member` or `package::member`. -/
structure Reference where
  package : Option String
  member : String
  span : Span
deriving DecidableEq

namespace Reference

/-- Whether the name says which package it belongs to. -/
def isQualified (ref : Reference) : Bool := ref.package.isSome

/-- The name as it is written. -/
def describe (ref : Reference) : String :=
  match ref.package with
  | some package => package ++ "::" ++ ref.member
  | none => ref.member

end Reference

/-! ## Clocks and patterns -/

/-- The condition that a flow is sampled on: a Boolean, its negation, or the case of an enumerated
flow. -/
inductive Clock where
  | on (clock : Ident)
  | not (clock : Ident) (parenthesized : Bool)
  | case (case : Reference) (clock : Ident)
deriving DecidableEq

/-- Which value of its clock an arm of a merge is for. -/
inductive Pattern where
  | name (ref : Reference)
  | bool (value : Bool)
deriving DecidableEq

/-- The keyword that opens a conditional. -/
inductive CondWord where
  | ifWord | whenWord
deriving DecidableEq

/-- Nodes have memory, functions have none. -/
inductive NodeKind where
  | node | function
deriving DecidableEq

namespace NodeKind

/-- The keyword of a kind of node. -/
def symbol : NodeKind → Kind
  | .node => .kwNode
  | .function => .kwFunction

end NodeKind

/-! ## The trees -/

mutual

/-- An expression. -/
inductive Expr where
  /-- Stands for an expression that could not be read. -/
  | error (span : Span)
  | bool (span : Span) (value : Bool)
  | int (span : Span) (digits : String)
  | real (span : Span) (digits : String)
  | name (span : Span) (ref : Reference)
  /-- A node with its static arguments, `f<<args>>`, where it is called. -/
  | inst (span : Span) (node : Reference) (args : Option (List StaticArg))
  | tuple (span : Span) (items : List Expr)
  | array (span : Span) (items : List Expr)
  /-- `Type { base with field = value; ... }`. -/
  | record (span : Span) (type : Reference) (base : Option Reference) (fields : List FieldInit)
  | field (span : Span) (value : Expr) (field : Ident)
  | index (span : Span) (value : Expr) (index : Expr)
  /-- `value[first .. last step step]`. -/
  | slice (span : Span) (value : Expr) (first : Expr) (last : Expr) (step : Option Expr)
  | call (span : Span) (callee : Expr) (args : List Expr)
  | cond (span : Span) (word : CondWord) (condition : Expr) (yes : Expr) (no : Expr)
  | merge (span : Span) (clock : Ident) (arms : List MergeArm)
  | sampled (span : Span) (value : Expr) (clock : Located Clock)
  | unary (span : Span) (op : UnaryOp) (operand : Expr)
  | binary (span : Span) (op : BinaryOp) (lhs : Expr) (rhs : Expr)
  | list (span : Span) (op : ListOp) (operands : List Expr)

/-- One `field = value` of a record. -/
structure FieldInit where
  span : Span
  field : Ident
  value : Expr

/-- One `(pattern -> value)` of a merge. -/
structure MergeArm where
  span : Span
  pattern : Pattern
  value : Expr

/-- A type. -/
inductive TypeExpr where
  | bool (span : Span)
  | int (span : Span)
  | real (span : Span)
  | named (span : Span) (ref : Reference)
  | table (span : Span) (element : TypeExpr) (length : Expr)

/-- A static argument.  Where a keyword says of what sort it is, it is explicit. -/
inductive StaticArg where
  /-- A name alone: of a type, a constant or a node. -/
  | name (span : Span) (ref : Reference)
  | type (span : Span) (type : TypeExpr) (explicit : Bool)
  | const (span : Span) (value : Expr) (explicit : Bool)
  /-- A node with static arguments, or any node after the keyword `keyword`. -/
  | node (span : Span) (keyword : Option NodeKind) (target : Span) (node : Reference)
      (args : Option (List StaticArg))
  | op (span : Span) (op : PredefinedOp)

end

/-- A node as a target: its name, with static arguments where they are written. -/
structure NodeUse where
  span : Span
  node : Reference
  args : Option (List StaticArg)

namespace Expr

/-- Where an expression stands. -/
def span : Expr → Span
  | error span | bool span _ | int span _ | real span _ | name span _ | inst span _ _
  | tuple span _ | array span _ | record span _ _ _ | field span _ _ | index span _ _
  | slice span _ _ _ _ | call span _ _ | cond span _ _ _ _ | merge span _ _ | sampled span _ _
  | unary span _ _ | binary span _ _ _ | list span _ _ => span

end Expr

namespace TypeExpr

/-- Where a type stands. -/
def span : TypeExpr → Span
  | bool span | int span | real span | named span _ | table span _ _ => span

end TypeExpr

namespace StaticArg

/-- Where a static argument stands. -/
def span : StaticArg → Span
  | name span _ | type span _ _ | const span _ _ | node span _ _ _ _ | op span _ => span

end StaticArg

end Lustre
