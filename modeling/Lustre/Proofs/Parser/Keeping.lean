import Lustre.Proofs.Parser.Recovering

/-!
# What every parser keeps of its state

`Twins` pairs every parser with the reader that it mirrors.  From any state in range each
of them ends, in a state that is in the frame of the first one, with the answer of its reader:
whatever was changed on the way has been put back, at the end of a success and at the end of a
failure, and the depth has never exceeded the limit (`parsers_keep_state`).

Nothing is said about what would be called beyond the limit, since nothing is.
-/

namespace Lustre

/-! ## The parsers and their readers -/

/-- The parsers that report nothing, with their readers. -/
inductive ReadTwins : {α : Type} → (Calls → Parser α) → (Nested → Read α) → Prop
  | pragmas : ReadTwins (fun _ => Parser.pragmas) fun _ => Read.pragmas
  | ident : ReadTwins (fun _ => Parser.ident) fun _ => Read.ident
  | identList : ReadTwins (fun _ => Parser.identList) fun _ => Read.identList
  | reference : ReadTwins (fun _ => Parser.reference) fun _ => Read.reference
  | clock : ReadTwins (fun _ => Parser.clock) fun _ => Read.clock
  | nestedTop (least : Nat) :
      ReadTwins (fun calls => Parser.nested (calls.top least)) fun deep => deep.top least
  | nestedInner (least : Nat) :
      ReadTwins (fun calls => Parser.nested (calls.inner least)) fun deep => deep.inner least
  | nestedArgs : ReadTwins (fun calls => Parser.nested calls.args) Nested.args
  | expr : ReadTwins Calls.expr Nested.expr
  | exprList (close : Kind) :
      ReadTwins (Parser.exprList · close) (Read.exprList · close)
  | indexing {α : Type} (index : Expr → α) (slice : Expr → Expr → Option Expr → α) :
      ReadTwins (Parser.indexing · index slice) (Read.indexing · index slice)
  | postfixes (value : Expr) :
      ReadTwins (Parser.postfixes · value) (Read.postfixes · value)
  | fieldInit : ReadTwins Parser.fieldInit Read.fieldInit
  | record (start : Nat) (type : Reference) :
      ReadTwins (Parser.record · start type) (Read.record · start type)
  | nameExpr : ReadTwins Parser.nameExpr Read.nameExpr
  | pattern : ReadTwins (fun _ => Parser.pattern) fun _ => Read.pattern
  | mergeArm : ReadTwins Parser.mergeArm Read.mergeArm
  | merge (start : Nat) : ReadTwins (Parser.merge · start) (Read.merge · start)
  | conditional (start : Nat) (word : CondWord) :
      ReadTwins (Parser.conditional · start word) (Read.conditional · start word)
  | operands (start : Nat) (op : ListOp) :
      ReadTwins (Parser.operands · start op) (Read.operands · start op)
  | primary : ReadTwins Parser.primary Read.primary
  | prefixed : ReadTwins Parser.prefixed Read.prefixed
  | inner (least : Nat) : ReadTwins (Parser.inner · least) (Read.inner · least)
  | comparison : ReadTwins Parser.comparison Read.comparison
  | top (least : Nat) : ReadTwins (Parser.top · least) (Read.top · least)
  | simpleType : ReadTwins (fun _ => Parser.simpleType) fun _ => Read.simpleType
  | typeExpr : ReadTwins Parser.typeExpr Read.typeExpr
  | nodeUse : ReadTwins Parser.nodeUse Read.nodeUse
  | typeArg (start : Nat) (explicit : Bool) :
      ReadTwins (Parser.typeArg · start explicit) (Read.typeArg · start explicit)
  | constArg (start : Nat) (explicit : Bool) :
      ReadTwins (Parser.constArg · start explicit) (Read.constArg · start explicit)
  | nodeArg (start : Nat) (kind : NodeKind) :
      ReadTwins (Parser.nodeArg · start kind) (Read.nodeArg · start kind)
  | nameLedConst (close : Kind) (start : Nat) :
      ReadTwins (Parser.nameLedConst · close start) (Read.nameLedConst · close start)
  | nameLedArg (close : Kind) (start : Nat) :
      ReadTwins (Parser.nameLedArg · close start) (Read.nameLedArg · close start)
  | staticArg (close : Kind) :
      ReadTwins (Parser.staticArg · close) (Read.staticArg · close)
  | staticArgs : ReadTwins Parser.staticArgs Read.staticArgs
  | typedNames : ReadTwins Parser.typedNames Read.typedNames
  | varGroups : ReadTwins Parser.varGroups Read.varGroups
  | varDecl : ReadTwins Parser.varDecl Read.varDecl
  | params : ReadTwins Parser.params Read.params
  | profile : ReadTwins Parser.profile Read.profile
  | nodeKind : ReadTwins (fun _ => Parser.nodeKind) fun _ => Read.nodeKind
  | nodeHead : ReadTwins (fun _ => Parser.nodeHead) fun _ => Read.nodeHead
  | staticParam : ReadTwins Parser.staticParam Read.staticParam
  | staticParams : ReadTwins Parser.staticParams Read.staticParams
  | fieldDecl : ReadTwins Parser.fieldDecl Read.fieldDecl
  | fieldDecls : ReadTwins Parser.fieldDecls Read.fieldDecls
  | typeBody : ReadTwins Parser.typeBody Read.typeBody
  | typeDef : ReadTwins Parser.typeDef Read.typeDef
  | typeEntry : ReadTwins Parser.typeEntry Read.typeEntry
  | constDef : ReadTwins Parser.constDef Read.constDef
  | constEntry : ReadTwins Parser.constEntry Read.constEntry
  | provide : ReadTwins Parser.provide Read.provide
  | uses : ReadTwins (fun _ => Parser.uses) fun _ => Read.uses
  | provides : ReadTwins Parser.provides Read.provides
  | namedArg (close : Kind) :
      ReadTwins (Parser.namedArg · close) (Read.namedArg · close)
  | modelArgs : ReadTwins Parser.modelArgs Read.modelArgs
  | leftExpr : ReadTwins Parser.leftExpr Read.leftExpr
  | leftList : ReadTwins Parser.leftList Read.leftList
  | statement : ReadTwins Parser.statement Read.statement
  | equation : ReadTwins Parser.equation Read.equation
  | synonymTarget : ReadTwins Parser.synonymTarget Recover.synonymTarget
  | externalNode : ReadTwins Parser.externalNode Recover.externalNode
  | instanceWord : ReadTwins (fun _ => Parser.instanceWord) fun _ => Recover.instanceWord
  | includeDirective :
      ReadTwins (fun _ => Parser.includeDirective) fun _ => Recover.includeDirective
  | wholeExpr : ReadTwins Parser.wholeExpr Recover.wholeExpr

/-- All parsers, with their readers.  A reader is told the scope that a parser finds in its
state. -/
inductive Twins : {α : Type} → (Calls → Parser α) → (Nested → Scope → Recover α) → Prop
  | read {α : Type} {m : Calls → Parser α} {read : Nested → Read α} (h : ReadTwins m read) :
      Twins m fun deep _ => (read deep : Recover α)
  | report (d : Diagnostic) : Twins (fun _ => Parser.report d) fun _ _ => Recover.report d
  | synchronize (stops : List Kind) :
      Twins (fun _ => Parser.synchronize stops) fun _ scope => Recover.synchronize scope stops
  | skipDeclaration (start : Nat) :
      Twins (fun _ => Parser.skipDeclaration start) fun _ scope =>
        Recover.skipDeclaration scope start
  | skipNode : Twins (fun _ => Parser.skipNode) fun _ scope => Recover.skipNode scope
  | skipHeader : Twins (fun _ => Parser.skipHeader) fun _ scope => Recover.skipHeader scope
  | skipStatement (start : Nat) :
      Twins (fun _ => Parser.skipStatement start) fun _ scope => Recover.skipStatement scope start
  | skipEntry (start : Nat) :
      Twins (fun _ => Parser.skipEntry start) fun _ scope => Recover.skipEntry scope start
  | equations : Twins Parser.equations Recover.equations
  | typeBlock : Twins Parser.typeBlock Recover.typeBlock
  | constBlock : Twins Parser.constBlock Recover.constBlock
  | localBlock : Twins Parser.localBlock Recover.localBlock
  | localBlocks : Twins Parser.localBlocks Recover.localBlocks
  | nodeHeader (head : NodeHead) :
      Twins (Parser.nodeHeader · head) fun deep _ => Recover.nodeHeader deep head
  | nodeDefinition (decl : NodeDecl) :
      Twins (Parser.nodeDefinition · decl) (Recover.nodeDefinition · · decl)
  | nodeTail (decl : NodeDecl) : Twins (Parser.nodeTail · decl) (Recover.nodeTail · · decl)
  | node : Twins Parser.node Recover.node
  | declaration : Twins Parser.declaration Recover.declaration
  | bodyDeclarations : Twins Parser.bodyDeclarations Recover.bodyDeclarationsIn
  | body : Twins Parser.body fun deep _ => Recover.body deep
  | instantiation (name : Ident) (word : InstanceWord) :
      Twins (Parser.instantiation · name word) fun deep _ => Recover.instantiation deep name word
  | package : Twins Parser.package fun deep _ => Recover.package deep
  | needs : Twins Parser.needs fun deep _ => Recover.needs deep
  | modelTail (name : Ident) :
      Twins (Parser.modelTail · name) fun deep _ => Recover.modelTail deep name
  | model : Twins Parser.model Recover.modelIn
  | includes : Twins (fun _ => Parser.includes) fun _ => Recover.includesIn
  | items : Twins Parser.items Recover.itemsIn
  | program : Twins Parser.program Recover.programIn
  | standaloneExpr : Twins Parser.standaloneExpr fun deep _ => Recover.standaloneExpr deep

section

variable {α : Type} {depth : Nat} {scope : Scope} {calls : Calls} {deep : Nested} [deep.Advances]
  [Calls.Mirror depth calls deep]

theorem ReadTwins.mirrors {m : Calls → Parser α} {read : Nested → Read α} (h : ReadTwins m read) :
    Mirrors depth scope (m calls) (read deep) := by
  cases h <;> infer_instance

theorem Twins.mirrors {m : Calls → Parser α} {read : Nested → Scope → Recover α}
    (h : Twins m read) : Mirrors depth scope (m calls) (read deep scope) := by
  cases h with
  | read h =>
      rename_i read
      have hmirrors : Mirrors depth scope (m calls) (read deep) := h.mirrors
      infer_instance
  | _ => infer_instance

end

/-- From a state in range every parser ends as its reader does. -/
theorem Twins.endsAs {α : Type} {m : Calls → Parser α} {read : Nested → Scope → Recover α}
    (h : Twins m read) (beyond : Calls) {s : Machine} (hs : s.InRange) :
    EndsAs s s (m (.upTo beyond maxNesting)) (read (.upTo (maxNesting - s.depth)) s.scope) := by
  have hcalls : Calls.Mirror s.depth (.upTo beyond maxNesting) (.upTo (maxNesting - s.depth)) :=
    Calls.mirror_upTo beyond maxNesting s.depth hs.depth_le (Nat.le_add_left _ _)
  have hmirrors : Mirrors s.depth s.scope (m (.upTo beyond maxNesting))
      (read (.upTo (maxNesting - s.depth)) s.scope) :=
    h.mirrors
  exact hmirrors.ends s ⟨hs, rfl, rfl⟩

/-! ## The frame -/

namespace Machine

/-- A parser at the beginning of its work. -/
def start (tokens : List Token) (size : Nat) (log : Log) : Machine where
  tokens := tokens
  size := size
  pos := 0
  depth := 0
  scope := .file
  log := log
  deepest := 0

theorem inRange_start (tokens : List Token) (size : Nat) (log : Log) :
    (start tokens size log).InRange :=
  ⟨Nat.zero_le _, Nat.zero_le _⟩

/-- From a state in range every parser ends as its reader does, in the frame of that state: whatever
it changed on the way, it has put back. -/
theorem parsers_keep_state (beyond : Calls) (s : Machine) (hpos : s.pos ≤ s.tokens.length)
    (hdepth : s.depth ≤ maxNesting) {α : Type} (m : Calls → Parser α)
    (read : Nested → Scope → Recover α) (htwins : Twins m read) :
    ∃ result, m (.upTo beyond maxNesting) s = .some result ∧ s.Frame (finalState result) ∧
      read (.upTo (maxNesting - s.depth)) s.scope s.run = viewed (fun t => t.run) result := by
  -- the depth of the state tells how many levels the reader may still go down
  obtain ⟨result, h⟩ := htwins.endsAs beyond ⟨hpos, hdepth⟩
  exact ⟨result, h.ends, h.frame, h.alike⟩

/-- A state four levels below the limit, before `f<<g<<3>>(x)>>` in a body. -/
def nearLimit : Machine where
  tokens := [⟨.ident, "f", ⟨0, 1, 0⟩⟩, ⟨.ltLt, "<<", ⟨1, 3, 0⟩⟩, ⟨.ident, "g", ⟨3, 4, 0⟩⟩,
    ⟨.ltLt, "<<", ⟨4, 6, 0⟩⟩, ⟨.intLit, "3", ⟨6, 7, 0⟩⟩, ⟨.gtGt, ">>", ⟨7, 9, 0⟩⟩,
    ⟨.lParen, "(", ⟨9, 10, 0⟩⟩, ⟨.ident, "x", ⟨10, 11, 0⟩⟩, ⟨.rParen, ")", ⟨11, 12, 0⟩⟩,
    ⟨.gtGt, ">>", ⟨12, 14, 0⟩⟩]
  size := 14
  pos := 0
  depth := 60
  scope := .body
  log := ⟨[], 200, false, false⟩
  deepest := 60

/-- Parsers that go on for ever wherever they are called. -/
def endless : Calls := ⟨fun _ _ => .none, fun _ _ => .none, fun _ => .none⟩

/-- The first look at `g<<3>>` reaches the limit, and the second one, a level deeper, fails there.
It leaves no level open and stands where it failed. -/
theorem expr_keeps_nearLimit :
    nearLimit.pos ≤ nearLimit.tokens.length ∧ nearLimit.depth ≤ maxNesting ∧
      ∃ t, Calls.expr (.upTo endless maxNesting) nearLimit =
          .some (.error ⟨.nestedTooDeeply, ⟨6, 7, 0⟩⟩ t) ∧
        nearLimit.Frame t ∧ t.cursor.peek = some .intLit := by
  have hpos : nearLimit.pos ≤ nearLimit.tokens.length := by decide
  have hdepth : nearLimit.depth ≤ maxNesting := by decide
  obtain ⟨result, hends, hframe, halike⟩ :=
    parsers_keep_state endless nearLimit hpos hdepth _ _ (.read .expr)
  -- what the reader does from there, in the four levels that are left
  have hread : ∃ run : Run, ((Nested.upTo 4).expr : Recover Expr) nearLimit.run =
      .error ⟨.nestedTooDeeply, ⟨6, 7, 0⟩⟩ run ∧ run.cursor.peek = some .intLit :=
    ⟨_, rfl, rfl⟩
  obtain ⟨run, hread, hpeek⟩ := hread
  cases result with
  | ok a t => cases hread.symm.trans halike
  | error e t =>
      cases hread.symm.trans halike
      exact ⟨hpos, hdepth, t, hends, hframe, hpeek⟩

end Machine

end Lustre
