import Lustre.Proofs.Reader.State
import Lustre.Proofs.Reader.Unambiguous

/-!
# How static arguments are told apart

The same tokens can begin several kinds of static arguments.  Which kind is read depends on the
first token and on whether the token behind it, or behind the name that is next, ends the argument;
only a name with arguments of its own is told apart far behind them, by the parenthesis of a call.

`State.Sorts` has one rule for each kind, about the tokens of a state and not about the reader; the
rules exclude each other.  An argument is read exactly if a rule allows it, and then the state
behind it is the one that the reader of its part left.  For a constant this is the reader of
expressions in the state where the argument begins, so nothing is left of the arguments that were
read as those of a node before (`State.reads_of_call`), and for a node it is the reader of these
arguments (`State.reads_of_node`).
-/

namespace Lustre

variable {α β : Type}

/-! ## The branches of the reader -/

theorem PredefinedOp.ofKind?_symbol (op : PredefinedOp) : ofKind? op.symbol = some op := by
  cases op <;> rfl

/-- Whether the cursor is at a predefined operator that the end of an argument follows. -/
def Cursor.AtOperator (c : Cursor) (close : Kind) : Prop :=
  ∃ op : PredefinedOp, c.peek = some op.symbol ∧ c.endsArg 1 close = true

namespace Read

variable {deep : Nested} {close : Kind} {start : Nat} {c c' : Cursor}

/-- An answer that is built from what is read and from where it stands. -/
theorem spanned_eq_ok {read : Read α} {f : α → Span → β} {b : β} :
    (do let a ← read; return f a (← spanFrom start) : Read β) c = .ok b c' ↔
      ∃ a, read c = .ok a c' ∧ b = f a (c'.spanFrom start) := by
  rw [bind_eq_ok]
  constructor
  · rintro ⟨a, c₁, hread, hbuild⟩
    cases hbuild
    exact ⟨a, hread, rfl⟩
  · rintro ⟨a, hread, rfl⟩
    exact ⟨a, c', hread, rfl⟩

theorem typeArg_eq_ok {explicit : Bool} {arg : StaticArg} :
    typeArg deep start explicit c = .ok arg c' ↔
      ∃ type, typeExpr deep c = .ok type c' ∧ arg = .type (c'.spanFrom start) type explicit :=
  spanned_eq_ok (f := fun type span => StaticArg.type span type explicit)

theorem constArg_eq_ok {explicit : Bool} {arg : StaticArg} :
    constArg deep start explicit c = .ok arg c' ↔
      ∃ value, deep.expr c = .ok value c' ∧ arg = .const (c'.spanFrom start) value explicit :=
  spanned_eq_ok (f := fun value span => StaticArg.const span value explicit)

theorem nodeArg_eq_ok {kind : NodeKind} {arg : StaticArg} :
    nodeArg deep start kind c = .ok arg c' ↔
      ∃ target, nodeUse deep c = .ok target c' ∧
        arg = .node (c'.spanFrom start) (some kind) target.span target.node target.args :=
  spanned_eq_ok (f := fun (target : NodeUse) span =>
    StaticArg.node span (some kind) target.span target.node target.args)

theorem get_run (c : Cursor) : (get : Read Cursor) c = .ok c c := rfl

theorem staticArg_of_operator {op : PredefinedOp} (hop : c.peek = some op.symbol)
    (hends : c.endsArg 1 close = true) :
    staticArg deep close c = .ok (.op (c.pass.spanFrom c.span.start) op) c.pass := by
  have hfound : ((c.peek.bind PredefinedOp.ofKind?).filter fun _ => c.endsArg 1 close) =
      some op := by
    rw [hop, Option.bind_some, PredefinedOp.ofKind?_symbol, hends]
    rfl
  refine (bind_of_ok (get_run c)).trans ?_
  rw [hfound]
  rfl

section

variable (hop : ¬c.AtOperator close)
include hop

theorem filter_ofKind? :
    ((c.peek.bind PredefinedOp.ofKind?).filter fun _ => c.endsArg 1 close) = none := by
  refine Option.eq_none_iff_forall_ne_some.mpr fun op hsome => ?_
  obtain ⟨hfound, hends⟩ := Option.filter_eq_some_iff.mp hsome
  obtain ⟨kind, hpeek, hkind⟩ := Option.bind_eq_some_iff.mp hfound
  exact hop ⟨op, by rw [hpeek, PredefinedOp.symbol_of_ofKind? hkind], hends⟩

theorem staticArg_of_type (h : c.peek = some .kwType) :
    staticArg deep close c = typeArg deep c.span.start true c.pass := by
  refine (bind_of_ok (get_run c)).trans ?_
  rw [filter_ofKind? hop, h]
  rfl

theorem staticArg_of_const (h : c.peek = some .kwConst) :
    staticArg deep close c = constArg deep c.span.start true c.pass := by
  refine (bind_of_ok (get_run c)).trans ?_
  rw [filter_ofKind? hop, h]
  rfl

theorem staticArg_of_node {kind : NodeKind} (h : c.peek = some kind.symbol) :
    staticArg deep close c = nodeArg deep c.span.start kind c.pass := by
  refine (bind_of_ok (get_run c)).trans ?_
  rw [filter_ofKind? hop, h]
  cases kind <;> rfl

theorem staticArg_of_builtin {kind : Kind} (h : c.peek = some kind)
    (hkind : kind ∈ [Kind.kwBool, .kwInt, .kwReal]) :
    staticArg deep close c = (if c.endsArg 1 close = true ∨ c.peekAt 1 = some .caret then
      typeArg deep c.span.start false else constArg deep c.span.start false) c := by
  refine (bind_of_ok (get_run c)).trans ?_
  rw [filter_ofKind? hop, h]
  simp only [List.mem_cons, List.not_mem_nil, or_false] at hkind
  rcases hkind with rfl | rfl | rfl <;> rfl

theorem staticArg_of_ident (h : c.peek = some .ident) :
    staticArg deep close c = nameLedArg deep close c.span.start c := by
  refine (bind_of_ok (get_run c)).trans ?_
  rw [filter_ofKind? hop, h]

/-- What begins with none of these words is a constant. -/
theorem staticArg_of_other (h : ∀ kind ∈ [Kind.kwType, .kwConst, .kwNode, .kwFunction, .kwBool,
    .kwInt, .kwReal, .ident], c.peek ≠ some kind) :
    staticArg deep close c = constArg deep c.span.start false c := by
  refine (bind_of_ok (get_run c)).trans ?_
  rw [filter_ofKind? hop]
  generalize c.peek = next at h
  dsimp only
  split
  all_goals first | rfl | exact absurd rfl (h _ (by decide))

end

/-! ## Arguments that begin with a name -/

section

variable (hopen : c.peekAt c.referenceLength = some .ltLt)
include hopen

/-- A name with arguments is read as a node, up to the end of the arguments. -/
theorem nodeUse_eq_ok {target : NodeUse} :
    nodeUse deep c = .ok target c' ↔ ∃ ref c₁ args, reference c = .ok ref c₁ ∧
      deep.args c₁ = .ok args c' ∧ target = ⟨c'.spanFrom c.span.start, ref, some args⟩ := by
  have hat : ∀ ref c₁, reference c = .ok ref c₁ →
      optionalAt .ltLt deep.args c₁ = (deep.args >>= fun args => pure (some args)) c₁ := by
    intro ref c₁ href
    have hpeek : c₁.peek = some .ltLt := by
      rw [peek_eq_peekAt (meets_reference c ref c₁ href).2, hopen]
    change (if c₁.isAt .ltLt = true then _ else _ : Read _) c₁ = _
    rw [if_pos (by simp [Cursor.isAt, hpeek])]
  constructor
  · intro hread
    obtain ⟨begin, c₀, hhere, hread⟩ := bind_eq_ok.mp hread
    cases hhere
    obtain ⟨ref, c₁, href, hread⟩ := bind_eq_ok.mp hread
    obtain ⟨args, c₂, hargs, hspan⟩ := bind_eq_ok.mp hread
    rw [hat ref c₁ href] at hargs
    obtain ⟨args, c₃, hargs, hsome⟩ := bind_eq_ok.mp hargs
    cases hsome
    cases hspan
    exact ⟨ref, c₁, args, href, hargs, rfl⟩
  · rintro ⟨ref, c₁, args, href, hargs, rfl⟩
    have hsome : optionalAt .ltLt deep.args c₁ = .ok (some args) c' :=
      (hat ref c₁ href).trans (bind_of_ok hargs)
    exact (bind_of_ok href).trans ((bind_of_ok hsome).trans rfl)

variable (hends : ¬c.endsArg c.referenceLength close = true)
include hends

/-- A name with arguments is tried as a node first. -/
theorem nameLedArg_of_open : nameLedArg deep close start c = (do
    let target ← nodeUse deep
    if ← isAt .lParen then
      set c
      nameLedConst deep close start
    else return .node (← spanFrom start) none target.span target.node target.args : Read _) c := by
  change (if c.endsArg c.referenceLength close = true then _ else _ : Read _) c = _
  rw [if_neg hends, if_pos hopen]

theorem exists_args_of_nameLedArg {arg : StaticArg}
    (h : nameLedArg deep close start c = .ok arg c') :
    ∃ ref c₁ args c₂, reference c = .ok ref c₁ ∧ deep.args c₁ = .ok args c₂ := by
  rw [nameLedArg_of_open hopen hends] at h
  obtain ⟨target, c₂, htarget, -⟩ := bind_eq_ok.mp h
  obtain ⟨ref, c₁, args, href, hargs, -⟩ := (nodeUse_eq_ok hopen).mp htarget
  exact ⟨ref, c₁, args, c₂, href, hargs⟩

variable {ref : Reference} {args : List StaticArg} {c₁ c₂ : Cursor}
  (href : reference c = .ok ref c₁) (hargs : deep.args c₁ = .ok args c₂)
include href hargs

/-- Before a parenthesis the arguments are those of a call, which is read from its name on. -/
theorem nameLedArg_of_call (hcall : c₂.peek = some .lParen) :
    nameLedArg deep close start c = nameLedConst deep close start c := by
  rw [nameLedArg_of_open hopen hends,
    bind_of_ok ((nodeUse_eq_ok hopen).mpr ⟨ref, c₁, args, href, hargs, rfl⟩)]
  change (if c₂.isAt .lParen = true then _ else _ : Read _) c₂ = _
  rw [if_pos (by simp [Cursor.isAt, hcall])]
  rfl

theorem nameLedArg_of_node (hcall : c₂.peek ≠ some .lParen) :
    nameLedArg deep close start c = .ok
      (.node (c₂.spanFrom start) none (c₂.spanFrom c.span.start) ref (some args)) c₂ := by
  rw [nameLedArg_of_open hopen hends,
    bind_of_ok ((nodeUse_eq_ok hopen).mpr ⟨ref, c₁, args, href, hargs, rfl⟩)]
  change (if c₂.isAt .lParen = true then _ else _ : Read _) c₂ = _
  rw [if_neg (by simp [Cursor.isAt, hcall])]
  rfl

end

theorem nameLedArg_of_ends {arg : StaticArg} (hends : c.endsArg c.referenceLength close = true) :
    nameLedArg deep close start c = .ok arg c' ↔
      ∃ ref, reference c = .ok ref c' ∧ arg = .name (c'.spanFrom start) ref := by
  rw [← spanned_eq_ok (f := fun ref span => StaticArg.name span ref)]
  change (if c.endsArg c.referenceLength close = true then _ else _ : Read _) c = _ ↔ _
  rw [if_pos hends]

variable (hends : ¬c.endsArg c.referenceLength close = true)
include hends

theorem nameLedArg_of_other (hopen : c.peekAt c.referenceLength ≠ some .ltLt) :
    nameLedArg deep close start c = nameLedConst deep close start c := by
  change (if c.endsArg c.referenceLength close = true then _ else _ : Read _) c = _
  rw [if_neg hends, if_neg hopen]

/-- The expression that is read is no bare name that the end of the argument follows. -/
theorem nameLedConst_eq (levels : Nat) :
    nameLedConst (.upTo levels) close start c = constArg (.upTo levels) start false c := by
  unfold nameLedConst constArg
  cases hread : (Nested.upTo levels).expr c with
  | error e c' => rw [bind_of_error hread, bind_of_error hread]
  | ok value c' =>
      rw [bind_of_ok hread, bind_of_ok hread]
      cases value with
      | name span ref =>
          have hnone : ¬c'.endsArg 0 close = true := by
            rwa [Nested.endsArg_behind_name hread close]
          change (if c'.endsArg 0 close = true then _ else _ : Read _) c' = _
          rw [if_neg hnone]
      | _ => rfl

end Read

/-! ## Rules for the tokens of a state -/

namespace State

/-- The kind of the token `ahead` places behind the next one. -/
def kindAt (s : State) (ahead : Nat) : Option Kind := s.tokens[s.pos + ahead]?.map Token.kind

/-- The state `count` tokens farther on. -/
def skip (s : State) (count : Nat) : State := { s with pos := s.pos + count }

/-- From the next token of `s` to the last one passed in `t`. -/
def spanTo (s t : State) : Span := t.cursor.spanFrom s.cursor.span.start

/-- Whether the token `ahead` places behind the next one ends an argument. -/
def EndsArg (s : State) (close : Kind) (ahead : Nat) : Prop :=
  s.kindAt ahead = some .comma ∨ s.kindAt ahead = some .semi ∨ s.kindAt ahead = some close

/-- The number of tokens of the name that is next. -/
def nameLength (s : State) : Nat :=
  if s.kindAt 1 = some .colonColon ∧ s.kindAt 2 = some .ident then 3 else 1

/-- Whether a predefined operator is the whole argument. -/
def OperatorAlone (s : State) (close : Kind) : Prop :=
  (∃ op : PredefinedOp, s.kindAt 0 = some op.symbol) ∧ s.EndsArg close 1

/-- A reader answers `a` in the state `s` and leaves the state `t`. -/
def Reads (beyond : Nested) (read : Nested → Read α) (s : State) (a : α) (t : State) : Prop :=
  s.call beyond (fun deep _ => (read deep : Recover α)) = .ok a t

/-- The arguments behind the name that is next are read, and the state `u` is behind them. -/
def HasArgs (beyond : Nested) (s : State) (ref : Reference) (args : List StaticArg) (u : State) :
    Prop :=
  s.Reads beyond (fun _ => Read.reference) ref (s.skip s.nameLength) ∧
    (s.skip s.nameLength).Reads beyond (fun deep => deep.args) args u

/-- An argument in this state can only be a constant without a keyword. -/
structure OnlyConstant (beyond : Nested) (close : Kind) (s : State) : Prop where
  operator : ¬s.OperatorAlone close
  keyword : ∀ kind ∈ [Kind.kwType, .kwConst, .kwNode, .kwFunction], s.kindAt 0 ≠ some kind
  builtin : ∀ kind ∈ [Kind.kwBool, .kwInt, .kwReal], s.kindAt 0 = some kind →
    ¬(s.EndsArg close 1 ∨ s.kindAt 1 = some .caret)
  name : s.kindAt 0 = some .ident → ¬s.EndsArg close s.nameLength
  /-- Arguments behind a name are those of a call. -/
  call : s.kindAt 0 = some .ident → s.kindAt s.nameLength = some .ltLt →
    ∃ ref args u, HasArgs beyond s ref args u ∧ u.kindAt 0 = some .lParen

/-- What a static argument is, and the state behind it, by the tokens with which it begins. -/
inductive Sorts (beyond : Nested) (close : Kind) (s : State) : StaticArg → State → Prop
  | operator {op : PredefinedOp} (hop : s.kindAt 0 = some op.symbol) (hends : s.EndsArg close 1) :
      Sorts beyond close s (.op (s.spanTo (s.skip 1)) op) (s.skip 1)
  | explicitType {type : TypeExpr} {t : State} (hkeyword : s.kindAt 0 = some .kwType)
      (htype : (s.skip 1).Reads beyond (fun deep => Read.typeExpr deep) type t) :
      Sorts beyond close s (.type (s.spanTo t) type true) t
  | explicitConst {value : Expr} {t : State} (hkeyword : s.kindAt 0 = some .kwConst)
      (hvalue : (s.skip 1).Reads beyond (fun deep => deep.expr) value t) :
      Sorts beyond close s (.const (s.spanTo t) value true) t
  | explicitNode {kind : NodeKind} {target : NodeUse} {t : State}
      (hkeyword : s.kindAt 0 = some kind.symbol)
      (htarget : (s.skip 1).Reads beyond (fun deep => Read.nodeUse deep) target t) :
      Sorts beyond close s
        (.node (s.spanTo t) (some kind) target.span target.node target.args) t
  | implicitType {kind : Kind} {type : TypeExpr} {t : State} (hkind : s.kindAt 0 = some kind)
      (hbuiltin : kind ∈ [Kind.kwBool, .kwInt, .kwReal])
      (hnext : s.EndsArg close 1 ∨ s.kindAt 1 = some .caret)
      (htype : s.Reads beyond (fun deep => Read.typeExpr deep) type t) :
      Sorts beyond close s (.type (s.spanTo t) type false) t
  | bareName {ref : Reference} (hname : s.kindAt 0 = some .ident)
      (hends : s.EndsArg close s.nameLength)
      (href : s.Reads beyond (fun _ => Read.reference) ref (s.skip s.nameLength)) :
      Sorts beyond close s (.name (s.spanTo (s.skip s.nameLength)) ref) (s.skip s.nameLength)
  /-- The node ends where its arguments end, unless a parenthesis follows. -/
  | implicitNode {ref : Reference} {args : List StaticArg} {t : State}
      (hname : s.kindAt 0 = some .ident) (hends : ¬s.EndsArg close s.nameLength)
      (hopen : s.kindAt s.nameLength = some .ltLt) (hargs : HasArgs beyond s ref args t)
      (hcall : t.kindAt 0 ≠ some .lParen) :
      Sorts beyond close s (.node (s.spanTo t) none (s.spanTo t) ref (some args)) t
  /-- Everything else is the expression that is read in this state, whatever was tried before. -/
  | constant {value : Expr} {t : State} (hrest : OnlyConstant beyond close s)
      (hvalue : s.Reads beyond (fun deep => deep.expr) value t) :
      Sorts beyond close s (.const (s.spanTo t) value false) t

/-! ## The cursor of a state -/

variable {beyond : Nested} {close : Kind} {s t : State}

theorem cursor_peekAt (s : State) (ahead : Nat) : s.cursor.peekAt ahead = s.kindAt ahead := by
  simp [Cursor.peekAt, cursor, kindAt, List.getElem?_drop]

theorem cursor_peek (s : State) : s.cursor.peek = s.kindAt 0 := by
  rw [← cursor_peekAt, Cursor.peekAt_zero]

theorem cursor_endsArg (s : State) (close : Kind) (ahead : Nat) :
    s.cursor.endsArg ahead close = true ↔ s.EndsArg close ahead := by
  unfold Cursor.endsArg EndsArg
  rw [cursor_peekAt]
  cases s.kindAt ahead <;> simp [or_assoc]

theorem cursor_referenceLength (hname : s.kindAt 0 = some .ident) :
    s.cursor.referenceLength = s.nameLength := by
  have hat : s.cursor.isAt .ident = true := by simp [Cursor.isAt, cursor_peek, hname]
  unfold Cursor.referenceLength nameLength
  rw [if_pos hat, cursor_peekAt, cursor_peekAt]

theorem cursor_endsName (hname : s.kindAt 0 = some .ident) :
    s.cursor.endsArg s.cursor.referenceLength close = true ↔ s.EndsArg close s.nameLength := by
  rw [cursor_referenceLength hname, cursor_endsArg]

theorem cursor_behindName (hname : s.kindAt 0 = some .ident) :
    s.cursor.peekAt s.cursor.referenceLength = s.kindAt s.nameLength := by
  rw [cursor_referenceLength hname, cursor_peekAt]

theorem cursor_atOperator : s.cursor.AtOperator close ↔ s.OperatorAlone close := by
  unfold Cursor.AtOperator OperatorAlone
  simp only [cursor_peek, cursor_endsArg, exists_and_right]

theorem lt_of_kindAt {kind : Kind} {ahead : Nat} (h : s.kindAt ahead = some kind) :
    s.pos + ahead < s.tokens.length := by
  refine Nat.lt_of_not_le fun hend => ?_
  simp [kindAt, List.getElem?_eq_none hend] at h

/-- The state that is left at a cursor, with the log as it was. -/
def leaves (s : State) (c : Cursor) : State := s.after ⟨c, s.log⟩

theorem leaves_skip {count : Nat} (h : s.pos + count ≤ s.tokens.length) :
    s.leaves (s.skip count).cursor = s.skip count := by
  have hleft : (s.skip count).cursor.rest.length = s.tokens.length - (s.pos + count) :=
    List.length_drop
  unfold leaves after skip Run.left
  dsimp only
  rw [show (State.cursor { s with pos := s.pos + count }).rest.length = _ from hleft]
  congr 1
  omega

theorem reads_iff {read : Nested → Read α} {a : α} :
    s.Reads beyond read a t ↔
      ∃ c, read (.counting beyond s.depth) s.cursor = .ok a c ∧ t = s.leaves c := by
  have hcall : s.call beyond (fun deep _ => (read deep : Recover α)) =
      s.ended ((monadLift (read (.counting beyond s.depth)) : Recover α) s.run) := rfl
  unfold Reads
  cases hread : read (.counting beyond s.depth) s.cursor with
  | ok b c =>
      have hlift : (monadLift (read (.counting beyond s.depth)) : Recover α) s.run =
          .ok b ⟨c, s.log⟩ := Recover.lift_ok hread
      rw [hcall, hlift]
      constructor
      · intro hok
        cases hok
        exact ⟨c, rfl, rfl⟩
      · rintro ⟨_, hsame, rfl⟩
        cases hsame
        rfl
  | error e c =>
      have hlift : (monadLift (read (.counting beyond s.depth)) : Recover α) s.run =
          .error e ⟨c, s.log⟩ := Recover.lift_error hread
      rw [hcall, hlift]
      constructor
      · intro hok
        cases hok
      · rintro ⟨_, hsame, -⟩
        cases hsame

/-- The cursor of a state that is left is the one at which it was left. -/
theorem cursor_leaves {c : Cursor} (hpos : s.pos ≤ s.tokens.length) (h : s.cursor.Onward c) :
    (s.leaves c).cursor = c := by
  have honward : s.cursor.Onward (⟨c, s.log⟩ : Run).cursor := h
  exact congrArg Run.cursor (run_after hpos honward).1

/-- No reader that fails without a token reads at the end of the tokens. -/
theorem lt_of_reads {read : Nested → Read α} {a : α}
    [hstarved : Starved (read (.counting beyond s.depth))] (h : s.Reads beyond read a t) :
    s.pos < s.tokens.length := by
  refine Nat.lt_of_not_le fun hend => ?_
  obtain ⟨c, hread, -⟩ := reads_iff.mp h
  obtain ⟨e, c', hfails, -⟩ := hstarved.fails s.cursor (List.drop_eq_nil_of_le hend)
  rw [hfails] at hread
  cases hread

theorem skip_nameLength_le (hname : s.kindAt 0 = some .ident) :
    s.pos + s.nameLength ≤ s.tokens.length := by
  unfold nameLength
  split
  · rename_i hqualified
    exact lt_of_kindAt hqualified.2
  · exact lt_of_kindAt hname

/-- A used name takes as many tokens as the state foresees. -/
theorem cursor_behind_name {c : Cursor} {ref : Reference} (hname : s.kindAt 0 = some .ident)
    (h : Read.reference s.cursor = .ok ref c) :
    c = (s.skip s.nameLength).cursor := by
  have hle := skip_nameLength_le hname
  have hrest := (Read.meets_reference s.cursor ref c h).2
  have honward := Forward.meets_onward Read.reference s.cursor ref c h
  obtain ⟨pos, -, hpos, rfl⟩ := exists_pos (Nat.le_of_add_right_le hle) honward
  have hsame : pos = s.pos + s.nameLength := by
    have hlength := congrArg List.length hrest
    rw [cursor_referenceLength hname] at hlength
    simp only [cursor, List.length_drop] at hlength
    omega
  rw [hsame]
  rfl

/-- A rule for an argument that is built from what is read `count` tokens farther on. -/
theorem reads_build {sub : Nested → Read α} {f : α → Span → StaticArg} (count : Nat)
    {arg : StaticArg} [hforward : Forward (sub (.counting beyond s.depth))]
    (hpos : s.pos + count ≤ s.tokens.length)
    (h : ∀ arg c, Read.staticArg (.counting beyond s.depth) close s.cursor = .ok arg c ↔
      ∃ a, sub (.counting beyond s.depth) (s.skip count).cursor = .ok a c ∧
        arg = f a (c.spanFrom s.cursor.span.start)) :
    s.Reads beyond (fun deep => Read.staticArg deep close) arg t ↔
      ∃ a, (s.skip count).Reads beyond sub a t ∧ arg = f a (s.spanTo t) := by
  have hspan : ∀ a c, sub (.counting beyond s.depth) (s.skip count).cursor = .ok a c →
      c.spanFrom s.cursor.span.start = s.spanTo (s.leaves c) := by
    intro a c hread
    have hcursor : (s.leaves c).cursor = c := cursor_leaves (s := s.skip count) hpos
      (Forward.meets_onward _ _ a c hread)
    unfold spanTo
    rw [hcursor]
  constructor
  · intro hreads
    obtain ⟨c, hread, rfl⟩ := reads_iff.mp hreads
    obtain ⟨a, hsub, rfl⟩ := (h arg c).mp hread
    exact ⟨a, reads_iff.mpr ⟨c, hsub, rfl⟩, by rw [hspan a c hsub]⟩
  · rintro ⟨a, hreads, rfl⟩
    obtain ⟨c, hsub, rfl⟩ := reads_iff.mp hreads
    exact reads_iff.mpr ⟨c, (h _ c).mpr ⟨a, hsub, by rw [hspan a c hsub]; rfl⟩, rfl⟩

variable {arg : StaticArg}

theorem reads_operator {op : PredefinedOp} (hop : s.kindAt 0 = some op.symbol)
    (hends : s.EndsArg close 1) :
    s.Reads beyond (fun deep => Read.staticArg deep close) arg t ↔
      arg = .op (s.spanTo (s.skip 1)) op ∧ t = s.skip 1 := by
  have hlt := lt_of_kindAt hop
  have hpass : s.cursor.pass = (s.skip 1).cursor := cursor_pass hlt
  have hread : Read.staticArg (.counting beyond s.depth) close s.cursor =
      .ok (.op (s.spanTo (s.skip 1)) op) (s.skip 1).cursor := by
    rw [Read.staticArg_of_operator (cursor_peek s ▸ hop) ((cursor_endsArg s close 1).mpr hends),
      hpass]
    rfl
  rw [reads_iff]
  constructor
  · rintro ⟨c, hok, rfl⟩
    rw [hread] at hok
    cases hok
    exact ⟨rfl, leaves_skip hlt⟩
  · rintro ⟨rfl, rfl⟩
    exact ⟨_, hread, (leaves_skip hlt).symm⟩

section

variable [hadvances : (Nested.counting beyond s.depth).Advances] (hop : ¬s.OperatorAlone close)
include hop

theorem reads_type (hkeyword : s.kindAt 0 = some .kwType) :
    s.Reads beyond (fun deep => Read.staticArg deep close) arg t ↔ ∃ type,
      (s.skip 1).Reads beyond (fun deep => Read.typeExpr deep) type t ∧
        arg = .type (s.spanTo t) type true := by
  have hlt := lt_of_kindAt hkeyword
  refine reads_build (f := fun type span => StaticArg.type span type true) 1 hlt fun arg c => ?_
  rw [Read.staticArg_of_type (mt cursor_atOperator.mp hop) (cursor_peek s ▸ hkeyword),
    Read.typeArg_eq_ok, cursor_pass hlt]
  rfl

theorem reads_const (hkeyword : s.kindAt 0 = some .kwConst) :
    s.Reads beyond (fun deep => Read.staticArg deep close) arg t ↔ ∃ value,
      (s.skip 1).Reads beyond (fun deep => deep.expr) value t ∧
        arg = .const (s.spanTo t) value true := by
  have hlt := lt_of_kindAt hkeyword
  refine reads_build (f := fun value span => StaticArg.const span value true) 1 hlt fun arg c => ?_
  rw [Read.staticArg_of_const (mt cursor_atOperator.mp hop) (cursor_peek s ▸ hkeyword),
    Read.constArg_eq_ok, cursor_pass hlt]
  rfl

theorem reads_node {kind : NodeKind} (hkeyword : s.kindAt 0 = some kind.symbol) :
    s.Reads beyond (fun deep => Read.staticArg deep close) arg t ↔ ∃ target,
      (s.skip 1).Reads beyond (fun deep => Read.nodeUse deep) target t ∧
        arg = .node (s.spanTo t) (some kind) target.span target.node target.args := by
  have hlt := lt_of_kindAt hkeyword
  refine reads_build (f := fun (target : NodeUse) span =>
    StaticArg.node span (some kind) target.span target.node target.args) 1 hlt fun arg c => ?_
  rw [Read.staticArg_of_node (mt cursor_atOperator.mp hop) (cursor_peek s ▸ hkeyword),
    Read.nodeArg_eq_ok, cursor_pass hlt]
  rfl

theorem reads_builtin {kind : Kind} (hkind : s.kindAt 0 = some kind)
    (hbuiltin : kind ∈ [Kind.kwBool, .kwInt, .kwReal])
    (hnext : s.EndsArg close 1 ∨ s.kindAt 1 = some .caret) :
    s.Reads beyond (fun deep => Read.staticArg deep close) arg t ↔ ∃ type,
      s.Reads beyond (fun deep => Read.typeExpr deep) type t ∧
        arg = .type (s.spanTo t) type false := by
  refine reads_build (f := fun type span => StaticArg.type span type false) 0
    (Nat.le_of_lt (lt_of_kindAt hkind)) fun arg c => ?_
  rw [Read.staticArg_of_builtin (mt cursor_atOperator.mp hop) (cursor_peek s ▸ hkind) hbuiltin,
    if_pos (by rwa [cursor_endsArg, cursor_peekAt]), Read.typeArg_eq_ok]
  rfl

omit hop in
/-- What is not told apart before it is read is read as an expression. -/
theorem reads_expr (h : Read.staticArg (.counting beyond s.depth) close s.cursor =
      Read.constArg (.counting beyond s.depth) s.cursor.span.start false s.cursor)
    (hlt : s.pos < s.tokens.length) :
    s.Reads beyond (fun deep => Read.staticArg deep close) arg t ↔ ∃ value,
      s.Reads beyond (fun deep => deep.expr) value t ∧ arg = .const (s.spanTo t) value false := by
  refine reads_build (f := fun value span => StaticArg.const span value false) 0
    (Nat.le_of_lt hlt) fun arg c => ?_
  rw [h, Read.constArg_eq_ok]
  rfl

omit hadvances in
theorem reads_name (hname : s.kindAt 0 = some .ident) (hends : s.EndsArg close s.nameLength) :
    s.Reads beyond (fun deep => Read.staticArg deep close) arg t ↔ ∃ ref,
      s.Reads beyond (fun _ => Read.reference) ref t ∧ arg = .name (s.spanTo t) ref := by
  refine reads_build (f := fun ref span => StaticArg.name span ref) 0
    (Nat.le_of_lt (lt_of_kindAt hname)) fun arg c => ?_
  rw [Read.staticArg_of_ident (mt cursor_atOperator.mp hop) (cursor_peek s ▸ hname),
    Read.nameLedArg_of_ends ((cursor_endsName hname).mpr hends)]
  rfl

/-! ## Names with arguments -/

variable (hname : s.kindAt 0 = some .ident)
include hname

omit hadvances hop in
theorem reads_reference {ref : Reference} (h : s.Reads beyond (fun _ => Read.reference) ref t) :
    t = s.skip s.nameLength := by
  obtain ⟨c, hread, rfl⟩ := reads_iff.mp h
  rw [cursor_behind_name hname hread, leaves_skip (skip_nameLength_le hname)]

theorem reads_of_other (hdepth : s.depth ≤ maxNesting) (hends : ¬s.EndsArg close s.nameLength)
    (hopen : s.kindAt s.nameLength ≠ some .ltLt) :
    s.Reads beyond (fun deep => Read.staticArg deep close) arg t ↔ ∃ value,
      s.Reads beyond (fun deep => deep.expr) value t ∧ arg = .const (s.spanTo t) value false := by
  have hcends := mt (cursor_endsName hname).mp hends
  refine reads_expr ?_ (lt_of_kindAt hname)
  rw [Read.staticArg_of_ident (mt cursor_atOperator.mp hop) (cursor_peek s ▸ hname),
    Read.nameLedArg_of_other hcends (by rwa [cursor_behindName hname]),
    Nested.counting_eq beyond hdepth]
  exact Read.nameLedConst_eq hcends _

variable (hends : ¬s.EndsArg close s.nameLength) (hopen : s.kindAt s.nameLength = some .ltLt)
include hends hopen

omit hadvances in
theorem exists_hasArgs (h : s.Reads beyond (fun deep => Read.staticArg deep close) arg t) :
    ∃ ref args u, HasArgs beyond s ref args u := by
  obtain ⟨c, hread, -⟩ := reads_iff.mp h
  rw [Read.staticArg_of_ident (mt cursor_atOperator.mp hop) (cursor_peek s ▸ hname)] at hread
  obtain ⟨ref, c₁, args, c₂, href, hargs⟩ := Read.exists_args_of_nameLedArg
    (by rwa [cursor_behindName hname]) (mt (cursor_endsName hname).mp hends) hread
  obtain rfl := cursor_behind_name hname href
  refine ⟨ref, args, s.leaves c₂, reads_iff.mpr ⟨_, href, ?_⟩, reads_iff.mpr ⟨c₂, hargs, rfl⟩⟩
  exact (leaves_skip (skip_nameLength_le hname)).symm

variable {ref : Reference} {args : List StaticArg} {u : State} (hargs : HasArgs beyond s ref args u)
include hargs

omit hop hends hopen in
/-- The readers of a name and of its arguments, one behind the other. -/
theorem HasArgs.read : Read.reference s.cursor = .ok ref (s.skip s.nameLength).cursor ∧
    (Nested.counting beyond s.depth).args (s.skip s.nameLength).cursor = .ok args u.cursor ∧
    s.leaves u.cursor = u := by
  obtain ⟨c₁, href, -⟩ := reads_iff.mp hargs.1
  obtain rfl := cursor_behind_name hname href
  obtain ⟨c₂, hlist, hleaves⟩ := reads_iff.mp hargs.2
  have hcursor : u.cursor = c₂ := by
    rw [hleaves]
    exact cursor_leaves (skip_nameLength_le hname)
      (Forward.meets_onward (Nested.counting beyond s.depth).args _ args c₂ hlist)
  rw [hcursor]
  exact ⟨href, hlist, hleaves.symm⟩

/-- Before a parenthesis the arguments are those of a call, which is read again as an expression. -/
theorem reads_of_call (hdepth : s.depth ≤ maxNesting) (hcall : u.kindAt 0 = some .lParen) :
    s.Reads beyond (fun deep => Read.staticArg deep close) arg t ↔ ∃ value,
      s.Reads beyond (fun deep => deep.expr) value t ∧ arg = .const (s.spanTo t) value false := by
  have hcends := mt (cursor_endsName hname).mp hends
  obtain ⟨href, hargs, -⟩ := hargs.read hname
  refine reads_expr ?_ (lt_of_kindAt hname)
  rw [Read.staticArg_of_ident (mt cursor_atOperator.mp hop) (cursor_peek s ▸ hname),
    Read.nameLedArg_of_call (by rwa [cursor_behindName hname]) hcends href hargs
      (cursor_peek u ▸ hcall), Nested.counting_eq beyond hdepth]
  exact Read.nameLedConst_eq hcends _

/-- Before anything else the node ends with its arguments. -/
theorem reads_of_node (hcall : u.kindAt 0 ≠ some .lParen) :
    s.Reads beyond (fun deep => Read.staticArg deep close) arg t ↔
      t = u ∧ arg = .node (s.spanTo u) none (s.spanTo u) ref (some args) := by
  obtain ⟨href, hargs, hleaves⟩ := hargs.read hname
  have hread : Read.staticArg (.counting beyond s.depth) close s.cursor =
      .ok (.node (s.spanTo u) none (s.spanTo u) ref (some args)) u.cursor := by
    rw [Read.staticArg_of_ident (mt cursor_atOperator.mp hop) (cursor_peek s ▸ hname)]
    exact Read.nameLedArg_of_node (by rwa [cursor_behindName hname])
      (mt (cursor_endsName hname).mp hends) href hargs (cursor_peek u ▸ hcall)
  rw [reads_iff]
  constructor
  · rintro ⟨c, hok, rfl⟩
    rw [hread] at hok
    cases hok
    exact ⟨hleaves, rfl⟩
  · rintro ⟨rfl, rfl⟩
    exact ⟨_, hread, hleaves.symm⟩

end

/-! ## The rules -/

theorem reads_constant [hadvances : (Nested.counting beyond s.depth).Advances]
    (hdepth : s.depth ≤ maxNesting) (hrest : OnlyConstant beyond close s)
    (hlt : s.pos < s.tokens.length) :
    s.Reads beyond (fun deep => Read.staticArg deep close) arg t ↔ ∃ value,
      s.Reads beyond (fun deep => deep.expr) value t ∧ arg = .const (s.spanTo t) value false := by
  have hop := hrest.operator
  by_cases hname : s.kindAt 0 = some .ident
  · have hends := hrest.name hname
    by_cases hopen : s.kindAt s.nameLength = some .ltLt
    · obtain ⟨ref, args, u, hargs, hcall⟩ := hrest.call hname hopen
      exact reads_of_call hop hname hends hopen hargs hdepth hcall
    · exact reads_of_other hop hname hdepth hends hopen
  refine reads_expr ?_ hlt
  have hcop := mt cursor_atOperator.mp hop
  by_cases hbuiltin : ∃ kind ∈ [Kind.kwBool, .kwInt, .kwReal], s.kindAt 0 = some kind
  · obtain ⟨kind, hmem, hkind⟩ := hbuiltin
    have hnext := hrest.builtin kind hmem hkind
    rw [← cursor_endsArg, ← cursor_peekAt] at hnext
    rw [Read.staticArg_of_builtin hcop (cursor_peek s ▸ hkind) hmem, if_neg hnext]
  · refine Read.staticArg_of_other hcop fun kind hmem hkind => ?_
    rw [cursor_peek] at hkind
    have hkinds : kind ∈ [Kind.kwType, .kwConst, .kwNode, .kwFunction] ∨
        kind ∈ [Kind.kwBool, .kwInt, .kwReal] ∨ kind = .ident := by
      simpa [or_assoc] using hmem
    rcases hkinds with hmem | hmem | rfl
    · exact hrest.keyword kind hmem hkind
    · exact hbuiltin ⟨kind, hmem, hkind⟩
    · exact hname hkind

theorem not_operatorAlone {kind : Kind} (hkind : s.kindAt 0 = some kind)
    (hnone : PredefinedOp.ofKind? kind = none) : ¬s.OperatorAlone close := by
  rintro ⟨⟨op, hop⟩, -⟩
  cases hkind.symm.trans hop
  rw [PredefinedOp.ofKind?_symbol] at hnone
  cases hnone

/-- An argument is an operator exactly if an operator is all of it. -/
theorem Sorts.isOperator_iff (h : Sorts beyond close s arg t) :
    (∃ span op, arg = .op span op) ↔ s.OperatorAlone close := by
  constructor
  · rintro ⟨span, op, rfl⟩
    cases h with
    | operator hop hends => exact ⟨⟨op, hop⟩, hends⟩
  · intro hop
    cases h with
    | operator => exact ⟨_, _, rfl⟩
    | explicitType hkeyword => exact absurd hop (not_operatorAlone hkeyword rfl)
    | explicitConst hkeyword => exact absurd hop (not_operatorAlone hkeyword rfl)
    | @explicitNode kind _ _ hkeyword =>
        exact absurd hop (not_operatorAlone hkeyword (by cases kind <;> rfl))
    | implicitType hkind hbuiltin =>
        refine absurd hop (not_operatorAlone hkind ?_)
        simp only [List.mem_cons, List.not_mem_nil, or_false] at hbuiltin
        rcases hbuiltin with rfl | rfl | rfl <;> rfl
    | bareName hname => exact absurd hop (not_operatorAlone hname rfl)
    | implicitNode hname => exact absurd hop (not_operatorAlone hname rfl)
    | constant hrest => exact absurd hop hrest.operator

variable (hdepth : s.depth ≤ maxNesting)
include hdepth

/-- Every argument that is read is sorted by one of the rules. -/
theorem Sorts.of_reads (h : s.Reads beyond (fun deep => Read.staticArg deep close) arg t) :
    Sorts beyond close s arg t := by
  have hadvances : (Nested.counting beyond s.depth).Advances :=
    Nested.counting_eq beyond hdepth ▸ inferInstance
  by_cases hop : s.OperatorAlone close
  · obtain ⟨⟨op, hpeek⟩, hends⟩ := hop
    obtain ⟨rfl, rfl⟩ := (reads_operator hpeek hends).mp h
    exact .operator hpeek hends
  by_cases htype : s.kindAt 0 = some .kwType
  · obtain ⟨type, hread, rfl⟩ := (reads_type hop htype).mp h
    exact .explicitType htype hread
  by_cases hconst : s.kindAt 0 = some .kwConst
  · obtain ⟨value, hread, rfl⟩ := (reads_const hop hconst).mp h
    exact .explicitConst hconst hread
  by_cases hnode : ∃ kind : NodeKind, s.kindAt 0 = some kind.symbol
  · obtain ⟨kind, hnode⟩ := hnode
    obtain ⟨target, hread, rfl⟩ := (reads_node hop hnode).mp h
    exact .explicitNode hnode hread
  by_cases hbuiltin : ∃ kind ∈ [Kind.kwBool, .kwInt, .kwReal], s.kindAt 0 = some kind ∧
      (s.EndsArg close 1 ∨ s.kindAt 1 = some .caret)
  · obtain ⟨kind, hmem, hkind, hnext⟩ := hbuiltin
    obtain ⟨type, hread, rfl⟩ := (reads_builtin hop hkind hmem hnext).mp h
    exact .implicitType hkind hmem hnext hread
  by_cases hname : s.kindAt 0 = some .ident ∧ s.EndsArg close s.nameLength
  · obtain ⟨hname, hends⟩ := hname
    obtain ⟨ref, hread, rfl⟩ := (reads_name hop hname hends).mp h
    obtain rfl := reads_reference hname hread
    exact .bareName hname hends hread
  by_cases hargs : s.kindAt 0 = some .ident ∧ s.kindAt s.nameLength = some .ltLt ∧
      ∃ ref args u, HasArgs beyond s ref args u ∧ u.kindAt 0 ≠ some .lParen
  · obtain ⟨hfirst, hopen, ref, args, u, hargs, hcall⟩ := hargs
    have hends : ¬s.EndsArg close s.nameLength := fun hends => hname ⟨hfirst, hends⟩
    obtain ⟨rfl, rfl⟩ := (reads_of_node hop hfirst hends hopen hargs hcall).mp h
    exact .implicitNode hfirst hends hopen hargs hcall
  -- no other rule applies, so the argument is a constant
  have hrest : OnlyConstant beyond close s := {
    operator := hop
    keyword := by
      simp only [List.forall_mem_cons, List.not_mem_nil, false_imp_iff, implies_true, and_true]
      exact ⟨htype, hconst, fun h => hnode ⟨.node, h⟩, fun h => hnode ⟨.function, h⟩⟩
    builtin := fun kind hmem hkind hnext => hbuiltin ⟨kind, hmem, hkind, hnext⟩
    name := fun hfirst hends => hname ⟨hfirst, hends⟩
    call := fun hfirst hopen => by
      obtain ⟨ref, args, u, hlist⟩ :=
        exists_hasArgs hop hfirst (fun hends => hname ⟨hfirst, hends⟩) hopen h
      exact ⟨ref, args, u, hlist, Decidable.byContradiction fun hcall =>
        hargs ⟨hfirst, hopen, ref, args, u, hlist, hcall⟩⟩ }
  obtain ⟨value, hread, rfl⟩ := (reads_constant hdepth hrest (lt_of_reads h)).mp h
  exact .constant hrest hread

/-- Every argument that one of the rules allows is read. -/
theorem Sorts.reads (h : Sorts beyond close s arg t) :
    s.Reads beyond (fun deep => Read.staticArg deep close) arg t := by
  have hadvances : (Nested.counting beyond s.depth).Advances :=
    Nested.counting_eq beyond hdepth ▸ inferInstance
  by_cases hop : s.OperatorAlone close
  · obtain ⟨span, op, rfl⟩ := h.isOperator_iff.mpr hop
    cases h with
    | operator hop hends => exact (reads_operator hop hends).mpr ⟨rfl, rfl⟩
  cases h with
  | operator hfirst hends => exact absurd ⟨⟨_, hfirst⟩, hends⟩ hop
  | explicitType hkeyword htype => exact (reads_type hop hkeyword).mpr ⟨_, htype, rfl⟩
  | explicitConst hkeyword hvalue => exact (reads_const hop hkeyword).mpr ⟨_, hvalue, rfl⟩
  | explicitNode hkeyword htarget => exact (reads_node hop hkeyword).mpr ⟨_, htarget, rfl⟩
  | implicitType hkind hbuiltin hnext htype =>
      exact (reads_builtin hop hkind hbuiltin hnext).mpr ⟨_, htype, rfl⟩
  | bareName hname hends href => exact (reads_name hop hname hends).mpr ⟨_, href, rfl⟩
  | implicitNode hname hends hopen hargs hcall =>
      exact (reads_of_node hop hname hends hopen hargs hcall).mpr ⟨rfl, rfl⟩
  | constant hrest hvalue =>
      exact (reads_constant hdepth hrest (lt_of_reads hvalue)).mpr ⟨_, hvalue, rfl⟩

end State

/-- In every state, and with whatever token the arguments end, a static argument is read exactly if
one of the rules allows it, and it is an operator exactly if a predefined operator is all of it. -/
theorem static_arguments_are_sorted (beyond : Nested) (close : Kind) (s : State)
    (hdepth : s.depth ≤ maxNesting) (arg : StaticArg) (t : State) :
    (s.Reads beyond (fun deep => Read.staticArg deep close) arg t ↔
      State.Sorts beyond close s arg t) ∧
    (State.Sorts beyond close s arg t →
      ((∃ span op, arg = .op span op) ↔ s.OperatorAlone close)) :=
  ⟨⟨State.Sorts.of_reads hdepth, State.Sorts.reads hdepth⟩, State.Sorts.isOperator_iff⟩

/-- In `f<<int>>(x)>>`, three levels below the limit, the arguments are first read as those of a
node, and the call that they belong to is the constant that is read then. -/
theorem call_is_sorted_as_constant :
    let s : State := {
      tokens := [⟨.ident, "f", ⟨0, 1, 0⟩⟩, ⟨.ltLt, "<<", ⟨1, 3, 0⟩⟩, ⟨.kwInt, "int", ⟨3, 6, 0⟩⟩,
        ⟨.gtGt, ">>", ⟨6, 8, 0⟩⟩, ⟨.lParen, "(", ⟨8, 9, 0⟩⟩, ⟨.ident, "x", ⟨9, 10, 0⟩⟩,
        ⟨.rParen, ")", ⟨10, 11, 0⟩⟩, ⟨.gtGt, ">>", ⟨11, 13, 0⟩⟩]
      size := 13
      pos := 0
      depth := 61
      scope := .body
      log := ⟨[], 200, false, false⟩ }
    s.depth ≤ maxNesting ∧ ∃ span value,
      State.Sorts .exhausted .gtGt s (.const span value false) (s.skip 7) ∧
      s.Reads .exhausted (fun deep => deep.expr) value (s.skip 7) := by
  intro s
  have hdepth : s.depth ≤ maxNesting := by decide
  refine ⟨hdepth, ⟨0, 11, 0⟩, .call ⟨0, 11, 0⟩ (.inst ⟨0, 8, 0⟩ ⟨none, "f", ⟨0, 1, 0⟩⟩
    (some [.type ⟨3, 6, 0⟩ (.int ⟨3, 6, 0⟩) false])) [.name ⟨9, 10, 0⟩ ⟨none, "x", ⟨9, 10, 0⟩⟩], ?_⟩
  have hcounting := Nested.counting_eq .exhausted hdepth
  refine ⟨((static_arguments_are_sorted _ _ s hdepth _ _).1).mp ?_, ?_⟩
  · refine State.reads_iff.mpr ⟨(s.skip 7).cursor, ?_, ?_⟩
    · rw [hcounting]
      rfl
    · rfl
  · refine State.reads_iff.mpr ⟨(s.skip 7).cursor, ?_, ?_⟩
    · rw [hcounting]
      rfl
    · rfl

end Lustre
