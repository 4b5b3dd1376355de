import Lustre.Proofs.Tree.Grouping
import Lustre.Reader.Program

/-!
# Climbing reads chains as the table groups them

The loops of `inner` and `top` climb: each takes the operators from its minimum on and
leaves their right operands to a reader with a minimum of its own.  Between two rounds of a
loop the part of a chain that was read is grouped, and the next operator is weaker than what
each operator of that part admits to its right (`Climbed`).  That is what makes the next
operator the root of all that stands before it, and of the operand that is read behind it
(`Climbed.join`).

A chain that fails is refused for one of two reasons: it is nested too deeply, or two
comparisons follow one another, and then the first two are named (`Refused`).
-/

namespace Lustre

variable {α β : Type}

/-! ## Both outcomes of a reader -/

/-- What `read` answers satisfies `Q`, and its failure satisfies `E`. -/
def Resolves (read : Read α) (c : Cursor) (Q : α → Cursor → Prop) (E : Diagnostic → Prop) : Prop :=
  match read c with
  | .ok a c' => Q a c'
  | .error e _ => E e

namespace Resolves

variable {c : Cursor} {P Q : α → Cursor → Prop} {R : β → Cursor → Prop} {E F : Diagnostic → Prop}

theorem pure {a : α} (h : Q a c) : Resolves (Pure.pure a) c Q E := h

theorem fail {cause : Cause} (h : E ⟨cause, c.span⟩) : Resolves (Read.fail cause) c Q E := h

theorem peek {next : Option Kind → Read β} (h : Resolves (next c.peek) c R E) :
    Resolves (Read.peek >>= next) c R E := h

theorem advance {next : Unit → Read β} (h : Resolves (next ()) c.pass R E) :
    Resolves (Read.advance >>= next) c R E := h

/-- A step that is known to succeed. -/
theorem after {read : Read α} {next : α → Read β} {a : α} {c' : Cursor} (h : read c = .ok a c')
    (hnext : Resolves (next a) c' R E) : Resolves (read >>= next) c R E := by
  unfold Resolves
  rw [bind_of_ok h]
  exact hnext

theorem mono {read : Read α} (h : Resolves read c P E) (hPQ : ∀ a c', P a c' → Q a c')
    (hEF : ∀ e, E e → F e) : Resolves read c Q F := by
  unfold Resolves at h ⊢
  cases hread : read c with
  | ok a c' =>
      rw [hread] at h
      exact hPQ a c' h
  | error e c' =>
      rw [hread] at h
      exact hEF e h

theorem monoError {read : Read α} (h : Resolves read c Q E) (hEF : ∀ e, E e → F e) :
    Resolves read c Q F :=
  h.mono (fun _ _ hread => hread) hEF

theorem bind {read : Read α} {next : α → Read β} (h : Resolves read c P E)
    (hnext : ∀ a c', P a c' → Resolves (next a) c' R E) : Resolves (read >>= next) c R E := by
  unfold Resolves at h
  cases hread : read c with
  | ok a c' =>
      rw [hread] at h
      exact after hread (hnext a c' h)
  | error e c' =>
      rw [hread] at h
      unfold Resolves
      rw [bind_of_error hread]
      exact h

theorem and {read : Read α} (h : Resolves read c P E) (hmeets : Meets read c Q) :
    Resolves read c (fun a c' => P a c' ∧ Q a c') E := by
  unfold Resolves at h ⊢
  cases hread : read c with
  | ok a c' =>
      rw [hread] at h
      exact ⟨h, hmeets a c' hread⟩
  | error e c' =>
      rw [hread] at h
      exact h

/-- A loop whose steps pass tokens ends where a step ends it or fails. -/
theorem iterate {step : α → Read (ForInStep α)} (hadvancing : Advancing step)
    {I : α → Cursor → Prop}
    (hstep : ∀ a c, I a c → Resolves (step a) c (StepKeeps I Q) E) {a : α} (h : I a c) :
    Resolves (Read.iterate a step) c Q E := by
  have hbounded : ∀ (bound : Nat) (a : α) (c : Cursor), I a c → c.rest.length < bound →
      Resolves (iterateUpTo step bound a) c Q E := by
    intro bound
    induction bound with
    | zero => intros; omega
    | succ bound ih =>
        intro a c h hbound
        refine bind ((hstep a c h).and (hadvancing a c)) fun next c' hnext => ?_
        cases next with
        | done a' => exact hnext.1
        | yield a' =>
            have hlt : c'.rest.length < c.rest.length := hnext.2
            exact ih a' c' hnext.1 (by omega)
  exact hbounded _ a c h (Nat.lt_succ_self _)

end Resolves

/-! ## Cursors before a chain -/

/-- The tokens to come spell links, up to the end of the tokens. -/
inductive Ahead : Cursor → List ChainLink → Prop
  | nil {c : Cursor} (h : c.rest = []) : Ahead c []
  | cons {c c' : Cursor} {link : ChainLink} {later : List ChainLink}
      (hpeek : c.peek = some link.op.symbol) (hspan : c.span = link.place)
      (hread : ∀ deep, Read.prefixed deep c.pass = .ok link.operand c') (hlater : Ahead c' later) :
      Ahead c (link :: later)

/-- The tokens to come spell an operand and links, up to the end of the tokens. -/
def Begins (c : Cursor) (first : Expr) (links : List ChainLink) : Prop :=
  ∃ c', (∀ deep, Read.prefixed deep c = .ok first c') ∧ Ahead c' links

namespace Ahead

variable {c : Cursor} {link : ChainLink} {later : List ChainLink}

theorem operator_nil (h : Ahead c []) (tier : Tier) :
    c.peek.bind (BinaryOp.inTier? tier) = none := by
  cases h with
  | nil hrest => rw [Cursor.peek, hrest]; rfl

theorem operator_cons (h : Ahead c (link :: later)) :
    c.peek.bind (BinaryOp.inTier? link.op.tier) = some link.op := by
  cases h with
  | cons hpeek => rw [hpeek, Option.bind_some, BinaryOp.inTier?_symbol]

theorem operator_ne (h : Ahead c (link :: later)) {tier : Tier} (hne : link.op.tier ≠ tier) :
    c.peek.bind (BinaryOp.inTier? tier) = none := by
  cases h with
  | cons hpeek => rw [hpeek, Option.bind_some, BinaryOp.inTier?_of_ne hne]

/-- A chain is not sampled. -/
theorem not_when {links : List ChainLink} (h : Ahead c links) : c.peek ≠ some .kwWhen := by
  intro hwhen
  cases h with
  | nil hrest =>
      rw [Cursor.peek, hrest] at hwhen
      cases hwhen
  | @cons _ _ link _ hpeek =>
      have hsymbol : link.op.symbol = .kwWhen := Option.some.inj (hpeek.symm.trans hwhen)
      cases hop : link.op <;> rw [hop] at hsymbol <;> cases hsymbol

theorem begins (h : Ahead c (link :: later)) : Begins c.pass link.operand later := by
  cases h with
  | cons _ _ hread hlater => exact ⟨_, hread, hlater⟩

theorem span_eq (h : Ahead c (link :: later)) : c.span = link.place := by
  cases h with
  | cons _ hspan => exact hspan

end Ahead

/-! ## What has been read of a chain -/

/-- Of a chain the links `done` have been read, all of which `takes` admits, and `rest` is to
come. -/
structure Climbed (takes : BinaryOp → Prop) (first : Expr) (links : List ChainLink) (tree : Expr)
    (c : Cursor) (done rest : List ChainLink) : Prop where
  split : links = done ++ rest
  groups : Groups first done tree
  unchained : chained? done = none
  takes : ∀ link ∈ done, takes link.op
  /-- The next operator belongs to no right operand of those that were read. -/
  below : ∀ next ∈ rest.head?, ∀ link ∈ done, next.level < link.op.strength.rightMin
  ahead : Ahead c rest

/-- A chain has been read as far as `takes` admits it. -/
def Reads (takes : BinaryOp → Prop) (first : Expr) (links : List ChainLink) (tree : Expr)
    (c : Cursor) : Prop :=
  ∃ done rest, Climbed takes first links tree c done rest ∧ ∀ next ∈ rest.head?, ¬ takes next.op

/-- A chain is nested too deeply, which takes as many links as there are levels. -/
def TooDeep (levels : Nat) (links : List ChainLink) (e : Diagnostic) : Prop :=
  e.cause = .nestedTooDeeply ∧ levels ≤ links.length

theorem TooDeep.of_succ {levels : Nat} {links : List ChainLink} {e : Diagnostic}
    (h : TooDeep (levels + 1) links e) : TooDeep levels links e :=
  ⟨h.1, Nat.le_of_succ_le h.2⟩

/-- Why a chain is refused. -/
def Refused (levels : Nat) (links : List ChainLink) (e : Diagnostic) : Prop :=
  TooDeep levels links e ∨ ∃ first second, chained? links = some (first, second) ∧
    e = ⟨.chainedComparison first.op second.op, second.place⟩

namespace Climbed

variable {takes takes' takes'' : BinaryOp → Prop} {first lhs rhs tree : Expr}
  {links done done' rest later : List ChainLink} {link : ChainLink} {c c' : Cursor}

theorem start (h : Ahead c links) : Climbed takes first links first c [] links where
  split := rfl
  groups := .operand first
  unchained := rfl
  takes _ hmem := nomatch hmem
  below _ _ _ hmem := nomatch hmem
  ahead := h

/-- What comes behind the next operator has fewer links than the chain, so it needs no more
levels than the chain where one level has been taken. -/
theorem tooDeep_later (h : Climbed takes first links tree c done (link :: later)) {levels : Nat}
    {e : Diagnostic} (he : TooDeep levels later e) : TooDeep (levels + 1) links e := by
  obtain ⟨hcause, hle⟩ := he
  refine ⟨hcause, ?_⟩
  rw [h.split, List.length_append, List.length_cons]
  omega

theorem mono (h : Climbed takes first links tree c done rest)
    (htakes : ∀ op, takes op → takes' op) :
    Climbed takes' first links tree c done rest :=
  { h with takes := fun link hmem => htakes link.op (h.takes link hmem) }

/-- The next operator joins what has been read to the right operand that is read behind it. -/
theorem join (h : Climbed takes first links lhs c done (link :: later))
    (h' : Climbed takes' link.operand later rhs c' done' rest)
    (htight : ∀ next ∈ done', link.op.strength.rightMin ≤ next.level)
    (hloose : ∀ next ∈ rest.head?, next.level < link.op.strength.rightMin)
    (hunchained : chained? (done ++ link :: done') = none)
    (htakes : ∀ next ∈ done ++ link :: done', takes'' next.op) :
    Climbed takes'' first links (Read.binary link.op lhs rhs) c' (done ++ link :: done') rest where
  split := by rw [h.split, h'.split, List.append_assoc, List.cons_append]
  groups := .split (.of_rightMin (h.below link rfl) htight) h.groups h'.groups
  unchained := hunchained
  takes := htakes
  below next hnext other hmem := by
    have hnextlt := hloose next hnext
    rcases List.mem_append.mp hmem with hmem | hmem
    · have hbelow := h.below link rfl other hmem
      have hbound : link.op.strength.rightMin ≤ link.level + 1 := link.op.rightMin_le
      omega
    · rcases List.mem_cons.mp hmem with rfl | hmem
      · exact hnextlt
      · have hlevel := htight other hmem
        have hbound : other.level ≤ other.op.strength.rightMin := other.op.level_le_rightMin
        omega
  ahead := h'.ahead

end Climbed

/-! ## The inner tier -/

/-- What an operand of the inner tier from level `least` on admits. -/
def AdmitsInner (least : Nat) (op : BinaryOp) : Prop :=
  op.tier = .inner ∧ least ≤ op.strength.prec.level

/-- What an expression from level `least` on admits. -/
def AdmitsTop (least : Nat) (op : BinaryOp) : Prop :=
  op.tier = .top → least ≤ op.strength.prec.level

theorem AdmitsInner.ne_top {least : Nat} {op : BinaryOp} (h : AdmitsInner least op) :
    op.tier ≠ .top := by
  intro htop
  exact absurd (h.1.symm.trans htop) (by decide)

/-- An operator that is no comparison and ends an operand of one belongs to the top tier. -/
theorem tier_top_of_not_admitted {op : BinaryOp} (hcomparison : op.tier ≠ .comparison)
    (hinner : ¬ AdmitsInner 0 op) : op.tier = .top := by
  cases htier : op.tier with
  | top => rfl
  | comparison => exact absurd htier hcomparison
  | inner => exact absurd ⟨htier, Nat.zero_le _⟩ hinner

namespace Climbed

variable {least : Nat} {first lhs rhs : Expr} {links done done' rest later : List ChainLink}
  {link : ChainLink} {c c' : Cursor}

/-- An operator of the inner tier joins what was read before it to its right operand. -/
theorem join_inner (h : Climbed (AdmitsInner least) first links lhs c done (link :: later))
    (hadmits : AdmitsInner least link.op)
    (h' : Climbed (AdmitsInner link.op.strength.rightMin) link.operand later rhs c' done' rest)
    (hstops : ∀ next ∈ rest.head?, ¬ AdmitsInner link.op.strength.rightMin next.op) :
    Climbed (AdmitsInner least) first links (Read.binary link.op lhs rhs) c'
      (done ++ link :: done') rest := by
  have hright : link.level ≤ link.op.strength.rightMin := link.op.level_le_rightMin
  have htakes : ∀ next ∈ done ++ link :: done', AdmitsInner least next.op := by
    intro next hmem
    rcases List.mem_append.mp hmem with hmem | hmem
    · exact h.takes next hmem
    · rcases List.mem_cons.mp hmem with rfl | hmem
      · exact hadmits
      · have hdone := h'.takes next hmem
        exact ⟨hdone.1, Nat.le_trans hadmits.2 (Nat.le_trans hright hdone.2)⟩
  refine h.join h' (fun next hmem => (h'.takes next hmem).2) (fun next hnext => ?_)
    (chained?_of_inner fun next hmem => (htakes next hmem).1) htakes
  by_cases hinner : next.op.tier = .inner
  · exact Nat.lt_of_not_le fun hle => hstops next hnext ⟨hinner, hle⟩
  · -- what is no operator of the inner tier is weaker than all of them
    have hnext : ¬ Prec.equality.level < next.level := mt BinaryOp.tier_inner_iff.mpr hinner
    have hlink : Prec.equality.level < link.level := BinaryOp.tier_inner_iff.mp hadmits.1
    omega

/-- A comparison joins two operands of the inner tier, if no other comparison follows. -/
theorem join_comparison (h : Climbed (AdmitsInner 0) first links lhs c done (link :: later))
    (hlink : link.op.tier = .comparison)
    (h' : Climbed (AdmitsInner 0) link.operand later rhs c' done' rest)
    (hstops : ∀ next ∈ rest.head?, next.op.tier = .top) :
    Climbed (fun op => op.tier ≠ .top) first links (Read.binary link.op lhs rhs) c'
      (done ++ link :: done') rest := by
  have hlevel : link.level = Prec.equality.level := BinaryOp.tier_comparison_iff.mp hlink
  have hright : link.level ≤ link.op.strength.rightMin := link.op.level_le_rightMin
  have hbound : link.op.strength.rightMin ≤ link.level + 1 := link.op.rightMin_le
  refine h.join h' (fun next hmem => ?_) (fun next hnext => ?_)
    (chained?_of_one hlink (fun next hmem => (h.takes next hmem).1)
      fun next hmem => (h'.takes next hmem).1) fun next hmem htop => ?_
  · have hinner : Prec.equality.level < next.level :=
      BinaryOp.tier_inner_iff.mp (h'.takes next hmem).1
    omega
  · have htop : next.level < Prec.equality.level := BinaryOp.tier_top_iff.mp (hstops next hnext)
    omega
  · rcases List.mem_append.mp hmem with hmem | hmem
    · exact (h.takes next hmem).ne_top htop
    · rcases List.mem_cons.mp hmem with rfl | hmem
      · exact absurd (hlink.symm.trans htop) (by decide)
      · exact (h'.takes next hmem).ne_top htop

/-- An operator of the top tier joins what was read before it to its right operand. -/
theorem join_top (h : Climbed (AdmitsTop least) first links lhs c done (link :: later))
    (hlink : link.op.tier = .top) (hleast : least ≤ link.level)
    (h' : Climbed (AdmitsTop link.op.strength.rightMin) link.operand later rhs c' done' rest)
    (hstops : ∀ next ∈ rest.head?, ¬ AdmitsTop link.op.strength.rightMin next.op) :
    Climbed (AdmitsTop least) first links (Read.binary link.op lhs rhs) c'
      (done ++ link :: done') rest := by
  have hlevel : link.level < Prec.equality.level := BinaryOp.tier_top_iff.mp hlink
  have hright : link.level ≤ link.op.strength.rightMin := link.op.level_le_rightMin
  have hbound : link.op.strength.rightMin ≤ link.level + 1 := link.op.rightMin_le
  refine h.join h' (fun next hmem => ?_) (fun next hnext => ?_) ?_ fun next hmem htop => ?_
  · by_cases htop : next.op.tier = .top
    · exact h'.takes next hmem htop
    · -- what is no operator of the top tier is stronger than all of them
      have hnext : ¬ next.level < Prec.equality.level := mt BinaryOp.tier_top_iff.mpr htop
      omega
  · exact Nat.lt_of_not_le fun hle => hstops next hnext fun _ => hle
  · rw [chained?_append hlink, h.unchained, h'.unchained]
    rfl
  · rcases List.mem_append.mp hmem with hmem | hmem
    · exact h.takes next hmem htop
    · rcases List.mem_cons.mp hmem with rfl | hmem
      · exact hleast
      · exact Nat.le_trans hleast (Nat.le_trans hright (h'.takes next hmem htop))

end Climbed

/-- The readers of what is nested, where `levels` further levels are allowed, read chains as the
table groups them. -/
structure Nested.Climbs (deep : Nested) (levels : Nat) : Prop where
  inner : ∀ {least : Nat} {c : Cursor} {first : Expr} {links : List ChainLink},
    Begins c first links → Resolves (deep.inner least) c
      (Reads (AdmitsInner least) first links) (TooDeep levels links)
  top : ∀ {least : Nat} {c : Cursor} {first : Expr} {links : List ChainLink}, Begins c first links →
    Resolves (deep.top least) c (Reads (AdmitsTop least) first links) (Refused levels links)

namespace Read

variable {deep : Nested} [deep.Advances] {levels least : Nat} {c : Cursor} {first lhs : Expr}
  {links done rest : List ChainLink}

omit [deep.Advances] in
theorem resolves_innerStep (hdeep : deep.Climbs levels)
    (h : Climbed (AdmitsInner least) first links lhs c done rest) :
    Resolves (innerStep deep least lhs) c
      (StepKeeps (fun lhs c' => ∃ done rest,
        Climbed (AdmitsInner least) first links lhs c' done rest)
        (Reads (AdmitsInner least) first links)) (TooDeep (levels + 1) links) := by
  refine .after (isAt_of_ne h.ahead.not_when) ?_
  rw [if_neg (by decide)]
  refine .peek ?_
  cases rest with
  | nil =>
      rw [h.ahead.operator_nil]
      exact .pure ⟨done, [], h, nofun⟩
  | cons link later =>
      by_cases htier : link.op.tier = .inner
      · have hoperator := h.ahead.operator_cons
        rw [htier] at hoperator
        rw [hoperator]
        dsimp only
        split
        · rename_i hlevel
          refine .pure ⟨done, link :: later, h, ?_⟩
          rintro _ ⟨⟩ hadmits
          exact Nat.not_lt_of_ge hadmits.2 hlevel
        · rename_i hlevel
          refine .advance (.bind ((hdeep.inner h.ahead.begins).monoError fun e => h.tooDeep_later)
            fun rhs c' hread => ?_)
          obtain ⟨done', rest', h', hstops⟩ := hread
          exact .pure ⟨_, rest', h.join_inner ⟨htier, Nat.le_of_not_lt hlevel⟩ h' hstops⟩
      · rw [h.ahead.operator_ne htier]
        refine .pure ⟨done, link :: later, h, ?_⟩
        rintro _ ⟨⟩ hadmits
        exact htier hadmits.1

theorem resolves_inner (hdeep : deep.Climbs levels) (h : Begins c first links) :
    Resolves (inner deep least) c (Reads (AdmitsInner least) first links)
      (TooDeep (levels + 1) links) := by
  obtain ⟨c', hread, hahead⟩ := h
  refine .after (hread deep) (.iterate (advancing_innerStep deep least)
    (I := fun lhs c' => ∃ done rest, Climbed (AdmitsInner least) first links lhs c' done rest) ?_
    ⟨[], links, .start hahead⟩)
  rintro lhs c' ⟨done, rest, hclimbed⟩
  exact resolves_innerStep hdeep hclimbed

/-! ## Comparisons -/

omit [deep.Advances] in
/-- After two operands of the inner tier and a comparison between them another comparison is
refused. -/
theorem resolves_lastComparison {rhs : Expr} {done' rest' later : List ChainLink} {link : ChainLink}
    {c' : Cursor} (h : Climbed (AdmitsInner 0) first links lhs c done (link :: later))
    (htier : link.op.tier = .comparison)
    (h' : Climbed (AdmitsInner 0) link.operand later rhs c' done' rest')
    (hstops : ∀ next ∈ rest'.head?, ¬ AdmitsInner 0 next.op) :
    Resolves (lastComparison link.op lhs rhs) c'
      (Reads (fun op => op.tier ≠ .top) first links) (Refused (levels + 1) links) := by
  refine .peek ?_
  cases rest' with
  | nil =>
      rw [h'.ahead.operator_nil]
      exact .pure ⟨_, [], h.join_comparison htier h' nofun, nofun⟩
  | cons next later' =>
      by_cases hnext : next.op.tier = .comparison
      · have hoperator := h'.ahead.operator_cons
        rw [hnext] at hoperator
        rw [hoperator]
        refine .fail (.inr ⟨link, next, ?_, by rw [h'.ahead.span_eq]⟩)
        rw [h.split, h'.split]
        exact chained?_of_two htier hnext (fun other hmem => (h.takes other hmem).1)
          (fun other hmem => (h'.takes other hmem).1) later'
      · have htop : next.op.tier = .top := tier_top_of_not_admitted hnext (hstops next rfl)
        rw [h'.ahead.operator_ne hnext]
        refine .pure ⟨_, next :: later', h.join_comparison htier h' ?_, ?_⟩
        · rintro _ ⟨⟩
          exact htop
        · rintro _ ⟨⟩ hnot
          exact hnot htop

theorem resolves_comparison (hdeep : deep.Climbs levels) (h : Begins c first links) :
    Resolves (comparison deep) c (Reads (fun op => op.tier ≠ .top) first links)
      (Refused (levels + 1) links) := by
  rw [comparison_eq]
  refine .bind ((resolves_inner hdeep h).monoError fun e => .inl) fun lhs c₁ hread => ?_
  obtain ⟨done, rest, hclimbed, hstops⟩ := hread
  refine .peek ?_
  cases rest with
  | nil =>
      rw [hclimbed.ahead.operator_nil]
      exact .pure ⟨done, [], hclimbed.mono fun op => AdmitsInner.ne_top, nofun⟩
  | cons link later =>
      by_cases htier : link.op.tier = .comparison
      · have hoperator := hclimbed.ahead.operator_cons
        rw [htier] at hoperator
        rw [hoperator]
        dsimp only
        -- the right operand takes as many levels as the left one, for it is not nested
        have hoperand : ∀ e, TooDeep (levels + 1) later e → Refused (levels + 1) links e := by
          intro e he
          exact .inl (hclimbed.tooDeep_later he).of_succ
        refine .advance (.bind ((resolves_inner hdeep hclimbed.ahead.begins).monoError hoperand)
          fun rhs c₂ hread => ?_)
        obtain ⟨done', rest', hright, hstops'⟩ := hread
        exact resolves_lastComparison hclimbed htier hright hstops'
      · rw [hclimbed.ahead.operator_ne htier]
        refine .pure ⟨done, link :: later, hclimbed.mono fun op => AdmitsInner.ne_top, ?_⟩
        rintro _ ⟨⟩ hnot
        exact hnot (tier_top_of_not_admitted htier (hstops link rfl))

/-! ## The top tier -/

omit [deep.Advances] in
theorem resolves_topStep (hdeep : deep.Climbs levels)
    (h : Climbed (AdmitsTop least) first links lhs c done rest)
    (hrest : ∀ next ∈ rest.head?, next.op.tier = .top) :
    Resolves (topStep deep least lhs) c
      (StepKeeps (fun lhs c' => ∃ done rest,
        Climbed (AdmitsTop least) first links lhs c' done rest ∧
          ∀ next ∈ rest.head?, next.op.tier = .top)
        (Reads (AdmitsTop least) first links)) (Refused (levels + 1) links) := by
  refine .peek ?_
  cases rest with
  | nil =>
      -- nothing follows
      rw [h.ahead.operator_nil]
      exact .pure ⟨done, [], h, nofun⟩
  | cons link later =>
      have htier : link.op.tier = .top := hrest link rfl
      have hoperator := h.ahead.operator_cons
      rw [htier] at hoperator
      rw [hoperator]
      dsimp only
      split
      · rename_i hlevel
        refine .pure ⟨done, link :: later, h, ?_⟩
        rintro _ ⟨⟩ hadmits
        exact Nat.not_lt_of_ge (hadmits htier) hlevel
      · rename_i hlevel
        -- what is refused in the right operand is refused in the whole chain
        have hrefused : ∀ e, Refused levels later e → Refused (levels + 1) links e := by
          rintro e (hdeep | ⟨first', second, hchained, he⟩)
          · exact .inl (h.tooDeep_later hdeep)
          · refine .inr ⟨first', second, ?_, he⟩
            rw [h.split, chained?_append htier, h.unchained, hchained]
            rfl
        refine .advance (.bind ((hdeep.top h.ahead.begins).mono (fun _ _ hread => hread) hrefused)
          fun rhs c' hread => ?_)
        obtain ⟨done', rest', h', hstops⟩ := hread
        refine .pure ⟨_, rest', h.join_top htier (Nat.le_of_not_lt hlevel) h' hstops, ?_⟩
        intro next hnext
        exact Decidable.byContradiction fun hother =>
          hstops next hnext fun htop => absurd htop hother

theorem resolves_top (hdeep : deep.Climbs levels) (h : Begins c first links) :
    Resolves (top deep least) c (Reads (AdmitsTop least) first links)
      (Refused (levels + 1) links) := by
  refine .bind (resolves_comparison hdeep h) fun lhs c₁ hread => ?_
  obtain ⟨done, rest, hclimbed, hstops⟩ := hread
  refine .iterate (advancing_topStep deep least)
    (I := fun lhs c' => ∃ done rest, Climbed (AdmitsTop least) first links lhs c' done rest ∧
      ∀ next ∈ rest.head?, next.op.tier = .top) ?_ ⟨done, rest, ?_, ?_⟩
  · rintro lhs c' ⟨done, rest, hclimbed, hrest⟩
    exact resolves_topStep hdeep hclimbed hrest
  · exact hclimbed.mono fun op hnot htop => absurd htop hnot
  · intro next hnext
    exact Decidable.byContradiction fun hother => hstops next hnext hother

end Read

/-! ## All levels -/

/-- The induction is on the number of levels that are still allowed; none is allowed to the
readers that fail at once. -/
theorem Nested.climbs_upTo (levels : Nat) : (upTo levels).Climbs levels := by
  induction levels with
  | zero =>
      constructor
      · intro least c first links _
        exact Resolves.fail ⟨rfl, Nat.zero_le _⟩
      · intro least c first links _
        exact Resolves.fail (.inl ⟨rfl, Nat.zero_le _⟩)
  | succ levels ih =>
      constructor
      · intro least c first links h
        exact Read.resolves_inner ih h
      · intro least c first links h
        exact Read.resolves_top ih h

/-- A chain that makes up all tokens is read as it groups, or refused. -/
theorem Recover.resolves_wholeExpr {levels : Nat} {c : Cursor} {first : Expr}
    {links : List ChainLink} (h : Begins c first links) :
    Resolves (wholeExpr (.upTo levels)) c
      (fun tree _ => chained? links = none ∧ Groups first links tree) (Refused levels links) := by
  have hclimbs := @(Nested.climbs_upTo levels).top 0 c first links
  refine .bind (hclimbs h) fun tree c' hread => ?_
  obtain ⟨done, rest, hclimbed, hstops⟩ := hread
  cases rest with
  | cons link later => exact absurd (fun _ => Nat.zero_le _) (hstops link rfl)
  | nil =>
      have hlinks : links = done := by rw [hclimbed.split, List.append_nil]
      subst hlinks
      have hend : c'.atEnd = true := by
        cases hclimbed.ahead with
        | nil hrest => rw [Cursor.atEnd, hrest]; rfl
      change Resolves (if c'.atEnd = true then _ else _) c' _ _
      rw [if_pos hend]
      exact .pure ⟨hclimbed.unchained, hclimbed.groups⟩

end Lustre
