import Lustre.Proofs.Reread.Signature

/-!
# Arguments for models, read back

An argument with a name is told by the word behind that name, an `=` or a pragma, where the
keyword of an explicit argument stands before the name.  So an argument without a name must not
begin like one (`Unnamed`).  The one form that does is a comparison of a plain name by `=`, which
cannot be read as an argument, and is an argument only in parentheses.
-/

namespace Lustre

open Chunk

variable {deep : Nested} {later : List Chunk} {c : Cursor}

/-! ## Words that are not the name of an argument -/

/-- The words are not a name and one of the words that stand behind the name of an argument. -/
def Unnamed (chunks : List Chunk) : Prop :=
  (kinds chunks).head? = some .ident →
    (kinds chunks)[1]? ≠ some .eq ∧ (kinds chunks)[1]? ≠ some .pragma

namespace Unnamed

variable {chunks : List Chunk}

theorem of_head (h : (kinds chunks).head? ≠ some .ident) : Unnamed chunks :=
  fun hident => absurd hident h

/-- A used name is not the name of an argument if nothing shows it behind the name. -/
theorem reference (ref : Reference) (heq : ref.isQualified = false → (kinds later).head? ≠ some .eq)
    (hpragma : (kinds later).head? ≠ some .pragma) : Unnamed (ref.chunks ++ later) := by
  intro _
  obtain ⟨package, member, span⟩ := ref
  cases package with
  | none =>
      have hsecond : (kinds ((⟨none, member, span⟩ : Reference).chunks ++ later))[1]? =
          (kinds later).head? := by
        rw [List.head?_eq_getElem?]
        rfl
      rw [hsecond]
      exact ⟨heq rfl, hpragma⟩
  | some package =>
      have hsecond : (kinds ((⟨some package, member, span⟩ : Reference).chunks ++ later))[1]? =
          some .colonColon := rfl
      rw [hsecond]
      decide

/-- An expression in parentheses is not the name of an argument. -/
theorem enclose {expr : Expr} {least : Nat} (hleast : least ≤ Prec.atom)
    (h : least ≤ expr.rank → Unnamed (expr.bare false ++ later)) :
    Unnamed (expr.chunks false least ++ later) := by
  unfold Expr.chunks Expr.enclose
  split
  · exact of_head (by simp [between])
  · apply h
    simp only [Bool.false_eq_true, false_or, not_and, Nat.not_lt] at *
    omega

end Unnamed

/-- No expression but a comparison of a plain name by `=` begins like an argument with a name. -/
theorem Expr.Printable.unnamed {called : Bool} {expr : Expr} {later : List Chunk}
    (h : expr.Printable called)
    (hform : expr.opensEquation = false ∨ Prec.equality.level < expr.rank)
    (heq : expr.isPlainName = true → (kinds later).head? ≠ some .eq)
    (hpragma : (kinds later).head? ≠ some .pragma) : Unnamed (expr.bare false ++ later) := by
  -- An operand that is not put in parentheses holds together more tightly than a comparison.
  have hinside : ∀ {value : Expr} {least : Nat} {more : List Chunk}, value.Printable false →
      sizeOf value < sizeOf expr → Prec.equality.level < least ∧ least ≤ Prec.atom →
      (kinds more).head? ≠ some .eq ∧ (kinds more).head? ≠ some .pragma →
      Unnamed (value.chunks false least ++ more) :=
    fun hvalue _ hleast hmore => .enclose hleast.2 fun hrank =>
      hvalue.unnamed (.inr (Nat.lt_of_lt_of_le hleast.1 hrank)) (fun _ => hmore.1) hmore.2
  cases h with
  | @bool _ _ value => cases value <;> exact .of_head (by simp [Expr.bare, boolSign])
  | int => exact .of_head (by simp [Expr.bare])
  | real => exact .of_head (by simp [Expr.bare])
  | tuple => exact .of_head (by simp [Expr.bare, between])
  | array => exact .of_head (by simp [Expr.bare, between])
  | @cond _ _ opening => cases opening <;> exact .of_head (by simp [Expr.bare, CondWord.symbol])
  | merge => exact .of_head (by simp [Expr.bare])
  | @unary _ _ op =>
      apply Unnamed.of_head
      rw [Expr.bare, UnaryOp.chunks]
      cases op <;> split <;> simp [UnaryOp.symbol]
  | @list _ _ op => cases op <;> exact .of_head (by simp [Expr.bare, ListOp.symbol])
  | @name _ _ ref =>
      refine .reference ref (fun hplain => heq ?_) hpragma
      simpa [Expr.isPlainName] using hplain
  | @inst _ node args =>
      rw [Expr.bare, List.append_assoc]
      exact .reference node (by simp [optionalArgs, StaticArg.enclose])
        (by simp [optionalArgs, StaticArg.enclose])
  | @record _ _ type =>
      rw [Expr.bare_record, List.append_assoc]
      exact .reference type (by simp) (by simp)
  | field hvalue =>
      rw [Expr.bare, List.append_assoc]
      exact hinside hvalue (by simp; omega) (by decide) (by simp)
  | index hvalue =>
      rw [Expr.bare, List.append_assoc]
      exact hinside hvalue (by simp; omega) (by decide) (by simp [between])
  | slice hvalue =>
      rw [Expr.bare, List.append_assoc]
      exact hinside hvalue (by simp; omega) (by decide) (by simp [between])
  | @call _ _ callee _ hcallee =>
      rw [Expr.bare, List.append_assoc]
      refine .enclose (Nat.le_refl _) fun hrank => ?_
      exact hcallee.unnamed (.inr (Nat.lt_of_lt_of_le (by decide) hrank)) (by simp [between])
        (by simp [between])
  | sampled hvalue =>
      rw [Expr.bare, List.append_assoc, List.append_assoc]
      exact hinside hvalue (by simp; omega) (by decide) (by simp)
  | @binary _ _ op lhs rhs hlhs =>
      rw [Expr.bare, List.append_assoc, List.append_assoc]
      have hlevel := op.level_le_leftMin
      have hleast : op.strength.leftMin ≤ Prec.atom := by cases op <;> decide
      refine .enclose hleast fun hrank => hlhs.unnamed ?_ (fun hplain hsymbol => ?_) ?_
      · rcases hform with hform | hhigh
        · rw [Expr.opensEquation, Bool.or_eq_false_iff] at hform
          exact .inl hform.2
        · exact .inr (Nat.lt_of_lt_of_le hhigh (Nat.le_trans hlevel hrank))
      · -- only a comparison puts a `=` behind a name, and then the form was ruled out
        obtain rfl : op = .eq := by
          cases op <;> first
            | rfl
            | cases hsymbol
        rcases hform with hform | hhigh
        · simp [Expr.opensEquation, hplain] at hform
        · exact absurd hhigh (Nat.lt_irrefl _)
      · cases op <;> simp [BinaryOp.symbol]
termination_by sizeOf expr

theorem TypeExpr.unnamed {type : TypeExpr} {later : List Chunk}
    (heq : (kinds later).head? ≠ some .eq) (hpragma : (kinds later).head? ≠ some .pragma) :
    Unnamed (type.chunks false ++ later) := by
  cases type with
  | bool | int | real => exact .of_head (by simp [TypeExpr.chunks])
  | named _ ref => exact .reference ref (fun _ => heq) hpragma
  | table _ element length =>
      rw [TypeExpr.chunks, List.append_assoc]
      exact element.unnamed (by simp) (by simp)
termination_by sizeOf type

/-! ## Arguments without a name -/

/-- The keywords of explicit arguments. -/
def explicitKinds : List Kind := [.kwType, .kwConst, .kwNode, .kwFunction]

/-- The name of an argument does not come next, neither at once nor behind a keyword. -/
structure Cursor.NamesNoArg (c : Cursor) : Prop where
  plain : c.peek = some .ident → c.namesArgAt 0 = false
  explicit : ∀ kind ∈ explicitKinds, c.peek = some kind → c.namesArgAt 1 = false

theorem Unnamed.namesArgAt {chunks : List Chunk} (h : Unnamed chunks) {ahead : Nat}
    (hfirst : c.peekAt ahead = (kinds chunks).head?)
    (hsecond : c.peekAt (ahead + 1) = (kinds chunks)[1]?) : c.namesArgAt ahead = false := by
  rw [Cursor.namesArgAt, hfirst, hsecond]
  by_cases hident : (kinds chunks).head? = some .ident
  · obtain ⟨heq, hpragma⟩ := h hident
    simp [heq, hpragma]
  · simp [hident]

namespace Cursor.NamesNoArg

/-- An argument without a keyword. -/
theorem of_plain {chunks : List Chunk} (h : Unnamed chunks)
    (hkind : ∀ kind ∈ explicitKinds, (kinds chunks).head? ≠ some kind) (hshows : c.Shows chunks) :
    c.NamesNoArg where
  plain _ := h.namesArgAt (by rw [hshows.peekAt, List.head?_eq_getElem?]) (hshows.peekAt 1)
  explicit kind hmem hpeek := absurd (hshows.peek.symm.trans hpeek) (hkind kind hmem)

/-- An argument with a keyword. -/
theorem of_explicit {kind : Kind} {chunks : List Chunk} (h : Unnamed chunks)
    (hkind : kind ∈ explicitKinds) (hshows : c.Shows (sign kind :: blank :: chunks)) :
    c.NamesNoArg where
  plain hpeek := by
    have hident : kind = .ident := Option.some.inj (hshows.peek.symm.trans hpeek)
    rw [hident] at hkind
    exact absurd hkind (by decide)
  explicit _ _ _ := h.namesArgAt (by rw [hshows.peekAt, List.head?_eq_getElem?]; rfl)
    (hshows.peekAt 2)

end Cursor.NamesNoArg

section

variable {close : Kind} {arg : StaticArg}

/-- An argument that does not begin with a comparison by `=` has no name. -/
theorem StaticArg.Printable.namesNoArg (h : arg.Printable) (hform : arg.opensEquation = false)
    (hends : EndsArg close later) (hshows : c.Shows (arg.chunks false ++ later)) :
    c.NamesNoArg := by
  have heq : (kinds later).head? ≠ some .eq := hends.head_ne (by decide) rfl
  have hpragma : (kinds later).head? ≠ some .pragma := hends.head_ne (by decide) rfl
  cases h with
  | @name _ ref =>
      have hident : (kinds (ref.chunks ++ later)).head? = some .ident := ref.head_chunks later
      refine .of_plain (.reference ref (fun _ => heq) hpragma) ?_ hshows
      rw [hident]
      decide
  | @type _ type explicit =>
      cases explicit with
      | true => exact .of_explicit (type.unnamed heq hpragma) (by decide) hshows
      | false =>
          refine .of_plain (type.unnamed heq hpragma) (fun kind hmem => ?_) hshows
          apply (type.begins.append later).head_ne
          revert kind
          decide
  -- a constant that begins like `name =` was ruled out
  | @const _ value explicit _ hvalue =>
      have hunnamed : Unnamed (value.chunks false 0 ++ later) :=
        .enclose (Nat.zero_le _) fun _ => hvalue.unnamed (.inl hform) (fun _ => heq) hpragma
      cases explicit with
      | true => exact .of_explicit hunnamed (by decide) hshows
      | false =>
          refine .of_plain hunnamed (fun kind hmem => ?_) hshows
          apply ((hvalue.opens false).enclose false 0 value).head_ne
          revert kind
          decide
  | @node _ keyword _ node args =>
      have hbehind : ∀ kind ∈ [Kind.eq, .pragma],
          (kinds (optionalArgs false args ++ later)).head? ≠ some kind := by
        intro kind hmem
        cases args with
        | none => exact hends.head_ne (by revert kind; decide) (by revert kind; decide)
        | some args => revert kind; simp [optionalArgs, StaticArg.enclose]
      have hunnamed : Unnamed (node.chunks ++ (optionalArgs false args ++ later)) :=
        .reference node (fun _ => hbehind .eq (by simp)) (hbehind .pragma (by simp))
      rw [StaticArg.chunks, List.append_assoc, List.append_assoc] at hshows
      cases keyword with
      | some kind => exact .of_explicit hunnamed (by cases kind <;> decide) hshows
      | none =>
          refine .of_plain hunnamed ?_ hshows
          rw [node.head_chunks]
          decide
  | @op _ op =>
      have hwords : c.Shows (sign op.symbol :: later) := hshows
      refine .of_plain (.of_head ?_) ?_ hwords
      · cases op <;> simp [PredefinedOp.symbol]
      · rw [kinds_sign, List.head?_cons]
        cases op <;> decide

/-- An argument without a name is read as it is in any list of static arguments. -/
theorem gives_unnamed {span : Span} (h : c.NamesNoArg)
    (hread : Gives (Read.staticArg deep close) c (Regains arg later)) :
    Gives (Read.namedArg deep close) c (Regains ⟨⟨none, arg⟩, span⟩ later) := by
  have hplain : Gives (do return NamedArg.mk none (← Read.staticArg deep close)) c
      (Regains (NamedArg.mk none arg) later) :=
    hread.bind fun read c' hread => .pure ⟨congrArg (NamedArg.mk none) hread.1, hread.2⟩
  refine .regainLocated (.get ?_)
  split <;> rename_i hpeek
  · rw [h.plain hpeek]
    exact hplain
  · rw [h.explicit _ (by decide) hpeek]
    exact hplain
  · rw [h.explicit _ (by decide) hpeek]
    exact hplain
  · rw [h.explicit _ (by decide) hpeek]
    exact hplain
  · rw [h.explicit _ (by decide) hpeek]
    exact hplain
  · exact hplain

/-! ## Arguments with a name -/

/-- Behind the name of an argument there is a pragma or the `=`. -/
theorem namesArgAt_name {name : Ident} {part : List Chunk} {ahead : Nat}
    (hpeekAt : ∀ further, c.peekAt (ahead + further) =
      (kinds (name.chunks ++ (assignment part ++ later)))[further]?) :
    c.namesArgAt ahead = true := by
  have hfirst : c.peekAt ahead = some .ident := hpeekAt 0
  have hsecond : c.peekAt (ahead + 1) = some .eq ∨ c.peekAt (ahead + 1) = some .pragma := by
    rw [hpeekAt 1, Ident.chunks]
    cases name.pragmas with
    | nil => exact .inl rfl
    | cons pragma pragmas => exact .inr rfl
  rw [Cursor.namesArgAt, hfirst]
  rcases hsecond with hsecond | hsecond <;> simp [hsecond]

/-- An argument behind the keyword for its sort and its name. -/
theorem gives_explicit {kind : Kind} {read : Nat → Read StaticArg} {name : Ident}
    {part : List Chunk} {span : Span} (hsort : SortReader deep kind read) (hname : name.Printable)
    (hshows : c.Shows (sign kind :: blank :: (name.chunks ++ (assignment part ++ later))))
    (h : ∀ c' start, c'.Shows (part ++ later) → Gives (read start) c' (Regains arg later)) :
    Gives (Read.namedArg deep close) c (Regains ⟨⟨some name, arg⟩, span⟩ later) := by
  have hnamed : c.namesArgAt 1 = true :=
    namesArgAt_name fun further => by rw [hshows.peekAt, Nat.add_comm]; rfl
  have hkeyword : Gives (Read.keywordArg read) c (Regains (NamedArg.mk (some name) arg) later) := by
    refine .advance ?_
    refine (gives_ident hname (by simp [assignment]) hshows.pass_sign.blank).bind
      fun readName c₁ hread => ?_
    have heq : c₁.Shows (sign .eq :: blank :: (part ++ later)) := hread.2.blank
    refine .expect heq.peek fun _ => .here fun start => ?_
    refine (h _ start heq.pass_sign.blank).bind fun readArg c₂ harg => .pure ⟨?_, harg.2⟩
    show NamedArg.mk (some readName.strip) (rebuild Expr.keep readArg) =
      NamedArg.mk (some name.strip) _
    rw [hread.1, harg.1]
  refine .regainLocated (.get ?_)
  dsimp only
  rw [hshows.peek, kinds_sign, List.head?_cons]
  cases hsort <;>
  · dsimp only
    rw [hnamed]
    exact hkeyword

/-- An argument behind its name. -/
theorem gives_assigned {name : Ident} {span : Span} (hname : name.Printable)
    (hshows : c.Shows (name.chunks ++ (assignment (arg.chunks false) ++ later)))
    (h : ∀ c' : Cursor, c'.Shows (arg.chunks false ++ later) →
      Gives (Read.staticArg deep close) c' (Regains arg later)) :
    Gives (Read.namedArg deep close) c (Regains ⟨⟨some name, arg⟩, span⟩ later) := by
  have hnamed : c.namesArgAt 0 = true :=
    namesArgAt_name fun further => by rw [hshows.peekAt, Nat.zero_add]
  have hpeek : c.peek = some .ident := hshows.peek
  refine .regainLocated (.get ?_)
  dsimp only
  rw [hpeek]
  dsimp only
  rw [hnamed]
  refine (gives_ident hname (by simp [assignment]) hshows).bind fun readName c₁ hread => ?_
  have heq : c₁.Shows (sign .eq :: blank :: (arg.chunks false ++ later)) := hread.2.blank
  refine .expect heq.peek fun _ => ?_
  refine (h _ heq.pass_sign.blank).bind fun readArg c₂ harg => .pure ⟨?_, harg.2⟩
  show NamedArg.mk (some readName.strip) (rebuild Expr.keep readArg) =
    NamedArg.mk (some name.strip) _
  rw [hread.1, harg.1]

/-! ## Lists of arguments -/

theorem StaticArg.Writable.toPrintable (h : arg.Writable printable) : arg.Printable := by
  cases arg with
  | name => exact .name h
  | type => exact .type h.1 h.2
  | const => exact .const h.1 h.2
  | node => exact .node h.1 h.2.1 h.2.2
  | op => exact .op

theorem gives_namedArg (hdeep : deep.Rereads) (hclose : close.closesArgs = true)
    {named : Located NamedArg} (h : named.value.Writable printable)
    (hlater : Before [.comma, close] later) (hshows : c.Shows (named.value.chunks ++ later)) :
    Gives (Read.namedArg deep close) c (Regains named later) := by
  obtain ⟨⟨name, arg⟩, span⟩ := named
  have harg : arg.Printable := h.arg.toPrintable
  have hends : EndsArg close later := ⟨hclose, hlater⟩
  have hread : ∀ c' : Cursor, c'.Shows (arg.chunks false ++ later) →
      Gives (Read.staticArg deep close) c' (Regains arg later) :=
    fun c' hshows => harg.reads hdeep hclose c' later hlater hshows
  cases name with
  | none =>
      have hform : arg.opensEquation = false := h.form.resolve_left Bool.false_ne_true
      exact gives_unnamed (harg.namesNoArg hform hends hshows) (hread c hshows)
  | some name =>
      have hname : name.Printable := h.name name rfl
      have hplain : c.Shows (name.chunks ++ assignment (arg.chunks false) ++ later) →
          Gives (Read.namedArg deep close) c (Regains ⟨⟨some name, arg⟩, span⟩ later) := by
        intro hshows
        rw [List.append_assoc] at hshows
        exact gives_assigned hname hshows hread
      -- the keyword of an explicit argument is printed before the name
      cases arg with
      | name | op => exact hplain hshows
      | type place type explicit =>
          cases explicit with
          | false => exact hplain hshows
          | true =>
              have hwords : c.Shows (sign .kwType :: blank ::
                  (name.chunks ++ (assignment (type.chunks false) ++ later))) := by
                simpa [NamedArg.chunks] using hshows
              exact gives_explicit .type hname hwords fun c' start hpart =>
                gives_typeArg hdeep h.arg.2 hends hpart start true place
      | const place value explicit =>
          cases explicit with
          | false => exact hplain hshows
          | true =>
              have hwords : c.Shows (sign .kwConst :: blank ::
                  (name.chunks ++ (assignment (value.chunks false 0) ++ later))) := by
                simpa [NamedArg.chunks] using hshows
              exact gives_explicit .const hname hwords fun c' start hpart =>
                gives_constArg hdeep h.arg.2 hends hpart start true place
      | node place keyword target node args =>
          cases keyword with
          | none => exact hplain hshows
          | some kind =>
              have hwords : c.Shows (sign kind.symbol :: blank ::
                  (name.chunks ++ (assignment (node.chunks ++ optionalArgs false args) ++
                    later))) := by
                simpa [NamedArg.chunks] using hshows
              refine gives_explicit (.nodeKind kind) hname hwords fun c' start hpart => ?_
              rw [List.append_assoc] at hpart
              exact gives_nodeArg hdeep kind
                (fun list hlist => h.arg.2.2 list hlist) hends hpart start
                place target

theorem NamedArg.Writable.begins {named : NamedArg} (h : named.Writable printable) :
    BeginsArg named.chunks := by
  obtain ⟨name, arg⟩ := named
  cases name with
  | none => exact h.arg.toPrintable.begins
  | some name =>
      have hident : Kind.closesArgs .ident = false := rfl
      cases arg with
      | name | op => exact .of_head rfl hident
      | type _ type explicit => cases explicit <;> exact .of_head rfl rfl
      | const _ value explicit => cases explicit <;> exact .of_head rfl rfl
      | node _ keyword _ node args =>
          cases keyword with
          | none => exact .of_head rfl hident
          | some kind => cases kind <;> exact .of_head rfl rfl

/-- The arguments for a model, in brackets of either sort. -/
theorem gives_modelArgs (hdeep : deep.Rereads) {brackets : Brackets}
    {args : List (Located NamedArg)}
    (h : ∀ arg ∈ args, arg.value.Writable printable)
    (hshows : c.Shows (NamedArg.list brackets args ++ later)) :
    Gives (Read.modelArgs deep) c fun read c' => read.1 = brackets ∧
    Regains args later read.2 c' := by
  have hargs : ∀ {close : Kind} {closing : List Chunk} {c : Cursor}, close.closesArgs = true →
      (kinds closing).head? = some close →
      c.Shows (separate .comma (args.map fun arg => arg.value.chunks) ++ closing) →
      Gives (Read.separated close [.comma, .semi] (Read.namedArg deep close)) c
        (Regains args closing) := by
    intro close closing c hclose hclosing hshows
    have hseparators : close ∉ [Kind.comma, .semi] := by
      intro hmem
      simp only [List.mem_cons, List.not_mem_nil, or_false] at hmem
      rcases hmem with rfl | rfl <;> cases hclose
    exact gives_separated (rebuild Expr.keep) (rebuild (Expr.settle false)) (by decide) hseparators
      (fun arg hmem c more hmore hshows => gives_namedArg hdeep hclose (h arg hmem) hmore hshows)
      (fun arg hmem => (h arg hmem).begins.other hclose) hclosing hshows
  cases brackets with
  | paren =>
      rw [NamedArg.list, between_append] at hshows
      refine .eat_yes hshows.peek ?_
      refine (hargs rfl rfl hshows.pass_sign).bind fun read c' hread => ?_
      exact .expect hread.2.peek fun _ => .pure ⟨rfl, hread.1, hread.2.pass_sign⟩
  | angle =>
      -- A blank may stand before the `>>`.
      obtain ⟨closing, hclosing, hopened, hend⟩ : ∃ closing, (kinds closing).head? = some .gtGt ∧
          c.Shows (sign .ltLt ::
            (separate .comma (args.map fun arg => arg.value.chunks) ++ closing)) ∧
          ∀ c' : Cursor, c'.Shows closing → c'.pass.Shows later := by
        rw [NamedArg.list] at hshows
        split at hshows
        · exact ⟨[blank, sign .gtGt] ++ later, rfl, by simpa using hshows,
            fun c' h => h.blank.pass_sign⟩
        · exact ⟨[sign .gtGt] ++ later, rfl, by simpa using hshows, fun c' h => h.pass_sign⟩
      have hother : c.peek ≠ some .lParen := by simp [hopened.peek]
      refine .eat_no hother (.eat_yes hopened.peek ?_)
      refine (hargs rfl hclosing hopened.pass_sign).bind fun read c' hread => ?_
      exact .expect (hread.2.peek.trans hclosing) fun _ => .pure ⟨rfl, hread.1, hend c' hread.2⟩

end

end Lustre
