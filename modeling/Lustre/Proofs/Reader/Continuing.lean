import Lustre.Proofs.Reader.Sparing
import Lustre.Reader.Recovery

/-!
# Where equations end

The equations of a node end at its `tel`.  Where that is missing they end at the head of
the next declaration, for instance at `node` or `type`.  Such a word may also make a static
argument explicit, so it is a head only where no list of static arguments is open: outside
`<<` and `>>` (`endsEquations`).

A reader of statements stops before both.  What it passes does not bring the equations to
an end, whatever stands behind (`GoesOn`).  Within a list of static arguments the readers
count one list more, and there the keywords may be passed.
-/

namespace Lustre

namespace Kind

/-- Whether the equations of a node end at a word, where `lists` lists of static arguments are
open. -/
def endsEquations (lists : Nat) (kind : Kind) : Bool :=
  kind == .kwTel || lists == 0 && Recover.nodeStops.contains kind

/-- How many lists of static arguments are open behind a word. -/
def listsBehind (lists : Nat) : Kind → Nat
  | .ltLt => lists + 1
  | .gtGt => lists - 1
  | _ => lists

variable {lists more : Nat} {kind : Kind}

theorem endsEquations_mono (h : kind.endsEquations lists = false) (hle : lists ≤ more) :
    kind.endsEquations more = false := by
  simp only [endsEquations, Bool.or_eq_false_iff, Bool.and_eq_false_imp, beq_iff_eq] at h ⊢
  exact ⟨h.1, fun hmore => h.2 (Nat.le_zero.mp (hmore ▸ hle))⟩

theorem listsBehind_mono (kind : Kind) (hle : lists ≤ more) :
    kind.listsBehind lists ≤ kind.listsBehind more := by
  unfold listsBehind
  split <;> omega

theorem le_listsBehind (h : kind ≠ .gtGt) : lists ≤ kind.listsBehind lists := by
  unfold listsBehind
  split
  · exact Nat.le_succ lists
  · exact absurd rfl h
  · exact Nat.le_refl lists

theorem endsEquations_of_outside (h : kind.endsEquations 0 = false) :
    kind.endsEquations lists = false :=
  endsEquations_mono h (Nat.zero_le lists)

theorem endsEquations_of_not_marked (h : kind.isMarked = false) :
    kind.endsEquations lists = false := by
  apply endsEquations_of_outside
  cases kind <;> first | rfl | cases h

end Kind

/-- Whether the equations that some tokens belong to end among them, where `lists` lists of static
arguments are open before. -/
def endsEquations (lists : Nat) : List Token → Bool
  | [] => false
  | token :: tokens =>
      token.kind.endsEquations lists || endsEquations (token.kind.listsBehind lists) tokens

/-- Inside more lists equations end no sooner. -/
theorem endsEquations_mono {lists more : Nat} {tokens : List Token}
    (h : endsEquations lists tokens = false) (hle : lists ≤ more) :
    endsEquations more tokens = false := by
  induction tokens generalizing lists more with
  | nil => rfl
  | cons token tokens ih =>
      rw [endsEquations, Bool.or_eq_false_iff] at h ⊢
      exact ⟨Kind.endsEquations_mono h.1 hle, ih h.2 (token.kind.listsBehind_mono hle)⟩

/-! ## Tokens that do not end equations -/

/-- Behind some tokens the equations end where they would have ended without them. -/
def GoesOn (lists : Nat) (tokens : List Token) : Prop :=
  ∀ later, endsEquations lists later = false → endsEquations lists (tokens ++ later) = false

namespace GoesOn

variable {lists : Nat} {tokens first last : List Token} {token : Token}

theorem endsEquations_eq (h : GoesOn lists tokens) : endsEquations lists tokens = false := by
  have hnone := h [] rfl
  rwa [List.append_nil] at hnone

theorem nil : GoesOn lists [] := fun _ h => h

theorem append (hfirst : GoesOn lists first) (hlast : GoesOn lists last) :
    GoesOn lists (first ++ last) := by
  intro later h
  rw [List.append_assoc]
  exact hfirst _ (hlast later h)

theorem single (hkind : token.kind.endsEquations lists = false) (hclose : token.kind ≠ .gtGt) :
    GoesOn lists [token] := by
  intro later h
  rw [List.singleton_append, endsEquations, hkind, Bool.false_or]
  exact endsEquations_mono h (Kind.le_listsBehind hclose)

/-- Where no list is open, a `>>` closes none. -/
theorem outside (hkind : token.kind.endsEquations 0 = false) : GoesOn 0 [token] := by
  intro later h
  rw [List.singleton_append, endsEquations, hkind, Bool.false_or]
  exact endsEquations_mono h (Nat.zero_le _)

theorem outside_all (h : ∀ token ∈ tokens, token.kind.endsEquations 0 = false) :
    GoesOn 0 tokens := by
  induction tokens with
  | nil => exact .nil
  | cons token tokens ih =>
      have htoken : GoesOn 0 [token] := .outside (h token List.mem_cons_self)
      exact htoken.append (ih fun other hmem => h other (List.mem_cons_of_mem _ hmem))

/-- A `<<` and what does not end the equations behind it. -/
theorem opened (hopen : token.kind = .ltLt) (h : GoesOn (lists + 1) tokens) :
    GoesOn lists (token :: tokens) := by
  intro later hlater
  rw [List.cons_append, endsEquations, hopen, Kind.endsEquations_of_not_marked rfl, Bool.false_or]
  exact h later (endsEquations_mono hlater (Nat.le_succ lists))

/-- The same with the `>>` that belongs to it. -/
theorem closed (hopen : token.kind = .ltLt) (h : GoesOn (lists + 1) tokens) {close : Token}
    (hclose : close.kind = .gtGt) : GoesOn lists (token :: tokens ++ [close]) := by
  intro later hlater
  rw [List.append_assoc, List.cons_append, endsEquations, hopen,
    Kind.endsEquations_of_not_marked rfl, Bool.false_or]
  refine h (close :: later) ?_
  rw [endsEquations, hclose, Kind.endsEquations_of_outside rfl, Bool.false_or]
  exact hlater

end GoesOn

instance (lists : Nat) : Lenient (GoesOn lists) where
  nil := .nil
  append hfirst hlast := hfirst.append hlast
  plain h := by
    refine .single (Kind.endsEquations_of_not_marked h) fun hclose => ?_
    rw [hclose] at h
    cases h

/-! ## Readers that do not end equations -/

section

variable {lists : Nat}

/-- The keywords of arguments may be passed where a list is open. -/
theorem admits_keyword {kind : Kind} (hkind : kind.endsEquations 1 = false)
    (hclose : kind ≠ .gtGt) :
    (Course.passing (GoesOn (lists + 1))).Admits kind where
  pass hpeek := .of_pass hpeek fun _ htoken =>
    .single (htoken ▸ Kind.endsEquations_mono hkind (Nat.le_add_left 1 lists)) (htoken ▸ hclose)

instance : (Course.passing (GoesOn (lists + 1))).Admits .kwType := admits_keyword rfl (by decide)

instance : (Course.passing (GoesOn (lists + 1))).Admits .kwConst := admits_keyword rfl (by decide)

instance : (Course.passing (GoesOn (lists + 1))).Admits .kwNode := admits_keyword rfl (by decide)

instance : (Course.passing (GoesOn (lists + 1))).Admits .kwFunction :=
    admits_keyword rfl (by decide)

/-- A list of static arguments, which counts as one more while it is read. -/
theorem Read.goesOn_staticArgs (deep : Nested) [deep.Sparing (.passing (GoesOn (lists + 1)))] :
    Sparing (.passing (GoesOn lists)) (staticArgs deep) where
  spares c := by
    let items : Read (List StaticArg) := separated .gtGt [.comma, .semi] (staticArg deep .gtGt)
    change c.Past (GoesOn lists) (finalState ((expect .ltLt >>= fun _ => items >>= fun args =>
      expect .gtGt >>= fun _ => pure args) c))
    by_cases hpeek : c.peek = some .ltLt
    · rw [bind_of_ok (expect_of_peek hpeek)]
      -- up to where the list ends or is broken
      have hopen : c.Past (fun passed => ∃ token, passed = [token] ∧ token.kind = .ltLt) c.pass :=
        .of_pass hpeek fun token htoken => ⟨token, rfl, htoken⟩
      have hitems : c.pass.Past (GoesOn (lists + 1)) (finalState (items c.pass)) :=
        Sparing.spares (J := .passing (GoesOn (lists + 1))) c.pass
      have hinside : c.Past (fun passed => ∃ token inner, passed = token :: inner ∧
          token.kind = .ltLt ∧ GoesOn (lists + 1) inner) (finalState (items c.pass)) := by
        refine (hopen.append hitems).mono ?_
        rintro passed ⟨first, inner, rfl, ⟨token, rfl, htoken⟩, hinner⟩
        exact ⟨token, inner, rfl, htoken, hinner⟩
      have hbroken : c.Past (GoesOn lists) (finalState (items c.pass)) := by
        refine hinside.mono ?_
        rintro passed ⟨token, inner, rfl, htoken, hinner⟩
        exact hinner.opened htoken
      cases hread : items c.pass with
      | error e c₁ =>
          rw [hread] at hbroken
          rw [bind_of_error hread]
          exact hbroken
      | ok args c₁ =>
          rw [hread] at hinside hbroken
          rw [bind_of_ok hread]
          by_cases hclose : c₁.peek = some .gtGt
          · rw [bind_of_ok (expect_of_peek hclose)]
            have hend : c₁.Past (fun passed => ∃ close, passed = [close] ∧ close.kind = .gtGt)
                c₁.pass := .of_pass hclose fun close hkind => ⟨close, rfl, hkind⟩
            refine (hinside.append hend).mono ?_
            rintro passed ⟨first, last, rfl, ⟨token, inner, rfl, htoken, hinner⟩, close, rfl, hkind⟩
            exact hinner.closed htoken hkind
          · rw [bind_of_error (expect_of_ne hclose)]
            exact hbroken
    · rw [bind_of_error (expect_of_ne hpeek)]
      exact .refl c

end

theorem Nested.goesOn_upTo (levels lists : Nat) :
    (upTo levels).Sparing (.passing (GoesOn lists)) := by
  induction levels generalizing lists with
  | zero => exact sparing_exhausted
  | succ levels ih =>
      have hsame := ih lists
      have hinside := ih (lists + 1)
      exact ⟨Read.sparing_top _, Read.sparing_inner _, Read.goesOn_staticArgs _⟩

end Lustre
