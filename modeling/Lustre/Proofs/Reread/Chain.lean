import Lustre.Proofs.Reader.Climbing
import Lustre.Proofs.Reread.Whole

/-!
# Chains of operators in a text

A text that puts binary operators of any tiers between names and literals, with a blank on
either side of each operator, is read as the table of operators groups it.  The words of the
text are those that were written (`apart_chain`), so a run begins before a chain whose
operands are read as what they are (`begins_chain`); the rest is climbing.
-/

namespace Lustre

open Chunk

/-! ## Names and literals -/

/-- An operand without operators: a name or a literal. -/
inductive Atom where
  | name (name : String) (h : isProperName name = true)
  | int (digits : String) (h : isDigits digits = true)
  | real (digits : String) (h : isWhole .realLit digits = true)
  | bool (value : Bool)

namespace Atom

/-- The kind of word that an atom is. -/
def kind : Atom → Kind
  | name _ _ => .ident
  | int _ _ => .intLit
  | real _ _ => .realLit
  | bool true => .kwTrue
  | bool false => .kwFalse

/-- How an atom is written. -/
def text : Atom → String
  | name text _ | int text _ | real text _ => text
  | bool true => Kind.kwTrue.describe
  | bool false => Kind.kwFalse.describe

/-- What an atom is read as. -/
def expr (span : Span) : Atom → Expr
  | name text _ => .name span ⟨none, text, span⟩
  | int digits _ => .int span digits
  | real digits _ => .real span digits
  | bool value => .bool span value

/-- The number of bytes of an atom. -/
def size (atom : Atom) : Nat := byteLength atom.text.toList

/-- The word that an atom is. -/
def chunk (atom : Atom) : Chunk := .word atom.kind atom.text

end Atom

/-! ## Chains as they are written -/

/-- A chain as it is written, with one blank on each side of an operator. -/
def chainText (first : Atom) (later : List (BinaryOp × Atom)) : String :=
  first.text ++ String.join (later.map fun next => " " ++ next.1.text ++ " " ++ next.2.text)

/-- The links of a chain that goes on at byte `start`. -/
def chainLinks : Nat → List (BinaryOp × Atom) → List ChainLink
  | _, [] => []
  | start, (op, atom) :: later =>
      let place : Span := ⟨start + 1, start + 1 + byteLength op.text.toList, 0⟩
      let span : Span := ⟨place.stop + 1, place.stop + 1 + atom.size, 0⟩
      ⟨op, place, atom.expr span⟩ :: chainLinks span.stop later

theorem length_chainLinks (start : Nat) (later : List (BinaryOp × Atom)) :
    (chainLinks start later).length = later.length := by
  induction later generalizing start with
  | nil => rfl
  | cons next later ih => exact congrArg (· + 1) (ih _)

/-- The words of a chain behind its first operand. -/
def chainTail (later : List (BinaryOp × Atom)) : List Chunk :=
  later.flatMap fun next => [blank, sign next.1.symbol, blank, next.2.chunk]

theorem chainText_eq (first : Atom) (later : List (BinaryOp × Atom)) :
    chainText first later = render (first.chunk :: chainTail later) := by
  have htail : chars (chainTail later) =
      later.flatMap fun next => (" " ++ next.1.text ++ " " ++ next.2.text).toList := by
    induction later with
    | nil => rfl
    | cons next later ih =>
        rw [List.flatMap_cons, ← ih]
        simp [chainTail, chars, Chunk.text, sign, blank, Atom.chunk, BinaryOp.text]
  rw [← String.toList_inj, toList_render, chainText, String.toList_append, String.toList_join,
    List.flatMap_map, ← htail]
  rfl

/-! ## The words of a chain -/

theorem calm_chainTail (later : List (BinaryOp × Atom)) : Calm false (chainTail later) := by
  cases later with
  | nil => exact ⟨nofun, nofun⟩
  | cons next later =>
      refine .blank ?_
      have hcolon : next.1.symbol ≠ .colon := by cases next.1 <;> decide
      simpa using hcolon

theorem apart_atom (atom : Atom) {later : List Chunk} (h : Apart false later)
    (hcalm : Calm false later) : Apart false (atom.chunk :: later) := by
  have hword : ∀ kind, Kind.keywords.contains kind = true →
      StopsAt kind.clingsTo (chars later) := by
    intro kind hkeyword
    refine hcalm.ident.mono fun d hd => ?_
    rwa [Kind.clingsTo, if_pos hkeyword] at hd
  cases atom with
  | name name hname =>
      obtain ⟨hident, hkeyword⟩ := isProperName_iff.mp hname
      exact .ident hident hkeyword hcalm.ident h
  | int digits hdigits => exact .digits hdigits hcalm.number h
  | real digits hdigits => exact .real hdigits hcalm.number h
  | bool value =>
      cases value with
      | true => exact .sign rfl (by decide) (hword _ (by decide)) h
      | false => exact .sign rfl (by decide) (hword _ (by decide)) h

theorem apart_chainTail (later : List (BinaryOp × Atom)) : Apart false (chainTail later) := by
  induction later with
  | nil => exact .nil
  | cons next later ih =>
      obtain ⟨op, atom⟩ := next
      have hatom : Apart false (atom.chunk :: chainTail later) :=
        apart_atom atom ih (calm_chainTail later)
      have hfixed : op.symbol.spelling?.isSome = true := by cases op <;> rfl
      change Apart false (blank :: sign op.symbol :: blank :: atom.chunk :: chainTail later)
      by_cases hpercent : op.symbol = .percent
      · rw [hpercent]
        -- the word behind the right operand is an operator and no colon
        refine .blank (.percent ?_ hatom)
        change (kinds (chainTail later))[0]? ≠ some .colon
        rw [← List.head?_eq_getElem?]
        exact (calm_chainTail later).colon
      · exact .blank (.spaced hfixed hpercent hatom)

theorem apart_chain (first : Atom) (later : List (BinaryOp × Atom)) :
    Apart false (first.chunk :: chainTail later) :=
  apart_atom first (apart_chainTail later) (calm_chainTail later)

/-! ## Reading the words back -/

/-- A cursor at the end of the tokens or before a binary operator. -/
def BeforeOperator (c : Cursor) : Prop :=
  c.rest = [] ∨ ∃ (op : BinaryOp) (text : String) (span : Span) (rest : List Token),
    c.rest = ⟨op.symbol, text, span⟩ :: rest

/-- No postfix form goes on with an operator. -/
theorem postfixes_beforeOperator {c : Cursor} (h : BeforeOperator c) (deep : Nested)
    (value : Expr) :
    Read.postfixes deep value c = .ok value c := by
  have hstep : Read.postfixStep deep value c = .ok (.done value) c := by
    obtain ⟨rest, last, size⟩ := c
    rcases h with hend | ⟨op, text, span, rest', hrest⟩
    · cases hend
      rfl
    · cases hrest
      cases op <;> rfl
  change (Read.postfixStep deep value >>= _) c = _
  rw [bind_of_ok hstep]
  rfl

/-- Before an operator a name stands alone. -/
theorem nameExpr_beforeOperator {c : Cursor} {name : String} {span : Span} {rest : List Token}
    (hrest : c.rest = ⟨.ident, name, span⟩ :: rest) (hends : BeforeOperator c.pass)
    (deep : Nested) :
    Read.nameExpr deep c =
      .ok (.name (c.pass.spanFrom span.start) ⟨none, name, span⟩) c.pass := by
  obtain ⟨_, last, size⟩ := c
  cases hrest
  rcases hends with hend | ⟨op, text, span', rest', hnext⟩
  · cases hend
    rfl
  · cases hnext
    cases op <;> rfl

/-- Before an operator an atom is read as what it is. -/
theorem primary_atom (atom : Atom) {c : Cursor} {start stop : Nat} {rest : List Token}
    (hle : start ≤ stop) (hrest : c.rest = ⟨atom.kind, atom.text, ⟨start, stop, 0⟩⟩ :: rest)
    (hends : BeforeOperator c.pass) (deep : Nested) :
    Read.primary deep c = .ok (atom.expr ⟨start, stop, 0⟩) c.pass := by
  have hspan : c.pass.spanFrom start = ⟨start, stop, 0⟩ := by
    have hlast : c.pass.last = stop := by
      unfold Cursor.pass
      rw [hrest]
    rw [Cursor.spanFrom, hlast, Nat.max_eq_left hle]
  -- a name looks at the next token, and a literal does not
  cases atom with
  | name name hname =>
      have hread : Read.primary deep c = Read.nameExpr deep c := by
        obtain ⟨_, last, size⟩ := c
        cases hrest
        rfl
      rw [hread, nameExpr_beforeOperator hrest hends, hspan]
      rfl
  | int digits hdigits =>
      have hread : Read.primary deep c = .ok (.int (c.pass.spanFrom start) digits) c.pass := by
        obtain ⟨_, last, size⟩ := c
        cases hrest
        rfl
      rw [hread, hspan]
      rfl
  | real digits hdigits =>
      have hread : Read.primary deep c = .ok (.real (c.pass.spanFrom start) digits) c.pass := by
        obtain ⟨_, last, size⟩ := c
        cases hrest
        rfl
      rw [hread, hspan]
      rfl
  | bool value =>
      have hread : Read.primary deep c = .ok (.bool (c.pass.spanFrom start) value) c.pass := by
        obtain ⟨_, last, size⟩ := c
        cases hrest
        cases value <;> rfl
      rw [hread, hspan]
      rfl

theorem prefixed_atom (atom : Atom) {c : Cursor} {start stop : Nat} {rest : List Token}
    (hle : start ≤ stop) (hrest : c.rest = ⟨atom.kind, atom.text, ⟨start, stop, 0⟩⟩ :: rest)
    (hends : BeforeOperator c.pass) (deep : Nested) :
    Read.prefixed deep c = .ok (atom.expr ⟨start, stop, 0⟩) c.pass := by
  have hplain : c.peek.bind UnaryOp.ofKind? = none := by
    rw [Cursor.peek, hrest]
    cases atom with
    | bool value => cases value <;> rfl
    | _ => rfl
  have hwhole : Read.prefixed deep c =
      (Read.primary deep >>= fun value => Read.postfixes deep value) c := by
    unfold Read.prefixed
    rw [bind_of_ok (show Read.peek c = .ok c.peek c from rfl), hplain]
  rw [hwhole, bind_of_ok (primary_atom atom hle hrest hends deep),
    postfixes_beforeOperator hends]

theorem beforeOperator_chainTail {c : Cursor} {start : Nat} (later : List (BinaryOp × Atom))
    (hrest : c.rest = Chunk.tokens start (chainTail later)) : BeforeOperator c := by
  cases later with
  | nil => exact .inl hrest
  | cons next later => exact .inr ⟨next.1, _, _, _, hrest⟩

/-- The words behind the first operand are links up to the end of the tokens. -/
theorem ahead_chainTail (later : List (BinaryOp × Atom)) {c : Cursor} {start : Nat}
    (hrest : c.rest = Chunk.tokens start (chainTail later)) :
    Ahead c (chainLinks start later) := by
  induction later generalizing c start with
  | nil => exact .nil hrest
  | cons next later ih =>
      obtain ⟨op, atom⟩ := next
      let opStop := start + 1 + byteLength op.text.toList
      have htokens : c.rest = ⟨op.symbol, op.text, ⟨start + 1, opStop, 0⟩⟩ ::
          ⟨atom.kind, atom.text, ⟨opStop + 1, opStop + 1 + atom.size, 0⟩⟩ ::
            Chunk.tokens (opStop + 1 + atom.size) (chainTail later) := hrest
      have hpass : c.pass.rest = ⟨atom.kind, atom.text, ⟨opStop + 1, opStop + 1 + atom.size, 0⟩⟩ ::
          Chunk.tokens (opStop + 1 + atom.size) (chainTail later) := by
        rw [Cursor.rest_pass, htokens]
        rfl
      have hlater : c.pass.pass.rest = Chunk.tokens (opStop + 1 + atom.size) (chainTail later) := by
        rw [Cursor.rest_pass, hpass]
        rfl
      refine .cons ?_ ?_ ?_ (ih hlater)
      · rw [Cursor.peek, htokens]
        rfl
      · rw [Cursor.span, htokens]
      · exact prefixed_atom atom (Nat.le_add_right _ _) hpass
          (beforeOperator_chainTail later hlater)

/-! ## The whole text -/

/-- A run over a chain begins before all of it. -/
theorem begins_chain (first : Atom) (later : List (BinaryOp × Atom)) :
    Begins (Run.ofText (chainText first later) (Lexed.ofText (chainText first later))).cursor
      (first.expr ⟨0, first.size, 0⟩) (chainLinks first.size later) := by
  have hscan := (Lexed.scan_chars (apart_chain first later) 0).1
  rw [← toList_render, ← chainText_eq] at hscan
  let c := (Run.ofText (chainText first later) (Lexed.ofText (chainText first later))).cursor
  have hrest : c.rest = ⟨first.kind, first.text, ⟨0, 0 + first.size, 0⟩⟩ ::
      Chunk.tokens (0 + first.size) (chainTail later) := hscan
  rw [Nat.zero_add] at hrest
  have hpass : c.pass.rest = Chunk.tokens first.size (chainTail later) := by
    rw [Cursor.rest_pass, hrest]
    rfl
  refine ⟨c.pass, ?_, ahead_chainTail later hpass⟩
  exact prefixed_atom first (Nat.zero_le _) hrest (beforeOperator_chainTail later hpass)

/-- A chain of binary operators is read as the table of operators groups it, and as nothing else,
or it is refused with one diagnostic: because it is nested too deeply, for which it must have as
many operators as there are levels, or at the second of two comparisons that follow one
another. -/
theorem chain_reads_as_it_groups (first : Atom) (later : List (BinaryOp × Atom)) :
    let text := chainText first later
    let links := chainLinks first.size later
    (maxNesting ≤ later.length ∧
      ∃ d, parseExpr text = (none, [d]) ∧ d.message = "expression nested too deeply") ∨
    match chained? links with
    | some (left, right) =>
        parseExpr text = (none, [⟨.chainedComparison left.op right.op, right.place⟩])
    | none => ∃ tree, parseExpr text = (some tree, []) ∧
        ∀ other, Groups (first.expr ⟨0, first.size, 0⟩) links other ↔ other = tree := by
  intro text links
  -- what climbing does with any list of operands, at the beginning of this text
  have hread := @Recover.resolves_wholeExpr maxNesting _ _ _ (begins_chain first later)
  have hrender := chainText_eq first later
  have hapart := apart_chain first later
  unfold Resolves at hread
  cases hwhole : Recover.wholeExpr (.upTo maxNesting)
      (Run.ofText (chainText first later) (Lexed.ofText (chainText first later))).cursor with
  | ok tree c =>
      rw [hwhole] at hread
      obtain ⟨hunchained, hgroups⟩ := hread
      rw [hrender] at hwhole
      right
      rw [hunchained]
      refine ⟨tree, ?_, fun other => ⟨fun hother => hother.unique hgroups, ?_⟩⟩
      · exact (congrArg parseExpr hrender).trans (parseExpr_render_of_ok hapart hwhole)
      · rintro rfl
        exact hgroups
  | error e c =>
      rw [hwhole] at hread
      rw [hrender] at hwhole
      have hparse : parseExpr text = (none, [e]) :=
        (congrArg parseExpr hrender).trans (parseExpr_render_of_error hapart hwhole)
      rcases hread with ⟨hnested, hlength⟩ | ⟨left, right, hchained, rfl⟩
      · rw [length_chainLinks] at hlength
        refine .inl ⟨hlength, e, hparse, ?_⟩
        rw [Diagnostic.message, hnested]
        rfl
      · right
        rw [hchained]
        exact hparse

/-- One comparison in each run is no harm, and a second one is named where it stands. -/
example :
    (parseExpr "a -> b fby c + 1 < d and e = f").2 = [] ∧
      (parseExpr "a -> b < c + 1 < d and e = f = g").2 =
        [⟨.chainedComparison .lt .lt, ⟨15, 16, 0⟩⟩] := by
  decide +kernel

end Lustre
