import Lustre.Proofs.Reader.Follows
import Lustre.Proofs.Token.Tiling

/-!
# Layout does not matter

Comments, blanks and line breaks influence a program only around `::`.  To compare two
texts with the same words, both are compared with a third: the same tokens, but in
place of its offset each token has the number of `::` before it that do not touch
their neighbours (`ranked`).  Offsets are put into such ranks in order, and blanks
around `::` are not lost, so each of the two texts is read as the third is
(`RunContext.follows_program`).  Whatever was read is then the same but for its places.
-/

namespace Lustre

open Movable LawfulMovable

/-! ## Which `::` touch their neighbours -/

namespace Token

/-- Whether no blank stands between two neighbours. -/
def touches : Option Token → Option Token → Bool
  | some first, some second => first.span.stop == second.span.start
  | _, _ => false

/-- For every `::`, whether it touches its left neighbour and whether it touches its right one;
`previous` is the token before the others. -/
def joints (previous : Option Token) : List Token → List (Bool × Bool)
  | [] => []
  | token :: rest =>
      if token.kind = .colonColon then
        (touches previous token, touches token rest.head?) :: joints token rest
      else joints token rest

/-- Whether there are blanks between two neighbours of which one is `::`. -/
def Apart (first second : Token) : Prop :=
  (first.kind = .colonColon ∨ second.kind = .colonColon) ∧ touches first second = false

instance (first second : Token) : Decidable (Apart first second) :=
  inferInstanceAs (Decidable (_ ∧ _))

/-! ## Ranks in place of offsets -/

/-- Where the tokens begin that stand apart from the token before them. -/
def gaps : List Token → List Nat
  | first :: second :: rest =>
      if Apart first second then second.span.start ::
        gaps (second :: rest) else gaps (second :: rest)
  | _ => []

/-- The number of tokens up to an offset that stand apart from the token before them. -/
def rank (tokens : List Token) (offset : Nat) : Nat := (gaps tokens).countP (· ≤ offset)

/-- The tokens with ranks in place of offsets, counted from `count`. -/
def ranked (count : Nat) : List Token → List Token
  | [] => []
  | [token] => [⟨token.kind, token.text, count, count, 0⟩]
  | first :: second :: rest =>
      ⟨first.kind, first.text, count, count, 0⟩ ::
        ranked (if Apart first second then count + 1 else count) (second :: rest)

theorem rank_mono (tokens : List Token) (first second : Nat) (h : first ≤ second) :
    rank tokens first ≤ rank tokens second := by
  refine List.countP_mono_left fun gap _ hgap => ?_
  simp only [decide_eq_true_eq] at hgap ⊢
  omega

namespace Ordered

variable {start stop : Nat} {tokens : List Token}

/-- No token begins after the end. -/
theorem gaps_le (h : Ordered start stop tokens) : ∀ gap ∈ gaps tokens, gap ≤ stop := by
  fun_induction gaps tokens generalizing start with
  | case1 first second rest happart ih =>
      obtain ⟨-, -, -, hrest⟩ := h
      intro gap hgap
      rcases List.mem_cons.mp hgap with rfl | hgap
      · have := hrest.2.2.2.le
        have := hrest.2.1
        omega
      · exact ih hrest gap hgap
  | case2 first second rest happart ih => exact ih h.2.2.2
  | case3 => simp

/-- The tokens that stand apart begin after the first token ends. -/
theorem lt_gaps {token : Token} {rest : List Token} (h : Ordered start stop (token :: rest)) :
    ∀ gap ∈ gaps (token :: rest), token.span.stop < gap := by
  induction rest generalizing token start with
  | nil => simp [gaps]
  | cons second rest ih =>
      obtain ⟨-, -, -, hrest⟩ := h
      have hbehind := hrest.1
      have hwide := hrest.2.1
      have hlater : ∀ gap ∈ gaps (second :: rest), token.span.stop < gap := by
        intro gap hgap
        have := ih hrest gap hgap
        omega
      intro gap hgap
      rw [gaps] at hgap
      split at hgap
      · rename_i happart
        rcases List.mem_cons.mp hgap with rfl | hgap
        · have hne : token.span.stop ≠ second.span.start := by simpa [touches] using happart.2
          omega
        · exact hlater gap hgap
      · exact hlater gap hgap

/-- No token that stands apart is counted before the first token ends. -/
theorem rank_eq_zero {token : Token} {rest : List Token} (h : Ordered start stop (token :: rest))
    {offset : Nat} (hoffset : offset ≤ token.span.stop) : rank (token :: rest) offset = 0 := by
  rw [rank, List.countP_eq_zero]
  intro gap hgap
  have := h.lt_gaps gap hgap
  simp only [decide_eq_true_eq]
  omega

/-- The first token of some, its offsets replaced by ranks. -/
theorem move_first {place : Nat → Nat} {count : Nat} {first : Token} {rest : List Token}
    (h : Ordered start stop (first :: rest))
    (hplace : ∀ offset, first.span.start ≤ offset →
      place offset = count + rank (first :: rest) offset) :
    move place first = ⟨first.kind, first.text, count, count, 0⟩ := by
  have hwide := h.2.1
  have hstart := hplace first.span.start (Nat.le_refl _)
  have hstop := hplace first.span.stop hwide
  rw [h.rank_eq_zero hwide] at hstart
  rw [h.rank_eq_zero (Nat.le_refl _)] at hstop
  change (⟨first.kind, first.text, place first.span.start, place first.span.stop, first.span.file⟩ :
    Token) = _
  rw [hstart, hstop, h.2.2.1]
  rfl

/-- Tokens whose offsets are replaced by ranks. -/
theorem move_eq_ranked {place : Nat → Nat} {count : Nat} (h : Ordered start stop tokens)
    (hplace : ∀ offset, (∀ token ∈ tokens.head?, token.span.start ≤ offset) →
      place offset = count + rank tokens offset) :
    move place tokens = ranked count tokens := by
  induction tokens generalizing start count with
  | nil => rfl
  | cons first rest ih =>
      have hfirst := h.move_first fun offset hoffset => hplace offset (by simpa using hoffset)
      cases rest with
      | nil =>
          change [move place first] = _
          rw [hfirst]
          rfl
      | cons second rest =>
          obtain ⟨-, hwide, -, hrest⟩ := h
          change move place first :: move place (second :: rest) = _
          rw [hfirst, ranked]
          congr 1
          refine ih hrest fun offset hoffset => ?_
          have hsecond : second.span.start ≤ offset := hoffset second rfl
          have hbehind := hrest.1
          rw [hplace offset (by simp; omega), rank, gaps]
          split
          · -- the second token is counted from its beginning on
            rw [List.countP_cons_of_pos (by simpa using hsecond), rank]
            omega
          · rfl

theorem rank_stop (h : Ordered start stop tokens) {offset : Nat} (hoffset : stop ≤ offset) :
    rank tokens offset = (gaps tokens).length := by
  rw [rank, List.countP_eq_length]
  intro gap hgap
  have := h.gaps_le gap hgap
  simp only [decide_eq_true_eq]
  omega

/-- A token that stands apart from its left neighbour is counted as one. -/
theorem mem_gaps {first second : Token} (h : Ordered start stop tokens)
    (hwithin : [first, second] <:+: tokens) (happart : Apart first second) :
    second.span.start ∈ gaps tokens ∧ first.span.stop < second.span.start := by
  induction tokens generalizing start with
  | nil => simp at hwithin
  | cons token rest ih =>
      obtain ⟨-, hwide, -, hrest⟩ := h
      rcases List.infix_cons_iff.mp hwithin with hprefix | hwithin
      · obtain ⟨rfl, later, rfl⟩ := List.cons_prefix_cons.mp hprefix
        have hne : first.span.stop ≠ second.span.start := by simpa [touches] using happart.2
        refine ⟨?_, Nat.lt_of_le_of_ne hrest.1 hne⟩
        rw [List.singleton_append, gaps, if_pos happart]
        exact List.mem_cons_self
      · obtain ⟨hmem, hlt⟩ := ih hrest hwithin
        refine ⟨?_, hlt⟩
        cases rest with
        | nil => simp [gaps] at hmem
        | cons other rest =>
            rw [gaps]
            split
            · exact List.mem_cons_of_mem _ hmem
            · exact hmem

/-- No blanks around `::` get lost. -/
theorem qualified (h : Ordered start stop tokens) {first second : Token}
    (hwithin : [first, second] <:+: tokens)
    (hkind : first.kind = .colonColon ∨ second.kind = .colonColon)
    (hplace : rank tokens first.span.stop = rank tokens second.span.start) :
    first.span.stop = second.span.start := by
  refine Decidable.byContradiction fun hne => ?_
  obtain ⟨hmem, hlt⟩ := h.mem_gaps hwithin ⟨hkind, by simpa [touches] using hne⟩
  -- the beginning of the second token is counted there, and not where the first one ends
  refine absurd hplace (Nat.ne_of_lt ?_)
  obtain ⟨before, after, hgaps⟩ := List.append_of_mem hmem
  have hmono : ∀ list : List Nat, list.countP (· ≤ first.span.stop) ≤
      list.countP (· ≤ second.span.start) := fun list =>
    List.countP_mono_left fun gap _ hgap => by
      simp only [decide_eq_true_eq] at hgap ⊢
      omega
  have hbefore := hmono before
  have hafter := hmono after
  rw [rank, rank, hgaps, List.countP_append, List.countP_append,
    List.countP_cons_of_neg (by simpa using hlt), List.countP_cons_of_pos (by simp)]
  omega

end Ordered

/-! ## Texts with the same words -/

/-- What two neighbours have in common with two others. -/
theorem apart_congr {first second first' second' : Token} (hfirst : first.kind = first'.kind)
    (hsecond : second.kind = second'.kind)
    (htouches : first.kind = .colonColon ∨ second.kind = .colonColon →
      touches first second = touches first' second') :
    Apart first second ↔ Apart first' second' := by
  unfold Apart
  rw [← hfirst, ← hsecond]
  exact and_congr_right fun hkind => by rw [htouches hkind]

/-- Tokens behind a first one: with the same words and the same answers around `::`, they get the
same ranks. -/
theorem ranked_eq_of_joints {first first' : Token} {rest rest' : List Token} (count : Nat)
    (hwords : (first :: rest).map (fun token => (token.kind, token.text)) =
      (first' :: rest').map (fun token => (token.kind, token.text)))
    (hjoints : joints first rest = joints first' rest')
    (hright : first.kind = .colonColon → touches first rest.head? = touches first' rest'.head?) :
    ranked count (first :: rest) = ranked count (first' :: rest') ∧
      (gaps (first :: rest)).length = (gaps (first' :: rest')).length := by
  induction rest generalizing first first' rest' count with
  | nil =>
      cases rest' with
      | nil =>
          simp only [List.map_cons, List.map_nil, List.cons.injEq,
            Prod.mk.injEq, and_true] at hwords
          obtain ⟨hkind, htext⟩ := hwords
          simp [ranked, gaps, hkind, htext]
      | cons second' rest' => simp at hwords
  | cons second rest ih =>
      cases rest' with
      | nil => simp at hwords
      | cons second' rest' =>
          simp only [List.map_cons, List.cons.injEq, Prod.mk.injEq] at hwords
          obtain ⟨⟨hkind, htext⟩, ⟨hkind', htext'⟩, hrest⟩ := hwords
          rw [joints, joints, ← hkind'] at hjoints
          -- the pairs around `::` were compared, and no others matter
          have hpair : Apart first second ↔ Apart first' second' := by
            refine apart_congr hkind hkind' ?_
            rintro (hfirst | hsecond)
            · exact hright hfirst
            · rw [if_pos hsecond, if_pos hsecond] at hjoints
              exact congrArg Prod.fst (List.cons.inj hjoints).1
          -- the answer to the right of a `::` is the one that its own pair asks for
          have hlater : joints second rest = joints second' rest' ∧ (second.kind = .colonColon →
              touches second rest.head? = touches second' rest'.head?) := by
            by_cases hsecond : second.kind = .colonColon
            · rw [if_pos hsecond, if_pos hsecond] at hjoints
              obtain ⟨hanswers, hjoints⟩ := List.cons.inj hjoints
              exact ⟨hjoints, fun _ => congrArg Prod.snd hanswers⟩
            · rw [if_neg hsecond, if_neg hsecond] at hjoints
              exact ⟨hjoints, fun hnot => absurd hnot hsecond⟩
          have hwords : (second :: rest).map (fun token => (token.kind, token.text)) =
              (second' :: rest').map (fun token => (token.kind, token.text)) := by
            simp [hkind', htext', hrest]
          have hranks := fun count => ih count hwords hlater.1 hlater.2
          rw [ranked, ranked, gaps, gaps, hkind, htext]
          simp only [hpair]
          refine ⟨by rw [(hranks _).1], ?_⟩
          split
          · rw [List.length_cons, List.length_cons, (hranks 0).2]
          · exact (hranks 0).2

theorem ranked_eq {tokens tokens' : List Token}
    (hwords : tokens.map (fun token => (token.kind, token.text)) =
      tokens'.map (fun token => (token.kind, token.text)))
    (hjoints : joints none tokens = joints none tokens') :
    ranked 0 tokens = ranked 0 tokens' ∧ (gaps tokens).length = (gaps tokens').length := by
  cases tokens with
  | nil =>
      cases tokens' with
      | nil => exact ⟨rfl, rfl⟩
      | cons first' rest' => simp at hwords
  | cons first rest =>
      cases tokens' with
      | nil => simp at hwords
      | cons first' rest' =>
          have hkind : first.kind = first'.kind := congrArg Prod.fst (List.cons.inj hwords).1
          rw [joints, joints, ← hkind] at hjoints
          by_cases hfirst : first.kind = .colonColon
          · rw [if_pos hfirst, if_pos hfirst] at hjoints
            obtain ⟨hanswers, hjoints⟩ := List.cons.inj hjoints
            exact ranked_eq_of_joints 0 hwords hjoints fun _ => congrArg Prod.snd hanswers
          · rw [if_neg hfirst, if_neg hfirst] at hjoints
            exact ranked_eq_of_joints 0 hwords hjoints fun hnot => absurd hnot hfirst

end Token

/-! ## Two texts -/

/-- Reading a text is reading its tokens with ranks in place of offsets. -/
theorem program_ranked (text : String) (options : ParseOptions) (log : Log)
    (hlength : log.entries.length = (Lexed.ofText text).diagnostics.length)
    (hcap : log.cap = max options.maxErrors 1)
    (htruncated : log.truncated = (Lexed.ofText text).truncated)
    (hhalted : log.halted = false) :
    let tokens := (Lexed.ofText text).tokens
    ∃ reported last, Recover.program (.upTo maxNesting)
        ⟨⟨Token.ranked 0 tokens, 0, (Token.gaps tokens).length⟩, log⟩ =
          .ok (move (Token.rank tokens) (parse text options).program) last ∧
      (parse text options).diagnostics = (Lexed.ofText text).diagnostics ++ reported ∧
      last.log.entries = log.entries ++ move (Token.rank tokens) reported := by
  intro tokens
  have hordered := Token.ordered_tokens text
  let M := RunContext.alone (Token.rank tokens) (Token.rank_mono tokens)
    (Run.reading text options).log log hlength hcap htruncated
  -- each token is moved from its place to its rank
  have hrun : M.BesideRun (.reading text options)
      ⟨⟨Token.ranked 0 tokens, 0, (Token.gaps tokens).length⟩, log⟩ := by
    refine ⟨⟨?_, fun start => ?_, fun _ => ?_, fun first second => hordered.qualified⟩,
      .start rfl hhalted⟩
    · have hranked := hordered.move_eq_ranked fun offset _ => (Nat.zero_add _).symm
      change Token.ranked 0 tokens = move (Token.rank tokens) tokens ++ []
      rw [← hranked, List.append_nil]
    · change max 0 (Token.rank tokens start) = Token.rank tokens (max 0 start)
      rw [Nat.zero_max, Nat.zero_max]
    · exact (hordered.rank_stop (Nat.le_refl _)).symm
  obtain ⟨program, last, hread, hprogram, hdiagnostics⟩ := parse_eq_run text options
  have hfollows := RunContext.follows_program (Context.levels_upTo maxNesting) rfl _ _ hrun
  unfold RunContext.Runs Link.Alike at hfollows
  rw [hread] at hfollows
  obtain ⟨_, last', hread', rfl, -, hlast⟩ := hfollows (.inl rfl)
  obtain ⟨found, stopped, hlog, hlog', -⟩ := hlast
  rw [hprogram, hdiagnostics]
  refine ⟨found, last', hread', ?_, ?_⟩
  · rw [hlog]
    rfl
  · rw [hlog']
    rfl

/-- Layout does not matter.  Two texts with the same words, the same answers around every `::`, the
same number of lexical diagnostics and the same answer to whether they are cut short are read as
the same program, and what the reader reports after the lexical diagnostics is the same, but for
places. -/
theorem layout_does_not_matter (text text' : String) (options options' : ParseOptions)
    (hwords : (Lexed.ofText text).tokens.map (fun token => (token.kind, token.text)) =
      (Lexed.ofText text').tokens.map (fun token => (token.kind, token.text)))
    (hjoints : Token.joints none (Lexed.ofText text).tokens =
      Token.joints none (Lexed.ofText text').tokens)
    (htruncated : (Lexed.ofText text).truncated = (Lexed.ofText text').truncated)
    (hdiagnostics : (Lexed.ofText text).diagnostics.length =
      (Lexed.ofText text').diagnostics.length)
    (hcap : options.maxErrors = options'.maxErrors) :
    move (fun _ => 0) (parse text options).program =
      move (fun _ => 0) (parse text' options').program ∧
      ∃ reported reported',
        (parse text options).diagnostics = (Lexed.ofText text).diagnostics ++ reported ∧
        (parse text' options').diagnostics = (Lexed.ofText text').diagnostics ++ reported' ∧
        reported.map (fun d => (d.category, d.message, d.expected)) =
          reported'.map (fun d => (d.category, d.message, d.expected)) := by
  let log := (Run.reading text options).log
  obtain ⟨reported, last, hread, hentries, hlast⟩ := program_ranked text options log rfl rfl rfl rfl
  obtain ⟨reported', last', hread', hentries', hlast'⟩ := program_ranked text' options' log
    hdiagnostics (by rw [← hcap]; rfl) htruncated rfl
  obtain ⟨hranked, hgaps⟩ := Token.ranked_eq hwords hjoints
  -- the two texts are the same after their offsets are replaced
  rw [hranked, hgaps, hread'] at hread
  obtain ⟨hprogram, rfl⟩ := EStateM.Result.ok.inj hread
  rw [hlast'] at hlast
  have hreported := List.append_cancel_left hlast
  refine ⟨?_, reported, reported', hentries, hentries', ?_⟩
  · have hplaceless := congrArg (move fun _ => 0) hprogram
    rw [move_move, move_move] at hplaceless
    exact hplaceless.symm
  · have hsaid := congrArg (List.map fun d => (d.category, d.message, d.expected)) hreported
    rw [move_list, move_list, List.map_map, List.map_map] at hsaid
    exact hsaid.symm

/-- A broken constant with a qualified name, once on one line and once spread out around a
comment. -/
theorem layout_of_broken_constant :
    move (fun _ => 0) (parse "const c = p::x + ;").program =
        move (fun _ => 0) (parse "const c=\n p::x -- sum\n +;").program ∧
      (parse "const c = p::x + ;").diagnostics.length = 1 := by
  have hsame := layout_does_not_matter "const c = p::x + ;" "const c=\n p::x -- sum\n +;" {} {}
    (by decide +kernel) (by decide +kernel) (by decide +kernel) (by decide +kernel) rfl
  exact ⟨hsame.1, by decide +kernel⟩

end Lustre
