import Mathlib.Data.List.Pairwise
import Lustre.Span

/-!
# Lines and columns of byte offsets

A line begins at byte 0 and behind every line feed.  `LineIndex.ofText` finds these places
character by character; since a line feed is never part of a longer character, it finds the
same places as a scan of the bytes (`starts_ofText`).

The lines that have begun at some offset are those behind the line feeds among the bytes
before it (`begun_ofText`).  So the line of an offset is the number of these line feeds, and
its column is counted from the last of them, which is what `BeginsLine` says without
mentioning the index.  From one offset to a later one either a line feed is passed, or the
line stays and the column grows: positions keep the order of offsets.

The line is searched for by halves.  `Search.Bounds` is what each halving keeps, and from it the
search answers right (`Search.answers_among`): it may find the offset itself, or the place where it
would have to be put, and the line that has begun last is reached from either answer
(`line_spec`).
-/

namespace Lustre

/-- The bytes of a text in UTF-8. -/
def utf8Bytes (text : String) : List UInt8 := text.toUTF8.data.toList

/-- The byte that ends a line. -/
def lineFeed : UInt8 := 10

/-- One position comes in an earlier line than another, or earlier in the same line. -/
def Position.Before (first second : Position) : Prop :=
  first.line < second.line ∨ first.line = second.line ∧ first.column < second.column

/-! ## Bytes of characters -/

theorem utf8Bytes_eq (text : String) :
    utf8Bytes text = text.toList.flatMap String.utf8EncodeChar := by
  have hbytes : text.toUTF8 = text.toList.utf8Encode := by
    rw [String.toUTF8_eq_toByteArray, ← String.toByteArray_ofList, String.ofList_toList]
  rw [utf8Bytes, hbytes, List.utf8Encode, List.data_toByteArray]

theorem lineFeed_ne_ofNat {n : Nat} (hlow : 128 ≤ n) (hhigh : n < 256) :
    lineFeed ≠ UInt8.ofNat n := by
  intro heq
  have htoNat : lineFeed.toNat = (UInt8.ofNat n).toNat := congrArg UInt8.toNat heq
  rw [UInt8.toNat_ofNat', Nat.mod_eq_of_lt hhigh] at htoNat
  have hten : lineFeed.toNat = 10 := rfl
  omega

/-- Of all characters only the line break has the byte of a line feed. -/
theorem lineFeed_not_mem {c : Char} (h : c ≠ '\n') : lineFeed ∉ String.utf8EncodeChar c := by
  unfold String.utf8EncodeChar
  dsimp only
  split
  · -- a character of one byte is that byte
    intro hmem
    have hbyte : lineFeed.toNat = (UInt8.ofNat c.val.toNat).toNat :=
      congrArg UInt8.toNat (List.mem_singleton.mp hmem)
    rw [UInt8.toNat_ofNat', Nat.mod_eq_of_lt (by omega)] at hbyte
    exact h (Char.ext (UInt32.toNat_inj.mp hbyte.symm))
  -- the bytes of all others are 128 or more
  split
  · simp only [List.mem_cons, List.not_mem_nil, or_false, not_or]
    refine ⟨?_, ?_⟩ <;> exact lineFeed_ne_ofNat (by omega) (by omega)
  split
  · simp only [List.mem_cons, List.not_mem_nil, or_false, not_or]
    refine ⟨?_, ?_, ?_⟩ <;> exact lineFeed_ne_ofNat (by omega) (by omega)
  · simp only [List.mem_cons, List.not_mem_nil, or_false, not_or]
    refine ⟨?_, ?_, ?_, ?_⟩ <;> exact lineFeed_ne_ofNat (by omega) (by omega)

/-! ## Searching by halves -/

namespace Search

variable {numbers : Array Nat} {wanted base size : Nat}

/-- A right answer to a search. -/
def Answers (numbers : Array Nat) (wanted : Nat) : Search → Prop
  | found index => numbers[index]? = some wanted
  | absent index => index ≤ numbers.size ∧
      (∀ i number, numbers[i]? = some number → i < index → number < wanted) ∧
        ∀ i number, numbers[i]? = some number → index ≤ i → wanted < number

theorem lt_of_ascending (h : numbers.toList.Pairwise (· < ·)) {i j first second : Nat}
    (hfirst : numbers[i]? = some first) (hsecond : numbers[j]? = some second) (hlt : i < j) :
    first < second := by
  obtain ⟨hi, rfl⟩ := Array.getElem?_eq_some_iff.mp hfirst
  obtain ⟨hj, rfl⟩ := Array.getElem?_eq_some_iff.mp hsecond
  exact List.pairwise_iff_getElem.mp h i j hi hj hlt

/-- A search has come down to `size` numbers from number `base` on: those before them are smaller
than what is searched for, and those behind them larger. -/
structure Bounds (numbers : Array Nat) (wanted base size : Nat) : Prop where
  positive : 0 < size
  inside : base + size ≤ numbers.size
  below : ∀ i number, numbers[i]? = some number → i < base → number < wanted
  above : ∀ i number, numbers[i]? = some number → base + size ≤ i → wanted < number

namespace Bounds

/-- The upper half is left out. -/
theorem lower (hascending : numbers.toList.Pairwise (· < ·)) (h : Bounds numbers wanted base size)
    {number : Nat} (hnumber : numbers[base + size / 2]? = some number) (hlt : wanted < number) :
    Bounds numbers wanted base (size - size / 2) where
  positive := by
    have hpositive := h.positive
    omega
  inside := by
    have hinside := h.inside
    omega
  below := h.below
  above := by
    intro i other hother hi
    rcases Nat.lt_or_ge (base + size / 2) i with hbehind | hle
    · exact Nat.lt_trans hlt (lt_of_ascending hascending hnumber hother hbehind)
    · obtain rfl : i = base + size / 2 := by omega
      rw [hnumber] at hother
      cases hother
      exact hlt

/-- The lower half is left out. -/
theorem upper (hascending : numbers.toList.Pairwise (· < ·)) (h : Bounds numbers wanted base size)
    {number : Nat} (hnumber : numbers[base + size / 2]? = some number) (hle : number ≤ wanted) :
    Bounds numbers wanted (base + size / 2) (size - size / 2) where
  positive := by
    have hpositive := h.positive
    omega
  inside := by
    have hinside := h.inside
    omega
  below := fun i other hother hi =>
    Nat.lt_of_lt_of_le (lt_of_ascending hascending hother hnumber hi) hle
  above := fun i other hother hi => h.above i other hother (by omega)

/-- A whole search leaves one number. -/
theorem narrow (hascending : numbers.toList.Pairwise (· < ·))
    (h : Bounds numbers wanted base size) :
    Bounds numbers wanted (Search.narrow numbers wanted base size) 1 := by
  fun_induction Search.narrow numbers wanted base size with
  | case1 base size hone =>
      obtain rfl : size = 1 := Nat.le_antisymm hone h.positive
      exact h
  | case2 base size hmany middle ih =>
      have hinside : middle < numbers.size := by
        have hinside := h.inside
        omega
      have hnumber := Array.getElem?_eq_getElem hinside
      have hget : numbers.getD middle 0 = numbers[middle] := by
        rw [Array.getD_eq_getD_getElem?, hnumber, Option.getD_some]
      apply ih
      rw [hget]
      split
      · rename_i hlt
        exact h.lower hascending hnumber hlt
      · rename_i hle
        exact h.upper hascending hnumber (Nat.le_of_not_lt hle)

end Bounds

/-- Among ascending numbers a search answers right. -/
theorem answers_among (hascending : numbers.toList.Pairwise (· < ·)) (wanted : Nat) :
    (among numbers wanted).Answers numbers wanted := by
  rcases Nat.eq_zero_or_pos numbers.size with hempty | hpositive
  · obtain rfl := Array.eq_empty_of_size_eq_zero hempty
    exact ⟨Nat.le_refl 0, fun i number hnumber => (by cases hnumber),
      fun i number hnumber => (by cases hnumber)⟩
  have hbounds : Bounds numbers wanted 0 numbers.size := by
    refine ⟨hpositive, by omega, fun i number _ hi => absurd hi (Nat.not_lt_zero i), ?_⟩
    intro i number hnumber hi
    have hlt := (Array.getElem?_eq_some_iff.mp hnumber).1
    omega
  obtain ⟨-, hinside, hbelow, habove⟩ := hbounds.narrow hascending
  have hlast := Array.getElem?_eq_getElem hinside
  unfold among
  simp only
  rw [hlast]
  dsimp only
  generalize narrow numbers wanted 0 numbers.size = base at *
  split
  · rename_i hsame
    rw [hsame] at hlast
    exact hlast
  split
  · -- the number that is left is smaller, so it comes before, too
    rename_i hlt
    refine ⟨hinside, ?_, habove⟩
    intro i number hnumber hi
    rcases Nat.lt_or_eq_of_le (Nat.le_of_lt_succ hi) with hi | rfl
    · exact hbelow i number hnumber hi
    · rw [hlast] at hnumber
      cases hnumber
      exact hlt
  · -- the number that is left is greater, so it comes behind
    rename_i hne hge
    refine ⟨Nat.le_of_lt hinside, hbelow, ?_⟩
    intro i number hnumber hi
    rcases Nat.lt_or_eq_of_le hi with hi | rfl
    · exact habove i number hnumber hi
    · rw [hlast] at hnumber
      cases hnumber
      omega

end Search

namespace LineIndex

/-! ## Where lines begin -/

/-- Where lines begin among some bytes, which start at byte `base`, its first line left out. -/
def startsAfter (base : Nat) : List UInt8 → List Nat
  | [] => []
  | byte :: bytes =>
      if byte = lineFeed then (base + 1) :: startsAfter (base + 1) bytes
      else startsAfter (base + 1) bytes

theorem startsAfter_append (base : Nat) (first second : List UInt8) :
    startsAfter base (first ++ second) =
      startsAfter base first ++ startsAfter (base + first.length) second := by
  induction first generalizing base with
  | nil => rfl
  | cons byte first ih =>
      have hlength : base + 1 + first.length = base + (byte :: first).length := by
        rw [List.length_cons]
        omega
      rw [List.cons_append, startsAfter, startsAfter, ih (base + 1), hlength]
      split <;> rfl

theorem mem_startsAfter {base start : Nat} {bytes : List UInt8} :
    start ∈ startsAfter base bytes ↔ ∃ i, bytes[i]? = some lineFeed ∧ start = base + i + 1 := by
  induction bytes generalizing base with
  | nil => simp [startsAfter]
  | cons byte bytes ih =>
      -- behind the first byte all places are one farther
      have hlater : start ∈ startsAfter (base + 1) bytes ↔
          ∃ i, (byte :: bytes)[i + 1]? = some lineFeed ∧ start = base + (i + 1) + 1 := by
        rw [ih]
        simp only [List.getElem?_cons_succ, Nat.add_right_comm, Nat.add_assoc]
      rw [startsAfter]
      constructor
      · intro hmem
        split at hmem
        · rename_i hbyte
          rcases List.mem_cons.mp hmem with rfl | hmem
          · exact ⟨0, by rw [hbyte]; rfl, rfl⟩
          · obtain ⟨i, hi, hstart⟩ := hlater.mp hmem
            exact ⟨i + 1, hi, hstart⟩
        · obtain ⟨i, hi, hstart⟩ := hlater.mp hmem
          exact ⟨i + 1, hi, hstart⟩
      · rintro ⟨i, hi, hstart⟩
        cases i with
        | zero =>
            have hbyte : byte = lineFeed := Option.some.inj hi
            rw [if_pos hbyte, hstart]
            exact List.mem_cons_self
        | succ i =>
            have hmem := hlater.mpr ⟨i, hi, hstart⟩
            split
            · exact List.mem_cons_of_mem _ hmem
            · exact hmem

theorem startsAfter_eq_nil {base : Nat} {bytes : List UInt8} (h : lineFeed ∉ bytes) :
    startsAfter base bytes = [] := by
  apply List.eq_nil_iff_forall_not_mem.mpr
  intro start hmem
  obtain ⟨i, hi, -⟩ := mem_startsAfter.mp hmem
  exact h (List.mem_of_getElem? hi)

/-- There is a line for each line feed. -/
theorem length_startsAfter (base : Nat) (bytes : List UInt8) :
    (startsAfter base bytes).length = bytes.count lineFeed := by
  induction bytes generalizing base with
  | nil => rfl
  | cons byte bytes ih =>
      rw [startsAfter, List.count_cons]
      by_cases hbyte : byte = lineFeed
      · simp [hbyte, ih]
      · simp [hbyte, ih]

/-- Lines begin one behind the other. -/
theorem ascending_startsAfter (base : Nat) (bytes : List UInt8) :
    (base :: startsAfter base bytes).Pairwise (· < ·) := by
  induction bytes generalizing base with
  | nil => exact List.pairwise_singleton _ _
  | cons byte bytes ih =>
      obtain ⟨hbehind, hlater⟩ := List.pairwise_cons.mp (ih (base + 1))
      rw [startsAfter]
      split
      · apply List.pairwise_cons.mpr
        refine ⟨?_, ih (base + 1)⟩
        intro start hmem
        rcases List.mem_cons.mp hmem with rfl | hmem
        · omega
        · have hlt := hbehind start hmem
          omega
      · apply List.pairwise_cons.mpr
        refine ⟨?_, hlater⟩
        intro start hmem
        have hlt := hbehind start hmem
        omega

/-- The characters of a text begin lines where its bytes do. -/
theorem laterStarts_eq (base : Nat) (text : List Char) :
    laterStarts base text = startsAfter base (text.flatMap String.utf8EncodeChar) := by
  induction text generalizing base with
  | nil => rfl
  | cons c rest ih =>
      rw [List.flatMap_cons, startsAfter_append, String.length_utf8EncodeChar, laterStarts]
      by_cases hc : c = '\n'
      · subst hc
        rw [if_pos rfl, ih]
        rfl
      · rw [if_neg hc, ih, startsAfter_eq_nil (lineFeed_not_mem hc), List.nil_append]

theorem starts_ofText (text : String) :
    (ofText text).starts.toList = 0 :: startsAfter 0 (utf8Bytes text) := by
  rw [ofText, laterStarts_eq, utf8Bytes_eq]

theorem ascending_starts (text : String) : (ofText text).starts.toList.Pairwise (· < ·) := by
  rw [starts_ofText]
  exact ascending_startsAfter 0 _

/-! ## The lines that have begun -/

/-- Where ascending numbers are cut in two. -/
theorem takeWhile_le_of_cut {first second : List Nat} {offset : Nat}
    (hfirst : ∀ start ∈ first, start ≤ offset) (hsecond : ∀ start ∈ second, offset < start) :
    (first ++ second).takeWhile (· ≤ offset) = first := by
  rw [List.takeWhile_append_of_pos fun start hmem => decide_eq_true (hfirst start hmem)]
  cases second with
  | nil => exact List.append_nil _
  | cons start second =>
      have hlt := hsecond start List.mem_cons_self
      rw [List.takeWhile_cons, if_neg (by simpa using hlt), List.append_nil]

/-- At an offset those lines have begun that begin among the bytes before it. -/
theorem begun_ofText (text : String) (offset : Nat) :
    (ofText text).starts.toList.takeWhile (· ≤ offset) =
      0 :: startsAfter 0 ((utf8Bytes text).take offset) := by
  have hsplit := startsAfter_append 0 ((utf8Bytes text).take offset) ((utf8Bytes text).drop offset)
  rw [List.take_append_drop] at hsplit
  rw [starts_ofText, hsplit, ← List.cons_append]
  apply takeWhile_le_of_cut
  · intro start hmem
    rcases List.mem_cons.mp hmem with rfl | hmem
    · exact Nat.zero_le _
    · obtain ⟨i, hi, rfl⟩ := mem_startsAfter.mp hmem
      have hlt := (List.getElem?_eq_some_iff.mp hi).1
      rw [List.length_take] at hlt
      omega
  · intro start hmem
    obtain ⟨i, hi, rfl⟩ := mem_startsAfter.mp hmem
    have hlt := (List.getElem?_eq_some_iff.mp hi).1
    rw [List.length_drop] at hlt
    rw [List.length_take]
    omega

/-- Behind the bytes `before`, the line that has begun last begins at byte `start`: at the very
beginning or behind a line feed, and with no line feed since. -/
structure BeginsLine (before : List UInt8) (start : Nat) : Prop where
  behind : start = 0 ∨ before[start - 1]? = some lineFeed
  unbroken : lineFeed ∉ before.drop start

namespace BeginsLine

variable {before more : List UInt8} {start start' : Nat}

theorem le_length (h : BeginsLine before start) : start ≤ before.length := by
  rcases h.behind with rfl | hfeed
  · exact Nat.zero_le _
  · have hlt := (List.getElem?_eq_some_iff.mp hfeed).1
    omega

theorem le_offset {bytes : List UInt8} {offset : Nat} (h : BeginsLine (bytes.take offset) start) :
    start ≤ offset :=
  Nat.le_trans h.le_length (List.length_take_le _ _)

/-- No later line has begun. -/
theorem le_start (h : BeginsLine before start) (h' : BeginsLine before start') :
    start' ≤ start := by
  rcases h'.behind with rfl | hfeed
  · exact Nat.zero_le _
  · apply Nat.le_of_not_lt
    intro hlt
    apply h.unbroken
    apply List.mem_of_getElem? (i := start' - 1 - start)
    rw [List.getElem?_drop, ← hfeed]
    congr 1
    omega

theorem unique (h : BeginsLine before start) (h' : BeginsLine before start') : start = start' :=
  Nat.le_antisymm (h'.le_start h) (h.le_start h')

/-- As long as no line feed comes, the line goes on. -/
theorem append (h : BeginsLine before start) (hmore : lineFeed ∉ more) :
    BeginsLine (before ++ more) start where
  behind := by
    rcases h.behind with hzero | hfeed
    · exact .inl hzero
    · have hlt := (List.getElem?_eq_some_iff.mp hfeed).1
      exact .inr (by rw [List.getElem?_append_left hlt, hfeed])
  unbroken := by
    rw [List.drop_append_of_le_length h.le_length, List.mem_append, not_or]
    exact ⟨h.unbroken, hmore⟩

end BeginsLine

/-- The last of the lines behind some bytes. -/
theorem beginsLine_getLast (before : List UInt8) :
    BeginsLine before ((0 :: startsAfter 0 before).getLast (List.cons_ne_nil _ _)) where
  behind := by
    rcases List.mem_cons.mp (List.getLast_mem (List.cons_ne_nil 0 (startsAfter 0 before))) with
      hzero | hmem
    · exact .inl hzero
    · obtain ⟨i, hi, hstart⟩ := mem_startsAfter.mp hmem
      rw [hstart]
      exact .inr (by simpa using hi)
  unbroken := by
    intro hmem
    obtain ⟨k, hk⟩ := List.mem_iff_getElem?.mp hmem
    rw [List.getElem?_drop] at hk
    -- the line behind this line feed would begin later than the last one
    have hlater : _ ∈ startsAfter 0 before := mem_startsAfter.mpr ⟨_, hk, rfl⟩
    have hascending := (ascending_startsAfter 0 before).imp fun hlt => Nat.le_of_lt hlt
    have hle := hascending.rel_getLast (List.mem_cons_of_mem 0 hlater)
    omega

/-! ## Positions -/

/-- The line of an offset is the last one that begins at or before it. -/
theorem line_spec (text : String) (offset : Nat) :
    ∃ start, (ofText text).starts[(ofText text).line offset]? = some start ∧
      start ≤ offset ∧ ∀ i other, (ofText text).starts[i]? = some other →
        (ofText text).line offset < i → offset < other := by
  have hascending := ascending_starts text
  have hzero : (ofText text).starts[0]? = some 0 := rfl
  have hanswers := Search.answers_among hascending offset
  unfold line
  cases hsearch : Search.among (ofText text).starts offset with
  | found index =>
      rw [hsearch] at hanswers
      refine ⟨offset, hanswers, Nat.le_refl _, ?_⟩
      intro i other hother hlt
      exact Search.lt_of_ascending hascending hanswers hother hlt
  | absent index =>
      rw [hsearch] at hanswers
      obtain ⟨hle, hbelow, habove⟩ := hanswers
      -- byte 0 begins a line, so no offset comes before all lines
      have hpositive : 0 < index := by
        apply Nat.pos_of_ne_zero
        rintro rfl
        exact Nat.not_lt_zero offset (habove 0 0 hzero (Nat.le_refl 0))
      have hlt : index - 1 < (ofText text).starts.size := by omega
      have hstart := Array.getElem?_eq_getElem hlt
      refine ⟨_, hstart, Nat.le_of_lt (hbelow _ _ hstart (by omega)), ?_⟩
      intro i other hother hlt
      exact habove i other hother (by dsimp only at hlt; omega)

/-- The lines up to that of an offset are those that begin among the bytes before it. -/
theorem take_line (text : String) (offset : Nat) :
    (ofText text).starts.toList.take ((ofText text).line offset + 1) =
      0 :: startsAfter 0 ((utf8Bytes text).take offset) := by
  obtain ⟨start, hstart, hle, habove⟩ := line_spec text offset
  generalize (ofText text).line offset = line at *
  have hascending := ascending_starts text
  have hbefore : ∀ other ∈ (ofText text).starts.toList.take (line + 1), other ≤ offset := by
    intro other hmem
    obtain ⟨i, hi⟩ := List.mem_iff_getElem?.mp hmem
    rw [List.getElem?_take] at hi
    split at hi
    · rename_i hlt
      rw [Array.getElem?_toList] at hi
      rcases Nat.lt_or_eq_of_le (Nat.le_of_lt_succ hlt) with hlt | rfl
      · have hother := Search.lt_of_ascending hascending hi hstart hlt
        omega
      · rw [hstart] at hi
        cases hi
        exact hle
    · cases hi
  have hbehind : ∀ other ∈ (ofText text).starts.toList.drop (line + 1), offset < other := by
    intro other hmem
    obtain ⟨i, hi⟩ := List.mem_iff_getElem?.mp hmem
    rw [List.getElem?_drop, Array.getElem?_toList] at hi
    exact habove _ other hi (by omega)
  rw [← begun_ofText, ← takeWhile_le_of_cut hbefore hbehind, List.take_append_drop]

/-- The number of a line is that of the line feeds before it. -/
theorem line_eq_count (text : String) (offset : Nat) :
    (ofText text).line offset = ((utf8Bytes text).take offset).count lineFeed := by
  obtain ⟨start, hstart, -, -⟩ := line_spec text offset
  have hsize := (Array.getElem?_eq_some_iff.mp hstart).1
  have hlength := congrArg List.length (take_line text offset)
  rw [List.length_take, Array.length_toList, List.length_cons, length_startsAfter] at hlength
  omega

theorem beginsLine_line {text : String} {offset start : Nat}
    (hstart : (ofText text).starts[(ofText text).line offset]? = some start) :
    BeginsLine ((utf8Bytes text).take offset) start := by
  have hlast := beginsLine_getLast ((utf8Bytes text).take offset)
  have hget : (0 :: startsAfter 0 ((utf8Bytes text).take offset)).getLast? = some start := by
    rw [List.getLast?_eq_getElem?, List.length_cons, Nat.add_sub_cancel, length_startsAfter,
      ← take_line, ← line_eq_count, List.getElem?_take_of_lt (Nat.lt_succ_self _),
      Array.getElem?_toList, hstart]
  rw [List.getLast?_eq_some_getLast (List.cons_ne_nil _ _)] at hget
  rwa [Option.some.inj hget] at hlast

/-- Where the line of an offset begins, and its position by that. -/
theorem exists_start (text : String) {offset : Nat} (h : offset < UInt32.size - 1) :
    ∃ start, BeginsLine ((utf8Bytes text).take offset) start ∧
      ((ofText text).position offset).line.toNat =
        1 + ((utf8Bytes text).take offset).count lineFeed ∧
      ((ofText text).position offset).column.toNat = 1 + (offset - start) ∧
      (ofText text).starts[((utf8Bytes text).take offset).count lineFeed]? = some start := by
  obtain ⟨start, hstart, -, -⟩ := line_spec text offset
  have hbegins := beginsLine_line hstart
  have hcolumn : (ofText text).starts.getD ((ofText text).line offset) 0 = start := by
    rw [Array.getD_eq_getD_getElem?, hstart, Option.getD_some]
  rw [position, hcolumn]
  rw [line_eq_count] at hstart ⊢
  have hcount : ((utf8Bytes text).take offset).count lineFeed ≤ offset := by
    calc ((utf8Bytes text).take offset).count lineFeed
        ≤ ((utf8Bytes text).take offset).length := List.count_le_length
      _ ≤ offset := List.length_take_le _ _
  -- neither number is cut off at 32 bits
  have hnarrow : ∀ {n : Nat}, n ≤ offset → (n.toUInt32 + 1).toNat = 1 + n := by
    intro n hle
    have hbound : offset < 4294967295 := h
    rw [UInt32.toNat_add, Nat.toUInt32_eq, UInt32.toNat_ofNat', Nat.mod_add_mod, UInt32.toNat_one,
      Nat.mod_eq_of_lt (by omega), Nat.add_comm]
  exact ⟨start, hbegins, hnarrow hcount, hnarrow (Nat.sub_le _ _), hstart⟩

/-- Later offsets have later positions, also past the end of the text. -/
theorem before_of_lt (text : String) {offset later : Nat} (hlt : offset < later)
    (hlater : later < UInt32.size - 1) :
    ((ofText text).position offset).Before ((ofText text).position later) := by
  obtain ⟨start, hstart, hline, hcolumn, -⟩ := exists_start text (Nat.lt_trans hlt hlater)
  obtain ⟨start', hstart', hline', hcolumn', -⟩ := exists_start text hlater
  obtain ⟨more, hmore⟩ : ∃ more, (utf8Bytes text).take later =
      (utf8Bytes text).take offset ++ more :=
    ⟨_, by rw [← List.take_add, Nat.add_sub_cancel' (Nat.le_of_lt hlt)]⟩
  rw [hmore] at hstart' hline'
  rw [List.count_append] at hline'
  by_cases hfeed : lineFeed ∈ more
  · have hpositive := List.count_pos_iff.mpr hfeed
    exact .inl (UInt32.lt_iff_toNat_lt.mpr (by omega))
  · obtain rfl := (hstart.append hfeed).unique hstart'
    have hle : start ≤ offset := hstart.le_offset
    have hzero := List.count_eq_zero.mpr hfeed
    exact .inr ⟨UInt32.toNat_inj.mp (by omega), UInt32.lt_iff_toNat_lt.mpr (by omega)⟩

/-- A position counts the line feeds before an offset and the bytes since the last of them.  So
the offset can be found again from it, and positions are ordered as the offsets are. -/
theorem position_counts_lines (text : String) {offset : Nat} (h : offset < UInt32.size - 1) :
    let position := (ofText text).position offset
    let before := (utf8Bytes text).take offset
    position.line.toNat = 1 + before.count lineFeed ∧
      (∃ start, BeginsLine before start ∧ position.column.toNat = 1 + (offset - start) ∧
        (ofText text).starts[position.line.toNat - 1]? = some start ∧
        start + position.column.toNat - 1 = offset) ∧
      ∀ later, offset < later → later < UInt32.size - 1 →
        position.Before ((ofText text).position later) := by
  obtain ⟨start, hstart, hline, hcolumn, hstarts⟩ := exists_start text h
  have hle : start ≤ offset := hstart.le_offset
  refine ⟨hline, ⟨start, hstart, hcolumn, ?_, ?_⟩, fun later => before_of_lt text⟩
  · rw [hline, Nat.add_sub_cancel_left]
    exact hstarts
  · rw [hcolumn]
    omega

/-- Byte 3 is the first of the second line, and byte 9 is past the end. -/
theorem position_behind_break :
    3 < UInt32.size - 1 ∧ ((ofText "ab\ncd").position 3).line.toNat = 2 ∧
      ((ofText "ab\ncd").position 3).Before ((ofText "ab\ncd").position 9) := by
  obtain ⟨hline, -, hbefore⟩ := @position_counts_lines "ab\ncd" 3 (by decide)
  refine ⟨by decide, ?_, hbefore 9 (by decide) (by decide)⟩
  rw [hline]
  decide

end LineIndex

end Lustre
