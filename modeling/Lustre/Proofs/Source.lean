import Lustre.Command.Outcome
import Lustre.Proofs.Pool

/-!
# Reading files at the same time

As long as no file changes meanwhile, workers that share some files give what
reading them one after the other gives, in whatever order they move.  So the
order of the output, the counts and the exit code of a command depend on the
files alone; the exit code, the worst of what the files call for, does not even
depend on their order.
-/

namespace Lustre

namespace Loaded

/-! ## Exit codes -/

/-- The exit code that a file calls for. -/
def code : Loaded → Nat
  | .ok source => if source.parsed.hasErrors then 1 else 0
  | .error _ => 2

/-- The worst of some exit codes. -/
def worst (codes : List Nat) : Nat := codes.foldr max 0

/-- Up to 2, setting the code is the same as taking the larger one. -/
theorem codeAfter_eq {code : Nat} (h : code ≤ 2) (file : Loaded) :
    codeAfter code file = max code file.code := by
  cases file with
  | error file =>
      show 2 = max code 2
      omega
  | ok source =>
      simp only [codeAfter, Loaded.code]
      by_cases hfaulty : source.parsed.hasErrors = true
      · rw [if_pos hfaulty, if_pos hfaulty]
      · rw [if_neg hfaulty, if_neg hfaulty, Nat.max_zero]

theorem code_le_two (file : Loaded) : file.code ≤ 2 := by
  cases file with
  | error file => exact Nat.le_refl 2
  | ok source =>
      simp only [code]
      split <;> omega

theorem foldl_codeAfter {code : Nat} (h : code ≤ 2) (files : List Loaded) :
    files.foldl codeAfter code = max code (worst (files.map Loaded.code)) := by
  induction files generalizing code with
  | nil => exact (Nat.max_zero code).symm
  | cons file files ih =>
      have hnext : max code file.code ≤ 2 := Nat.max_le.mpr ⟨h, code_le_two file⟩
      calc (file :: files).foldl codeAfter code
          = files.foldl codeAfter (max code file.code) := by rw [List.foldl_cons, codeAfter_eq h]
        _ = max (max code file.code) (worst (files.map Loaded.code)) := ih hnext
        _ = max code (worst ((file :: files).map Loaded.code)) := Nat.max_assoc ..

/-- The exit code is the worst of those that the files call for. -/
theorem worstCode_eq (files : List Loaded) : worstCode files = worst (files.map Loaded.code) := by
  rw [worstCode, foldl_codeAfter (Nat.zero_le 2), Nat.zero_max]

/-- The worst of some exit codes does not depend on their order. -/
theorem worst_perm {codes others : List Nat} (h : codes.Perm others) :
    worst codes = worst others :=
  h.foldr_eq' (fun one _ other _ rest => Nat.max_left_comm other one rest) 0

end Loaded

namespace Source

variable {options : ParseOptions} {tree : FileTree} {jobs : Nat} {paths : List String}

/-! ## Files that do not change -/

/-- What reading a file of a tree gives. -/
def loaded (options : ParseOptions) (tree : FileTree) (path : String) : Loaded :=
  Pool.resultOf (load options) tree path

/-- The workers on some files of a tree after they have moved in some order. -/
def poolAfter (options : ParseOptions) (tree : FileTree) (jobs : Nat) (paths : List String)
    (order : List Nat) : Pool String Loaded :=
  (Pool.start (Pool.size jobs paths.length) paths).ran (load options) tree order

/-- What is found is what reading the files one after the other gives, and so are the outcomes. -/
structure InOrder (options : ParseOptions) (tree : FileTree) (paths : List String)
    (found : List Loaded) : Prop where
  length : found.length = paths.length
  entry : ∀ (i : Nat) (path : String), paths[i]? = some path →
    found[i]? = some (loaded options tree path)
  /-- What is printed comes in the order of the files. -/
  output : ∀ format, (Outcome.ofParse format found).output =
    format.print (paths.filterMap fun path => (loaded options tree path).source?)
  /-- So do the complaints. -/
  reports : ∀ format, (Outcome.ofParse format found).reports =
    paths.flatMap fun path => (loaded options tree path).reports
  /-- The counts are those of the files that were read and of those with something wrong. -/
  counts : (Outcome.ofCheck found).reports =
    let read := paths.countP fun path => (loaded options tree path).source?.isSome
    let faulty := paths.countP fun path => (loaded options tree path).code == 1
    (paths.flatMap fun path => (loaded options tree path).reports) ++
      [.line s!"checked {read} file(s), {faulty} with errors"]
  /-- The exit code is the worst of those of the files in any order. -/
  code : ∀ others : List String, others.Perm paths →
    let worst := Loaded.worst (others.map fun path => (loaded options tree path).code)
    (Outcome.ofCheck found).code = worst ∧
      ∀ format, (Outcome.ofParse format found).code = worst

/-- The files with something wrong are those that call for the exit code 1. -/
theorem count_faulty (files : List Loaded) :
    ((files.filterMap Loaded.source?).filter fun source => source.parsed.hasErrors).length =
      files.countP fun file => file.code == 1 := by
  rw [← List.countP_eq_length_filter, List.countP_filterMap]
  apply List.countP_congr
  intro file _
  cases file with
  | error file => simp [Loaded.source?, Loaded.code]
  | ok source => simp [Loaded.source?, Loaded.code]

theorem inOrder_map (options : ParseOptions) (tree : FileTree) (paths : List String) :
    InOrder options tree paths (paths.map (loaded options tree)) where
  length := List.length_map ..
  entry i path h := by rw [List.getElem?_map, h, Option.map_some]
  output format := by
    rw [Outcome.ofParse, List.filterMap_map]
    rfl
  reports format := by
    rw [Outcome.ofParse, List.flatMap_map]
  counts := by
    simp only [Outcome.ofCheck, count_faulty, List.countP_map, List.flatMap_map]
    rw [List.length_filterMap_eq_countP, List.countP_map]
    rfl
  code others h := by
    have hworst : Loaded.worstCode (paths.map (loaded options tree)) =
        Loaded.worst (others.map fun path => (loaded options tree path).code) := by
      rw [Loaded.worstCode_eq, List.map_map]
      exact Loaded.worst_perm (h.symm.map _)
    exact ⟨hworst, fun format => hworst⟩

end Source

/-- Files that do not change are read as if one after the other, whatever the number of workers and
the order of their moves, and no order keeps the work from being finished.  The commands let the
workers move in one such order. -/
theorem parallel_parsing_is_sequential (config : Config) (tree : FileTree) (jobs : Nat)
    (paths : List String) :
    (∀ order, (Source.poolAfter config.parse tree jobs paths order).isDone = true →
      Source.InOrder config.parse tree paths
        ((Source.poolAfter config.parse tree jobs paths order).answers paths.length)) ∧
    (∀ (order : List Nat) (rounds : List (List Nat)), 2 * paths.length ≤ rounds.length →
      (∀ round ∈ rounds, ∀ worker < Pool.size jobs paths.length, worker ∈ round) →
      (Source.poolAfter config.parse tree jobs paths (order ++ rounds.flatten)).isDone = true) ∧
    (∃ found, Source.InOrder config.parse tree paths found ∧
      (Source.loadAll config.parse jobs paths : InMemory (List Loaded)) tree = found ∧
      ∀ limit, (Command.run config (.check paths limit) : InMemory Outcome) tree =
          Outcome.ofCheck found ∧
        ∀ format, (Command.run config (.parse paths format limit) : InMemory Outcome) tree =
          Outcome.ofParse format found) := by
  have hshare : ∀ limit, (Source.loadAll config.parse limit paths : InMemory (List Loaded)) tree =
      paths.map (Source.loaded config.parse tree) := fun limit => Pool.share_eq_map ..
  refine ⟨fun order h => ?_, fun order rounds hcount hall => ?_, ?_⟩
  · rw [Source.poolAfter, Pool.answers_of_isDone _ tree _ paths order h]
    exact Source.inOrder_map ..
  · exact Pool.isDone_after_rounds _ tree (Pool.size_pos ..) paths order rounds hcount hall
  · refine ⟨_, Source.inOrder_map config.parse tree paths, hshare jobs, fun limit => ⟨?_, ?_⟩⟩
    · exact congrArg Outcome.ofCheck (hshare _)
    · intro format
      exact congrArg (Outcome.ofParse format) (hshare _)

/-- The first of two files is missing.  The second worker takes it and hands in its result last, yet
the answers are in order, and the exit code is that of the missing file. -/
theorem parallel_parsing_of_missing_file :
    let tree := FileTree.empty.addFile [['a']] ⟨#[]⟩
    let pool := Source.poolAfter {} tree 5 ["b", "a"] [1, 0, 0, 7, 1]
    pool.isDone = true ∧ pool.results.map Placed.place = [1, 0] ∧
      Source.InOrder {} tree ["b", "a"] (pool.answers 2) ∧
      (Outcome.ofCheck (pool.answers 2)).code = 2 := by
  have hfound := (parallel_parsing_is_sequential {} (FileTree.empty.addFile [['a']] ⟨#[]⟩) 5
    ["b", "a"]).1 [1, 0, 0, 7, 1] rfl
  exact ⟨rfl, rfl, hfound, ((hfound.code ["b", "a"] (List.Perm.refl _)).1).trans
    (by decide +kernel)⟩

end Lustre
