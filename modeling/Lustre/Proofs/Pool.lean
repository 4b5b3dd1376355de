import Lustre.Pool
import Mathlib.Data.List.Perm.Basic
import Mathlib.Data.List.Basic

/-!
# Any order of work gives the same answers

Workers that share a queue may move in any order.  What the pool has to account
for, a task in the queue or in a worker's hands or a result handed in, never
changes but for its order, so a pool whose work is done holds exactly one result
for each task, and the slots put them in the order of the tasks.

Each move that does something brings the end nearer, so an order in which
everybody keeps getting a turn comes to an end.  The order in which
`Pool.share` lets the workers move is one of these.
-/

namespace Lustre

namespace Placed

variable {α β : Type}

/-- Something else in the same place. -/
def map (f : α → β) (placed : Placed α) : Placed β := ⟨placed.place, f placed.item⟩

end Placed

namespace Pool

variable {σ α β : Type} {work : α → ReaderM σ β} {s : σ} {pool : Pool α β} {worker : Nat}

/-! ## One move -/

/-- The result of a task, where nothing changes `s`. -/
def resultOf (work : α → ReaderM σ β) (s : σ) (task : α) : β := work task s

/-- The pool after the next move of one worker, where nothing changes `s`. -/
def moved (work : α → ReaderM σ β) (s : σ) (pool : Pool α β) (worker : Nat) : Pool α β :=
  pool.move work worker s

/-- The pool after the moves of some workers, where nothing changes `s`. -/
def ran (work : α → ReaderM σ β) (s : σ) (pool : Pool α β) (workers : List Nat) : Pool α β :=
  pool.run work workers s

/-- A worker has nothing to do: there is none of that number, or nothing is left in the queue. -/
def IsIdle (pool : Pool α β) (worker : Nat) : Prop :=
  pool.hands[worker]? = none ∨ (pool.hands[worker]? = some none ∧ pool.queue = [])

/-- A move hands in a result, takes a task, or does nothing. -/
theorem moved_cases (work : α → ReaderM σ β) (s : σ) (pool : Pool α β) (worker : Nat) :
    (∃ task, pool.hands[worker]? = some (some task) ∧
      pool.moved work s worker =
        { pool with
          hands := pool.hands.set worker none
          results := pool.results ++ [task.map (resultOf work s)] }) ∨
    (∃ task queue, pool.hands[worker]? = some none ∧ pool.queue = task :: queue ∧
      pool.moved work s worker =
        { pool with queue := queue, hands := pool.hands.set worker (some task) }) ∨
    (pool.IsIdle worker ∧ pool.moved work s worker = pool) := by
  -- what the worker holds decides, and then whether anything is left in the queue
  cases hhand : pool.hands[worker]? with
  | none =>
      refine .inr (.inr ⟨.inl hhand, ?_⟩)
      simp only [moved, move, hhand]
      rfl
  | some hand =>
      cases hand with
      | some task =>
          refine .inl ⟨task, rfl, ?_⟩
          simp only [moved, move, hhand]
          rfl
      | none =>
          cases hqueue : pool.queue with
          | nil =>
              refine .inr (.inr ⟨.inr ⟨hhand, hqueue⟩, ?_⟩)
              simp only [moved, move, hhand, hqueue]
              rfl
          | cons task queue =>
              refine .inr (.inl ⟨task, queue, rfl, rfl, ?_⟩)
              simp only [moved, move, hhand, hqueue]
              rfl

@[simp]
theorem ran_nil : pool.ran work s [] = pool := rfl

@[simp]
theorem ran_cons {workers : List Nat} :
    pool.ran work s (worker :: workers) = (pool.moved work s worker).ran work s workers := rfl

theorem ran_append {workers later : List Nat} :
    pool.ran work s (workers ++ later) = (pool.ran work s workers).ran work s later := by
  induction workers generalizing pool with
  | nil => rfl
  | cons worker workers ih => exact ih

/-! ## Nothing is lost or done twice -/

/-- The tasks in the hands of the workers. -/
def held (pool : Pool α β) : List (Placed α) := pool.hands.filterMap id

/-- What the pool has to account for, as the results that there are or will be. -/
def account (result : α → β) (pool : Pool α β) : List (Placed β) :=
  (pool.queue ++ pool.held).map (Placed.map result) ++ pool.results

/-- The hands around those of one worker. -/
theorem hands_split {hand : Option (Placed α)} (h : pool.hands[worker]? = some hand) :
    ∃ before after, pool.hands = before ++ hand :: after ∧
      ∀ other, pool.hands.set worker other = before ++ other :: after := by
  obtain ⟨hlt, hhand⟩ := List.getElem?_eq_some_iff.mp h
  refine ⟨pool.hands.take worker, pool.hands.drop (worker + 1), ?_, ?_⟩
  · rw [← hhand, List.getElem_cons_drop, List.take_append_drop]
  · intro other
    rw [List.set_eq_take_append_cons_drop, if_pos hlt]

/-- A move keeps the account. -/
theorem account_moved (work : α → ReaderM σ β) (s : σ) (pool : Pool α β) (worker : Nat) :
    ((pool.moved work s worker).account (resultOf work s)).Perm
      (pool.account (resultOf work s)) := by
  obtain ⟨task, hhand, heq⟩ | ⟨task, queue, hhand, hqueue, heq⟩ | ⟨-, heq⟩ :=
    moved_cases work s pool worker
  · -- The task leaves the hands, and its result comes last.
    obtain ⟨before, after, hhands, hset⟩ := hands_split hhand
    rw [heq]
    simp only [account, held, hset none]
    simp only [hhands, List.filterMap_append, List.filterMap_cons, id, List.map_append,
      List.map_cons, List.append_assoc, List.cons_append]
    apply List.Perm.append_left
    apply List.Perm.append_left
    rw [← List.append_assoc]
    exact List.perm_append_singleton _ _
  · -- The task leaves the front of the queue for the hands.
    obtain ⟨before, after, hhands, hset⟩ := hands_split hhand
    rw [heq]
    simp only [account, held, hset (some task)]
    simp only [hhands, hqueue, List.filterMap_append, List.filterMap_cons, id, List.map_append,
      List.map_cons, List.append_assoc, List.cons_append]
    rw [← List.append_assoc, ← List.append_assoc (List.map _ queue)]
    exact List.perm_middle
  · rw [heq]

/-- However the workers move, the account stays the same. -/
theorem account_ran (work : α → ReaderM σ β) (s : σ) (pool : Pool α β) (workers : List Nat) :
    ((pool.ran work s workers).account (resultOf work s)).Perm
      (pool.account (resultOf work s)) := by
  induction workers generalizing pool with
  | nil => exact List.Perm.refl _
  | cons worker workers ih => exact (ih (pool.moved work s worker)).trans (account_moved ..)

theorem length_enumerate {start : Nat} {tasks : List α} :
    (enumerate start tasks).length = tasks.length := by
  induction tasks generalizing start with
  | nil => rfl
  | cons task tasks ih => rw [enumerate, List.length_cons, ih, List.length_cons]

/-- There is at least one worker, even with a limit of none. -/
theorem size_pos (limit count : Nat) : 0 < size limit count := by
  rw [size]
  omega

theorem held_start (workers : Nat) (tasks : List α) :
    (start workers tasks : Pool α β).held = [] := by
  simp [start, held]

/-- At first the account is the results of all tasks in their places. -/
theorem account_start (result : α → β) (workers : Nat) (tasks : List α) :
    (start workers tasks).account result = (enumerate 0 tasks).map (Placed.map result) := by
  rw [account, held_start]
  simp [start]

/-- When all is done, the account is the results handed in. -/
theorem account_of_isDone (result : α → β) (h : pool.isDone = true) :
    pool.account result = pool.results := by
  obtain ⟨hqueue, hhands⟩ : pool.queue = [] ∧ ∀ hand ∈ pool.hands, hand = none := by
    simpa [isDone] using h
  have hheld : pool.held = [] := by
    rw [held, List.filterMap_eq_nil_iff]
    exact hhands
  rw [account, hqueue, hheld]
  rfl

/-! ## Slots -/

/-- A task stands in the place that it has in the list. -/
theorem mem_enumerate {start : Nat} {tasks : List α} {placed : Placed α} :
    placed ∈ enumerate start tasks ↔
      ∃ i, placed.place = start + i ∧ tasks[i]? = some placed.item := by
  induction tasks generalizing start with
  | nil => simp [enumerate]
  | cons task tasks ih =>
      rw [enumerate, List.mem_cons, ih]
      constructor
      · rintro (rfl | ⟨i, hplace, hitem⟩)
        · exact ⟨0, rfl, rfl⟩
        · exact ⟨i + 1, by omega, hitem⟩
      · rintro ⟨i, hplace, hitem⟩
        cases i with
        | zero =>
            obtain ⟨place, item⟩ := placed
            obtain rfl : task = item := by simpa using hitem
            exact .inl (by rw [show place = start from hplace])
        | succ i => exact .inr ⟨i, by omega, hitem⟩

/-- No two tasks share a place. -/
theorem eq_of_place_eq {result : α → β} {start : Nat} {tasks : List α} {one other : Placed β}
    (hone : one ∈ (enumerate start tasks).map (Placed.map result))
    (hother : other ∈ (enumerate start tasks).map (Placed.map result))
    (h : one.place = other.place) : one = other := by
  obtain ⟨task, htask, rfl⟩ := List.mem_map.mp hone
  obtain ⟨another, hanother, rfl⟩ := List.mem_map.mp hother
  obtain ⟨i, hi, hitem⟩ := mem_enumerate.mp htask
  obtain ⟨j, hj, hsame⟩ := mem_enumerate.mp hanother
  have hplace : task.place = another.place := h
  obtain rfl : i = j := by omega
  have heq : task.item = another.item := Option.some.inj (hitem.symm.trans hsame)
  rw [Placed.map, Placed.map, hplace, heq]

/-- Results in the order of their places fill the slots one after the other. -/
theorem fill_enumerate (result : α → β) (front : List (Option β)) (tasks : List α) :
    ((enumerate front.length tasks).map (Placed.map result)).foldl
        (fun slots result => slots.set result.place (some result.item))
        (front ++ List.replicate tasks.length none) =
      front ++ tasks.map fun task => some (result task) := by
  induction tasks generalizing front with
  | nil => rfl
  | cons task tasks ih =>
      have hset : (front ++ List.replicate (tasks.length + 1) none).set front.length
          (some (result task)) =
          (front ++ [some (result task)]) ++ List.replicate tasks.length none := by
        simp [List.replicate_succ]
      have hfill := ih (front ++ [some (result task)])
      rw [List.length_append, List.length_singleton] at hfill
      rw [enumerate, List.map_cons, List.foldl_cons, List.length_cons, Placed.map, hset, hfill]
      simp

/-- The order in which the results of all tasks were handed in makes no difference to the slots. -/
theorem slots_eq (result : α → β) {tasks : List α}
    (h : pool.results.Perm ((enumerate 0 tasks).map (Placed.map result))) :
    pool.slots tasks.length = tasks.map fun task => some (result task) := by
  have hcomm : ∀ one ∈ pool.results, ∀ other ∈ pool.results, ∀ slots : List (Option β),
      (slots.set one.place (some one.item)).set other.place (some other.item) =
        (slots.set other.place (some other.item)).set one.place (some one.item) := by
    intro one hone other hother slots
    by_cases hplace : one.place = other.place
    · rw [eq_of_place_eq (h.mem_iff.mp hone) (h.mem_iff.mp hother) hplace]
    · exact List.set_comm _ _ hplace
  rw [slots, h.foldl_eq' hcomm]
  exact fill_enumerate result [] tasks

/-- Whatever the order of the moves, once all is done there is one answer for each task: its own. -/
theorem answers_of_isDone (work : α → ReaderM σ β) (s : σ) (count : Nat) (tasks : List α)
    (workers : List Nat) (h : ((start count tasks).ran work s workers).isDone = true) :
    ((start count tasks).ran work s workers).answers tasks.length =
      tasks.map (resultOf work s) := by
  have hresults : ((start count tasks).ran work s workers).results.Perm
      ((enumerate 0 tasks).map (Placed.map (resultOf work s))) := by
    rw [← account_of_isDone (resultOf work s) h, ← account_start (resultOf work s) count tasks]
    exact account_ran ..
  rw [answers, slots_eq _ hresults]
  simp [List.filterMap_map]

/-! ## The work comes to an end -/

/-- The number of moves that the work still takes. -/
def remaining (pool : Pool α β) : Nat := 2 * pool.queue.length + pool.held.length

theorem length_hands_moved : (pool.moved work s worker).hands.length = pool.hands.length := by
  obtain ⟨_, -, heq⟩ | ⟨_, _, -, -, heq⟩ | ⟨-, heq⟩ := moved_cases work s pool worker <;>
    simp [heq]

theorem length_hands_ran {workers : List Nat} :
    (pool.ran work s workers).hands.length = pool.hands.length := by
  induction workers generalizing pool with
  | nil => rfl
  | cons worker workers ih => exact ih.trans length_hands_moved

/-- A move of a worker who is not idle is one move less. -/
theorem remaining_moved (work : α → ReaderM σ β) (s : σ) (pool : Pool α β) (worker : Nat) :
    (pool.moved work s worker).remaining + 1 = pool.remaining ∨
      (pool.IsIdle worker ∧ pool.moved work s worker = pool) := by
  obtain ⟨task, hhand, heq⟩ | ⟨task, queue, hhand, hqueue, heq⟩ | hidle :=
    moved_cases work s pool worker
  · obtain ⟨before, after, hhands, hset⟩ := hands_split hhand
    left
    rw [heq]
    simp only [remaining, held, hset none]
    simp only [hhands, List.filterMap_append, List.filterMap_cons, id, List.length_append,
      List.length_cons]
    omega
  · obtain ⟨before, after, hhands, hset⟩ := hands_split hhand
    left
    rw [heq]
    simp only [remaining, held, hset (some task)]
    simp only [hhands, hqueue, List.filterMap_append, List.filterMap_cons, id, List.length_append,
      List.length_cons]
    omega
  · exact .inr hidle

theorem remaining_ran_le {workers : List Nat} :
    (pool.ran work s workers).remaining ≤ pool.remaining := by
  induction workers generalizing pool with
  | nil => exact Nat.le_refl _
  | cons worker workers ih =>
      have hle : ((pool.moved work s worker).ran work s workers).remaining ≤
          (pool.moved work s worker).remaining := ih
      rw [ran_cons]
      obtain h | ⟨-, h⟩ := remaining_moved work s pool worker
      · omega
      · rwa [h] at hle ⊢

/-- Some moves bring the end nearer, or all those workers were idle. -/
theorem remaining_ran_lt (work : α → ReaderM σ β) (s : σ) (pool : Pool α β) (workers : List Nat) :
    (pool.ran work s workers).remaining < pool.remaining ∨
      ∀ worker ∈ workers, pool.IsIdle worker := by
  induction workers generalizing pool with
  | nil => exact .inr fun worker h => absurd h List.not_mem_nil
  | cons worker workers ih =>
      obtain h | ⟨hidle, h⟩ := remaining_moved work s pool worker
      · left
        have hle : ((pool.moved work s worker).ran work s workers).remaining ≤
            (pool.moved work s worker).remaining := remaining_ran_le
        rw [ran_cons]
        omega
      · rw [ran_cons, h]
        refine (ih pool).imp_right fun hall other hmem => ?_
        rcases List.mem_cons.mp hmem with rfl | hmem
        · exact hidle
        · exact hall other hmem

/-- Workers who are all idle have done everything. -/
theorem isDone_of_idle (hpos : 0 < pool.hands.length)
    (h : ∀ worker < pool.hands.length, pool.IsIdle worker) : pool.isDone = true := by
  have hfree : ∀ worker (hlt : worker < pool.hands.length),
      pool.hands[worker] = none ∧ pool.queue = [] := by
    intro worker hlt
    obtain hnone | ⟨hfree, hqueue⟩ := h worker hlt
    · exact absurd hnone (by simpa using hlt)
    · exact ⟨Option.some.inj ((List.getElem?_eq_getElem hlt).symm.trans hfree), hqueue⟩
  have hhands : ∀ hand ∈ pool.hands, hand = none := by
    intro hand hmem
    obtain ⟨worker, hlt, rfl⟩ := List.mem_iff_getElem.mp hmem
    exact (hfree worker hlt).1
  simpa [isDone] using ⟨(hfree 0 hpos).2, hhands⟩

/-- When no move remains, all is done. -/
theorem isDone_of_remaining (h : pool.remaining = 0) : pool.isDone = true := by
  obtain ⟨hqueue, hheld⟩ : pool.queue = [] ∧ pool.held = [] := by
    constructor <;> apply List.eq_nil_of_length_eq_zero <;> simp only [remaining] at h <;> omega
  rw [held, List.filterMap_eq_nil_iff] at hheld
  simpa [isDone] using ⟨hqueue, hheld⟩

/-- Once all is done, nothing moves. -/
theorem ran_of_isDone {workers : List Nat} (h : pool.isDone = true) :
    pool.ran work s workers = pool := by
  obtain ⟨hqueue, hhands⟩ : pool.queue = [] ∧ ∀ hand ∈ pool.hands, hand = none := by
    simpa [isDone] using h
  induction workers with
  | nil => rfl
  | cons worker workers ih =>
      have hmoved : pool.moved work s worker = pool := by
        obtain ⟨task, hhand, -⟩ | ⟨task, queue, -, hcons, -⟩ | ⟨-, heq⟩ :=
          moved_cases work s pool worker
        · cases hhands _ (List.mem_of_getElem? hhand)
        · rw [hqueue] at hcons
          cases hcons
        · exact heq
      rw [ran_cons, hmoved, ih]

/-- As long as there is work, there is somebody who can go on with it. -/
theorem exists_move (work : α → ReaderM σ β) (s : σ) (hpos : 0 < pool.hands.length)
    (h : pool.isDone = false) :
    ∃ worker < pool.hands.length, (pool.moved work s worker).remaining + 1 = pool.remaining := by
  by_contra hnone
  have hidle : ∀ worker < pool.hands.length, pool.IsIdle worker := by
    intro worker hlt
    obtain hmove | ⟨hidle, -⟩ := remaining_moved work s pool worker
    · exact absurd ⟨worker, hlt, hmove⟩ hnone
    · exact hidle
  rw [isDone_of_idle hpos hidle] at h
  cases h

/-- Rounds in which everybody gets a turn come to an end, for there are only so many moves. -/
theorem isDone_of_rounds (work : α → ReaderM σ β) (s : σ) (pool : Pool α β)
    (hpos : 0 < pool.hands.length) (rounds : List (List Nat))
    (hcount : pool.remaining ≤ rounds.length)
    (hall : ∀ round ∈ rounds, ∀ worker < pool.hands.length, worker ∈ round) :
    (pool.ran work s rounds.flatten).isDone = true := by
  induction rounds generalizing pool with
  | nil => exact isDone_of_remaining (Nat.le_zero.mp hcount)
  | cons round rounds ih =>
      rw [List.flatten_cons, ran_append]
      have hround := hall round List.mem_cons_self
      obtain hlt | hidle := remaining_ran_lt work s pool round
      · apply ih
        · rw [length_hands_ran]
          exact hpos
        · rw [List.length_cons] at hcount
          omega
        · intro later hmem
          rw [length_hands_ran]
          exact hall later (List.mem_cons_of_mem _ hmem)
      · have hdone := isDone_of_idle hpos fun worker hlt => hidle worker (hround worker hlt)
        rw [ran_of_isDone hdone, ran_of_isDone hdone]
        exact hdone

/-- After moves in any order, rounds in which everybody gets a turn finish the work. -/
theorem isDone_after_rounds (work : α → ReaderM σ β) (s : σ) {count : Nat} (hpos : 0 < count)
    (tasks : List α) (order : List Nat) (rounds : List (List Nat))
    (hcount : 2 * tasks.length ≤ rounds.length)
    (hall : ∀ round ∈ rounds, ∀ worker < count, worker ∈ round) :
    ((start count tasks).ran work s (order ++ rounds.flatten)).isDone = true := by
  have hlength : ((start count tasks : Pool α β).ran work s order).hands.length = count := by
    rw [length_hands_ran, start, List.length_replicate]
  have hstart : (start count tasks : Pool α β).remaining = 2 * tasks.length := by
    rw [remaining, held_start, start, length_enumerate]
    rfl
  have hle : ((start count tasks : Pool α β).ran work s order).remaining ≤ 2 * tasks.length :=
    hstart ▸ remaining_ran_le
  rw [ran_append]
  apply isDone_of_rounds
  · rwa [hlength]
  · exact Nat.le_trans hle hcount
  · rwa [hlength]

/-- Sharing tasks gives the result of each, one after the other. -/
theorem share_eq_map (limit : Nat) (work : α → ReaderM σ β) (tasks : List α) (s : σ) :
    (share limit work tasks s : List β) = tasks.map (resultOf work s) := by
  have hdone := isDone_after_rounds work s (size_pos limit tasks.length) tasks []
    (List.replicate (2 * tasks.length) (List.range (size limit tasks.length)))
    (by simp) fun round hround worker hlt => by
      rw [List.eq_of_mem_replicate hround]
      exact List.mem_range.mpr hlt
  exact answers_of_isDone work s _ tasks _ hdone

end Pool

end Lustre
