/-!
# Pools of workers

Workers share a queue of jobs.  A worker with empty hands takes the first job of
the queue; a worker that holds a job does it and hands in the result.  Results
come in the order in which the workers finish, but each keeps the place of its
job, so `Pool.answers` can put them in the order of the tasks.
-/

namespace Lustre

/-- Something with its place among the tasks. -/
structure Placed (α : Type) where
  place : Nat
  item : α
deriving DecidableEq

/-- Workers in the middle of their work. -/
structure Pool (α β : Type) where
  /-- The tasks that nobody has taken. -/
  queue : List (Placed α)
  /-- The task in the hands of each worker. -/
  hands : List (Option (Placed α))
  /-- The results handed in, the first one first. -/
  results : List (Placed β)

namespace Pool

variable {α β : Type} {m : Type → Type} [Monad m]

/-- Tasks with their places, the first one at `place`. -/
def enumerate (place : Nat) : List α → List (Placed α)
  | [] => []
  | task :: tasks => ⟨place, task⟩ :: enumerate (place + 1) tasks

/-- Workers before their work. -/
def start (workers : Nat) (tasks : List α) : Pool α β :=
  ⟨enumerate 0 tasks, List.replicate workers none, []⟩

/-- Whether all tasks are done. -/
def isDone (pool : Pool α β) : Bool := pool.queue.isEmpty && pool.hands.all Option.isNone

/-- The pool after the next move of one worker, who has nothing to do if the queue is empty. -/
def move (work : α → m β) (pool : Pool α β) (worker : Nat) : m (Pool α β) :=
  match pool.hands[worker]?, pool.queue with
  | some (some task), _ => do
      let result ← work task.item
      return { pool with
        hands := pool.hands.set worker none
        results := pool.results ++ [⟨task.place, result⟩] }
  | some none, task :: queue =>
      return { pool with queue := queue, hands := pool.hands.set worker (some task) }
  | some none, [] | none, _ => return pool

/-- The pool after the moves of some workers, one after the other. -/
def run (work : α → m β) (pool : Pool α β) (workers : List Nat) : m (Pool α β) :=
  workers.foldlM (move work) pool

/-- A slot for each of `count` tasks, with the result that was handed in for its place. -/
def slots (count : Nat) (pool : Pool α β) : List (Option β) :=
  pool.results.foldl (fun slots result => slots.set result.place (some result.item))
    (List.replicate count none)

/-- The results of `count` tasks in the order of the tasks. -/
def answers (count : Nat) (pool : Pool α β) : List β := (pool.slots count).filterMap id

/-- The number of workers for `count` tasks: at most `limit` and at most one for each task, but at
least one. -/
def size (limit count : Nat) : Nat := max 1 (min limit count)

/-- Every worker in turn, twice for each task: enough moves to do all tasks. -/
def turns (workers count : Nat) : List Nat :=
  (List.replicate (2 * count) (List.range workers)).flatten

/-- Shares some tasks among at most `limit` workers, at least one. -/
def share (limit : Nat) (work : α → m β) (tasks : List α) : m (List β) := do
  let count := tasks.length
  let workers := size limit count
  let pool ← (start workers tasks).run work (turns workers count)
  return pool.answers count

end Pool

end Lustre
