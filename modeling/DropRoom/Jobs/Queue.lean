import DropRoom.App.Models
import Mathlib.Data.Rat.Defs
import Mathlib.Tactic.Linarith

/-!
# The job queue

`JobQueue` of `app/jobs/queue.py`: an `asyncio.Queue` of jobs and stop sentinels, and the tasks that
take them off it. A task runs from one `await` to the next without interruption, so an action of the
queue is a call of `enqueue`, `start` or `stop`, or one such stretch of a worker (`resume`), and
every list of actions is an interleaving. Each action says what happened in it (`PoolEvent`).

The handlers are given by the outcome of each attempt, `outcome job_id attempt`. No task is
cancelled.
-/

namespace DropRoom

/-- The settings of a `JobQueue`. -/
structure PoolConfig where
  workers_count : ℕ
  max_attempts : ℕ
  backoff_base : ℚ
  backoff_max : ℚ

/-- A `Job` in the queue. Its `job_id` tells it from the others. -/
structure QueuedJob where
  job_id : ℕ
  job_type : String
  payload : List (String × Json)
  max_attempts : ℕ
  attempt : ℕ

/-- Where a worker task is. -/
inductive WorkerTask
  /-- At `await self._queue.get()`. -/
  | getting
  /-- At `await handler(job.payload)`. -/
  | calling (job : QueuedJob)
  /-- At `await asyncio.sleep(delay)`. -/
  | sleeping (job : QueuedJob)
  /-- It has returned. -/
  | returned
  /-- It was ended by an exception. -/
  | raised

/-- What happens in the pool. -/
inductive PoolEvent
  | enqueued (job : QueuedJob)
  /-- A worker takes a job off the queue. -/
  | taken (worker job_id : ℕ)
  /-- A worker takes a stop sentinel off the queue. -/
  | sentinel (worker : ℕ)
  | called (worker job_id attempt : ℕ)
  | waited (worker job_id attempt : ℕ) (delay : ℚ)
  /-- The worker is done with the job. -/
  | finished (worker job_id : ℕ)
  /-- A call of `stop` has returned. -/
  | stopped

/-- `JobQueue`, with every worker task that was created, the numbers of those in `_worker_tasks`,
and for each call of `stop` that waits in `gather` the numbers of the tasks that it waits for. -/
structure JobQueue where
  queue : List (Option QueuedJob)
  unfinished : ℕ
  created : ℕ
  handlers : List String
  tasks : List WorkerTask
  worker_tasks : List ℕ
  stopping : List (List ℕ)

/-- An action of the queue. -/
inductive PoolAction
  | enqueue (job_type : String) (payload : List (String × Json)) (max_attempts : Option ℕ)
  | start
  | stop
  /-- A worker goes on to its next `await`. -/
  | resume (worker : ℕ)
  /-- A call of `stop` finds that the tasks it waits for have ended. -/
  | gathered (call : ℕ)

namespace PoolConfig

/-- `min(self.backoff_base * (2 ** (job.attempt - 1)), self.backoff_max)`. An `int` from `2 ** 1024`
on is too large to be converted to a `float`: there the product raises an `OverflowError`. -/
def delay (cfg : PoolConfig) (attempt : ℕ) : Option ℚ :=
  if attempt - 1 < 1024 then some (min (cfg.backoff_base * 2 ^ (attempt - 1)) cfg.backoff_max)
  else none

end PoolConfig

/-- The task has ended. -/
def WorkerTask.ended : WorkerTask → Bool
  | returned | raised => true
  | getting | calling _ | sleeping _ => false

namespace JobQueue

/-- A new queue with some handlers registered. -/
def new (handlers : List String) : JobQueue where
  queue := []
  unfinished := 0
  created := 0
  handlers
  tasks := []
  worker_tasks := []
  stopping := []

/-- `enqueue`. -/
def enqueue (cfg : PoolConfig) (q : JobQueue) (job_type : String)
    (payload : List (String × Json)) (max_attempts : Option ℕ) : JobQueue × List PoolEvent :=
  let job : QueuedJob := {
    job_id := q.created
    job_type
    payload
    max_attempts := match max_attempts with
      | some n => if n = 0 then cfg.max_attempts else n
      | none => cfg.max_attempts
    attempt := 0 }
  ({ q with
      queue := q.queue ++ [some job]
      unfinished := q.unfinished + 1
      created := q.created + 1 }, [.enqueued job])

/-- `start`. -/
def start (cfg : PoolConfig) (q : JobQueue) : JobQueue :=
  if q.worker_tasks = [] then
    { q with
      tasks := q.tasks ++ List.replicate cfg.workers_count .getting
      worker_tasks := (List.range cfg.workers_count).map (q.tasks.length + ·) }
  else q

/-- `stop`, up to its `await`: without workers it returns at once. -/
def stop (q : JobQueue) : JobQueue × List PoolEvent :=
  if q.worker_tasks = [] then (q, [.stopped])
  else
    ({ q with
        queue := q.queue ++ List.replicate q.worker_tasks.length none
        unfinished := q.unfinished + q.worker_tasks.length
        stopping := q.stopping ++ [q.worker_tasks] }, [])

/-- `stop` after its `await`. -/
def gathered (q : JobQueue) (call : ℕ) : Option (JobQueue × List PoolEvent) :=
  match q.stopping[call]? with
  | some tasks =>
    if tasks.all fun w => (q.tasks[w]?.map WorkerTask.ended).getD true then
      some ({ q with worker_tasks := [], stopping := q.stopping.eraseIdx call }, [.stopped])
    else none
  | none => none

/-- The end of the `try` of `_worker`. `task_done` raises a `ValueError` when nothing is unfinished;
otherwise the task goes on to `next`. -/
def finish (q : JobQueue) (worker job_id : ℕ) (next : WorkerTask) : JobQueue × List PoolEvent :=
  if q.unfinished = 0 then
    ({ q with tasks := q.tasks.set worker .raised }, [.finished worker job_id])
  else
    ({ q with
        unfinished := q.unfinished - 1
        tasks := q.tasks.set worker next }, [.finished worker job_id])

/-- The loop of `_run_with_retries` from its condition on. -/
def attempt (q : JobQueue) (worker : ℕ) (job : QueuedJob) : JobQueue × List PoolEvent :=
  if job.attempt < job.max_attempts then
    ({ q with
        tasks := q.tasks.set worker (.calling { job with attempt := job.attempt + 1 }) },
      [.called worker job.job_id (job.attempt + 1)])
  else q.finish worker job.job_id .getting

/-- `_run_with_retries` from its start. -/
def runWithRetries (q : JobQueue) (worker : ℕ) (job : QueuedJob) : JobQueue × List PoolEvent :=
  if job.job_type ∈ q.handlers then q.attempt worker job
  else q.finish worker job.job_id .getting

/-- The `except` of `_run_with_retries`. -/
def failed (cfg : PoolConfig) (q : JobQueue) (worker : ℕ) (job : QueuedJob) :
    JobQueue × List PoolEvent :=
  if job.max_attempts ≤ job.attempt then q.finish worker job.job_id .getting
  else match cfg.delay job.attempt with
    | some delay =>
      ({ q with tasks := q.tasks.set worker (.sleeping job) },
        [.waited worker job.job_id job.attempt delay])
    | none => q.finish worker job.job_id .raised

/-- A worker task goes on from its `await` to the next one, or ends. It waits while there is nothing
in the queue. -/
def resume (cfg : PoolConfig) (outcome : ℕ → ℕ → Bool) (q : JobQueue) (worker : ℕ) :
    Option (JobQueue × List PoolEvent) :=
  match q.tasks[worker]? with
  | some .getting => match q.queue with
    | some job :: queue =>
      let (q, events) := { q with queue }.runWithRetries worker job
      some (q, .taken worker job.job_id :: events)
    | none :: queue =>
      some ({ q with queue, tasks := q.tasks.set worker .returned }, [.sentinel worker])
    | [] => none
  | some (.calling job) =>
    if outcome job.job_id job.attempt then some (q.finish worker job.job_id .getting)
    else some (q.failed cfg worker job)
  | some (.sleeping job) => some (q.attempt worker job)
  | some .returned => none
  | some .raised => none
  | none => none

/-- One action. -/
def act (cfg : PoolConfig) (outcome : ℕ → ℕ → Bool) (q : JobQueue) :
    PoolAction → Option (JobQueue × List PoolEvent)
  | .enqueue job_type payload max_attempts => some (q.enqueue cfg job_type payload max_attempts)
  | .start => some (q.start cfg, [])
  | .stop => some q.stop
  | .resume worker => q.resume cfg outcome worker
  | .gathered call => q.gathered call

/-- The interleavings of a new queue, with what happens in them. -/
inductive Run (cfg : PoolConfig) (outcome : ℕ → ℕ → Bool) (handlers : List String) :
    List PoolAction → List PoolEvent → JobQueue → Prop
  | new : Run cfg outcome handlers [] [] (JobQueue.new handlers)
  | act {actions log q action q' events} (h : Run cfg outcome handlers actions log q)
      (ha : q.act cfg outcome action = some (q', events)) :
      Run cfg outcome handlers (actions ++ [action]) (log ++ events) q'

/-! ## Unfinished work -/

/-- How many entries of the queue a task has taken that are not reported by `task_done`: its job, or
a sentinel. -/
def load : WorkerTask → ℕ
  | .calling _ | .sleeping _ | .returned => 1
  | .getting | .raised => 0

/-- Changing one entry of a list changes a sum over it by that entry. -/
theorem sum_map_set {α : Type} {l : List α} {i : ℕ} {a b : α} (h : l[i]? = some a) (f : α → ℕ) :
    ((l.set i b).map f).sum + f a = (l.map f).sum + f b := by
  induction l generalizing i with
  | nil => simp at h
  | cons x l ih =>
    cases i with
    | zero =>
      obtain rfl : x = a := by simpa using h
      simp only [List.set_cons_zero, List.map_cons, List.sum_cons]
      omega
    | succ i =>
      have hi : l[i]? = some a := by simpa using h
      have hsum := ih hi
      simp only [List.set_cons_succ, List.map_cons, List.sum_cons]
      omega

/-- `unfinished` counts the entries of the queue and what the tasks have taken off it. -/
def Counted (q : JobQueue) : Prop :=
  q.unfinished = q.queue.length + (q.tasks.map load).sum

section

variable {cfg : PoolConfig} {outcome : ℕ → ℕ → Bool} {q : JobQueue} {worker : ℕ}

/-- A task with a load leaves something unfinished. -/
theorem Counted.unfinished_pos (h : q.Counted) {task : WorkerTask}
    (ht : q.tasks[worker]? = some task) (hl : load task = 1) : 0 < q.unfinished := by
  have hsum := sum_map_set (b := .getting) ht load
  have hget : load .getting = 0 := rfl
  rw [Counted] at h
  omega

/-- What a worker may do when it goes on, where `task_done` does not raise. -/
inductive Resumed (cfg : PoolConfig) (outcome : ℕ → ℕ → Bool) (q : JobQueue) (worker : ℕ) :
    JobQueue → List PoolEvent → Prop
  /-- It takes a job and calls its handler. -/
  | taken {job queue} (ht : q.tasks[worker]? = some .getting) (hq : q.queue = some job :: queue)
      (hhandler : job.job_type ∈ q.handlers) (hleft : job.attempt < job.max_attempts) :
      Resumed cfg outcome q worker
        { q with
          queue
          tasks := q.tasks.set worker (.calling { job with attempt := job.attempt + 1 }) }
        [.taken worker job.job_id, .called worker job.job_id (job.attempt + 1)]
  /-- It takes a job without a handler, or that may not be attempted. -/
  | skipped {job queue} (ht : q.tasks[worker]? = some .getting) (hq : q.queue = some job :: queue)
      (hno : job.job_type ∈ q.handlers → job.max_attempts ≤ job.attempt) :
      Resumed cfg outcome q worker
        { q with queue, unfinished := q.unfinished - 1, tasks := q.tasks.set worker .getting }
        [.taken worker job.job_id, .finished worker job.job_id]
  /-- It takes a sentinel and returns. -/
  | returned {queue} (ht : q.tasks[worker]? = some .getting) (hq : q.queue = none :: queue) :
      Resumed cfg outcome q worker { q with queue, tasks := q.tasks.set worker .returned }
        [.sentinel worker]
  /-- The attempt succeeds, or was the last one. -/
  | finished {job} (ht : q.tasks[worker]? = some (.calling job))
      (hlast : outcome job.job_id job.attempt = true ∨ job.max_attempts ≤ job.attempt) :
      Resumed cfg outcome q worker
        { q with unfinished := q.unfinished - 1, tasks := q.tasks.set worker .getting }
        [.finished worker job.job_id]
  /-- The attempt fails, and the next one has to wait. -/
  | waits {job delay} (ht : q.tasks[worker]? = some (.calling job))
      (hfails : outcome job.job_id job.attempt = false) (hleft : job.attempt < job.max_attempts)
      (hdelay : cfg.delay job.attempt = some delay) :
      Resumed cfg outcome q worker { q with tasks := q.tasks.set worker (.sleeping job) }
        [.waited worker job.job_id job.attempt delay]
  /-- The attempt fails, and the delay cannot be computed. -/
  | raised {job} (ht : q.tasks[worker]? = some (.calling job))
      (hfails : outcome job.job_id job.attempt = false) (hleft : job.attempt < job.max_attempts)
      (hdelay : cfg.delay job.attempt = none) :
      Resumed cfg outcome q worker
        { q with unfinished := q.unfinished - 1, tasks := q.tasks.set worker .raised }
        [.finished worker job.job_id]
  /-- It has slept, and calls the handler again. -/
  | called {job} (ht : q.tasks[worker]? = some (.sleeping job))
      (hleft : job.attempt < job.max_attempts) :
      Resumed cfg outcome q worker
        { q with tasks := q.tasks.set worker (.calling { job with attempt := job.attempt + 1 }) }
        [.called worker job.job_id (job.attempt + 1)]
  /-- It has slept after the last attempt, which does not happen. -/
  | slept {job} (ht : q.tasks[worker]? = some (.sleeping job))
      (hlast : job.max_attempts ≤ job.attempt) :
      Resumed cfg outcome q worker
        { q with unfinished := q.unfinished - 1, tasks := q.tasks.set worker .getting }
        [.finished worker job.job_id]

/-- While something is unfinished, `task_done` does not raise. -/
theorem finish_of_pos (h : 0 < q.unfinished) (job_id : ℕ) (next : WorkerTask) :
    q.finish worker job_id next = ({ q with
      unfinished := q.unfinished - 1
      tasks := q.tasks.set worker next }, [.finished worker job_id]) :=
  if_neg (Nat.pos_iff_ne_zero.1 h)

/-- A worker that goes on does one of these. -/
theorem Counted.resumed (h : q.Counted) {q' : JobQueue} {events : List PoolEvent}
    (hr : q.resume cfg outcome worker = some (q', events)) :
    Resumed cfg outcome q worker q' events := by
  unfold resume at hr
  split at hr
  -- The worker waits for an entry.
  · next ht =>
    split at hr
    · next job queue hq =>
      have hpos : 0 < ({ q with queue } : JobQueue).unfinished := by
        rw [Counted, hq, List.length_cons] at h
        dsimp only
        omega
      unfold runWithRetries attempt at hr
      split_ifs at hr with hhandler hleft
      · cases hr
        exact .taken ht hq hhandler hleft
      · rw [finish_of_pos hpos] at hr
        cases hr
        exact .skipped ht hq fun _ => Nat.le_of_not_lt hleft
      · rw [finish_of_pos hpos] at hr
        cases hr
        exact .skipped ht hq fun hmem => absurd hmem hhandler
    · next queue hq =>
      cases hr
      exact .returned ht hq
    · cases hr
  · next job ht =>
    -- The attempt is over. A worker with a job counts, so `task_done` does not raise.
    have hpos := h.unfinished_pos ht rfl
    split_ifs at hr with hok
    · rw [finish_of_pos hpos] at hr
      cases hr
      exact .finished ht (.inl hok)
    · unfold failed at hr
      have hfails : outcome job.job_id job.attempt = false := by simpa using hok
      split_ifs at hr with hlast
      · rw [finish_of_pos hpos] at hr
        cases hr
        exact .finished ht (.inr hlast)
      · split at hr
        · next delay hdelay =>
          cases hr
          exact .waits ht hfails (Nat.lt_of_not_le hlast) hdelay
        · next hdelay =>
          rw [finish_of_pos hpos] at hr
          cases hr
          exact .raised ht hfails (Nat.lt_of_not_le hlast) hdelay
  -- The delay is over.
  · next job ht =>
    have hpos := h.unfinished_pos ht rfl
    unfold attempt at hr
    split_ifs at hr with hleft
    · cases hr
      exact .called ht hleft
    · rw [finish_of_pos hpos] at hr
      cases hr
      exact .slept ht (Nat.le_of_not_lt hleft)
  · cases hr
  · cases hr
  · cases hr

/-- The count stays right when a worker goes on. -/
theorem Counted.of_resumed (h : q.Counted) {q' : JobQueue} {events : List PoolEvent}
    (hr : Resumed cfg outcome q worker q' events) : q'.Counted := by
  have hcall : ∀ job, load (.calling job) = 1 := fun _ => rfl
  have hsleep : ∀ job, load (.sleeping job) = 1 := fun _ => rfl
  have hget : load .getting = 0 := rfl
  have hraise : load .raised = 0 := rfl
  have hreturn : load .returned = 1 := rfl
  unfold Counted at h ⊢
  cases hr with
  | @taken job queue ht hq =>
    have hsum := sum_map_set (b := .calling { job with attempt := job.attempt + 1 }) ht load
    rw [hq, List.length_cons] at h
    dsimp only
    rw [hcall] at hsum
    omega
  | skipped ht hq =>
    have hsum := sum_map_set (b := .getting) ht load
    rw [hq, List.length_cons] at h
    dsimp only
    omega
  | returned ht hq =>
    have hsum := sum_map_set (b := .returned) ht load
    rw [hq, List.length_cons] at h
    dsimp only
    omega
  | @finished job ht =>
    have hsum := sum_map_set (b := .getting) ht load
    rw [hcall] at hsum
    dsimp only
    omega
  | @waits job delay ht =>
    have hsum := sum_map_set (b := .sleeping job) ht load
    rw [hcall, hsleep] at hsum
    dsimp only
    omega
  | @raised job ht =>
    have hsum := sum_map_set (b := .raised) ht load
    rw [hcall] at hsum
    dsimp only
    omega
  | @called job ht =>
    have hsum := sum_map_set (b := .calling { job with attempt := job.attempt + 1 }) ht load
    rw [hcall, hsleep] at hsum
    dsimp only
    omega
  | @slept job ht =>
    have hsum := sum_map_set (b := .getting) ht load
    rw [hsleep] at hsum
    dsimp only
    omega

/-- In every interleaving the count is right. -/
theorem Run.counted {handlers : List String} {actions : List PoolAction} {log : List PoolEvent}
    (h : Run cfg outcome handlers actions log q) : q.Counted := by
  induction h with
  | new => rfl
  | @act _ _ q action q' events _ ha ih =>
    cases action with
    | enqueue job_type payload max_attempts =>
      cases ha
      simp only [Counted, List.length_append, List.length_singleton] at ih ⊢
      omega
    | start =>
      cases ha
      unfold JobQueue.start
      split_ifs
      · simpa [Counted, load] using ih
      · exact ih
    | stop =>
      replace ha : some q.stop = some (q', events) := ha
      unfold JobQueue.stop at ha
      split_ifs at ha <;> cases ha
      · exact ih
      · simp only [Counted, List.length_append, List.length_replicate] at ih ⊢
        omega
    | resume worker => exact ih.of_resumed (ih.resumed ha)
    | gathered call =>
      replace ha : q.gathered call = some (q', events) := ha
      unfold JobQueue.gathered at ha
      split at ha
      · split_ifs at ha
        cases ha
        exact ih
      · cases ha

end

end JobQueue

end DropRoom
