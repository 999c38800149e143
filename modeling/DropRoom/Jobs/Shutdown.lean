import DropRoom.Jobs.Workers
import Mathlib.Data.List.Induction

/-!
# Stopping the job queue

`stop` puts one sentinel for each worker behind all jobs. In one life of the queue (`phase`: jobs are
enqueued, `start` is called, and `stop` after the last job) each worker takes one of them and
returns, so when `stop` returns, every job is done. That it does return follows from a cost that
every step of a worker lowers, and from a step being possible until then.
-/

namespace DropRoom

/-- Where the life of a queue is. -/
inductive PoolPhase
  | before | running | stopping
  deriving DecidableEq

namespace PoolPhase

/-- The phase after an action: `start` is called before `stop`, and no job is enqueued after it. -/
def next : PoolPhase → PoolAction → Option PoolPhase
  | before, .enqueue .. => some before
  | before, .start => some running
  | running, .enqueue .. => some running
  | running, .start => some running
  | running, .stop => some stopping
  | phase, .resume _ => some phase
  | phase, .gathered _ => some phase
  | _, _ => none

end PoolPhase

namespace JobQueue

open PoolEvent

/-- The phase after some actions, where they make up a life of the queue. -/
def phase (actions : List PoolAction) : Option PoolPhase := actions.foldlM PoolPhase.next .before

/-- The task has returned. -/
def isReturned : WorkerTask → Bool
  | .returned => true
  | .getting | .calling _ | .sleeping _ | .raised => false

/-- The event is that the worker takes a sentinel. -/
def isSentinel (worker : ℕ) : PoolEvent → Bool
  | .sentinel w => w == worker
  | .enqueued _ | .taken .. | .called .. | .waited .. | .finished .. | .stopped => false

/-- The queue in the phases of its life: the jobs come first, and each sentinel is in the queue or
was taken by a worker that has returned. -/
structure Shape (cfg : PoolConfig) (ph : PoolPhase) (q : JobQueue) (log : List PoolEvent) :
    Prop where
  before : ph = .before → q.tasks = [] ∧ q.worker_tasks = []
  length : ph ≠ .before → q.tasks.length = cfg.workers_count
  running : ph = .running → q.worker_tasks = List.range cfg.workers_count
  notStopped : ph ≠ .stopping → q.stopping = [] ∧ .stopped ∉ log
  queue : ∃ jobs k, q.queue = jobs.map some ++ List.replicate k none ∧
    k + q.tasks.countP isReturned = (if ph = .stopping then cfg.workers_count else 0) ∧
      (jobs ≠ [] → q.tasks.countP isReturned = 0)
  sentinels : ∀ w, log.countP (isSentinel w) = ((q.tasks[w]?.map isReturned).getD false).toNat
  waiting : ph = .stopping → (q.stopping = [List.range cfg.workers_count] ∧ .stopped ∉ log) ∨
    (q.stopping = [] ∧ .stopped ∈ log ∧
      ∀ w : ℕ, ∀ task : WorkerTask, q.tasks[w]? = some task → task.ended = true)

section

variable {cfg : PoolConfig} {outcome : ℕ → ℕ → Bool} {q q' : JobQueue}
  {log events : List PoolEvent} {worker : ℕ}

/-- What the step of a worker does to the queue as a whole. -/
theorem Resumed.shape (h : Resumed cfg outcome q worker q' events) :
    ∃ old new, q.tasks[worker]? = some old ∧ old.ended = false ∧
      q'.tasks = q.tasks.set worker new ∧ q'.worker_tasks = q.worker_tasks ∧
      q'.stopping = q.stopping ∧ .stopped ∉ events ∧
      ((isReturned new = false ∧ (∀ w, events.countP (isSentinel w) = 0) ∧
        (q'.queue = q.queue ∨ ∃ job, q.queue = some job :: q'.queue)) ∨
      (isReturned new = true ∧ events = [.sentinel worker] ∧ q.queue = none :: q'.queue)) := by
  cases h with
  | taken ht hq =>
    refine ⟨_, _, ht, rfl, rfl, rfl, rfl, by simp, .inl ⟨rfl, fun w => rfl, .inr ⟨_, hq⟩⟩⟩
  | skipped ht hq =>
    refine ⟨_, _, ht, rfl, rfl, rfl, rfl, by simp, .inl ⟨rfl, fun w => rfl, .inr ⟨_, hq⟩⟩⟩
  | returned ht hq => exact ⟨_, _, ht, rfl, rfl, rfl, rfl, by simp, .inr ⟨rfl, rfl, hq⟩⟩
  | finished ht => exact ⟨_, _, ht, rfl, rfl, rfl, rfl, by simp, .inl ⟨rfl, fun w => rfl, .inl rfl⟩⟩
  | waits ht => exact ⟨_, _, ht, rfl, rfl, rfl, rfl, by simp, .inl ⟨rfl, fun w => rfl, .inl rfl⟩⟩
  | raised ht => exact ⟨_, _, ht, rfl, rfl, rfl, rfl, by simp, .inl ⟨rfl, fun w => rfl, .inl rfl⟩⟩
  | called ht => exact ⟨_, _, ht, rfl, rfl, rfl, rfl, by simp, .inl ⟨rfl, fun w => rfl, .inl rfl⟩⟩
  | slept ht => exact ⟨_, _, ht, rfl, rfl, rfl, rfl, by simp, .inl ⟨rfl, fun w => rfl, .inl rfl⟩⟩

/-- A task that has not ended is exchanged. -/
theorem countP_returned_set {old new : WorkerTask} (ht : q.tasks[worker]? = some old)
    (hold : old.ended = false) : (q.tasks.set worker new).countP isReturned =
      q.tasks.countP isReturned + (isReturned new).toNat := by
  obtain ⟨hlt, hget⟩ := List.getElem?_eq_some_iff.1 ht
  have hno : isReturned q.tasks[worker] = false := by
    rw [hget]
    cases old <;> first | rfl | cases hold
  rw [List.countP_set hlt, hno]
  cases isReturned new <;> simp

/-- The shape is kept when a worker goes on. -/
theorem Shape.of_resumed {ph : PoolPhase} (h : Shape cfg ph q log)
    (hr : Resumed cfg outcome q worker q' events) : Shape cfg ph q' (log ++ events) := by
  obtain ⟨old, new, ht, hold, htasks, hworkers, hstopping, hstopped, hcase⟩ := hr.shape
  have hlt : worker < q.tasks.length := (List.getElem?_eq_some_iff.1 ht).1
  have hnone : isReturned old = false := by cases old <;> first | rfl | cases hold
  -- One worker has a new task: only it can have become returned.
  have hset : ∀ w, (((q.tasks.set worker new)[w]?.map isReturned).getD false).toNat =
      ((q.tasks[w]?.map isReturned).getD false).toNat +
        if w = worker then (isReturned new).toNat else 0 := by
    intro w
    by_cases hw : w = worker
    · subst hw
      rw [List.getElem?_set_self hlt, ht, if_pos rfl, Option.map_some, Option.map_some, hnone]
      cases isReturned new <;> rfl
    · rw [List.getElem?_set_ne (Ne.symm hw), if_neg hw, Nat.add_zero]
  have hcount : q'.tasks.countP isReturned =
      q.tasks.countP isReturned + (isReturned new).toNat := by
    rw [htasks]
    exact countP_returned_set ht hold
  -- Before `start` no worker is there, so none resumes.
  refine ⟨fun hph => ?_, fun hph => ?_, fun hph => ?_, fun hph => ?_, ?_, fun w => ?_, fun hph => ?_⟩
  · rw [(h.before hph).1] at hlt
    exact absurd hlt (Nat.not_lt_zero _)
  · rw [htasks, List.length_set]
    exact h.length hph
  · rw [hworkers]
    exact h.running hph
  · rw [hstopping, List.mem_append]
    obtain ⟨hnil, hno⟩ := h.notStopped hph
    exact ⟨hnil, not_or.2 ⟨hno, hstopped⟩⟩
  -- The queue is still jobs, and behind them the sentinels that nobody has taken.
  · obtain ⟨jobs, k, hq, hk, hjobs⟩ := h.queue
    rcases hcase with ⟨hnew, -, hsame | ⟨job, htaken⟩⟩ | ⟨hnew, -, htaken⟩
    · rw [hcount, hnew, hsame]
      exact ⟨jobs, k, hq, hk, hjobs⟩
    · -- The first entry is a job, so it is the first of the jobs.
      rw [hcount, hnew]
      cases jobs with
      | nil =>
        rw [htaken] at hq
        cases k with
        | zero => cases hq
        | succ k => cases hq
      | cons job' jobs =>
        rw [htaken, List.map_cons, List.cons_append] at hq
        refine ⟨jobs, k, (List.cons.inj hq).2, hk, fun _ => hjobs (List.cons_ne_nil _ _)⟩
    · -- The first entry is a sentinel, so there are no jobs left.
      rw [hcount, hnew]
      rw [htaken] at hq
      cases jobs with
      | cons job jobs => cases hq
      | nil =>
        cases k with
        | zero => cases hq
        | succ k =>
          refine ⟨[], k, (List.cons.inj hq).2, ?_, fun hne => absurd rfl hne⟩
          rw [← hk, Bool.toNat_true]
          omega
  -- The log has the sentinel of a worker exactly if the worker has returned.
  · rw [List.countP_append, h.sentinels w, htasks, hset w]
    congr 1
    rcases hcase with ⟨hnew, hevents, -⟩ | ⟨hnew, rfl, -⟩
    · rw [hevents w, hnew]
      split <;> rfl
    · rw [hnew]
      by_cases hw : w = worker
      · subst hw
        simp [isSentinel]
      · rw [if_neg hw]
        simp [isSentinel, Ne.symm hw]
  -- A worker that resumes has not ended, so `stop` still waits.
  · rcases h.waiting hph with ⟨hwait, hno⟩ | ⟨-, -, hended⟩
    · refine .inl ⟨hstopping.trans hwait, ?_⟩
      rw [List.mem_append]
      exact not_or.2 ⟨hno, hstopped⟩
    · rw [hended worker old ht] at hold
      cases hold

end

section

variable {cfg : PoolConfig} {outcome : ℕ → ℕ → Bool} {handlers : List String}
  {actions : List PoolAction} {log : List PoolEvent} {q : JobQueue}

/-- One action more. -/
theorem phase_snoc (action : PoolAction) :
    phase (actions ++ [action]) = (phase actions).bind fun ph => ph.next action := by
  rw [phase, List.foldlM_append]
  cases h : actions.foldlM PoolPhase.next .before with
  | none =>
    rw [phase, h]
    rfl
  | some ph =>
    rw [phase, h]
    change (ph.next action).bind some = ph.next action
    cases ph.next action <;> rfl

/-- A new job keeps the shape before the stop. -/
theorem Shape.enqueue {ph : PoolPhase} (h : Shape cfg ph q log) (hph : ph ≠ .stopping)
    (job : QueuedJob) {unfinished created : ℕ} :
    Shape cfg ph { q with queue := q.queue ++ [some job], unfinished, created }
      (log ++ [.enqueued job]) := by
  refine ⟨h.before, h.length, h.running, fun hne => ?_, ?_, fun w => ?_, fun hstop => ?_⟩
  · simpa using h.notStopped hne
  · obtain ⟨jobs, k, hq, hk, hjobs⟩ := h.queue
    rw [if_neg hph] at hk ⊢
    obtain rfl : k = 0 := by omega
    have hnone : q.tasks.countP isReturned = 0 := by omega
    refine ⟨jobs ++ [job], 0, ?_, hk, fun _ => hnone⟩
    rw [hq]
    simp
  · rw [List.countP_append, h.sentinels w]
    rfl
  · exact absurd hstop hph

/-- `start` creates the workers. -/
theorem Shape.start (h : Shape cfg .before q log) : Shape cfg .running (q.start cfg) log := by
  obtain ⟨htasks, hworkers⟩ := h.before rfl
  have hstart : q.start cfg = { q with
      tasks := List.replicate cfg.workers_count .getting
      worker_tasks := List.range cfg.workers_count } := by
    rw [JobQueue.start, if_pos hworkers, htasks]
    simp
  have hcount : (List.replicate cfg.workers_count WorkerTask.getting).countP isReturned = 0 := by
    rw [List.countP_eq_zero]
    intro task hmem
    rw [List.eq_of_mem_replicate hmem]
    exact Bool.false_ne_true
  rw [hstart]
  refine ⟨fun hph => (by cases hph), fun _ => List.length_replicate, fun _ => rfl,
    fun _ => h.notStopped (by decide), ?_, fun w => ?_, fun hph => (by cases hph)⟩
  · obtain ⟨jobs, k, hq, hk, -⟩ := h.queue
    rw [if_neg (by decide)] at hk
    refine ⟨jobs, k, hq, ?_, fun _ => hcount⟩
    rw [if_neg (by decide)]
    dsimp only
    omega
  · rw [h.sentinels w, htasks]
    dsimp only
    rw [List.getElem?_replicate]
    split <;> rfl

/-- `stop` puts one sentinel for each worker behind the jobs. -/
theorem Shape.stop (hn : 0 < cfg.workers_count) (h : Shape cfg .running q log) :
    q.stop.2 = [] ∧ Shape cfg .stopping q.stop.1 log := by
  have hworkers := h.running rfl
  obtain ⟨hstopping, hno⟩ := h.notStopped (by decide)
  have hne : q.worker_tasks ≠ [] := by
    rw [hworkers]
    intro hnil
    rw [List.range_eq_nil] at hnil
    omega
  have hstop : q.stop = ({ q with
      queue := q.queue ++ List.replicate cfg.workers_count none
      unfinished := q.unfinished + q.worker_tasks.length
      stopping := [List.range cfg.workers_count] }, []) := by
    rw [JobQueue.stop, if_neg hne, hstopping, hworkers, List.length_range]
    rfl
  rw [hstop]
  refine ⟨rfl, fun hph => (by cases hph), fun _ => h.length (by decide), fun hph => (by cases hph),
    fun hph => absurd rfl hph, ?_, h.sentinels, fun _ => .inl ⟨rfl, hno⟩⟩
  obtain ⟨jobs, k, hq, hk, hjobs⟩ := h.queue
  rw [if_neg (by decide)] at hk
  obtain rfl : k = 0 := by omega
  refine ⟨jobs, cfg.workers_count, ?_, ?_, hjobs⟩
  · rw [hq, List.replicate_zero, List.append_nil]
  · rw [if_pos rfl]
    dsimp only
    omega

/-- `stop` returns when all workers have ended. -/
theorem Shape.gathered {ph : PoolPhase} (h : Shape cfg ph q log) {call : ℕ} {q' : JobQueue}
    {events : List PoolEvent} (ha : q.gathered call = some (q', events)) :
    Shape cfg ph q' (log ++ events) := by
  unfold JobQueue.gathered at ha
  split at ha
  · next tasks hcall =>
    split_ifs at ha with hall
    cases ha
    by_cases hph : ph = .stopping
    -- `stop` returns here: it is the one call that waits, and for all the workers.
    · subst hph
      obtain ⟨hstopping, -⟩ | ⟨hstopping, -, -⟩ := h.waiting rfl
      · rw [hstopping] at hcall
        obtain ⟨rfl, rfl⟩ : call = 0 ∧ List.range cfg.workers_count = tasks := by
          cases call with
          | zero => exact ⟨rfl, by simpa using hcall⟩
          | succ call => cases hcall
        refine ⟨fun hph => (by cases hph), h.length, fun hph => (by cases hph),
          fun hph => absurd rfl hph, h.queue, fun w => ?_, fun _ => .inr ⟨?_, by simp, ?_⟩⟩
        · rw [List.countP_append, h.sentinels w]
          rfl
        · dsimp only
          rw [hstopping]
          rfl
        · intro w task hw
          have hlt : w < cfg.workers_count := by
            rw [← h.length (by decide)]
            exact (List.getElem?_eq_some_iff.1 hw).1
          have hended := List.all_eq_true.1 hall w (List.mem_range.2 hlt)
          dsimp only at hw
          rw [hw] at hended
          exact hended
      · rw [hstopping] at hcall
        cases hcall
    · rw [(h.notStopped hph).1] at hcall
      cases hcall
  · cases ha

/-- The shape holds throughout a life of the queue. -/
theorem Run.shape (hn : 0 < cfg.workers_count) (h : Run cfg outcome handlers actions log q)
    {ph : PoolPhase} (hph : phase actions = some ph) : Shape cfg ph q log := by
  induction h generalizing ph with
  | new =>
    obtain rfl := Option.some.inj hph
    refine ⟨fun _ => ⟨rfl, rfl⟩, fun hne => absurd rfl hne, fun h => (by cases h),
      fun _ => ⟨rfl, List.not_mem_nil⟩, ⟨[], 0, rfl, rfl, fun hne => absurd rfl hne⟩, fun _ => rfl,
      fun h => (by cases h)⟩
  | @act actions log q action q' events hrun ha ih =>
    rw [phase_snoc, Option.bind_eq_some_iff] at hph
    obtain ⟨ph₀, hph₀, hnext⟩ := hph
    have hshape := ih hph₀
    cases action with
    | enqueue job_type payload max_attempts =>
      -- Jobs come before `stop`.
      have hsame : ph₀ ≠ .stopping ∧ ph = ph₀ := by
        cases ph₀ with
        | before => exact ⟨by decide, (Option.some.inj hnext).symm⟩
        | running => exact ⟨by decide, (Option.some.inj hnext).symm⟩
        | stopping => cases hnext
      cases ha
      rw [hsame.2]
      exact hshape.enqueue hsame.1 _
    | start =>
      cases ha
      rw [List.append_nil]
      cases ph₀ with
      | before =>
        obtain rfl := Option.some.inj hnext
        exact hshape.start
      -- A second `start` finds the workers and does nothing.
      | running =>
        obtain rfl := Option.some.inj hnext
        have hne : q.worker_tasks ≠ [] := by
          rw [hshape.running rfl]
          intro hnil
          rw [List.range_eq_nil] at hnil
          omega
        rw [JobQueue.start, if_neg hne]
        exact hshape
      | stopping => cases hnext
    | stop =>
      cases ph₀ with
      | running =>
        obtain rfl := Option.some.inj hnext
        obtain ⟨hevents, hstop⟩ := hshape.stop hn
        have hq := Option.some.inj ha
        rw [hq] at hevents hstop
        dsimp only at hevents
        rw [hevents, List.append_nil]
        exact hstop
      | before => cases hnext
      | stopping => cases hnext
    | resume worker =>
      have hsame : ph = ph₀ := by cases ph₀ <;> exact (Option.some.inj hnext).symm
      rw [hsame]
      exact hshape.of_resumed (hrun.counted.resumed ha)
    | gathered call =>
      have hsame : ph = ph₀ := by cases ph₀ <;> exact (Option.some.inj hnext).symm
      rw [hsame]
      exact hshape.gathered ha

end

/-! ## What has happened when `stop` returns -/

/-- Every job is done, by one worker that has called its handler as often as it should, and every
worker has taken one sentinel and has returned. -/
structure Exact (cfg : PoolConfig) (outcome : ℕ → ℕ → Bool) (handlers : List String)
    (q : JobQueue) (log : List PoolEvent) : Prop where
  jobs : ∀ job, .enqueued job ∈ log → ∃ worker n, worker < cfg.workers_count ∧
    history log job.job_id = served cfg worker job.job_id n ∧
      (job.job_type ∈ handlers → Calls outcome job n) ∧ (job.job_type ∉ handlers → n = 0)
  created : q.tasks.length = cfg.workers_count
  workers : ∀ worker, worker < cfg.workers_count →
    q.tasks[worker]? = some .returned ∧ log.countP (isSentinel worker) = 1

/-- What is left to do for an entry of the queue. -/
def entryCost : Option QueuedJob → ℕ
  | some job => 2 * (job.max_attempts - job.attempt) + 3
  | none => 1

/-- What is left to do for a worker. -/
def taskCost : WorkerTask → ℕ
  | .calling job => 2 * (job.max_attempts - job.attempt) + 2
  | .sleeping job => 2 * (job.max_attempts - job.attempt) + 1
  | .getting | .returned | .raised => 0

/-- What is left to do. -/
def cost (q : JobQueue) : ℕ :=
  (q.queue.map entryCost).sum + (q.tasks.map taskCost).sum + q.stopping.length

section

variable {cfg : PoolConfig} {outcome : ℕ → ℕ → Bool} {handlers : List String}
  {actions : List PoolAction} {log events : List PoolEvent} {q q' : JobQueue} {worker : ℕ}

/-- A worker that goes on does some of what is left. -/
theorem cost_lt_of_resumed (h : Resumed cfg outcome q worker q' events) : q'.cost < q.cost := by
  have hget : taskCost .getting = 0 := rfl
  have hreturn : taskCost .returned = 0 := rfl
  have hraise : taskCost .raised = 0 := rfl
  have hcall : ∀ job, taskCost (.calling job) = 2 * (job.max_attempts - job.attempt) + 2 :=
    fun _ => rfl
  have hsleep : ∀ job, taskCost (.sleeping job) = 2 * (job.max_attempts - job.attempt) + 1 :=
    fun _ => rfl
  have hjob : ∀ job, entryCost (some job) = 2 * (job.max_attempts - job.attempt) + 3 :=
    fun _ => rfl
  have hnone : entryCost none = 1 := rfl
  -- In each case one entry or one attempt is used up.
  unfold cost
  cases h with
  | @taken job queue ht hq _ hleft =>
    have hsum : _ = _ + taskCost (.calling { job with attempt := job.attempt + 1 }) :=
      sum_map_set ht taskCost
    rw [hcall] at hsum
    rw [hq, List.map_cons, List.sum_cons, hjob]
    dsimp only at hsum ⊢
    omega
  | @skipped job queue ht hq =>
    have hsum : _ = _ + taskCost .getting := sum_map_set ht taskCost
    rw [hq, List.map_cons, List.sum_cons, hjob]
    dsimp only
    omega
  | returned ht hq =>
    have hsum : _ = _ + taskCost .returned := sum_map_set ht taskCost
    rw [hq, List.map_cons, List.sum_cons, hnone]
    dsimp only
    omega
  | @finished job ht =>
    have hsum : _ = _ + taskCost .getting := sum_map_set ht taskCost
    rw [hcall] at hsum
    dsimp only
    omega
  | @waits job delay ht =>
    have hsum : _ = _ + taskCost (.sleeping job) := sum_map_set ht taskCost
    rw [hcall, hsleep] at hsum
    dsimp only
    omega
  | @raised job ht =>
    have hsum : _ = _ + taskCost .raised := sum_map_set ht taskCost
    rw [hcall] at hsum
    dsimp only
    omega
  | @called job ht hleft =>
    have hsum : _ = _ + taskCost (.calling { job with attempt := job.attempt + 1 }) :=
      sum_map_set ht taskCost
    rw [hcall, hsleep] at hsum
    dsimp only at hsum ⊢
    omega
  | @slept job ht =>
    have hsum : _ = _ + taskCost .getting := sum_map_set ht taskCost
    rw [hsleep] at hsum
    dsimp only
    omega

/-- So does the return of `stop`. -/
theorem cost_lt_of_gathered {call : ℕ} (h : q.gathered call = some (q', events)) :
    q'.cost < q.cost := by
  unfold JobQueue.gathered at h
  split at h
  · next tasks hcall =>
    split_ifs at h
    cases h
    have hlt : call < q.stopping.length := (List.getElem?_eq_some_iff.1 hcall).1
    unfold cost
    dsimp only
    rw [List.length_eraseIdx_of_lt hlt]
    omega
  · cases h

/-- The last action of an interleaving. -/
theorem Run.snoc_inv {action : PoolAction} (h : Run cfg outcome handlers (actions ++ [action]) log q) :
    ∃ log₀ q₀ events, Run cfg outcome handlers actions log₀ q₀ ∧
      q₀.act cfg outcome action = some (q, events) ∧ log = log₀ ++ events := by
  generalize hactions : actions ++ [action] = actions' at h
  cases h with
  | new => simp at hactions
  | act h ha =>
    obtain ⟨rfl, hlast⟩ := List.append_inj' hactions rfl
    obtain rfl : action = _ := List.head_eq_of_cons_eq hlast
    exact ⟨_, _, _, h, ha, rfl⟩

/-- The interleaving without actions. -/
theorem Run.nil_inv (h : Run cfg outcome handlers [] log q) :
    log = [] ∧ q = JobQueue.new handlers := by
  generalize hactions : ([] : List PoolAction) = actions at h
  cases h with
  | new => exact ⟨rfl, rfl⟩
  | act => simp at hactions

/-- The actions determine what happens. -/
theorem Run.unique {log' : List PoolEvent} (h : Run cfg outcome handlers actions log q)
    (h' : Run cfg outcome handlers actions log' q') : log = log' ∧ q = q' := by
  induction h generalizing log' q' with
  | new =>
    obtain ⟨rfl, rfl⟩ := h'.nil_inv
    exact ⟨rfl, rfl⟩
  | act _ ha ih =>
    obtain ⟨log₀, q₀, events, h₀, ha₀, rfl⟩ := h'.snoc_inv
    obtain ⟨rfl, rfl⟩ := ih h₀
    rw [ha] at ha₀
    cases ha₀
    exact ⟨rfl, rfl⟩

/-- Nothing follows the last phase. -/
theorem stopping_of_append (hph : phase actions = some .stopping) {later : List PoolAction}
    {ph : PoolPhase} (h : phase (actions ++ later) = some ph) : ph = .stopping := by
  induction later using List.reverseRecOn generalizing ph with
  | nil =>
    rw [List.append_nil, hph] at h
    exact (Option.some.inj h).symm
  | append_singleton later action ih =>
    rw [← List.append_assoc, phase_snoc, Option.bind_eq_some_iff] at h
    obtain ⟨ph₀, hph₀, hnext⟩ := h
    obtain rfl := ih hph₀
    cases action with
    | resume worker => exact (Option.some.inj hnext).symm
    | gathered call => exact (Option.some.inj hnext).symm
    | enqueue => cases hnext
    | start => cases hnext
    | stop => cases hnext

/-- Once `stop` was called there is no more to come than what is left to do. -/
theorem Run.length_le (h : Run cfg outcome handlers actions log q)
    (hph : phase actions = some .stopping) {later : List PoolAction} {log' : List PoolEvent}
    (h' : Run cfg outcome handlers (actions ++ later) log' q')
    (hph' : phase (actions ++ later) = some .stopping) : later.length + q'.cost ≤ q.cost := by
  induction later using List.reverseRecOn generalizing log' q' with
  | nil =>
    rw [List.append_nil] at h'
    obtain ⟨-, rfl⟩ := h.unique h'
    rw [List.length_nil, Nat.zero_add]
  | append_singleton later action ih =>
    rw [← List.append_assoc] at h' hph'
    obtain ⟨log₀, q₀, events, h₀, ha, -⟩ := h'.snoc_inv
    rw [phase_snoc, Option.bind_eq_some_iff] at hph'
    obtain ⟨ph₀, hph₀, hnext⟩ := hph'
    obtain rfl := stopping_of_append hph hph₀
    have hlt : q'.cost < q₀.cost := by
      cases action with
      | resume worker => exact cost_lt_of_resumed (h₀.counted.resumed ha)
      | gathered call => exact cost_lt_of_gathered ha
      | enqueue => cases hnext
      | start => cases hnext
      | stop => cases hnext
    have hle := ih h₀ hph₀
    rw [List.length_append, List.length_singleton]
    omega

/-- When `stop` returns, everything has happened. -/
theorem Shape.exact (hn : 0 < cfg.workers_count) (h : Shape cfg .stopping q log)
    (hkept : Kept cfg outcome q log) (hstopped : .stopped ∈ log) :
    Exact cfg outcome q.handlers q log := by
  have hlength : q.tasks.length = cfg.workers_count := h.length (by decide)
  -- `stop` has returned, so it has waited for every worker.
  have hended : ∀ w : ℕ, ∀ task : WorkerTask, q.tasks[w]? = some task → task.ended = true := by
    rcases h.waiting rfl with ⟨-, hno⟩ | ⟨-, -, hended⟩
    · exact absurd hstopped hno
    · exact hended
  -- None of them has raised, so each took a sentinel.
  have hreturned : ∀ w : ℕ, ∀ task : WorkerTask, q.tasks[w]? = some task → task = .returned := by
    intro w task hw
    have hserving := hkept.serving w task hw
    have hend := hended w task hw
    cases task with
    | returned => rfl
    | raised => exact hserving.elim
    | getting => cases hend
    | calling job => cases hend
    | sleeping job => cases hend
  have hcount : q.tasks.countP isReturned = cfg.workers_count := by
    rw [← hlength, List.countP_eq_length]
    intro task hmem
    obtain ⟨w, hw⟩ := List.mem_iff_getElem?.1 hmem
    rw [hreturned w task hw]
    rfl
  -- As many sentinels were put as there are workers, so none is left, and no job before them.
  have hqueue : q.queue = [] := by
    obtain ⟨jobs, k, hq, hk, hjobs⟩ := h.queue
    rw [if_pos rfl] at hk
    obtain rfl : k = 0 := by omega
    cases jobs with
    | nil => exact hq
    | cons job jobs =>
      have hzero := hjobs (List.cons_ne_nil _ _)
      omega
  refine ⟨fun job hjob => ?_, hlength, fun w hw => ?_⟩
  · rcases hkept.placed job hjob with ⟨job', hmem | ⟨w, hw⟩, -⟩ | ⟨w, n, hw, hdone⟩
    · rw [hqueue] at hmem
      cases hmem
    · obtain ⟨task, htask, hjob'⟩ := Option.bind_eq_some_iff.1 hw
      rw [hreturned w task htask] at hjob'
      cases hjob'
    · exact ⟨w, n, hlength ▸ hw, hdone⟩
  · have hlt : w < q.tasks.length := hlength ▸ hw
    have hget : q.tasks[w]? = some .returned := by
      rw [List.getElem?_eq_getElem hlt]
      exact congrArg some (hreturned w _ (List.getElem?_eq_getElem hlt))
    refine ⟨hget, ?_⟩
    rw [h.sentinels w, hget]
    rfl

/-- A worker that has not ended can go on, unless it waits for an entry of the queue. -/
theorem exists_resume {task : WorkerTask} (ht : q.tasks[worker]? = some task)
    (hended : task.ended = false) (hqueue : task = .getting → q.queue ≠ []) :
    ∃ q' events, q.resume cfg outcome worker = some (q', events) := by
  cases task with
  | getting =>
    cases hq : q.queue with
    | nil => exact absurd hq (hqueue rfl)
    | cons entry queue =>
      cases entry with
      | none => exact ⟨_, _, by rw [resume, ht]; simp only [hq]; rfl⟩
      | some job => exact ⟨_, _, by rw [resume, ht]; simp only [hq]; rfl⟩
  | calling job =>
    cases hok : outcome job.job_id job.attempt with
    | false => exact ⟨_, _, by rw [resume, ht]; simp only [hok]; rfl⟩
    | true => exact ⟨_, _, by rw [resume, ht]; simp only [hok]; rfl⟩
  | sleeping job => exact ⟨_, _, by rw [resume, ht]⟩
  | returned => cases hended
  | raised => cases hended

/-- Until `stop` returns, somebody can go on. -/
theorem Shape.progress (h : Shape cfg .stopping q log) (hno : .stopped ∉ log) :
    ∃ action q' events, q.act cfg outcome action = some (q', events) ∧
      PoolPhase.next .stopping action = some .stopping := by
  have hlength : q.tasks.length = cfg.workers_count := h.length (by decide)
  have hstopping : q.stopping = [List.range cfg.workers_count] := by
    rcases h.waiting rfl with ⟨hwait, -⟩ | ⟨-, hstopped, -⟩
    · exact hwait
    · exact absurd hstopped hno
  by_cases hall : ∀ w : ℕ, ∀ task : WorkerTask, q.tasks[w]? = some task → task.ended = true
  · refine ⟨.gathered 0, { q with worker_tasks := [], stopping := q.stopping.eraseIdx 0 },
      [.stopped], ?_, rfl⟩
    have hget : q.stopping[0]? = some (List.range cfg.workers_count) := by
      rw [hstopping]
      rfl
    have hended : (List.range cfg.workers_count).all
        (fun w => (q.tasks[w]?.map WorkerTask.ended).getD true) = true := by
      rw [List.all_eq_true]
      intro w hw
      rw [List.mem_range, ← hlength] at hw
      rw [List.getElem?_eq_getElem hw]
      exact hall w _ (List.getElem?_eq_getElem hw)
    simp only [act, JobQueue.gathered, hget, hended, if_true]
  · push Not at hall
    obtain ⟨w, task, hw, hended⟩ := hall
    -- A worker waits for an entry only while there is one for it.
    have hqueue : task = .getting → q.queue ≠ [] := by
      rintro rfl hnil
      obtain ⟨jobs, k, hq, hk, -⟩ := h.queue
      have hzero : k = 0 := by
        cases k with
        | zero => rfl
        | succ k =>
          rw [hnil] at hq
          simp [List.replicate_succ] at hq
      rw [if_pos rfl, hzero, Nat.zero_add, ← hlength, List.countP_eq_length] at hk
      cases hk _ (List.mem_of_getElem? hw)
    obtain ⟨q', events, hresume⟩ := exists_resume hw (Bool.eq_false_iff.2 hended) hqueue
    exact ⟨.resume w, q', events, hresume, rfl⟩

end

end JobQueue

open JobQueue

/-- In a life of the queue in which the pause after the 1025th attempt is never needed, when `stop`
returns, every job has been taken by one worker, which has called its handler until an attempt
succeeded or none was left, with the right pause between two calls, and every worker has taken one
sentinel and returned. And `stop` does return: until then somebody can go on, and only for so long. -/
theorem worker_pool_exact {cfg : PoolConfig} {outcome : ℕ → ℕ → Bool} {handlers : List String}
    {actions : List PoolAction} {log : List PoolEvent} {q : JobQueue} (hn : 0 < cfg.workers_count)
    (h : Run cfg outcome handlers actions log q) (hphase : phase actions = some .stopping)
    (hwithin : ∀ job, .enqueued job ∈ log → job.job_type ∈ handlers → Within outcome job) :
    (.stopped ∈ log → Exact cfg outcome handlers q log) ∧
    (.stopped ∉ log → ∃ action q' events, q.act cfg outcome action = some (q', events) ∧
      phase (actions ++ [action]) = some .stopping) ∧
    ∃ bound, ∀ later log' q', Run cfg outcome handlers (actions ++ later) log' q' →
      phase (actions ++ later) = some .stopping → later.length ≤ bound := by
  obtain ⟨hhandlers, hkept⟩ := h.kept hwithin
  have hshape := h.shape hn hphase
  refine ⟨fun hstopped => ?_, fun hno => ?_, q.cost, fun later log' q' h' hphase' => ?_⟩
  · rw [← hhandlers]
    exact hshape.exact hn hkept hstopped
  · obtain ⟨action, q', events, ha, hnext⟩ := @Shape.progress cfg outcome log q hshape hno
    refine ⟨action, q', events, ha, ?_⟩
    rw [phase_snoc, hphase]
    exact hnext
  · have hle := h.length_le hphase h' hphase'
    omega

namespace pools

/-- One worker, and two workers. -/
def one : PoolConfig := ⟨1, 3, 1, 60⟩

/-- Two workers. -/
def two : PoolConfig := ⟨2, 3, 1, 60⟩

/-- The interleaving that a list of actions describes, as a function. -/
def play (cfg : PoolConfig) (outcome : ℕ → ℕ → Bool) :
    List PoolAction → List PoolEvent × JobQueue → Option (List PoolEvent × JobQueue)
  | [], s => some s
  | action :: actions, s => match s.2.act cfg outcome action with
    | some (q, events) => play cfg outcome actions (s.1 ++ events, q)
    | none => none

/-- What `play` computes is an interleaving. -/
theorem play_run {cfg : PoolConfig} {outcome : ℕ → ℕ → Bool} {handlers : List String}
    {before actions : List PoolAction} {s s' : List PoolEvent × JobQueue}
    (hs : Run cfg outcome handlers before s.1 s.2) (h : play cfg outcome actions s = some s') :
    Run cfg outcome handlers (before ++ actions) s'.1 s'.2 := by
  induction actions generalizing before s with
  | nil =>
    cases h
    rw [List.append_nil]
    exact hs
  | cons action actions ih =>
    rw [play] at h
    split at h
    · next q events ha =>
      have hrun := ih (hs.act ha) h
      rwa [List.append_assoc] at hrun
    · cases h

/-- The event is the return of `stop`. -/
def isStopped : PoolEvent → Bool
  | .stopped => true
  | .enqueued _ | .taken .. | .sentinel _ | .called .. | .waited .. | .finished .. => false

/-- The event is no job that may be attempted more than 1025 times. -/
def isBounded : PoolEvent → Bool
  | .enqueued job => decide (job.max_attempts ≤ 1025)
  | .stopped | .taken .. | .sentinel _ | .called .. | .waited .. | .finished .. => true

/-- A log in which the pool has stopped says so. -/
theorem stopped_mem {log : List PoolEvent} (h : log.any isStopped = true) : .stopped ∈ log := by
  obtain ⟨e, he, hstopped⟩ := List.any_eq_true.1 h
  cases e with
  | stopped => exact he
  | _ => cases hstopped

/-- Two jobs whose first attempts fail, the second of which may be attempted once only, with a stop
behind them. -/
def shared : List PoolAction :=
  [.start, .enqueue "t" [] none, .enqueue "t" [] (some 1), .resume 0, .resume 1, .stop, .resume 0,
    .resume 1, .resume 0, .resume 1, .resume 0, .resume 0, .gathered 0]

/-- The second attempt at a job succeeds. -/
def second : ℕ → ℕ → Bool := fun _ attempt => attempt == 2

end pools

/-- Each worker takes one of the jobs, and while the first waits for its second attempt the other
takes its sentinel. -/
theorem worker_pool_exact_shared : ∃ log q,
    Run pools.two pools.second ["t"] pools.shared log q ∧
      Exact pools.two pools.second ["t"] q log := by
  have hplay : (pools.play pools.two pools.second pools.shared ([], JobQueue.new ["t"])).map
      (fun s => s.1.any pools.isStopped && s.1.all pools.isBounded) = some true := by decide
  obtain ⟨⟨log, q⟩, hs, htests⟩ := Option.map_eq_some_iff.1 hplay
  rw [Bool.and_eq_true] at htests
  have hnew : Run pools.two pools.second ["t"] [] [] (JobQueue.new ["t"]) := .new
  have hrun := pools.play_run hnew hs
  refine ⟨log, q, hrun, (worker_pool_exact (by decide) hrun (by decide) fun job hjob _ => ?_).1
    (pools.stopped_mem htests.1)⟩
  exact .inl (of_decide_eq_true (List.all_eq_true.1 htests.2 _ hjob))

namespace pools

/-- A job that may be attempted 1026 times. -/
def stubborn (attempt : ℕ) : QueuedJob := ⟨0, "t", [], 1026, attempt⟩

/-- The only worker has taken the job. -/
def working (task : WorkerTask) : JobQueue where
  queue := []
  unfinished := 1
  created := 1
  handlers := ["t"]
  tasks := [task]
  worker_tasks := [0]
  stopping := []

/-- No attempt succeeds. -/
def never : ℕ → ℕ → Bool := fun _ _ => false

/-- The attempts up to the 1025th, with the pauses between them. -/
theorem run_working (n : ℕ) (hn : n ≤ 1024) : ∃ actions log,
    Run one never ["t"] actions log (working (.calling (stubborn (n + 1)))) ∧
      phase actions = some .running := by
  induction n with
  | zero =>
    have hplay : play one never [.enqueue "t" [] (some 1026), .start, .resume 0]
        ([], JobQueue.new ["t"]) = some ([.enqueued (stubborn 0), .taken 0 0, .called 0 0 1],
          working (.calling (stubborn 1))) := rfl
    have hnew : Run one never ["t"] [] [] (JobQueue.new ["t"]) := .new
    exact ⟨_, _, play_run hnew hplay, rfl⟩
  | succ n ih =>
    obtain ⟨actions, log, hrun, hphase⟩ := ih (by omega)
    -- The attempt fails, and the worker waits.
    have hwait : (working (.calling (stubborn (n + 1)))).act one never (.resume 0) =
        some (working (.sleeping (stubborn (n + 1))),
          [.waited 0 0 (n + 1) (min (one.backoff_base * 2 ^ n) one.backoff_max)]) := by
      have hlast : ¬(stubborn (n + 1)).max_attempts ≤ (stubborn (n + 1)).attempt := by
        simp only [stubborn]
        omega
      have hdelay : one.delay (stubborn (n + 1)).attempt =
          some (min (one.backoff_base * 2 ^ n) one.backoff_max) := if_pos (by
        simp only [stubborn]
        omega)
      change some ((working (.calling (stubborn (n + 1)))).failed one 0 (stubborn (n + 1))) = _
      rw [failed, if_neg hlast]
      simp only [hdelay]
      rfl
    -- Then it calls the handler once more.
    have hcall : (working (.sleeping (stubborn (n + 1)))).act one never (.resume 0) =
        some (working (.calling (stubborn (n + 1 + 1))), [.called 0 0 (n + 1 + 1)]) := by
      have hleft : (stubborn (n + 1)).attempt < (stubborn (n + 1)).max_attempts := by
        simp only [stubborn]
        omega
      change some ((working (.sleeping (stubborn (n + 1)))).attempt 0 (stubborn (n + 1))) = _
      rw [attempt, if_pos hleft]
      rfl
    refine ⟨_, _, (hrun.act hwait).act hcall, ?_⟩
    rw [phase_snoc, phase_snoc, hphase]
    rfl

end pools

/-- The pause after the 1025th attempt cannot be computed, and the worker is gone. -/
theorem worker_dies_of_overflow : ∃ actions log q,
    Run pools.one pools.never ["t"] actions log q ∧ phase actions = some .stopping ∧
      .stopped ∈ log ∧ ¬Exact pools.one pools.never ["t"] q log := by
  obtain ⟨actions, log, hrun, hphase⟩ := pools.run_working 1024 (by omega)
  have hraise : (pools.working (.calling (pools.stubborn 1025))).act pools.one pools.never
      (.resume 0) = some ({ pools.working .raised with unfinished := 0 }, [.finished 0 0]) := by
    have hlast : ¬(pools.stubborn 1025).max_attempts ≤ (pools.stubborn 1025).attempt := by decide
    have hdelay : pools.one.delay (pools.stubborn 1025).attempt = none := if_neg (by decide)
    change some ((pools.working (.calling (pools.stubborn 1025))).failed pools.one 0
      (pools.stubborn 1025)) = _
    rw [failed, if_neg hlast]
    simp only [hdelay]
    rfl
  have hstop : ({ pools.working .raised with unfinished := 0 } : JobQueue).act pools.one
      pools.never .stop = some ({ pools.working .raised with
        queue := [none], unfinished := 1, stopping := [[0]] }, []) := rfl
  have hgathered : ({ pools.working .raised with
      queue := [none], unfinished := 1, stopping := [[0]] } : JobQueue).act pools.one pools.never
        (.gathered 0) = some ({ pools.working .raised with
          queue := [none], unfinished := 1, worker_tasks := [] }, [.stopped]) := rfl
  refine ⟨_, _, _, ((hrun.act hraise).act hstop).act hgathered, ?_, by simp, fun hexact => ?_⟩
  · rw [phase_snoc, phase_snoc, phase_snoc, hphase]
    rfl
  · have hreturned := (hexact.workers 0 (by decide)).1
    cases hreturned

end DropRoom
