import DropRoom.Jobs.Shutdown

/-!
# What `join` waits for

`asyncio.Queue` counts every entry that is put and not reported by `task_done`, and `join` waits
until the count is zero. A worker reports each job, however the work on it ends, but not the stop
sentinel that it takes: it returns before the `try`. So a queue whose workers were stopped once counts
more than its jobs for ever, and `join` does not return any more. Until then it counts its jobs.
-/

namespace DropRoom

namespace JobQueue

/-- A call of `join` that is made, or waits, returns. -/
def join (q : JobQueue) : Bool := q.unfinished == 0

/-- The jobs that are queued or being run. -/
def jobs (q : JobQueue) : List QueuedJob :=
  q.queue.filterMap id ++ q.tasks.filterMap taskJob

/-- The sentinels in the queue, and those that a worker has taken. -/
def sentinels (q : JobQueue) : ℕ :=
  q.queue.countP Option.isNone + q.tasks.countP isReturned

/-- `stop` is called after `start`, and `start` creates workers. -/
def StopsWorkers (cfg : PoolConfig) (actions : List PoolAction) : Prop :=
  0 < cfg.workers_count ∧ [.start, .stop].Sublist actions

section

variable {cfg : PoolConfig} {outcome : ℕ → ℕ → Bool} {handlers : List String} {q : JobQueue}
  {actions : List PoolAction} {log : List PoolEvent}

/-! ## The count -/

/-- An entry of the queue is a job or a sentinel. -/
theorem length_queue (queue : List (Option QueuedJob)) :
    queue.length = (queue.filterMap id).length + queue.countP Option.isNone := by
  induction queue with
  | nil => rfl
  | cons entry queue ih =>
    cases entry with
    | none =>
      rw [List.filterMap_cons_none (f := id) rfl, List.countP_cons_of_pos (p := Option.isNone) rfl,
        List.length_cons, ih, Nat.add_assoc]
    | some job =>
      have hjob : ¬Option.isNone (some job) = true := by simp
      rw [List.filterMap_cons_some (f := id) rfl, List.countP_cons_of_neg hjob, List.length_cons,
        List.length_cons, ih]
      omega

/-- What a task has taken is the job it works on, or the sentinel with which it returned. -/
theorem sum_load (tasks : List WorkerTask) :
    (tasks.map load).sum = (tasks.filterMap taskJob).length + tasks.countP isReturned := by
  induction tasks with
  | nil => rfl
  | cons task tasks ih =>
    rw [List.map_cons, List.sum_cons, ih, List.filterMap_cons, List.countP_cons]
    cases task with
    | calling job | sleeping job =>
      simp only [load, taskJob, isReturned, List.length_cons, Bool.false_eq_true, if_false]
      omega
    | getting | raised | returned =>
      simp only [load, taskJob, isReturned, Bool.false_eq_true, if_false, if_true]
      omega

/-- The unfinished entries are the jobs and all sentinels that were ever put. -/
theorem Counted.unfinished_eq (h : q.Counted) :
    q.unfinished = q.jobs.length + q.sentinels := by
  have hqueue := length_queue q.queue
  have htasks := sum_load q.tasks
  rw [Counted] at h
  rw [jobs, sentinels, List.length_append]
  omega

/-! ## The sentinels -/

/-- A worker that takes a sentinel keeps it. -/
theorem sentinels_of_resumed {worker : ℕ} {q' : JobQueue} {events : List PoolEvent}
    (hr : Resumed cfg outcome q worker q' events) : q'.sentinels = q.sentinels := by
  obtain ⟨old, new, ht, hold, htasks, -, -, -, hcase⟩ := hr.shape
  have hcount : q'.tasks.countP isReturned =
      q.tasks.countP isReturned + (isReturned new).toNat := by
    rw [htasks]
    exact countP_returned_set ht hold
  unfold sentinels
  rw [hcount]
  rcases hcase with ⟨hnew, -, hsame | ⟨job, htaken⟩⟩ | ⟨hnew, -, htaken⟩
  · rw [hnew, hsame]
    rfl
  · rw [hnew, htaken, List.countP_cons_of_neg (by simp)]
    rfl
  · rw [hnew, htaken, List.countP_cons_of_pos rfl]
    have hone : Bool.toNat true = 1 := rfl
    omega

/-- `stop` puts a sentinel for each worker, and no other action changes how many there are. -/
theorem sentinels_of_act {action : PoolAction} {q' : JobQueue} {events : List PoolEvent}
    (h : q.Counted) (ha : q.act cfg outcome action = some (q', events)) :
    (action = .stop → q'.sentinels = q.sentinels + q.worker_tasks.length) ∧
      (action ≠ .stop → q'.sentinels = q.sentinels) := by
  cases action with
  | enqueue job_type payload max_attempts =>
    cases ha
    refine ⟨(fun heq => by cases heq), fun _ => ?_⟩
    simp [sentinels]
  | start =>
    cases ha
    refine ⟨(fun heq => by cases heq), fun _ => ?_⟩
    unfold JobQueue.start
    split_ifs
    · simp [sentinels, isReturned]
    · rfl
  | stop =>
    refine ⟨fun _ => ?_, fun hne => absurd rfl hne⟩
    replace ha : some q.stop = some (q', events) := ha
    unfold JobQueue.stop at ha
    split_ifs at ha with hnil <;> cases ha
    · rw [hnil]
      rfl
    · simp only [sentinels, List.countP_append, List.countP_replicate, Option.isNone_none, if_true]
      omega
  | resume worker =>
    exact ⟨(fun heq => by cases heq), fun _ => sentinels_of_resumed (h.resumed ha)⟩
  | gathered call =>
    refine ⟨(fun heq => by cases heq), fun _ => ?_⟩
    replace ha : q.gathered call = some (q', events) := ha
    unfold JobQueue.gathered at ha
    split at ha
    · split_ifs at ha
      cases ha
      rfl
    · cases ha

/-- No `stop` has found workers: none waits, and the workers of `start` are still there. -/
structure Unstopped (cfg : PoolConfig) (actions : List PoolAction) (q : JobQueue) : Prop where
  sentinels : q.sentinels = 0
  stopping : q.stopping = []
  started : q.worker_tasks ≠ [] ↔ 0 < cfg.workers_count ∧ .start ∈ actions

/-- A `stop` is the last action, or one was called before it. -/
theorem stopsWorkers_concat (action : PoolAction) : StopsWorkers cfg (actions ++ [action]) ↔
    StopsWorkers cfg actions ∨
      (action = .stop ∧ 0 < cfg.workers_count ∧ .start ∈ actions) := by
  unfold StopsWorkers
  constructor
  · rintro ⟨hn, hsub⟩
    obtain ⟨l, l', heq, hl, hl'⟩ := List.sublist_append_iff.1 hsub
    rcases List.sublist_singleton.1 hl' with rfl | rfl
    · rw [List.append_nil] at heq
      rw [heq]
      exact .inl ⟨hn, hl⟩
    · obtain ⟨rfl, hlast⟩ : [PoolAction.start] = l ∧ [PoolAction.stop] = [action] :=
        List.append_inj' heq rfl
      exact .inr ⟨(List.cons.inj hlast).1.symm, hn, List.singleton_sublist.1 hl⟩
  · rintro (⟨hn, hsub⟩ | ⟨rfl, hn, hmem⟩)
    · exact ⟨hn, hsub.trans (List.sublist_append_left _ _)⟩
    · exact ⟨hn, (List.singleton_sublist.2 hmem).append (List.Sublist.refl [PoolAction.stop])⟩

/-- One action, as long as no `stop` finds workers. -/
theorem Unstopped.act (h : Unstopped cfg actions q) {action : PoolAction} {q' : JobQueue}
    {events : List PoolEvent} (hcount : q.Counted)
    (ha : q.act cfg outcome action = some (q', events))
    (hno : ¬(action = .stop ∧ 0 < cfg.workers_count ∧ .start ∈ actions)) :
    Unstopped cfg (actions ++ [action]) q' := by
  obtain ⟨hstop, hother⟩ := sentinels_of_act hcount ha
  have hmem : ∀ {action : PoolAction}, action ≠ .start →
      (.start ∈ actions ++ [action] ↔ .start ∈ actions) := by
    intro action hne
    simp [Ne.symm hne]
  cases action with
  | enqueue job_type payload max_attempts =>
    refine ⟨(hother (fun heq => by cases heq)).trans h.sentinels, ?_, ?_⟩ <;> cases ha
    · exact h.stopping
    · rw [hmem (fun heq => by cases heq)]
      exact h.started
  | start =>
    refine ⟨(hother (fun heq => by cases heq)).trans h.sentinels, ?_, ?_⟩ <;> cases ha
    · unfold JobQueue.start
      split_ifs <;> exact h.stopping
    · have hlast : .start ∈ actions ++ [PoolAction.start] := by simp
      unfold JobQueue.start
      split_ifs with hnil
      · simp [Nat.pos_iff_ne_zero]
      · simp only [ne_eq, hnil, not_false_eq_true, true_iff]
        exact ⟨(h.started.1 hnil).1, hlast⟩
  -- No worker is there, so `stop` returns at once.
  | stop =>
    have hnil : q.worker_tasks = [] := by
      by_contra hne
      exact hno ⟨rfl, h.started.1 hne⟩
    replace ha : some q.stop = some (q', events) := ha
    rw [JobQueue.stop, if_pos hnil] at ha
    cases ha
    refine ⟨h.sentinels, h.stopping, ?_⟩
    rw [hmem (fun heq => by cases heq)]
    exact h.started
  | resume worker =>
    obtain ⟨-, -, -, -, -, hworkers, hstopping, -⟩ := (hcount.resumed ha).shape
    refine ⟨(hother (fun heq => by cases heq)).trans h.sentinels, hstopping.trans h.stopping, ?_⟩
    rw [hmem (fun heq => by cases heq), hworkers]
    exact h.started
  -- Nobody waits for the workers.
  | gathered call =>
    replace ha : q.gathered call = some (q', events) := ha
    rw [JobQueue.gathered, h.stopping] at ha
    cases ha

/-- Sentinels are there from the first `stop` that finds workers on, and not before. -/
theorem Run.sentinels (h : Run cfg outcome handlers actions log q) :
    (¬StopsWorkers cfg actions → Unstopped cfg actions q) ∧
      (StopsWorkers cfg actions → 0 < q.sentinels) := by
  induction h with
  | new =>
    refine ⟨fun _ => ⟨rfl, rfl, ?_⟩, fun hstops => ?_⟩
    · simp [JobQueue.new]
    · cases hstops.2
  | @act actions log q action q' events h ha ih =>
    obtain ⟨hbefore, hafter⟩ := ih
    obtain ⟨hstop, hother⟩ := sentinels_of_act h.counted ha
    rw [stopsWorkers_concat]
    refine ⟨fun hno => ?_, fun hstops => ?_⟩
    · obtain ⟨hno, hlast⟩ := not_or.1 hno
      exact (hbefore hno).act h.counted ha hlast
    · by_cases hstops' : StopsWorkers cfg actions
      · have hpos := hafter hstops'
        by_cases heq : action = .stop
        · rw [hstop heq]
          omega
        · rw [hother heq]
          exact hpos
      · -- This is the first `stop` that finds workers.
        obtain ⟨rfl, hn, hmem⟩ := hstops.resolve_left hstops'
        have hworkers := (hbefore hstops').started.2 ⟨hn, hmem⟩
        have hlen := List.length_pos_iff.2 hworkers
        rw [hstop rfl]
        omega

/-- Once `stop` has found workers, no call of `join` returns. -/
theorem Run.join_hangs (h : Run cfg outcome handlers actions log q)
    (hstops : StopsWorkers cfg actions) : q.join = false := by
  have hcount := h.counted.unfinished_eq
  have hpos := h.sentinels.2 hstops
  rw [join, beq_eq_false_iff_ne]
  omega

/-- The count is that of the jobs, and `join` returns when there are none, exactly as long as no
`stop` came after a `start` of workers: also when the sentinels of a `stop` have all been taken. -/
theorem unfinished_counts_jobs_iff (h : Run cfg outcome handlers actions log q) :
    (q.unfinished = q.jobs.length ∧ (q.join = true ↔ q.jobs = [])) ↔
      ¬StopsWorkers cfg actions := by
  have hcount := h.counted.unfinished_eq
  obtain ⟨hbefore, hafter⟩ := h.sentinels
  constructor
  · rintro ⟨heq, -⟩ hstops
    have hpos := hafter hstops
    omega
  · intro hno
    have hzero := (hbefore hno).sentinels
    have heq : q.unfinished = q.jobs.length := by omega
    refine ⟨heq, ?_⟩
    rw [join, beq_iff_eq, heq, List.length_eq_zero_iff]

end

/-- A pool with one worker. -/
def onePool : PoolConfig where
  workers_count := 1
  max_attempts := 3
  backoff_base := 1
  backoff_max := 30

/-- A job is enqueued in a pool that was started. -/
theorem unfinished_counts_jobs_enqueued : ∃ q : JobQueue, ∃ log,
    Run onePool (fun _ _ => true) [] [.start, .enqueue "cleanup_room" [] none] log q ∧
      q.unfinished = 1 ∧ (q.join = true ↔ q.jobs = []) := by
  have hstart : Run onePool (fun _ _ => true) [] ([] ++ [.start]) _ _ := .act .new rfl
  have hrun : Run onePool _ _ (_ ++ [.enqueue "cleanup_room" [] none]) _ _ := .act hstart rfl
  refine ⟨_, _, hrun, rfl, ((unfinished_counts_jobs_iff hrun).2 ?_).2⟩
  intro hstops
  have hmem : PoolAction.stop ∈ [PoolAction.start, .enqueue "cleanup_room" [] none] :=
    hstops.2.subset (by simp)
  simp at hmem

/-- A pool is started and stopped, its worker takes the sentinel, and `stop` returns. Nothing is
queued or running, and yet one entry is unfinished and `join` waits. -/
theorem stopped_pool_hangs : ∃ q : JobQueue, ∃ log,
    Run onePool (fun _ _ => true) [] [.start, .stop, .resume 0, .gathered 0] log q ∧
      none ∉ q.queue ∧ q.jobs = [] ∧ q.unfinished = 1 ∧ q.join = false := by
  have hstart : Run onePool (fun _ _ => true) [] ([] ++ [.start]) _ _ := .act .new rfl
  have hstop : Run onePool _ _ (_ ++ [.stop]) _ _ := .act hstart rfl
  have hresume : Run onePool _ _ (_ ++ [.resume 0]) _ _ := .act hstop rfl
  have hgathered : Run onePool _ _ (_ ++ [.gathered 0]) _ _ := .act hresume rfl
  exact ⟨_, _, hgathered, by simp, rfl, rfl, rfl⟩

end JobQueue

end DropRoom
