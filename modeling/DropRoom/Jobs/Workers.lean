import DropRoom.Jobs.Queue

/-!
# The workers of the job queue

Each job is taken by one worker, which calls its handler until an attempt succeeds or none is left,
with a pause after each attempt that failed and was not the last. The history of a job (what happens
to it, in order) says so: it is one of the lists `served`. The queue is first in, first out, so the
sentinels of `stop` come after all jobs, and each worker takes one when it has nothing left to do.

The one thing that can go wrong is the pause after the 1025th attempt, whose length cannot be
computed: the exception ends the worker.
-/

namespace DropRoom

namespace PoolEvent

/-- The job that an event is about. -/
def about : PoolEvent → Option ℕ
  | taken _ job_id => some job_id
  | called _ job_id _ => some job_id
  | waited _ job_id _ _ => some job_id
  | finished _ job_id => some job_id
  | enqueued _ => none
  | sentinel _ => none
  | stopped => none

end PoolEvent

namespace JobQueue

open PoolEvent

/-! ## The history of a job -/

/-- What happens to a job. -/
def history (log : List PoolEvent) (job_id : ℕ) : List PoolEvent :=
  log.filter fun e => e.about == some job_id

/-- The first `n` attempts at a job, all of which fail, with the pause after each. -/
def tried (cfg : PoolConfig) (worker job_id n : ℕ) : List PoolEvent :=
  (List.range n).flatMap fun i => [.called worker job_id (i + 1),
    .waited worker job_id (i + 1) (min (cfg.backoff_base * 2 ^ i) cfg.backoff_max)]

/-- The history of a job whose handler is called `n` times: between two calls there is a pause. -/
def served (cfg : PoolConfig) (worker job_id : ℕ) : ℕ → List PoolEvent
  | 0 => [.taken worker job_id, .finished worker job_id]
  | n + 1 => .taken worker job_id :: (tried cfg worker job_id n ++
      [.called worker job_id (n + 1), .finished worker job_id])

/-- The first attempt at a job that succeeds is the `k`-th. -/
def FirstSuccess (outcome : ℕ → ℕ → Bool) (job_id k : ℕ) : Prop :=
  0 < k ∧ outcome job_id k = true ∧ ∀ i, 0 < i → i < k → outcome job_id i = false

/-- `n` is the smaller of `max_attempts` and the number of the first attempt that succeeds, if one
does. -/
structure Calls (outcome : ℕ → ℕ → Bool) (job : QueuedJob) (n : ℕ) : Prop where
  success : ∀ k, FirstSuccess outcome job.job_id k → n = min k job.max_attempts
  failure : (∀ k, ¬FirstSuccess outcome job.job_id k) → n = job.max_attempts

/-- No attempt at the job up to the `n`-th succeeds. -/
def Fails (outcome : ℕ → ℕ → Bool) (job_id n : ℕ) : Prop :=
  ∀ i, 0 < i → i ≤ n → outcome job_id i = false

section

variable {cfg : PoolConfig} {outcome : ℕ → ℕ → Bool} {log events : List PoolEvent}
  {worker job_id n : ℕ} {job : QueuedJob}

/-- Events about the job go into its history. -/
theorem history_append_of_about (h : ∀ e ∈ events, e.about = some job_id) :
    history (log ++ events) job_id = history log job_id ++ events := by
  have hfilter : events.filter (fun e => e.about == some job_id) = events := by
    rw [List.filter_eq_self]
    intro e he
    rw [h e he]
    exact beq_self_eq_true _
  rw [history, List.filter_append, hfilter]
  rfl

/-- Other events do not. -/
theorem history_append_of_ne (h : ∀ e ∈ events, e.about ≠ some job_id) :
    history (log ++ events) job_id = history log job_id := by
  have hfilter : events.filter (fun e => e.about == some job_id) = [] := by
    rw [List.filter_eq_nil_iff]
    intro e he
    simpa using h e he
  rw [history, List.filter_append, hfilter, List.append_nil]
  rfl

/-- No attempt was made. -/
@[simp] theorem tried_zero : tried cfg worker job_id 0 = [] := rfl

/-- One attempt more, and the wait after it. -/
theorem tried_succ : tried cfg worker job_id (n + 1) = tried cfg worker job_id n ++
    [.called worker job_id (n + 1),
      .waited worker job_id (n + 1) (min (cfg.backoff_base * 2 ^ n) cfg.backoff_max)] := by
  rw [tried, List.range_succ, List.flatMap_append]
  rfl

/-- No attempt has failed before the first. -/
theorem Fails.zero : Fails outcome job_id 0 := by
  intro i hi hle
  omega

/-- One failed attempt more. -/
theorem Fails.succ (h : Fails outcome job_id n) (hn : outcome job_id (n + 1) = false) :
    Fails outcome job_id (n + 1) := by
  intro i hi hle
  by_cases heq : i = n + 1
  · rw [heq]
    exact hn
  · exact h i hi (by omega)

/-- Where all attempts before fail, the first success comes later. -/
theorem Fails.lt_of_firstSuccess (h : Fails outcome job_id n) {k : ℕ}
    (hk : FirstSuccess outcome job_id k) : n < k := by
  by_contra hle
  have hfail := h k hk.1 (by omega)
  rw [hk.2.1] at hfail
  cases hfail

/-- The attempt that ends the work on a job is the one that `Calls` says. -/
theorem Fails.calls (h : Fails outcome job.job_id n) (hn : n < job.max_attempts)
    (hlast : outcome job.job_id (n + 1) = true ∨ job.max_attempts ≤ n + 1) :
    Calls outcome job (n + 1) := by
  constructor
  · intro k hk
    have hlt := h.lt_of_firstSuccess hk
    rcases hlast with hok | hmax
    · have hle : k ≤ n + 1 := by
        by_contra hgt
        have hfail := hk.2.2 (n + 1) (by omega) (by omega)
        rw [hok] at hfail
        cases hfail
      omega
    · omega
  · intro hno
    rcases hlast with hok | hmax
    · refine absurd ⟨by omega, hok, fun i hi hlt => ?_⟩ (hno (n + 1))
      exact h i hi (by omega)
    · omega

/-- A job that may not be attempted. -/
theorem calls_zero (h : job.max_attempts = 0) : Calls outcome job 0 := by
  constructor
  · intro k _
    omega
  · intro _
    exact h.symm

end

/-! ## Where the jobs are -/

/-- The job that a task works on. -/
def taskJob : WorkerTask → Option QueuedJob
  | .calling job | .sleeping job => some job
  | .getting | .returned | .raised => none

/-- The job is in the queue, or some worker has it. -/
def Holds (q : JobQueue) (job : QueuedJob) : Prop :=
  some job ∈ q.queue ∨ ∃ worker : ℕ, q.tasks[worker]?.bind taskJob = some job

/-- What has happened to the job of a worker. No worker was ended by an exception. -/
def Serving (cfg : PoolConfig) (outcome : ℕ → ℕ → Bool) (handlers : List String)
    (log : List PoolEvent) (worker : ℕ) : WorkerTask → Prop
  | .calling job => ∃ n, job.attempt = n + 1 ∧ n < job.max_attempts ∧ job.job_type ∈ handlers ∧
      Fails outcome job.job_id n ∧ history log job.job_id = .taken worker job.job_id ::
        (tried cfg worker job.job_id n ++ [.called worker job.job_id (n + 1)])
  | .sleeping job => job.attempt < job.max_attempts ∧ job.job_type ∈ handlers ∧
      Fails outcome job.job_id job.attempt ∧
      history log job.job_id = .taken worker job.job_id :: tried cfg worker job.job_id job.attempt
  | .getting => True
  | .returned => True
  | .raised => False

/-- A worker has done what there was to do for the job. -/
def Done (cfg : PoolConfig) (outcome : ℕ → ℕ → Bool) (q : JobQueue) (log : List PoolEvent)
    (job : QueuedJob) : Prop :=
  ∃ worker n, worker < q.tasks.length ∧ history log job.job_id = served cfg worker job.job_id n ∧
    (job.job_type ∈ q.handlers → Calls outcome job n) ∧ (job.job_type ∉ q.handlers → n = 0)

/-- Every job that was enqueued waits in the queue, or is with one worker, or is done. -/
structure Kept (cfg : PoolConfig) (outcome : ℕ → ℕ → Bool) (q : JobQueue)
    (log : List PoolEvent) : Prop where
  serving : ∀ worker task, q.tasks[worker]? = some task →
    Serving cfg outcome q.handlers log worker task
  queued : ∀ job, some job ∈ q.queue → history log job.job_id = [] ∧ job.attempt = 0
  nodup : (q.queue.filterMap fun entry => entry.map QueuedJob.job_id).Nodup
  known : ∀ job, q.Holds job → .enqueued { job with attempt := 0 } ∈ log
  fresh : ∀ job, .enqueued job ∈ log → job.job_id < q.created
  unused : ∀ job_id, q.created ≤ job_id → history log job_id = []
  unique : ∀ job job', .enqueued job ∈ log → .enqueued job' ∈ log → job.job_id = job'.job_id →
    job = job'
  placed : ∀ job, .enqueued job ∈ log →
    (∃ job', q.Holds job' ∧ job'.job_id = job.job_id) ∨ Done cfg outcome q log job

section

variable {cfg : PoolConfig} {outcome : ℕ → ℕ → Bool} {q : JobQueue} {log events : List PoolEvent}
  {worker : ℕ} {job : QueuedJob}

/-- The history of a job that a worker has starts with the worker taking it. -/
theorem Serving.taken {handlers : List String} {task : WorkerTask}
    (h : Serving cfg outcome handlers log worker task) (hjob : taskJob task = some job) :
    ∃ rest, history log job.job_id = .taken worker job.job_id :: rest := by
  cases task with
  | calling job' =>
    obtain rfl := Option.some.inj hjob
    obtain ⟨n, -, -, -, -, hhistory⟩ := h
    exact ⟨_, hhistory⟩
  | sleeping job' =>
    obtain rfl := Option.some.inj hjob
    exact ⟨_, h.2.2.2⟩
  | getting => cases hjob
  | returned => cases hjob
  | raised => cases hjob

/-- What is known of a worker does not depend on events about other jobs. -/
theorem Serving.append {handlers : List String} {task : WorkerTask}
    (h : Serving cfg outcome handlers log worker task)
    (hevents : ∀ job, taskJob task = some job → ∀ e ∈ events, e.about ≠ some job.job_id) :
    Serving cfg outcome handlers (log ++ events) worker task := by
  cases task with
  | calling job' =>
    obtain ⟨n, hattempt, hlt, hmem, hfails, hhistory⟩ := h
    refine ⟨n, hattempt, hlt, hmem, hfails, ?_⟩
    rw [history_append_of_ne (hevents job' rfl), hhistory]
  | sleeping job' =>
    obtain ⟨hlt, hmem, hfails, hhistory⟩ := h
    refine ⟨hlt, hmem, hfails, ?_⟩
    rw [history_append_of_ne (hevents job' rfl), hhistory]
  | getting => trivial
  | returned => trivial
  | raised => exact h.elim

/-- A worker goes on with a job that nobody else has, from the queue or its own. -/
theorem Kept.step (h : Kept cfg outcome q log) {old new : WorkerTask}
    {queue : List (Option QueuedJob)} {unfinished : ℕ} (ht : q.tasks[worker]? = some old)
    (hjob : .enqueued job ∈ log) (hevents : ∀ e ∈ events, e.about = some job.job_id)
    (hqueue : ∀ job', some job' ∈ queue ↔ some job' ∈ q.queue ∧ job'.job_id ≠ job.job_id)
    (hnodup : (queue.filterMap fun entry => entry.map QueuedJob.job_id).Nodup)
    (hothers : ∀ w task job', w ≠ worker → q.tasks[w]? = some task → taskJob task = some job' →
      job'.job_id ≠ job.job_id)
    (hold : ∀ job', taskJob old = some job' → job'.job_id = job.job_id)
    (hnew : ∀ job', taskJob new = some job' → { job' with attempt := 0 } = job)
    (hserving : Serving cfg outcome q.handlers (log ++ events) worker new)
    (hdone : taskJob new = none → Done cfg outcome q (log ++ events) job) :
    Kept cfg outcome { q with queue, unfinished, tasks := q.tasks.set worker new }
      (log ++ events) := by
  have hlt : worker < q.tasks.length := (List.getElem?_eq_some_iff.1 ht).1
  -- the worker has its new task, and the others have theirs
  have hset : ∀ w task, (q.tasks.set worker new)[w]? = some task →
      (w = worker ∧ task = new) ∨ (w ≠ worker ∧ q.tasks[w]? = some task) := by
    intro w task hw
    by_cases heq : w = worker
    · subst heq
      rw [List.getElem?_set_self hlt] at hw
      exact .inl ⟨rfl, (Option.some.inj hw).symm⟩
    · rw [List.getElem?_set_ne (Ne.symm heq)] at hw
      exact .inr ⟨heq, hw⟩
  -- the events are all about the one job
  have hother : ∀ job_id, job_id ≠ job.job_id → ∀ e ∈ events, e.about ≠ some job_id := by
    intro job_id hne e he habout
    rw [hevents e he] at habout
    exact hne (Option.some.inj habout).symm
  have henqueued : ∀ job', .enqueued job' ∈ log ++ events → .enqueued job' ∈ log := by
    intro job' hmem
    rcases List.mem_append.1 hmem with hmem | hmem
    · exact hmem
    · cases hevents _ hmem
  refine ⟨fun w task hw => ?_, fun job' hmem => ?_, hnodup, fun job' hholds => ?_,
    fun job' hmem => h.fresh job' (henqueued job' hmem), fun job_id hle => ?_,
    fun job₁ job₂ h₁ h₂ => h.unique job₁ job₂ (henqueued _ h₁) (henqueued _ h₂),
    fun job' hmem => ?_⟩
  -- what the tasks serve
  · rcases hset w task hw with ⟨rfl, rfl⟩ | ⟨hne, hw⟩
    · exact hserving
    · refine (h.serving w task hw).append fun job' htask => hother _ ?_
      exact hothers w task job' hne hw htask
  -- the queue holds other jobs only, of which nothing was logged
  · obtain ⟨hmem, hne⟩ := (hqueue job').1 hmem
    rw [history_append_of_ne (hother _ hne)]
    exact h.queued job' hmem
  -- whatever is held was enqueued
  · refine List.mem_append_left _ ?_
    rcases hholds with hmem | ⟨w, hw⟩
    · exact h.known job' (.inl ((hqueue job').1 hmem).1)
    · obtain ⟨task, htask, hjob'⟩ := Option.bind_eq_some_iff.1 hw
      rcases hset w task htask with ⟨rfl, rfl⟩ | ⟨-, hw⟩
      · rw [hnew job' hjob']
        exact hjob
      · refine h.known job' (.inr ⟨w, ?_⟩)
        rw [hw]
        exact hjob'
  -- a number that is still to be given is not the job's
  · have hne : job_id ≠ job.job_id := by
      have hfresh := h.fresh job hjob
      dsimp only at hle
      omega
    rw [history_append_of_ne (hother _ hne)]
    exact h.unused job_id hle
  -- where each job is: the one that the step is about is done, or is with the worker
  · replace hmem := henqueued job' hmem
    by_cases hid : job'.job_id = job.job_id
    · obtain rfl := h.unique job' job hmem hjob hid
      cases hnone : taskJob new with
      | none =>
        obtain ⟨w, n, hw, hhistory, hcalls⟩ := hdone hnone
        refine .inr ⟨w, n, ?_, hhistory, hcalls⟩
        rw [List.length_set]
        exact hw
      | some job₁ =>
        refine .inl ⟨job₁, .inr ⟨worker, ?_⟩, ?_⟩
        · rw [List.getElem?_set_self hlt]
          exact hnone
        · rw [← hnew job₁ hnone]
    -- any other job is where it was
    · rcases h.placed job' hmem with ⟨job₁, hholds, hid₁⟩ | ⟨w, n, hw, hhistory, hcalls⟩
      · refine .inl ⟨job₁, ?_, hid₁⟩
        rcases hholds with hmem₁ | ⟨w, hw⟩
        · refine .inl ((hqueue job₁).2 ⟨hmem₁, ?_⟩)
          rw [hid₁]
          exact hid
        · have hne : w ≠ worker := by
            rintro rfl
            rw [ht] at hw
            exact hid (hid₁.symm.trans (hold job₁ hw))
          refine .inr ⟨w, ?_⟩
          rw [List.getElem?_set_ne (Ne.symm hne)]
          exact hw
      · refine .inr ⟨w, n, ?_, ?_, hcalls⟩
        · rw [List.length_set]
          exact hw
        · rw [history_append_of_ne (hother _ hid), hhistory]

/-- A worker takes the first job of the queue. -/
theorem Kept.take (h : Kept cfg outcome q log) {new : WorkerTask}
    {queue : List (Option QueuedJob)} {unfinished : ℕ} (ht : q.tasks[worker]? = some .getting)
    (hq : q.queue = some job :: queue) (hevents : ∀ e ∈ events, e.about = some job.job_id)
    (hnew : ∀ job', taskJob new = some job' → { job' with attempt := 0 } = job)
    (hserving : Serving cfg outcome q.handlers (log ++ events) worker new)
    (hdone : taskJob new = none → Done cfg outcome q (log ++ events) job) :
    Kept cfg outcome { q with queue, unfinished, tasks := q.tasks.set worker new }
      (log ++ events) := by
  have hmem : some job ∈ q.queue := by
    rw [hq]
    exact List.mem_cons_self
  obtain ⟨hhistory, hattempt⟩ := h.queued job hmem
  have hjob : .enqueued job ∈ log := by
    have hknown := h.known job (.inl hmem)
    rwa [← hattempt] at hknown
  -- the job was the head of the queue, so no other entry has its number
  have hids : q.queue.filterMap (fun entry => entry.map QueuedJob.job_id) =
      job.job_id :: queue.filterMap fun entry => entry.map QueuedJob.job_id := by
    rw [hq]
    rfl
  have hnodup := h.nodup
  rw [hids, List.nodup_cons] at hnodup
  refine h.step ht hjob hevents (fun job' => ?_) hnodup.2 (fun w task job' _ hw htask hid => ?_)
    (fun job' hno => by cases hno) hnew hserving hdone
  · rw [hq, List.mem_cons]
    constructor
    · intro hmem'
      refine ⟨.inr hmem', fun hid => hnodup.1 (List.mem_filterMap.2 ⟨some job', hmem', ?_⟩)⟩
      exact congrArg some hid
    · rintro ⟨heq | hmem', hne⟩
      · exact absurd (congrArg QueuedJob.job_id (Option.some.inj heq)) hne
      · exact hmem'
  -- no worker has the job: nothing was logged of it yet, and what a worker has was taken
  · obtain ⟨rest, htaken⟩ := (h.serving w task hw).taken htask
    rw [hid, hhistory] at htaken
    cases htaken

/-- A worker goes on with its own job. -/
theorem Kept.go (h : Kept cfg outcome q log) {old new : WorkerTask} {unfinished : ℕ}
    (ht : q.tasks[worker]? = some old) (hown : taskJob old = some job)
    (hevents : ∀ e ∈ events, e.about = some job.job_id)
    (hnew : ∀ job', taskJob new = some job' → { job' with attempt := 0 } = { job with attempt := 0 })
    (hserving : Serving cfg outcome q.handlers (log ++ events) worker new)
    (hdone : taskJob new = none → Done cfg outcome q (log ++ events) { job with attempt := 0 }) :
    Kept cfg outcome { q with unfinished, tasks := q.tasks.set worker new } (log ++ events) := by
  obtain ⟨rest, htaken⟩ := (h.serving worker old ht).taken hown
  have hholds : q.Holds job := by
    refine .inr ⟨worker, ?_⟩
    rw [ht]
    exact hown
  refine h.step ht (h.known job hholds) hevents (fun job' => ?_) h.nodup
    (fun w task job' hne hw htask hid => ?_) (fun job' hjob' => ?_) hnew hserving hdone
  -- the job was taken, so it is not in the queue
  · refine ⟨fun hmem => ⟨hmem, fun hid => ?_⟩, And.left⟩
    have hhistory := (h.queued job' hmem).1
    rw [hid] at hhistory
    rw [hhistory] at htaken
    cases htaken
  -- another worker that had the job would be the one that took it
  · obtain ⟨rest', htaken'⟩ := (h.serving w task hw).taken htask
    rw [hid] at htaken'
    have hsame := htaken.symm.trans htaken'
    simp only [List.cons.injEq, PoolEvent.taken.injEq] at hsame
    exact hne hsame.1.1.symm
  · rw [hown] at hjob'
    rw [Option.some.inj hjob']

/-- The jobs of a queue. -/
theorem some_mem_iff {queue : List (Option QueuedJob)} :
    some job ∈ queue ↔ job ∈ queue.filterMap id := by
  rw [List.mem_filterMap]
  constructor
  · intro hmem
    exact ⟨some job, hmem, rfl⟩
  · rintro ⟨entry, hmem, hentry⟩
    rwa [show entry = some job from hentry] at hmem

/-- What moves no job. -/
theorem Kept.idle (h : Kept cfg outcome q log) {q' : JobQueue}
    (hqueue : q'.queue.filterMap id = q.queue.filterMap id) (hhandlers : q'.handlers = q.handlers)
    (hcreated : q'.created = q.created)
    (htasks : ∀ w : ℕ, ∀ task : WorkerTask, q'.tasks[w]? = some task →
      q.tasks[w]? = some task ∨ task = .getting ∨ task = .returned)
    (hheld : ∀ w : ℕ, ∀ job, q.tasks[w]?.bind taskJob = some job →
      q'.tasks[w]?.bind taskJob = some job)
    (hlength : q.tasks.length ≤ q'.tasks.length) (hevents : ∀ e ∈ events, e.about = none)
    (hno : ∀ job, .enqueued job ∉ events) : Kept cfg outcome q' (log ++ events) := by
  -- the events are about no job, so the histories stay
  have hhistory : ∀ job_id, history (log ++ events) job_id = history log job_id := by
    intro job_id
    refine history_append_of_ne fun e he => ?_
    rw [hevents e he]
    exact (Option.some_ne_none _).symm
  have henqueued : ∀ job, .enqueued job ∈ log ++ events → .enqueued job ∈ log := by
    intro job hmem
    exact (List.mem_append.1 hmem).resolve_right (hno job)
  have hids : ∀ queue : List (Option QueuedJob),
      queue.filterMap (fun entry => entry.map QueuedJob.job_id) =
        (queue.filterMap id).map QueuedJob.job_id := by
    intro queue
    rw [List.map_filterMap]
    rfl
  have hholds : ∀ job, q.Holds job → q'.Holds job := by
    rintro job (hmem | ⟨w, hw⟩)
    · rw [some_mem_iff, ← hqueue, ← some_mem_iff] at hmem
      exact .inl hmem
    · exact .inr ⟨w, hheld w job hw⟩
  refine ⟨fun w task hw => ?_, fun job hmem => ?_, ?_, fun job hheld' => ?_, fun job hmem => ?_,
    fun job_id hle => ?_, fun job₁ job₂ h₁ h₂ => h.unique _ _ (henqueued _ h₁) (henqueued _ h₂),
    fun job hmem => ?_⟩
  -- a task is as it was, or one that has no job
  · rcases htasks w task hw with hw | rfl | rfl
    · rw [hhandlers]
      refine (h.serving w task hw).append fun job _ e he => ?_
      rw [hevents e he]
      exact (Option.some_ne_none _).symm
    · trivial
    · trivial
  · rw [some_mem_iff, hqueue, ← some_mem_iff] at hmem
    rw [hhistory]
    exact h.queued job hmem
  · rw [hids, hqueue, ← hids]
    exact h.nodup
  · refine List.mem_append_left _ ?_
    rcases hheld' with hmem | ⟨w, hw⟩
    · rw [some_mem_iff, hqueue, ← some_mem_iff] at hmem
      exact h.known job (.inl hmem)
    · obtain ⟨task, htask, hjob⟩ := Option.bind_eq_some_iff.1 hw
      rcases htasks w task htask with hw | rfl | rfl
      · refine h.known job (.inr ⟨w, ?_⟩)
        rw [hw]
        exact hjob
      · cases hjob
      · cases hjob
  · rw [hcreated]
    exact h.fresh job (henqueued job hmem)
  · rw [hhistory]
    exact h.unused job_id (hcreated ▸ hle)
  -- each job is where it was
  · rcases h.placed job (henqueued job hmem) with ⟨job', hheld', hid⟩ | ⟨w, n, hw, hserved, hcalls⟩
    · exact .inl ⟨job', hholds job' hheld', hid⟩
    · refine .inr ⟨w, n, by omega, ?_, ?_⟩
      · rw [hhistory]
        exact hserved
      · rw [hhandlers]
        exact hcalls

/-- A new job. -/
theorem Kept.enqueue (h : Kept cfg outcome q log) (hid : job.job_id = q.created)
    (hattempt : job.attempt = 0) {unfinished : ℕ} :
    Kept cfg outcome { q with queue := q.queue ++ [some job], unfinished, created := q.created + 1 }
      (log ++ [.enqueued job]) := by
  -- the event is about no job yet
  have hhistory : ∀ job_id, history (log ++ [.enqueued job]) job_id = history log job_id := by
    intro job_id
    refine history_append_of_ne fun e he => ?_
    rw [List.mem_singleton.1 he]
    exact (Option.some_ne_none _).symm
  have hself : ({ job with attempt := 0 } : QueuedJob) = job := by
    rw [← hattempt]
  have henqueued : ∀ job', .enqueued job' ∈ log ++ [.enqueued job] →
      .enqueued job' ∈ log ∨ job' = job := by
    intro job' hmem
    rcases List.mem_append.1 hmem with hmem | hmem
    · exact .inl hmem
    · exact .inr (PoolEvent.enqueued.inj (List.mem_singleton.1 hmem))
  refine ⟨fun w task hw => ?_, fun job' hmem => ?_, ?_, fun job' hholds => ?_, fun job' hmem => ?_,
    fun job_id hle => ?_, fun job₁ job₂ h₁ h₂ hsame => ?_, fun job' hmem => ?_⟩
  · refine (h.serving w task hw).append fun job' _ e he => ?_
    rw [List.mem_singleton.1 he]
    exact (Option.some_ne_none _).symm
  -- the new entry has the next number, of which nothing was logged
  · rw [hhistory]
    rcases List.mem_append.1 hmem with hmem | hmem
    · exact h.queued job' hmem
    · obtain rfl := Option.some.inj (List.mem_singleton.1 hmem)
      exact ⟨h.unused _ hid.ge, hattempt⟩
  -- and no entry before it has that number
  · rw [List.filterMap_append, List.nodup_append]
    refine ⟨h.nodup, List.nodup_singleton _, fun i hi j hj => ?_⟩
    obtain ⟨entry, hentry, hsome⟩ := List.mem_filterMap.1 hi
    obtain ⟨job', rfl, rfl⟩ := Option.map_eq_some_iff.1 hsome
    have hlt := h.fresh _ (h.known job' (.inl hentry))
    obtain rfl : j = job.job_id := List.mem_singleton.1 hj
    dsimp only at hlt
    omega
  · rcases hholds with hmem | hw
    · rcases List.mem_append.1 hmem with hmem | hmem
      · exact List.mem_append_left _ (h.known job' (.inl hmem))
      · obtain rfl := Option.some.inj (List.mem_singleton.1 hmem)
        rw [hself]
        exact List.mem_append_right _ (List.mem_singleton_self _)
    · exact List.mem_append_left _ (h.known job' (.inr hw))
  · rcases henqueued job' hmem with hmem | rfl
    · exact Nat.lt_succ_of_lt (h.fresh job' hmem)
    · exact hid.trans_lt (Nat.lt_succ_self _)
  · rw [hhistory]
    exact h.unused job_id (Nat.le_of_succ_le hle)
  -- of two jobs with one number neither is the new one, or both are
  · rcases henqueued job₁ h₁ with hold₁ | hnew₁
    · rcases henqueued job₂ h₂ with hold₂ | hnew₂
      · exact h.unique _ _ hold₁ hold₂ hsame
      · have hlt := h.fresh _ hold₁
        rw [hsame, hnew₂] at hlt
        omega
    · rcases henqueued job₂ h₂ with hold₂ | hnew₂
      · have hlt := h.fresh _ hold₂
        rw [← hsame, hnew₁] at hlt
        omega
      · exact hnew₁.trans hnew₂.symm
  · rcases henqueued job' hmem with hmem | rfl
    · rcases h.placed job' hmem with ⟨job₁, hheld, hid₁⟩ | ⟨w, n, hw, hserved, hcalls⟩
      · exact .inl ⟨job₁, hheld.imp (List.mem_append_left _) id, hid₁⟩
      · refine .inr ⟨w, n, hw, ?_, hcalls⟩
        rw [hhistory]
        exact hserved
    -- the new job is in the queue
    · exact .inl ⟨job', .inl (List.mem_append_right _ (List.mem_singleton_self _)), rfl⟩

/-- The pause after the 1025th attempt is never needed. -/
def Within (outcome : ℕ → ℕ → Bool) (job : QueuedJob) : Prop :=
  job.max_attempts ≤ 1025 ∨ ∃ i, 0 < i ∧ i ≤ 1025 ∧ outcome job.job_id i = true

/-- The pause is as it should be, where it can be computed. -/
theorem delay_eq {attempt : ℕ} {delay : ℚ} (h : cfg.delay (attempt + 1) = some delay) :
    delay = min (cfg.backoff_base * 2 ^ attempt) cfg.backoff_max := by
  unfold PoolConfig.delay at h
  split_ifs at h
  exact (Option.some.inj h).symm

/-- A worker that goes on keeps the order of every job. -/
theorem Kept.of_resumed (h : Kept cfg outcome q log)
    (hwithin : ∀ job, .enqueued job ∈ log → job.job_type ∈ q.handlers → Within outcome job)
    {q' : JobQueue} (hr : Resumed cfg outcome q worker q' events) :
    Kept cfg outcome q' (log ++ events) := by
  cases hr with
  -- the worker takes a job, and calls its handler for the first time
  | @taken job queue ht hq hhandler hleft =>
    have habout : ∀ e ∈ [PoolEvent.taken worker job.job_id,
        .called worker job.job_id (job.attempt + 1)], e.about = some job.job_id := by
      simp [PoolEvent.about]
    obtain ⟨hhistory, hattempt⟩ := h.queued job (hq ▸ List.mem_cons_self)
    refine h.take ht hq habout (fun job' hjob' => ?_) ?_ fun hnone => by cases hnone
    · obtain rfl := Option.some.inj hjob'
      rw [← hattempt]
    · have hpos : 0 < job.max_attempts := by omega
      refine ⟨0, by rw [hattempt], hpos, hhandler, Fails.zero, ?_⟩
      rw [history_append_of_about habout, hhistory, hattempt]
      rfl
  -- there is no handler, or no attempt is left: the job is done without a call
  | @skipped job queue ht hq hno =>
    have habout : ∀ e ∈ [PoolEvent.taken worker job.job_id, .finished worker job.job_id],
        e.about = some job.job_id := by
      simp [PoolEvent.about]
    obtain ⟨hhistory, hattempt⟩ := h.queued job (hq ▸ List.mem_cons_self)
    refine h.take ht hq habout (fun job' hjob' => by cases hjob') trivial fun _ => ?_
    refine ⟨worker, 0, (List.getElem?_eq_some_iff.1 ht).1, ?_, fun hmem => ?_, fun _ => rfl⟩
    · rw [history_append_of_about habout, hhistory]
      rfl
    · have hzero := hno hmem
      rw [hattempt] at hzero
      exact calls_zero (Nat.le_zero.1 hzero)
  -- the worker takes a sentinel and returns
  | @returned queue ht hq =>
    have hlt : worker < q.tasks.length := (List.getElem?_eq_some_iff.1 ht).1
    refine h.idle ?_ rfl rfl (fun w task hw => ?_) (fun w job hw => ?_) ?_ ?_ ?_
    · rw [hq]
      rfl
    · by_cases heq : w = worker
      · subst heq
        rw [List.getElem?_set_self hlt] at hw
        exact .inr (.inr (Option.some.inj hw).symm)
      · rw [List.getElem?_set_ne (Ne.symm heq)] at hw
        exact .inl hw
    · have heq : w ≠ worker := by
        rintro rfl
        rw [ht] at hw
        cases hw
      rw [List.getElem?_set_ne (Ne.symm heq)]
      exact hw
    · rw [List.length_set]
    · simp [PoolEvent.about]
    · simp
  -- the attempt was the last one: the calls are those that the outcomes ask for
  | @finished job ht hlast =>
    obtain ⟨n, hattempt, hlt, hmem, hfails, hhistory⟩ := h.serving worker _ ht
    have habout : ∀ e ∈ [PoolEvent.finished worker job.job_id], e.about = some job.job_id := by
      simp [PoolEvent.about]
    refine h.go ht rfl habout (fun job' hjob' => by cases hjob') trivial fun _ => ?_
    refine ⟨worker, n + 1, (List.getElem?_eq_some_iff.1 ht).1, ?_, fun _ => ?_, fun hno => ?_⟩
    · rw [history_append_of_about habout, hhistory, served, List.cons_append, List.append_assoc]
      rfl
    · rw [hattempt] at hlast
      have hcalls : Calls outcome { job with attempt := 0 } (n + 1) := Fails.calls hfails hlt hlast
      exact hcalls
    · exact absurd hmem hno
  -- the attempt has failed, and the worker waits for the next one
  | @waits job delay ht hfailed hleft hdelay =>
    obtain ⟨n, hattempt, hlt, hmem, hfails, hhistory⟩ := h.serving worker _ ht
    have habout : ∀ e ∈ [PoolEvent.waited worker job.job_id job.attempt delay],
        e.about = some job.job_id := by
      simp [PoolEvent.about]
    refine h.go ht rfl habout (fun job' hjob' => ?_) ?_ fun hnone => by cases hnone
    · obtain rfl := Option.some.inj hjob'
      rfl
    · rw [hattempt] at hfailed hdelay
      refine ⟨hleft, hmem, ?_, ?_⟩
      · rw [hattempt]
        exact hfails.succ hfailed
      · rw [history_append_of_about habout, hhistory, hattempt, tried_succ, delay_eq hdelay,
          List.cons_append, List.append_assoc]
        rfl
  -- the delay cannot be computed, which the condition on the jobs excludes
  | @raised job ht hfailed hleft hdelay =>
    obtain ⟨n, hattempt, hlt, hmem, hfails, -⟩ := h.serving worker _ ht
    -- The delay can be computed up to the 1024th attempt, and no later one fails.
    have hlate : 1024 ≤ n := by
      unfold PoolConfig.delay at hdelay
      split_ifs at hdelay
      omega
    have hknown := h.known job (.inr ⟨worker, by rw [ht]; rfl⟩)
    rw [hattempt] at hfailed hleft
    rcases hwithin _ hknown hmem with hmax | ⟨i, hi, hle, hok⟩
    · dsimp only at hmax
      omega
    · have hfail := hfails.succ hfailed i hi (by omega)
      rw [hfail] at hok
      cases hok
  -- the next attempt
  | @called job ht hleft =>
    obtain ⟨hlt, hmem, hfails, hhistory⟩ := h.serving worker _ ht
    have habout : ∀ e ∈ [PoolEvent.called worker job.job_id (job.attempt + 1)],
        e.about = some job.job_id := by
      simp [PoolEvent.about]
    refine h.go ht rfl habout (fun job' hjob' => ?_) ?_ fun hnone => by cases hnone
    · obtain rfl := Option.some.inj hjob'
      rfl
    · refine ⟨job.attempt, rfl, hlt, hmem, hfails, ?_⟩
      dsimp only
      rw [history_append_of_about habout, hhistory]
      rfl
  -- who waits has an attempt left
  | @slept job ht hlast =>
    have hlt := (h.serving worker _ ht).1
    omega

end

/-- In every interleaving every job is in the queue, with one worker, or done. -/
theorem Run.kept {cfg : PoolConfig} {outcome : ℕ → ℕ → Bool} {handlers : List String}
    {actions : List PoolAction} {log : List PoolEvent} {q : JobQueue}
    (h : Run cfg outcome handlers actions log q)
    (hwithin : ∀ job, .enqueued job ∈ log → job.job_type ∈ handlers → Within outcome job) :
    q.handlers = handlers ∧ Kept cfg outcome q log := by
  induction h with
  | new => exact ⟨rfl, by constructor <;> simp [JobQueue.new, Holds, history]⟩
  | @act actions log q action q' events hrun ha ih =>
    obtain ⟨hhandlers, hkept⟩ := ih fun job hmem => hwithin job (List.mem_append_left _ hmem)
    cases action with
    | enqueue job_type payload max_attempts =>
      cases ha
      exact ⟨hhandlers, hkept.enqueue rfl rfl⟩
    -- new workers have no job
    | start =>
      cases ha
      unfold JobQueue.start
      split_ifs
      · refine ⟨hhandlers, hkept.idle rfl rfl rfl (fun w task hw => ?_) (fun w job hw => ?_) ?_
          (by simp) (by simp)⟩
        · rcases Nat.lt_or_ge w q.tasks.length with hlt | hge
          · rw [List.getElem?_append_left hlt] at hw
            exact .inl hw
          · rw [List.getElem?_append_right hge] at hw
            exact .inr (.inl (List.eq_of_mem_replicate (List.mem_of_getElem? hw)))
        · have hlt : w < q.tasks.length := by
            by_contra hge
            rw [List.getElem?_eq_none (by omega)] at hw
            cases hw
          rw [List.getElem?_append_left hlt]
          exact hw
        · rw [List.length_append]
          omega
      · refine ⟨hhandlers, hkept.idle rfl rfl rfl (fun w task hw => .inl hw) (fun w job hw => hw)
          (Nat.le_refl _) (by simp) (by simp)⟩
    -- a sentinel is no job
    | stop =>
      replace ha : some q.stop = some (q', events) := ha
      unfold JobQueue.stop at ha
      split_ifs at ha
      · cases ha
        exact ⟨hhandlers, hkept.idle rfl rfl rfl (fun w task hw => .inl hw) (fun w job hw => hw)
          (Nat.le_refl _) (by simp [PoolEvent.about]) (by simp)⟩
      · cases ha
        refine ⟨hhandlers, hkept.idle ?_ rfl rfl (fun w task hw => .inl hw) (fun w job hw => hw)
          (Nat.le_refl _) (by simp) (by simp)⟩
        simp [List.filterMap_append]
    -- the work of a worker
    | resume worker =>
      have hr := hrun.counted.resumed ha
      have hsame : q'.handlers = q.handlers := by
        cases hr <;> rfl
      refine ⟨hsame.trans hhandlers, hkept.of_resumed (fun job hmem => ?_) hr⟩
      rw [hhandlers]
      exact hwithin job (List.mem_append_left _ hmem)
    -- the end of a `stop`
    | gathered call =>
      replace ha : q.gathered call = some (q', events) := ha
      unfold JobQueue.gathered at ha
      split at ha
      · split_ifs at ha
        cases ha
        exact ⟨hhandlers, hkept.idle rfl rfl rfl (fun w task hw => .inl hw) (fun w job hw => hw)
          (Nat.le_refl _) (by simp [PoolEvent.about]) (by simp)⟩
      · cases ha

end JobQueue

end DropRoom
