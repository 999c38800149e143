import DropRoom.App.Footprint

/-!
# Protocols of the teardown

A protocol about the teardown of rooms restricts what `cleanup_room` issues and leaves everything
else free. `Lifts` says what such a monitor must satisfy for every task of the server to keep to its
protocol: only `cleanup_room` with its commit has to be looked at command by command.
-/

namespace DropRoom

open Effect Store Prog

/-- The kinds of an update of a room's status. -/
def markKinds : List Kind := [.markExpired, .markDeleting, .markDeleted]

/-- A monitor whose protocol concerns `cleanup_room` only. A process in a phase of `Out` is in no
teardown. -/
structure Lifts {L : Type} (env : Env) (M : Monitor Cmd Resp Err L) (Out : L → Prop) : Prop where
  /-- Outside a teardown every command that updates no status is allowed, and stays outside. -/
  plain : ∀ {K c l}, (∀ k ∈ markKinds, k ∉ K) → Issued env K c → Out l →
    M.allowed l c ∧ ∀ x, Out (M.next l c x)
  /-- Reading is allowed anywhere and changes nothing. -/
  reads : ∀ {c l}, Issued env [] c → M.allowed l c ∧ ∀ x, M.next l c x = l
  /-- Closing the database session ends a teardown. -/
  close : ∀ l, M.allowed l (.sql .rollback) ∧ ∀ x, Out (M.next l (.sql .rollback) x)
  /-- `cleanup_room` and the commit of its caller keep to the protocol. -/
  caller : ∀ {l} (room : Room) {k : Bool → Op Unit}, Out l → (∀ b, (k b).Only (Issued env [])) →
    (do
      let changed ← cleanupService.cleanupRoom room
      commit
      k changed : Op Unit).wp M.trans (fun _ _ => True) l

namespace Lifts

variable {L α : Type} {env : Env} {M : Monitor Cmd Resp Err L} {Out : L → Prop} {l : L}

/-- A program that updates no status stays outside a teardown. -/
theorem stays (h : Lifts env M Out) {K : List Kind} (hK : ∀ k ∈ markKinds, k ∉ K) {prog : Op α}
    (hp : prog.Only (Issued env K)) (hl : Out l) : prog.wp M.trans (fun _ l' => Out l') l :=
  hp.wp (fun _ _ hc hl' => h.plain hK hc hl') hl

/-- Reading leaves the phase. -/
theorem keeps (h : Lifts env M Out) {prog : Op α} (hp : prog.Only (Issued env [])) :
    prog.wp M.trans (fun _ l' => l' = l) l := by
  refine hp.wp (M := M) (I := fun l' => l' = l) (fun c l' hc hl => ?_) rfl
  obtain ⟨ha, hn⟩ := h.reads (l := l') hc
  exact ⟨ha, fun x => (hn x).trans hl⟩

/-- Reading first makes no difference. -/
theorem read_bind (h : Lifts env M Out) {β : Type} {prog : Op α} (hp : prog.Only (Issued env []))
    {f : α → Op β} (hf : ∀ a, (f a).wp M.trans (fun _ _ => True) l) :
    (prog >>= f).wp M.trans (fun _ _ => True) l := by
  rw [Prog.wp_bind]
  refine Prog.wp_mono M.trans_monotone ?_ (h.keeps hp)
  rintro (e | a) l' rfl
  · trivial
  · exact hf a

/-- A program with its own database session ends outside a teardown, however its body ends. -/
theorem session (h : Lifts env M Out) {body : Op α} (hb : body.wp M.trans (fun _ _ => True) l) :
    (withSession body).wp M.trans (fun _ l' => Out l') l := by
  refine wp_withSession M.trans_monotone ?_
  refine Prog.wp_mono M.trans_monotone (fun r l' _ => ⟨(h.close l').1, ?_⟩) hb
  rintro (e | u)
  · exact (h.close l').2 _
  · exact (h.close l').2 _

/-- `DELETE /rooms/{room_token}` keeps to the protocol. -/
theorem deleteRoom (h : Lifts env M Out) (token : Token) (request : Request) (hl : Out l) :
    (rooms.deleteRoom env token request).wp M.trans (fun _ l' => Out l') l := by
  refine h.session (h.read_bind (only_requireRoomOwner token request) fun auth => ?_)
  refine h.read_bind (only_validateCsrf _ _) fun _ => ?_
  exact h.caller auth.2 hl fun _ => only_broadcast _ _ _ fun h => h.elim

/-- `run_room_cleanup` keeps to the protocol. -/
theorem runRoomCleanup (h : Lifts env M Out) (room_id : Option ℕ) (hl : Out l) :
    (handlers.runRoomCleanup room_id).wp M.trans (fun _ l' => Out l') l := by
  cases room_id with
  | none => exact hl
  | some room_id =>
    refine h.session (h.read_bind (only_getRoomById room_id) fun room => ?_)
    cases room with
    | none => trivial
    | some room =>
      dsimp only
      split
      · trivial
      · refine h.caller room hl fun b => ?_
        cases b
        · exact only_pure _
        · exact only_broadcast _ _ _ fun h => h.elim

/-- The handler of every job keeps to the protocol. -/
theorem handler (h : Lifts env M Out) (job : Job) (hl : Out l) :
    job.handler.wp M.trans (fun _ l' => Out l') l := by
  have hp : job.handler.Only (Issued env job.kinds) := job.only_handler
  cases job with
  | roomCleanup room_id => exact h.runRoomCleanup room_id hl
  | _ => exact h.stays (by simp [Job.kinds, markKinds]) hp hl

/-- Retrying a handler keeps to the protocol. -/
theorem runWithRetries (h : Lifts env M Out) (job : Job) (attempts : ℕ) (hl : Out l) :
    (jobQueue.runWithRetries job.handler attempts).wp M.trans (fun _ l' => Out l') l := by
  induction attempts generalizing l with
  | zero => exact hl
  | succ n ih =>
    refine (Prog.wp_tryCatch _ _ _ _).2 ?_
    refine Prog.wp_mono M.trans_monotone ?_ (h.handler job hl)
    rintro (e | u) l' hl'
    · exact ih hl'
    · exact hl'

/-- A worker keeps to the protocol. -/
theorem worker (h : Lifts env M Out) (jobs : ℕ) (hl : Out l) :
    (jobQueue.worker env jobs).wp M.trans (fun _ l' => Out l') l := by
  induction jobs generalizing l with
  | zero => exact hl
  | succ n ih =>
    have hdequeue := h.plain (K := [.dequeue]) (by decide) (.dequeue (by decide)) hl
    refine (Prog.wp_bind _ _ _ _).2 ((wp_issue M.trans_monotone _ _ _).2 ⟨hdequeue.1, ?_⟩)
    rintro (e | job)
    · exact hdequeue.2 _
    refine (Prog.wp_bind _ _ _ _).2 ?_
    refine Prog.wp_mono M.trans_monotone ?_ (h.runWithRetries job _ (hdequeue.2 _))
    rintro (e | u) l' hl'
    · exact hl'
    · exact ih hl'

/-- Every task keeps to the protocol. -/
theorem program (h : Lifts env M Out) (task : Task) (hl : Out l) :
    (task.program env).wp M.trans (fun _ l' => Out l') l := by
  have hp : (task.program env).Only (Issued env task.kinds) := task.only_program
  cases task with
  | request route req =>
    cases route with
    | deleteRoom token => exact h.deleteRoom token req hl
    | _ =>
      refine h.stays ?_ hp hl
      simp [Task.kinds, Route.kinds, uploadKinds, deleteFileKinds, completeKinds, markKinds]
  | worker jobs => exact h.worker jobs hl
  | socket ws handshake frames =>
    refine h.stays ?_ hp hl
    simp only [Task.kinds]
    decide
  | scan => exact h.stays (by decide) hp hl
  | idle => exact hl

end Lifts

end DropRoom
