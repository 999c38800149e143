import DropRoom.App.Serial

/-!
# Tasks that run one after the other

A task whose commands are executed with nothing in between ends every transaction that it begins:
`Settles` is this property of a program, and `Task.settles` says that every task has it. So each task
of a sequence starts where no row is locked, and is a run on a snapshot.
-/

namespace DropRoom

open Effect Store Prog

/-- Run where no row is locked, the program ends where no row is locked. -/
def Settles {α : Type} (prog : Op α) : Prop :=
  ∀ m, Faithful m → ∀ p w, w.db.Free → prog.wp (m.trans p) (fun _ w' => w'.db.Free) w

namespace Settles

variable {α β : Type}

/-- A run of a program that settles. -/
theorem free {prog : Op α} (h : Settles prog) {m : Machine Cmd Resp Err World} (hm : Faithful m)
    {p : ℕ} {w w' : World} {r : Except Err α} (hr : m.Runs p prog w r w') (hw : w.db.Free) :
    w'.db.Free :=
  (m.wp_iff_runs p prog _ w).1 (h m hm p w hw) r w' hr

/-- The `with` block closes its session, whatever its body has done. -/
theorem withSession (body : Op α) : Settles (withSession body) := fun m hm p w hw =>
  (m.wp_iff_runs p _ _ w).2 fun _ _ hr => free_of_withSession hm hr (hw.alone p)

/-- A value leaves nothing open. -/
theorem pure (a : α) : Settles (pure a) := fun _ _ _ _ hw => hw

/-- One program after the other. -/
theorem bind {prog : Op α} {f : α → Op β} (hp : Settles prog) (hf : ∀ a, Settles (f a)) :
    Settles (prog >>= f) := by
  intro m hm p w hw
  refine (Prog.wp_bind _ _ _ _).2 (Prog.wp_mono (m.trans_monotone p) ?_ (hp m hm p w hw))
  rintro (e | a) w' hw'
  · exact hw'
  · exact hf a m hm p w' hw'

/-- A handler takes over where the program has raised. -/
theorem tryCatch {prog : Op α} {f : Err → Op α} (hp : Settles prog) (hf : ∀ e, Settles (f e)) :
    Settles (prog.tryCatch f) := by
  intro m hm p w hw
  refine (Prog.wp_tryCatch _ _ _ _).2 (Prog.wp_mono (m.trans_monotone p) ?_ (hp m hm p w hw))
  rintro (e | a) w' hw'
  · exact hf e m hm p w' hw'
  · exact hw'

/-- A loop over a list. -/
theorem forM {ι : Type} {f : ι → Op PUnit} (hf : ∀ i, Settles (f i)) (l : List ι) :
    Settles (l.forM f) := by
  induction l with
  | nil => exact pure _
  | cons i l ih => exact bind (hf i) fun _ => ih

/-- The result may be dropped. -/
theorem discard {prog : Op α} (hp : Settles prog) : Settles (discard prog) := fun m hm p w hw =>
  (Prog.wp_map _ _ _ _).2 (hp m hm p w hw)

/-- A program that issues no statement. -/
theorem of_only {prog : Op α} (h : prog.Only fun c => ∀ q, c ≠ .sql q) : Settles prog := by
  intro m hm p w hw
  refine (m.wp_iff_runs p prog _ w).2 fun r w' hr => ?_
  refine hr.only (P := fun c => ∀ q, c ≠ .sql q) (I := fun w => w.db.Free) ?_ h hw
  intro c w x w' hc hx hw
  rwa [hm.db_eq hx hc]

/-- A command that is no statement leaves no transaction open. -/
theorem issue {c : Cmd} (hc : ∀ q, c ≠ .sql q) : Settles (issue c) := of_only ((only_issue _).2 hc)

/-- `broadcast` issues no statement. -/
theorem broadcast (ch event exclude) : Settles (broadcast ch event exclude) := by
  refine of_only ((broadcast_tells ch event exclude).mono ?_)
  rintro c hc q rfl
  exact hc

end Settles

/-! ## Jobs -/

/-- The `delete_file` and `cleanup_orphan` handlers open no transaction. -/
theorem settles_deleteKey (key : Option Key) : Settles (handlers.deleteKey key) := by
  unfold handlers.deleteKey
  split
  · split
    · exact .pure _
    · exact .issue (by rintro q ⟨⟩)
  · exact .pure _

/-- A handler ends its transaction. -/
theorem Job.settles (job : Job) : Settles job.handler := by
  cases job with
  | roomCleanup room_id =>
    cases room_id with
    | none => exact .pure _
    | some room_id => exact .withSession _
  | deleteFileObject key => exact settles_deleteKey key
  | expireUploadSession file_id =>
    cases file_id with
    | none => exact .pure _
    | some file_id => exact .withSession _
  | sendRoomExpirationEvent room_id =>
    cases room_id with
    | none => exact .pure _
    | some room_id => exact .broadcast _ _ _
  | cleanupOrphanedObject key => exact settles_deleteKey key
  | generateAuditEvent room_id type => exact .withSession _

/-- A worker has closed every session of its jobs. -/
theorem settles_worker (env : Env) (jobs : ℕ) : Settles (jobQueue.worker env jobs) := by
  have hretries : ∀ (job : Job) n, Settles (jobQueue.runWithRetries job.handler n) := by
    intro job n
    induction n with
    | zero => exact .pure _
    | succ n ih => exact .tryCatch job.settles fun _ => ih
  induction jobs with
  | zero => exact .pure _
  | succ n ih =>
    exact .bind (.issue (by rintro q ⟨⟩)) fun job => .bind (hretries job _) fun _ => ih

/-- A scan closes its session. -/
theorem settles_scanOnce (env : Env) : Settles (scheduler.scanOnce env) := by
  refine .bind (.issue (by rintro q ⟨⟩)) fun now => .tryCatch ?_ fun _ => .pure _
  refine .bind (.withSession _) fun known => .bind (.issue (by rintro q ⟨⟩)) fun keys => ?_
  exact .forM (fun _ => .issue (by rintro q ⟨⟩)) _

/-! ## Tasks -/

/-- Every request closes its session. -/
theorem Route.settles (env : Env) (request : Request) (route : Route) :
    Settles (route.handle env request) := by
  cases route with
  | download room_token file_id =>
    exact .discard (.bind (.withSession _) fun rec_ =>
      .bind (.issue (by rintro q ⟨⟩)) fun stream => .pure _)
  | deleteRoom room_token => exact .withSession _
  | abortUploadSession room_token upload_id => exact .withSession _
  | _ => exact .discard (.withSession _)

/-- Every task ends the transactions that it begins. -/
theorem Task.settles (env : Env) (task : Task) : Settles (task.program env) := by
  cases task with
  | request route request => exact route.settles env request
  | socket ws handshake frames => exact .withSession _
  | worker jobs => exact settles_worker env jobs
  | scan => exact settles_scanOnce env
  | idle => exact .pure _

end DropRoom
