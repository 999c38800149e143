import DropRoom.App.Api

/-!
# Jobs

`app/jobs/handlers.py`, the workers of `app/jobs/queue.py` and the scan of
`app/cleanup/scheduler.py`. A worker takes jobs off the queue and runs each with retries; the pause
between two attempts is no command, so other programs run between them in any case.
-/

namespace DropRoom

open Effect

variable (env : Env)

/-! ## Handlers -/

namespace handlers

/-- `run_room_cleanup`. -/
def runRoomCleanup (room_id : Option ℕ) : Op Unit := do
  match room_id with
  | none => pure ()
  | some room_id => withSession do
    match ← roomRepository.getRoomById room_id with
    | none => pure ()
    | some room =>
      if room.status = .deleted then pure ()
      else do
        let changed ← cleanupService.cleanupRoom room
        commit
        if changed then broadcast (.room room.id) .roomExpired []

/-- `if storage_key: await get_storage_backend().delete(storage_key)`. -/
def deleteKey (storage_key : Option Key) : Op Unit :=
  match storage_key with
  | some key => if key = [] then pure () else storage.delete key
  | none => pure ()

/-- `delete_file_object`. -/
def deleteFileObject (storage_key : Option Key) : Op Unit := deleteKey storage_key

/-- `expire_upload_session`. -/
def expireUploadSession (file_id : Option ℕ) : Op Unit := do
  match file_id with
  | none => pure ()
  | some file_id => withSession do
    match ← fileRepository.getFileById file_id with
    | none => pure ()
    | some rec_ =>
      if rec_.status = .pending then do
        uploadService.cleanupUploadParts rec_
        storage.delete rec_.storage_key.text
        let _ ← fileRepository.deleteRecord rec_.id
        commit
      else pure ()

/-- `send_room_expiration_event`. -/
def sendRoomExpirationEvent (room_id : Option ℕ) : Op Unit :=
  match room_id with
  | some room_id => broadcast (.room room_id) .roomExpired []
  | none => pure ()

/-- `cleanup_orphaned_object`. -/
def cleanupOrphanedObject (storage_key : Option Key) : Op Unit := deleteKey storage_key

/-- `generate_audit_event`, which does not await the coroutine that would insert the event. -/
def generateAuditEvent : Op Unit := withSession commit

end handlers

/-- The handler that `register_default_handlers` gives each job. -/
def Job.handler : Job → Op Unit
  | .roomCleanup room_id => handlers.runRoomCleanup room_id
  | .deleteFileObject storage_key => handlers.deleteFileObject storage_key
  | .expireUploadSession file_id => handlers.expireUploadSession file_id
  | .sendRoomExpirationEvent room_id => handlers.sendRoomExpirationEvent room_id
  | .cleanupOrphanedObject storage_key => handlers.cleanupOrphanedObject storage_key
  | .generateAuditEvent _ _ => handlers.generateAuditEvent

namespace jobQueue

/-- `_run_with_retries`, with the attempts that are left. -/
def runWithRetries (handler : Op Unit) : ℕ → Op Unit
  | 0 => pure ()
  | attempts + 1 => handler.tryCatch fun _ => runWithRetries handler attempts

/-- `_worker`, for as many jobs as it takes off the queue. -/
def worker : ℕ → Op Unit
  | 0 => pure ()
  | n + 1 => do
    let job ← dequeue
    runWithRetries job.handler env.job_max_attempts
    worker n

end jobQueue

/-! ## The scheduler -/

namespace scheduler

/-- `sorted(set(keys) - known)`. -/
def orphans (keys known : List Key) : List Key :=
  ((keys.filter fun k => k ∉ known).dedup).insertionSort (· ≤ ·)

/-- The part of `_scan_once` that reads the database: the storage keys that are known. -/
def scanRecords (stale_pending_cutoff : Time) : Op (List Key) := withSession do
  let rooms ← roomRepository.listRoomsPendingCleanup
  rooms.forM fun room => enqueue (.roomCleanup (some room.id))
  let deleted ← fileRepository.listDeletedRecords
  deleted.forM fun rec_ => do
    if ← storage.exists_ rec_.storage_key.text then
      enqueue (.deleteFileObject (some rec_.storage_key.text))
  let stale ← fileRepository.listStalePending stale_pending_cutoff
  stale.forM fun rec_ => enqueue (.expireUploadSession (some rec_.id))
  fileRepository.listAllStorageKeys

/-- `_scan_once`. Whatever goes wrong is logged. -/
def scanOnce : Op Unit := do
  let now ← utcnow
  (do
    let known ← scanRecords (now - seconds (24 * 60 * 60))
    let keys ← storage.listKeys []
    ((orphans keys known).take env.job_orphan_sweep_limit).forM fun key =>
      enqueue (.cleanupOrphanedObject (some key)) : Op Unit).tryCatch fun _ => pure ()

end scheduler

end DropRoom
