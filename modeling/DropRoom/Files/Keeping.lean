import DropRoom.Files.Requests

/-!
# Every task keeps the vault

What the other tasks do to the vault: requests and sockets that concern no file leave it alone, a
worker does what the jobs in the queue admit, however often they fail and are run again, and the scan
enqueues only the deletion of objects that nobody needs. `ends_task` puts all tasks together.
-/

namespace DropRoom

open Effect Store Prog uploadService

/-! ## Tasks that leave the vault alone -/

/-- The kinds of commands that change neither a file nor the account of a room, and `newRoom`. -/
def asideKinds : List Kind :=
  [.newRoom, .join, .leave, .fields, .newSession, .renewSession, .expireSession, .countDownload,
    .newMessage, .dropMessages, .newAudit, .register, .unregister, .tellSettings, .commit, .close]

/-- What commands of these kinds make of a row. -/
def Aside (K : List Kind) : (t : Table) → ℕ → Option (Row t) → Option (Row t) → Prop
  | .rooms, _, v, v' => v'.map RoomRow.account = v.map RoomRow.account ∨
      Kind.newRoom ∈ K ∧ v = none ∧ v'.map RoomRow.account = some ⟨.active, 0, 0⟩
  | .files, _, v, v' => v'.map FileRow.entry = v.map FileRow.entry
  | _, _, _, _ => True

section

variable {env : Env} {K : List Kind} {α : Type} {prog : Op α} {σ : Serial}

/-- Statements of these kinds leave the vault as it is. -/
theorem confined_aside (hK : ∀ k ∈ K, k ∈ asideKinds) : Confined (Issued env K) (Aside K) where
  refl t i v := by
    cases t with
    | rooms => exact .inl rfl
    | files => exact rfl
    | _ => trivial
  trans t i v₁ v₂ v₃ h₁ h₂ := by
    cases t with
    | rooms =>
      rcases h₁ with h₁ | ⟨hk, hnone, h₁⟩
      · rcases h₂ with h₂ | ⟨hk, hnone, h₂⟩
        · exact .inl (h₂.trans h₁)
        · refine .inr ⟨hk, ?_, h₂⟩
          rw [hnone] at h₁
          exact Option.map_eq_none_iff.1 h₁.symm
      · rcases h₂ with h₂ | ⟨-, hnone', -⟩
        · exact .inr ⟨hk, hnone, h₂.trans h₁⟩
        · rw [hnone'] at h₁
          cases h₁
    | files => exact Eq.trans h₂ h₁
    | _ => trivial
  updateAt t i u r hc hu := by
    cases hc with
    | join => exact .inl rfl
    | leave => exact .inl rfl
    | fields => exact .inl rfl
    | countDownload => exact rfl
    | renewSession => trivial
    | expireSession => trivial
    | _ => exact absurd (hK _ ‹_›) (by decide)
  deleteWhere t d i r hc hd := by
    cases hc with
    | dropMessages => trivial
    | _ => exact absurd (hK _ ‹_›) (by decide)
  insert t i r hc := by
    cases hc with
    | newRoom hk _ hr =>
      obtain ⟨hstatus, -, hstorage, hcount, -⟩ := hr
      refine .inr ⟨hk, rfl, ?_⟩
      simp only [Option.map_some, RoomRow.account, hstatus, hstorage, hcount]
    | newFile hk => exact absurd (hK _ hk) (by decide)
    | _ => trivial

/-- A program whose commands concern no file. -/
theorem ends_aside {ok : Vault.Act → Prop} (hscratch : ok .scratch)
    (hopens : Kind.newRoom ∈ K → ok .opens) (honly : prog.Only (Issued env K))
    (hK : ∀ k ∈ K, k ∈ asideKinds) (hσ : σ.db.rows = σ.db.saved) :
    Ends prog (fun _ σ' => Refines ok σ σ') σ := by
  have hno : ∀ k, k ∉ asideKinds → k ∉ K := fun k hk hmem => hk (hK k hmem)
  refine (((Ends.confined (Q := fun _ σ' => ∀ t i, Aside K t i (σ.db.saved t i) (σ'.db.saved t i))
    honly (confined_aside hK) hσ fun _ _ h => h).and (Ends.draws honly (hno _ (by decide)))).and
    (Ends.unstored (Q := fun _ σ' => σ'.rest.storage = σ.rest.storage) honly (hno _ (by decide))
      (hno _ (by decide)) fun _ _ hs => hs)).mono ?_
  rintro _ σ' ⟨⟨hrows, hd⟩, hs⟩
  have hfiles : ∀ i, (σ'.db.saved .files i).map FileRow.entry =
      (σ.db.saved .files i).map FileRow.entry := fun i => hrows .files i
  by_cases hnew : Kind.newRoom ∈ K
  · exact refines_opens (hopens hnew) hd (fun i => (hrows .rooms i).imp id And.right) hfiles hs
  · refine refines_scratch hscratch hd (.of_eq hs) (fun i => ?_) hfiles
    exact (hrows .rooms i).resolve_right fun h => hnew h.1

end

/-! ## Jobs -/

/-- What the job may do to the vault is admitted. -/
def Job.Within (ok : Vault.Act → Prop) : Job → Prop
  | .roomCleanup (some ρ) => ok (.close ρ) ∧ ∀ f, ok (.lose ρ f)
  | .expireUploadSession (some f) => ∀ ρ, ok (.expire ρ f)
  | _ => True

section

variable {env : Env} {ok : Vault.Act → Prop} {σ : Serial}

/-- `run_room_cleanup`. -/
theorem refines_runRoomCleanup {room_id : Option ℕ} (hscratch : ok .scratch)
    (hok : (Job.roomCleanup room_id).Within ok) (hσ : σ.db.rows = σ.db.saved) :
    Ends (handlers.runRoomCleanup room_id) (fun _ σ' => Refines ok σ σ') σ := by
  cases room_id with
  | none => exact (Serial.Quiet.refl σ).result hscratch (.refl σ)
  | some room_id =>
    obtain ⟨hclose, hlose⟩ := hok
    have honly : (handlers.runRoomCleanup (some room_id)).Only
        (Issued Env.plain (Job.roomCleanup (some room_id)).kinds) := only_runRoomCleanup _
    refine refines_of_result hscratch honly (by simp [Job.kinds, cleanupKinds, contentKinds]) ?_
    refine .bind (.getRoomById ?_ fun e => (Serial.Quiet.refl σ).result)
    cases σ.db.rows .rooms room_id with
    | none => exact (Serial.Quiet.refl σ).result
    | some row =>
      change Ends (if row.status = .deleted then _ else _) _ σ
      split
      · exact (Serial.Quiet.refl σ).result
      · refine ends_cleanup (fun changed => ?_) hclose hlose hσ (.refl σ)
        split
        · exact quiet_broadcast _ _ _
        · exact only_pure _

/-- `expire_upload_session`. -/
theorem refines_expireUploadSession {file_id : Option ℕ} (hscratch : ok .scratch)
    (hok : (Job.expireUploadSession file_id).Within ok) (h : Sound σ)
    (hσ : σ.db.rows = σ.db.saved) :
    Ends (handlers.expireUploadSession file_id) (fun _ σ' => Refines ok σ σ') σ := by
  have hnothing : σ.Result ok σ := (Serial.Quiet.refl σ).result
  cases file_id with
  | none => exact hnothing hscratch (.refl σ)
  | some file_id =>
    have honly : (handlers.expireUploadSession (some file_id)).Only
        (Issued Env.plain (Job.expireUploadSession (some file_id)).kinds) :=
      only_expireUploadSession _
    refine refines_of_result hscratch honly (by simp [Job.kinds]) ?_
    -- A record that is gone, or no longer pending, is left alone.
    refine .bind (.getFileById ?_ fun e => hnothing)
    cases hfile : σ.file file_id with
    | none => exact hnothing
    | some rec_ =>
      obtain ⟨hrow, hid⟩ := Serial.of_file hfile
      rw [hσ] at hrow
      change Ends (if rec_.status = .pending then _ else _) _ σ
      split
      · next hpending =>
        -- The parts and the object go before the record.
        let p : Op ℕ := do
          cleanupUploadParts rec_
          storage.delete rec_.storage_key.text
          fileRepository.deleteRecord rec_.id
        have hprog : (do
            cleanupUploadParts rec_
            storage.delete rec_.storage_key.text
            let _ ← fileRepository.deleteRecord rec_.id
            commit : Op Unit) = p >>= fun _ => commit >>= fun u => pure u := by
          simp only [p, bind_assoc, bind_pure]
        have hhandles : Handles (fun key => Key.OfPart key ∨ key = rec_.storage_key.text) p :=
          .bind (handles_cleanupUploadParts fun _ => .inl) fun _ =>
            .bind (.delete (.inr rfl)) fun _ => handles_deleteRecord
        have hkinds : p.Only (Issued Env.plain [.deleteObject, .dropFile]) :=
          only_bind (only_cleanupUploadParts (by decide) _) fun _ =>
            only_bind (only_delete (by decide) _) fun _ => only_deleteRecord (by decide) _
        -- The record is dropped, and no room is charged for a pending one.
        have hyields : Yields p
            (fun _ σ' => Change σ.db.rows σ'.db.rows rec_.id none 0 id) σ :=
          .bind (.bind (.listKeys (.forM_delete (.bind (.delete (.deleteWhere fun _ =>
            (Change.refl (hσ ▸ hrow)).drop_file))))))
        rw [hprog]
        refine ends_commit (f := fun _ => pure ()) (.refl σ) hkinds (by decide) (fun _ => only_pure _)
          (ends_scratches h (.refl σ) hhandles ?_) hyields ?_
        · rintro key (hpart | rfl)
          · exact .inl hpart
          · refine .inr (.inl ⟨rec_.id, rec_.toFileRow, hrow, ?_, rfl⟩)
            rw [hpending]
            decide
        · rintro - σ₂ σ' hc hσ' hd hs
          obtain ⟨_, _, _, rfl⟩ := hσ'
          rw [hσ] at hc
          obtain rfl : rec_.id = file_id := Nat.cast_injective hid
          exact refines_expire hscratch (hok _) hd hs hrow hpending hc
      · exact hnothing

/-- Deleting one object that nobody needs, again and again. -/
theorem refines_deleteKey {key : Option Key} (attempts : ℕ) (hscratch : ok .scratch)
    (hspare : ∀ k, key = some k → σ.Spare k) (h : Sound σ) :
    Ends (jobQueue.runWithRetries (handlers.deleteKey key) attempts)
      (fun _ σ' => Refines ok σ σ') σ := by
  have hhandles : Handles (fun k => key = some k)
      (jobQueue.runWithRetries (handlers.deleteKey key) attempts) := by
    induction attempts with
    | zero => exact .pure _
    | succ n ih =>
      refine .tryCatch ?_ fun _ => ih
      unfold handlers.deleteKey
      split
      · split
        · exact .pure _
        · exact .delete rfl
      · exact .pure _
  have honly : (jobQueue.runWithRetries (handlers.deleteKey key) attempts).Only
      (Issued Env.plain [.deleteObject]) :=
    only_runWithRetries (only_deleteKey (by decide) _) _
  refine ((hhandles σ).and ((ends_scratches h (.refl σ) hhandles fun k hk =>
    .inr (.inr (hspare k hk))).and (Ends.unsaved (Q := fun _ σ' => σ'.db.saved = σ.db.saved) honly
      (by decide) fun _ _ hsaved => hsaved))).mono ?_
  rintro _ σ' ⟨htouches, hs, hsaved⟩
  exact hs.result hsaved hscratch htouches.draws

/-- The vault after a task that has ended its transactions. -/
def Serial.Ended (ok : Vault.Act → Prop) (σ σ' : Serial) : Prop :=
  Refines ok σ σ' ∧ σ'.db.rows = σ'.db.saved

/-- A quiet step is no act at all. -/
theorem Serial.Quiet.ended {σ' : Serial} (h : σ.Quiet σ') (hscratch : ok .scratch)
    (hσ : σ.db.rows = σ.db.saved) : σ.Ended ok σ' := by
  refine ⟨h.result hscratch h.draws, ?_⟩
  obtain ⟨_, _, _, rfl⟩ := h
  exact hσ

/-- A program with its own database session ends it. -/
theorem ends_session {α : Type} {body : Op α} (h : Ends (withSession body) (fun _ σ' =>
    Refines ok σ σ') σ) : Ends (withSession body) (fun _ σ' => σ.Ended ok σ') σ :=
  h.and (.withSession (((Serial.machine server).wp_iff_runs 0 body _ σ).2 fun _ _ _ => rfl))

/-- A handler that is run again after it failed. -/
theorem ended_retries {handler : Op Unit} (hscratch : ok .scratch)
    (hone : ∀ σ, Sound σ → σ.db.rows = σ.db.saved → Ends handler (fun _ σ' => σ.Ended ok σ') σ)
    (attempts : ℕ) (h : Sound σ) (hσ : σ.db.rows = σ.db.saved) :
    Ends (jobQueue.runWithRetries handler attempts) (fun _ σ' => σ.Ended ok σ') σ := by
  induction attempts generalizing σ with
  | zero => exact (Serial.Quiet.refl σ).ended hscratch hσ
  | succ n ih =>
    refine .tryCatch ((hone σ h hσ).mono ?_)
    rintro (e | u) σ₁ hσ₁
    · obtain ⟨h₁, -⟩ := hσ₁.1 h
      exact (ih h₁ hσ₁.2).mono fun _ σ' hσ' => ⟨hσ₁.1.trans hσ'.1, hσ'.2⟩
    · exact hσ₁

/-- A job that a worker has taken off the queue. -/
theorem ended_job {job : Job} (attempts : ℕ) (hscratch : ok .scratch) (hok : job.Within ok)
    (hspare : ∀ key, job.storageKey = some key → σ.Spare key) (h : Sound σ)
    (hσ : σ.db.rows = σ.db.saved) :
    Ends (jobQueue.runWithRetries job.handler attempts) (fun _ σ' => σ.Ended ok σ') σ := by
  -- Both jobs that delete an object delete a spare one.
  have hdelete : ∀ key : Option Key, (∀ k, key = some k → σ.Spare k) →
      Ends (jobQueue.runWithRetries (handlers.deleteKey key) attempts)
        (fun _ σ' => σ.Ended ok σ') σ := by
    intro key hkey
    have honly : (jobQueue.runWithRetries (handlers.deleteKey key) attempts).Only
        (Issued Env.plain [.deleteObject]) :=
      only_runWithRetries (only_deleteKey (by decide) _) _
    refine (refines_deleteKey attempts hscratch hkey h).and
      (Ends.only (I := fun σ' => σ'.db.rows = σ'.db.saved) honly ?_ hσ fun _ _ h => h)
    intro c σ₁ x σ₂ hc hx hσ₁
    by_cases hsql : ∃ q, c = .sql q
    · obtain ⟨q, rfl⟩ := hsql
      cases hc with
      | select =>
        cases hx
        exact hσ₁
      | _ => exact absurd ‹_ ∈ [Kind.deleteObject]› (by decide)
    · rw [Serial.exec_of_ne_sql fun q hq => hsql ⟨q, hq⟩] at hx
      obtain ⟨⟨y, rest⟩, -, he⟩ := Option.map_eq_some_iff.1 hx
      cases he
      exact hσ₁
  cases job with
  -- Whatever an attempt has done, the next one starts from committed rows.
  | roomCleanup room_id =>
    refine ended_retries hscratch (fun σ h hσ => ?_) attempts h hσ
    cases room_id with
    | none => exact (Serial.Quiet.refl σ).ended hscratch hσ
    | some room_id => exact ends_session (refines_runRoomCleanup hscratch hok hσ)
  | deleteFileObject key => exact hdelete key hspare
  | expireUploadSession file_id =>
    refine ended_retries hscratch (fun σ h hσ => ?_) attempts h hσ
    cases file_id with
    | none => exact (Serial.Quiet.refl σ).ended hscratch hσ
    | some file_id => exact ends_session (refines_expireUploadSession hscratch hok h hσ)
  | sendRoomExpirationEvent room_id =>
    refine ended_retries hscratch (fun σ h hσ => ?_) attempts h hσ
    cases room_id with
    | none => exact (Serial.Quiet.refl σ).ended hscratch hσ
    | some room_id => exact .broadcast fun σ' hσ' => hσ'.ended hscratch hσ
  | cleanupOrphanedObject key => exact hdelete key hspare
  | generateAuditEvent room_id type =>
    refine ended_retries hscratch (fun σ h hσ => ends_session ?_) attempts h hσ
    have honly : handlers.generateAuditEvent.Only (Issued Env.plain [.commit, .close]) :=
      only_withSession (by decide) (only_commit (by decide))
    exact ends_aside hscratch (fun hk => absurd hk (by decide)) honly (by decide) hσ

/-- A worker that runs alone: the vault makes the steps that the jobs in the queue admit. -/
theorem ended_worker (jobs : ℕ) (hscratch : ok .scratch)
    (hok : ∀ job ∈ σ.rest.queue, job.Within ok) (h : Sound σ) (hσ : σ.db.rows = σ.db.saved) :
    Ends (jobQueue.worker env jobs) (fun _ σ' => σ.Ended ok σ') σ := by
  induction jobs generalizing σ with
  | zero => exact (Serial.Quiet.refl σ).ended hscratch hσ
  | succ n ih =>
    refine .bind (.issue (fun x σ₁ hx => ?_) fun e he => he.elim)
    have hd := draws_exec (fun _ hcmd => by cases hcmd) hx
    obtain ⟨job, jobs, hqueue, rfl, rfl⟩ := exec_dequeue hx
    have hmem : job ∈ σ.rest.queue := hqueue ▸ List.mem_cons_self
    have hfirst : Refines ok σ { σ with rest := { σ.rest with queue := jobs } } :=
      refines_scratch hscratch hd (.of_eq rfl) (fun _ => rfl) fun _ => rfl
    obtain ⟨h₁, -⟩ := hfirst h
    have hspare : ∀ key, job.storageKey = some key →
        Serial.Spare { σ with rest := { σ.rest with queue := jobs } } key := h.queued job hmem
    have honly : (jobQueue.runWithRetries job.handler env.job_max_attempts).Only
        (Issued env workerKinds) :=
      only_runWithRetries (job.only_handler.mono fun c hc => hc.mono job.kinds_worker) _
    have hjob := ended_job env.job_max_attempts hscratch (hok job hmem) hspare h₁ hσ
    refine .bind ((hjob.and (Ends.draws honly (by decide))).mono ?_)
    rintro (e | u) σ₂ ⟨⟨hjob, hσ₂⟩, hd₂⟩
    · exact ⟨hfirst.trans hjob, hσ₂⟩
    · obtain ⟨h₂, -⟩ := hjob h₁
      have hqueue₂ : ∀ job ∈ σ₂.rest.queue, job.Within ok := fun job hjob =>
        hok job (hd.queue (hd₂.queue hjob))
      exact (ih hqueue₂ h₂ hσ₂).mono fun _ σ' hσ' =>
        ⟨(hfirst.trans hjob).trans hσ'.1, hσ'.2⟩

end

/-! ## The scan -/

/-- Jobs were put into the queue that delete only what is spare, and nothing else has changed. -/
structure Serial.Enqueues (σ σ' : Serial) : Prop where
  rows : σ'.db.rows = σ.db.rows
  saved : σ'.db.saved = σ.db.saved
  count : σ'.db.count = σ.db.count
  rest : ∃ queue, σ'.rest = { σ.rest with queue } ∧
    ∀ job ∈ queue, ∀ key, job.storageKey = some key → σ.Spare key

section

variable {env : Env} {ok : Vault.Act → Prop} {σ σ' : Serial}

/-- The queue of a sound state. -/
theorem Sound.enqueues (h : Sound σ) : σ.Enqueues σ := ⟨rfl, rfl, rfl, _, rfl, h.queued⟩

/-- A step that only enqueues jobs is no act at all. -/
theorem Serial.Enqueues.ended (h : σ.Enqueues σ') (hscratch : ok .scratch)
    (hσ : σ.db.rows = σ.db.saved) : σ.Ended ok σ' := by
  obtain ⟨queue, hrest, hqueue⟩ := h.rest
  refine ⟨fun hsound => ?_, by rw [h.rows, h.saved, hσ]⟩
  -- Only the queue has grown, so whatever was spare is.
  have hspare : ∀ key, σ.Spare key → σ'.Spare key := by
    intro key hkey
    refine ⟨fun f r hr => hkey.1 f r (h.saved ▸ hr), fun n hn => ?_⟩
    rw [hrest] at hn ⊢
    exact hkey.2 n hn
  have h' : Sound σ' := by
    refine ⟨?_, ?_, ?_, ?_, ?_, ?_⟩
    · rw [hrest]
      exact hsound.injective
    · rw [h.saved]
      exact hsound.owned
    · rw [h.saved]
      exact hsound.distinct
    · rw [h.saved, hrest]
      exact hsound.drawn
    · rw [hrest]
      exact hsound.unused
    · intro job hjob key hkey
      rw [hrest] at hjob
      exact hspare key (hqueue job hjob key hkey)
  refine ⟨h', .single hscratch ⟨?_, .scratch ?_ ?_ fun f e _ _ => ?_⟩⟩
  · change σ.db.count .files ≤ σ'.db.count .files
    rw [h.count]
  · funext i
    change (σ'.db.saved .rooms i).map RoomRow.account = _
    rw [h.saved]
    rfl
  · funext i
    change (σ'.db.saved .files i).map FileRow.entry = _
    rw [h.saved]
    rfl
  · change σ'.rest.storage.lookup _ = _
    rw [hrest]
    rfl

/-- A job that deletes only what is spare is put into the queue. -/
theorem ends_enqueue {job : Job} (h : σ.Enqueues σ')
    (hspare : ∀ key, job.storageKey = some key → σ.Spare key) :
    Ends (enqueue job) (fun _ σ'' => σ.Enqueues σ'') σ' := by
  refine .issue (fun x σ₁ hx => ?_) fun e he => he.elim
  cases hx
  obtain ⟨queue, hrest, hqueue⟩ := h.rest
  refine ⟨h.rows, h.saved, h.count, queue ++ [job], ?_, fun job' hjob' => ?_⟩
  · change { σ'.rest with queue := σ'.rest.queue ++ [job] } = _
    rw [hrest]
  · rcases List.mem_append.1 hjob' with hold | hnew
    · exact hqueue job' hold
    · obtain rfl := List.mem_singleton.1 hnew
      exact hspare

/-- A loop keeps what its body keeps. -/
theorem Ends.forM_keeps {ι : Type} {f : ι → Op PUnit} {I : Serial → Prop} (l : List ι)
    (hf : ∀ i ∈ l, ∀ σ, I σ → Ends (f i) (fun _ σ' => I σ') σ) (hI : I σ) :
    Ends (l.forM f) (fun _ σ' => I σ') σ := by
  induction l generalizing σ with
  | nil => exact hI
  | cons i l ih =>
    refine .bind ((hf i List.mem_cons_self σ hI).mono ?_)
    rintro (e | u) σ' hσ'
    · exact hσ'
    · exact ih (fun j hj => hf j (List.mem_cons_of_mem _ hj)) hσ'

/-- `scan_records` enqueues the deletion of objects of DELETED records, and answers the key of every
record. -/
theorem ends_scanRecords {cutoff : Time} (h : Sound σ) (hσ : σ.db.rows = σ.db.saved) :
    Ends (scheduler.scanRecords cutoff) (fun x σ' => σ.Enqueues σ' ∧ ∀ known, x = .ok known →
      ∀ f r, σ.db.saved .files f = some r → r.storage_key.text ∈ known) σ := by
  have hclosed : ∀ (x : Except Err (List Key)) σ', σ.Enqueues σ' →
      (∀ known, x = .ok known → ∀ f r, σ.db.saved .files f = some r → r.storage_key.text ∈ known) →
      σ.Enqueues { σ' with db := σ'.db.rollback } ∧ ∀ known, x = .ok known →
        ∀ f r, σ.db.saved .files f = some r → r.storage_key.text ∈ known :=
    fun x σ' hσ' hx => ⟨⟨hσ'.saved.trans hσ.symm, hσ'.saved, hσ'.count, hσ'.rest⟩, hx⟩
  -- A statement that fails leaves what was enqueued so far.
  have hfail : ∀ (e : Err) σ', σ.Enqueues σ' → σ.Enqueues { σ' with db := σ'.db.rollback } ∧
      ∀ known, (.error e : Except Err (List Key)) = .ok known →
        ∀ f r, σ.db.saved .files f = some r → r.storage_key.text ∈ known :=
    fun e σ' hσ' => hclosed _ σ' hσ' fun known hknown => by cases hknown
  -- The other jobs name a room or a record, and no key.
  have hplain : ∀ (job : Job) σ', job.storageKey = none → σ.Enqueues σ' →
      Ends (enqueue job) (fun _ σ'' => σ.Enqueues σ'') σ' := fun job σ' hnone hσ' =>
    ends_enqueue hσ' fun key hkey => by
      rw [hnone] at hkey
      cases hkey
  refine .withSession (.bind (.bind (.utcnow (.bind (.select ?_ fun e => hfail e _ h.enqueues)))))
  refine .bind ((Ends.forM_keeps _ (fun room _ σ' hσ' => hplain _ σ' rfl hσ') h.enqueues).mono ?_)
  rintro (e | u) σ₁ hσ₁
  · exact hfail e σ₁ hσ₁
  refine .bind (.bind (.select ?_ fun e => hfail e _ hσ₁))
  refine .bind ((Ends.forM_keeps (I := fun σ' => σ.Enqueues σ') _
    (fun rec_ hrec σ' hσ' => ?_) hσ₁).mono ?_)
  · -- A record that is DELETED is the only one with its key, and no key is drawn twice.
    obtain ⟨⟨i, r⟩, hr, rfl⟩ := List.mem_map.1 hrec
    obtain ⟨hr, hdeleted⟩ := Snapshot.mem_select.1 (List.mem_of_mem_take hr)
    rw [hσ₁.rows, hσ] at hr
    have hspare : σ.Spare r.storage_key.text := by
      refine ⟨fun f r' hr' htext => ?_, fun n hn htext => ?_⟩
      · obtain rfl := h.distinct f i r' r hr' hr (Uuid.eq_of_text htext)
        obtain rfl := Option.some.inj (hr'.symm.trans hr)
        exact beq_iff_eq.1 hdeleted
      · obtain ⟨m, hm, hdrawn⟩ := h.drawn i r hr
        have heq := h.injective ((Uuid.eq_of_text htext).trans hdrawn)
        omega
    refine .bind (.issue_of_exec rfl ?_ fun e => hσ')
    change Ends (if _ then _ else _) _ σ'
    split
    · refine ends_enqueue hσ' fun key hkey => ?_
      obtain rfl := Option.some.inj hkey
      exact hspare
    · exact hσ'
  rintro (e | u) σ₂ hσ₂
  · exact hfail e σ₂ hσ₂
  refine .bind (.bind (.select ?_ fun e => hfail e _ hσ₂))
  refine .bind ((Ends.forM_keeps _ (fun rec_ _ σ' hσ' => hplain _ σ' rfl hσ') hσ₂).mono ?_)
  rintro (e | u) σ₃ hσ₃
  · exact hfail e σ₃ hσ₃
  refine .bind (.select (hclosed _ σ₃ hσ₃ ?_) fun e => hfail e _ hσ₃)
  -- The keys that are known are those of all records.
  rintro known ⟨⟩ f r hr
  refine List.mem_map.2 ⟨(f, r), Snapshot.mem_select.2 ⟨?_, rfl⟩, rfl⟩
  rw [hσ₃.rows, hσ]
  exact hr

/-- `_scan_once`: the orphans that it enqueues are the objects of no record. -/
theorem ended_scanOnce (hscratch : ok .scratch) (h : Sound σ) (hσ : σ.db.rows = σ.db.saved) :
    Ends (scheduler.scanOnce env) (fun _ σ' => σ.Ended ok σ') σ := by
  suffices hscan : Ends (scheduler.scanOnce env) (fun _ σ' => σ.Enqueues σ') σ from
    hscan.mono fun _ σ' hσ' => hσ'.ended hscratch hσ
  refine .bind (.utcnow (.tryCatch (.bind ((ends_scanRecords h hσ).mono ?_))))
  rintro (e | known) σ₁ ⟨hσ₁, hknown⟩
  · exact hσ₁
  refine .bind (.issue_of_exec rfl ?_ fun e => hσ₁)
  refine (Ends.forM_keeps (I := fun σ' => σ.Enqueues σ') _ (fun key hkey σ' hσ' => ?_) hσ₁).mono ?_
  · obtain ⟨queue, hrest, -⟩ := hσ₁.rest
    have hmem : key ∈ σ₁.rest.storage.listKeys [] ∧ key ∉ known := by
      have hkey := List.mem_of_mem_take hkey
      simpa [scheduler.orphans, List.mem_insertionSort, List.mem_dedup] using hkey
    rw [hrest] at hmem
    refine ends_enqueue hσ' fun k hk => ?_
    obtain rfl := Option.some.inj hk
    refine ⟨fun f r hr htext => ?_, fun n hn htext => ?_⟩
    · exact absurd (htext ▸ hknown known rfl f r hr) hmem.2
    · -- Nothing is stored under a key that is still to be drawn.
      have hstored := mem_keys_iff.1 (mem_listKeys.1 hmem.1).1
      rw [← htext] at hstored
      exact hstored (h.unused n hn)
  · rintro (e | u) σ' hσ'
    · exact hσ'
    · exact hσ'

/-! ## Tasks -/

/-- Every task, run alone, makes steps of the vault that it is allowed. -/
theorem ends_task {task : Task} (h : Sound σ) (hσ : σ.db.rows = σ.db.saved) :
    Ends (task.program env) (fun _ σ' => Refines (Allowed env σ task) σ σ') σ := by
  -- A task that writes no file is a step aside, or opens a room.
  have haside : (∀ k ∈ task.kinds, k ∈ asideKinds) →
      (Kind.newRoom ∈ task.kinds → Allowed env σ task .opens) →
      Ends (task.program env) (fun _ σ' => Refines (Allowed env σ task) σ σ') σ :=
    fun hkinds hopens => ends_aside (.scratch _) hopens (Task.only_program task) hkinds hσ
  cases task with
  | request route request =>
    cases route with
    | createRoom body => exact haside (by simp [Task.kinds, Route.kinds, asideKinds]) fun _ => .opens _ _
    | upload room_token name type chunks => exact .map (ends_upload h hσ)
    | createUploadSession room_token body => exact .map (ends_createUploadSession h hσ)
    | uploadChunk room_token upload_id index body => exact .map (ends_uploadChunk h hσ)
    | completeUploadSession room_token upload_id body =>
      exact .map (ends_completeUploadSession h hσ)
    | abortUploadSession room_token upload_id => exact ends_abortUploadSession h hσ
    | deleteFile room_token file_id => exact .map (ends_delete h hσ)
    | deleteRoom room_token => exact ends_deleteRoom hσ
    | _ =>
      exact haside (by simp [Task.kinds, Route.kinds, asideKinds]) fun hk => by
        simp [Task.kinds, Route.kinds] at hk
  | socket ws handshake frames =>
    exact haside (show ∀ k ∈ websocket.kinds, k ∈ asideKinds by decide) fun hk => by
      exact absurd hk (show Kind.newRoom ∉ websocket.kinds by decide)
  | worker jobs =>
    refine (ended_worker jobs (.scratch _) (fun job hjob => ?_) h hσ).mono fun _ _ h => h.1
    cases job with
    | roomCleanup room_id =>
      cases room_id with
      | none => trivial
      | some ρ => exact ⟨.close hjob, fun f => .lose hjob⟩
    | expireUploadSession file_id =>
      cases file_id with
      | none => trivial
      | some f => exact fun ρ => .expire hjob
    | _ => trivial
  | scan => exact (ended_scanOnce (.scratch _) h hσ).mono fun _ _ h => h.1
  | idle => exact (Serial.Quiet.refl σ).result (.scratch _) (.refl σ)

end

end DropRoom
