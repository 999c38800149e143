import Mathlib.Data.List.Dedup
import DropRoom.App.Tasks
import DropRoom.Files.Leftovers

/-!
# The orphans of a scan

`_scan_once` takes every key in storage for an orphan that is no record's storage key, up to a limit
in the order of the keys. A staged part has no record of its own, so it is taken for an orphan unless
enough other unknown keys come before it. `draining` follows the jobs of a scan: where no part of a
pending upload was enqueued, the parts of every upload that is still pending are left alone.
-/

namespace DropRoom

open Effect Store Prog uploadService leftovers

namespace orphans

/-! ## The first elements of a sorted list -/

/-- The first `n` elements of a sorted list are those with fewer than `n` elements before them. -/
theorem mem_take_iff {α : Type} [LinearOrder α] {l : List α} (h : l.Pairwise (· < ·)) {n : ℕ}
    {a : α} : a ∈ l.take n ↔ a ∈ l ∧ (l.filter fun b => decide (b < a)).length < n := by
  induction l generalizing n with
  | nil => simp
  | cons b l ih =>
    obtain ⟨hb, hl⟩ := List.pairwise_cons.1 h
    cases n with
    | zero => simp
    | succ n =>
      rw [List.take_succ_cons, List.mem_cons, List.mem_cons, ih hl]
      by_cases hab : a = b
      · subst hab
        have hnil : (a :: l).filter (fun b => decide (b < a)) = [] := by
          refine List.filter_eq_nil_iff.2 fun c hc => ?_
          rcases List.mem_cons.1 hc with rfl | hc
          · simp
          · simpa using (hb c hc).le
        simp [hnil]
      · rw [or_iff_right hab, or_iff_right hab]
        refine and_congr_right fun ha => ?_
        rw [List.filter_cons_of_pos (by simpa using hb a ha), List.length_cons]
        omega

/-- What `_scan_once` takes for orphans, in order. -/
theorem pairwise_orphans (keys known : List Key) :
    (scheduler.orphans keys known).Pairwise (· < ·) := by
  have hle := (List.sortedLE_insertionSort (l := (keys.filter fun k => k ∉ known).dedup)).pairwise
  have hnodup : (scheduler.orphans keys known).Nodup :=
    (List.perm_insertionSort _ _).nodup_iff.2 (List.nodup_dedup _)
  exact (hle.and hnodup).imp fun h => lt_of_le_of_ne h.1 h.2

/-- The keys that are enqueued. -/
theorem mem_take_orphans {keys known : List Key} (hkeys : keys.Nodup) {n : ℕ} {key : Key} :
    key ∈ (scheduler.orphans keys known).take n ↔ (key ∈ keys ∧ key ∉ known) ∧
      (keys.filter fun k => decide (k ∉ known ∧ k < key)).length < n := by
  have hperm : (scheduler.orphans keys known).Perm (keys.filter fun k => k ∉ known) := by
    refine (List.perm_insertionSort _ _).trans ?_
    rw [(hkeys.filter _).dedup]
  rw [mem_take_iff (pairwise_orphans keys known), hperm.mem_iff, List.mem_filter,
    (hperm.filter _).length_eq, List.filter_filter]
  refine and_congr (by rw [decide_eq_true_eq]) ?_
  refine iff_of_eq (congrArg (fun l => List.length l < n) (List.filter_congr fun k _ => ?_))
  rw [Bool.eq_iff_iff]
  simp [and_comm]

/-! ## What a scan enqueues -/

/-- A job that a scan enqueues for a row: it deletes no key but storage keys. -/
def Ordinary : Job → Prop
  | .roomCleanup _ => True
  | .deleteFileObject key => ∃ κ : Uuid, key = some κ.text
  | .expireUploadSession _ => True
  | _ => False

/-- The state after some ordinary jobs were enqueued. -/
def Enqueued (σ σ' : Serial) : Prop :=
  σ'.db = σ.db ∧ σ'.rest.storage = σ.rest.storage ∧
    ∃ jobs, (∀ job ∈ jobs, Ordinary job) ∧ σ'.rest.queue = σ.rest.queue ++ jobs

/-- Nothing was enqueued. -/
theorem Enqueued.refl (σ : Serial) : Enqueued σ σ := ⟨rfl, rfl, [], by simp, by simp⟩

section

variable {env : Env} {σ σ₀ : Serial}

/-- Enqueueing an ordinary job. -/
theorem Enqueued.enqueue (h : Enqueued σ₀ σ) {job : Job} (hjob : Ordinary job) :
    After (enqueue job) (fun r σ' => r = .ok () ∧ Enqueued σ₀ σ') σ := by
  obtain ⟨hdb, hs, jobs, hjobs, hq⟩ := h
  refine (After.enqueue_iff _ _).2 ⟨rfl, hdb, hs, jobs ++ [job], ?_, ?_⟩
  · intro j hj
    rcases List.mem_append.1 hj with hj | hj
    · exact hjobs j hj
    · rw [List.mem_singleton.1 hj]
      exact hjob
  · change σ.rest.queue ++ [job] = _
    rw [hq, List.append_assoc]

/-- The storage keys of all records. -/
def known (σ : Serial) : List Key :=
  (σ.db.select .files fun _ _ => true).map fun r => r.2.storage_key.text

/-- What the scan reads of the database. -/
theorem after_scanRecords (cutoff : Time) :
    After (scheduler.scanRecords cutoff) (fun r σ' => r = .ok (known σ) ∧
      Enqueued { σ with db := σ.db.rollback } σ') σ := by
  refine (After.withSession_iff _ _).2 ?_
  suffices h : After (do
      let rooms ← roomRepository.listRoomsPendingCleanup
      rooms.forM fun room => DropRoom.enqueue (.roomCleanup (some room.id))
      let deleted ← fileRepository.listDeletedRecords
      deleted.forM fun rec_ => do
        if ← storage.exists_ rec_.storage_key.text then
          DropRoom.enqueue (.deleteFileObject (some rec_.storage_key.text))
      let stale ← fileRepository.listStalePending cutoff
      stale.forM fun rec_ => DropRoom.enqueue (.expireUploadSession (some rec_.id))
      fileRepository.listAllStorageKeys) (fun r σ' => r = .ok (known σ) ∧ Enqueued σ σ') σ by
    refine h.mono ?_
    rintro r σ' ⟨hr, hdb, hs, hq⟩
    exact ⟨hr, congrArg Snapshot.rollback hdb, hs, hq⟩
  refine (After.bind_iff _ _ _).2 ((After.bind_iff _ _ _).2 ((After.utcnow_iff _).2 ?_))
  refine (After.bind_iff _ _ _).2 ((After.select_iff _ _ _).2 ((After.pure_iff _).2 ?_))
  refine (After.bind_iff _ _ _).2 ((After.forM _ (fun room _ σ' h => h.enqueue trivial)
    (Enqueued.refl σ)).mono ?_)
  rintro r σ₁ ⟨rfl, h₁⟩
  refine (After.bind_iff _ _ _).2 ((After.bind_iff _ _ _).2 ((After.select_iff _ _ _).2 ?_))
  refine (After.pure_iff _).2 ?_
  refine (After.bind_iff _ _ _).2 ((After.forM (I := Enqueued σ) _ (fun rec_ _ σ' h => ?_) h₁).mono ?_)
  · refine (After.bind_iff _ _ _).2 ((After.exists_iff _ _).2 ?_)
    dsimp only
    split
    · exact h.enqueue ⟨rec_.storage_key, rfl⟩
    · exact ⟨rfl, h⟩
  rintro r σ₂ ⟨rfl, h₂⟩
  refine (After.bind_iff _ _ _).2 ((After.bind_iff _ _ _).2 ((After.select_iff _ _ _).2 ?_))
  refine (After.pure_iff _).2 ?_
  have hstale : ∀ i : ℕ, Ordinary (.expireUploadSession (some i)) := fun _ => trivial
  refine (After.bind_iff _ _ _).2 ((After.forM (I := Enqueued σ) _
    (fun rec_ _ σ' h => h.enqueue (hstale rec_.id)) h₂).mono ?_)
  rintro r σ₃ ⟨rfl, h₃⟩
  refine (After.bind_iff _ _ _).2 ((After.select_iff _ _ _).2 ((After.pure_iff _).2 ⟨?_, h₃⟩))
  rw [known, ← h₃.1]

/-- Enqueueing a list of jobs. -/
theorem forM_enqueue_iff {α : Type} (job : α → Job) (l : List α)
    (Q : Except Err PUnit → Serial → Prop) :
    After (l.forM fun a => DropRoom.enqueue (job a)) Q σ ↔
      Q (.ok ⟨⟩) { σ with rest := { σ.rest with queue := σ.rest.queue ++ l.map job } } := by
  induction l generalizing σ with
  | nil =>
    rw [List.map_nil, List.append_nil]
    exact Iff.rfl
  | cons a l ih =>
    refine (After.bind_iff (DropRoom.enqueue (job a))
      (fun _ => l.forM fun a => DropRoom.enqueue (job a)) Q).trans ?_
    rw [After.enqueue_iff]
    refine ih.trans ?_
    rw [List.map_cons, List.append_assoc, List.singleton_append]

/-- What a scan enqueues. -/
theorem after_scan : After (scheduler.scanOnce env) (fun _ σ' =>
    σ'.db = σ.db.rollback ∧ σ'.rest.storage = σ.rest.storage ∧ ∃ jobs,
      (∀ job ∈ jobs, Ordinary job) ∧ σ'.rest.queue = σ.rest.queue ++ (jobs ++
        ((scheduler.orphans (σ.rest.storage.listKeys []) (known σ)).take
          env.job_orphan_sweep_limit).map fun key => .cleanupOrphanedObject (some key))) σ := by
  refine (After.bind_iff _ _ _).2 ((After.utcnow_iff _).2 ((After.tryCatch_iff _ _).2 ?_))
  refine (After.bind_iff _ _ _).2 ((after_scanRecords _).mono ?_)
  rintro r σ₁ ⟨rfl, hdb, hs, jobs, hjobs, hq⟩
  refine (After.bind_iff _ _ _).2 ((After.listKeys_iff _ _).2 ((forM_enqueue_iff _ _ _).2 ?_))
  refine ⟨hdb, hs, jobs, hjobs, ?_⟩
  change σ₁.rest.queue ++ _ = _
  rw [hq, hs, List.append_assoc]

end

/-! ## Draining the jobs -/

/-- A job that deletes no part of the upload with storage key `κ` but by its record. -/
def Harmless (κ : Uuid) : Job → Prop
  | .deleteFileObject key => ∀ i, key ≠ some (partKey κ i)
  | .cleanupOrphanedObject key => ∀ i, key ≠ some (partKey κ i)
  | _ => True

/-- A job that names no part is harmless for every upload. -/
theorem Ordinary.harmless {job : Job} (h : Ordinary job) (κ : Uuid) : Harmless κ job := by
  cases job with
  | deleteFileObject key =>
    obtain ⟨κ', rfl⟩ := h
    exact fun i hi => text_ne_partKey κ' κ i (Option.some.inj hi)
  | cleanupOrphanedObject key => exact h.elim
  | _ => trivial

/-- While the jobs are drained, record `f` is the only one with storage key `κ`, and its parts are
left alone as long as it exists. -/
structure Draining (κ : Uuid) (f : ℕ) (s : Storage) (σ : Serial) : Prop where
  clean : σ.db.rows = σ.db.saved
  owner : ∀ g row, σ.db.saved .files g = some row → row.storage_key = κ → g = f
  parts : (∀ i, σ.rest.storage.lookup (partKey κ i) = s.lookup (partKey κ i)) ∨
    σ.db.saved .files f = none
  queue : ∀ job ∈ σ.rest.queue, Harmless κ job

/-- The prefix of the parts of an upload tells its storage key. -/
theorem eq_of_partPrefix {κ κ' : Uuid} {i : ℕ} (h : partPrefix κ <+: partKey κ' i) : κ = κ' := by
  have htake : ∀ (k : Uuid) (l : List Char), (k.text ++ '.' :: l).takeWhile (· ≠ '.') = k.text := by
    intro k l
    rw [List.takeWhile_append_of_pos]
    · simp
    · intro c hc
      have hne : c ≠ '.' := fun h => k.noDot (h ▸ hc)
      simpa using hne
  obtain ⟨l, hl⟩ := h
  have hsplit : κ.text ++ '.' :: l = κ'.text ++ '.' :: pad i := by
    simpa [partPrefix, partKey] using hl
  have htext : κ.text = κ'.text := by
    rw [← htake κ l, hsplit, htake]
  cases κ
  cases κ'
  cases htext
  rfl

section

variable {κ : Uuid} {f : ℕ} {s : Storage} {σ : Serial}

/-- A handler leaves nothing uncommitted. -/
theorem clean_handler (job : Job) (hσ : σ.db.rows = σ.db.saved) :
    After job.handler (fun _ σ' => σ'.db.rows = σ'.db.saved) σ := by
  have hsession : ∀ {α : Type} (body : Op α),
      After (withSession body) (fun _ σ' => σ'.db.rows = σ'.db.saved) σ := fun body =>
    (After.withSession_iff _ _).2 (After.of_forall fun _ _ => rfl)
  have hkey : ∀ key, After (handlers.deleteKey key) (fun _ σ' => σ'.db.rows = σ'.db.saved) σ := by
    intro key
    unfold handlers.deleteKey
    split
    · split
      · exact hσ
      · exact (After.delete_iff _ _).2 hσ
    · exact hσ
  cases job with
  | roomCleanup room_id =>
    cases room_id with
    | none => exact hσ
    | some room_id => exact hsession _
  | deleteFileObject key => exact hkey key
  | expireUploadSession file_id =>
    cases file_id with
    | none => exact hσ
    | some file_id => exact hsession _
  | sendRoomExpirationEvent room_id =>
    cases room_id with
    | none => exact hσ
    | some room_id =>
      refine After.broadcast fun σ' hσ' => ?_
      obtain ⟨_, _, _, rfl⟩ := hσ'
      exact hσ
  | cleanupOrphanedObject key => exact hkey key
  | generateAuditEvent room_id type => exact hsession _

/-- A handler leaves the queue alone. -/
theorem queue_exec {c : Cmd} {job : Job} (hc : Issued .plain job.kinds c) {σ' : Serial} {x}
    (hx : Serial.exec c σ = some (x, σ')) : σ'.rest.queue = σ.rest.queue := by
  have hkinds : Kind.enqueue ∉ job.kinds ∧ Kind.dequeue ∉ job.kinds := by
    cases job <;> exact ⟨by simp only [Job.kinds]; decide, by simp only [Job.kinds]; decide⟩
  by_cases hquiet : c.Quiet
  · obtain ⟨_, _, _, rfl⟩ := hquiet.exec hx
    rfl
  · cases hc with
    | put hk key data => cases data <;> cases hx <;> rfl
    | enqueue hk => exact absurd hk hkinds.1
    | dequeue hk => exact absurd hk hkinds.2
    | _ =>
      first
      | exact absurd trivial hquiet
      | cases hx; rfl

/-- `if storage_key: delete`. -/
theorem parts_deleteKey {key : Option Key} (hkey : ∀ i, key ≠ some (partKey κ i))
    (h : ∀ i, σ.rest.storage.lookup (partKey κ i) = s.lookup (partKey κ i)) :
    After (handlers.deleteKey key) (fun _ σ' =>
      ∀ i, σ'.rest.storage.lookup (partKey κ i) = s.lookup (partKey κ i)) σ := by
  unfold handlers.deleteKey
  split
  · split
    · exact h
    · refine (After.delete_iff _ _).2 fun i => ?_
      refine (AList.lookup_erase_ne fun hi => ?_).trans (h i)
      exact hkey i (congrArg some hi.symm)
  · exact h

/-- `expire_upload_session` of a record removes its own parts only. -/
theorem parts_expire {g : ℕ} (hclean : σ.db.rows = σ.db.saved)
    (howner : ∀ g row, σ.db.saved .files g = some row → row.storage_key = κ → g = f)
    (h : ∀ i, σ.rest.storage.lookup (partKey κ i) = s.lookup (partKey κ i)) :
    After (handlers.expireUploadSession (some g)) (fun _ σ' =>
      (∀ i, σ'.rest.storage.lookup (partKey κ i) = s.lookup (partKey κ i)) ∨
        σ'.db.saved .files f = none) σ := by
  refine (After.withSession_iff _ _).2 ((After.bind_iff _ _ _).2 ((After.getFileById_iff _ _).2 ?_))
  have hfile : σ.file g = (σ.db.saved .files g).map fun r => toFile (g, r) :=
    congrArg (Option.map fun r => toFile (g, r)) (congrFun (congrFun hclean _) g)
  rw [hfile]
  cases hrow : σ.db.saved .files g with
  | none => exact .inl h
  | some row =>
    dsimp only [Option.map_some]
    split
    · refine (After.bind_iff _ _ _).2 ((cleanupUploadParts_iff _ _).2 ?_)
      refine (After.bind_iff _ _ _).2 ((After.delete_iff _ _).2 ?_)
      refine (After.bind_iff _ _ _).2 ((After.deleteWhere_iff _ _ _).2 ((After.commit_iff _).2 ?_))
      by_cases hκ : row.storage_key = κ
      · obtain rfl := howner g row hrow hκ
        refine .inr ?_
        change (σ.db.drop .files (dialect.deletes (t := Table.files) (.byId g))).rows .files g = none
        rw [Snapshot.rows_drop, hclean, hrow]
        simp [dialect]
      · refine .inl fun i => ?_
        refine (AList.lookup_erase_ne fun hi => text_ne_partKey _ _ _ hi.symm).trans ?_
        rw [Storage.lookup_eraseAll, if_neg]
        · exact h i
        · exact fun hi => hκ (eq_of_partPrefix (mem_listKeys.1 hi).2)
    · exact .inl h

/-- The handler of a harmless job. -/
theorem Draining.handler (h : Draining κ f s σ) {job : Job} (hjob : Harmless κ job) :
    After job.handler (fun _ σ' => Draining κ f s σ') σ := by
  have hrows : σ.All .files fun g row => row.storage_key = κ → g = f := by
    intro g row hrow
    rw [h.clean, or_self] at hrow
    exact h.owner g row hrow
  -- No handler writes a new record, or gives a record another key.
  have howner : After job.handler (fun _ σ' => ∀ g row, σ'.db.saved .files g = some row →
      row.storage_key = κ → g = f) σ := by
    refine After.only ((@Job.only_handler .plain job).mono fun c hc => hc.mono job.kinds_worker)
      (fun c σ₁ x σ₂ hc hx hσ₁ => hσ₁.exec hx ?_ ?_) hrows fun _ _ h g row hr => h g row (.inr hr)
    · rintro g u row rfl - -
      cases hc with
      | _ => exact absurd ‹_ ∈ workerKinds› (by decide)
    · rintro g row rfl
      cases hc with
      | _ => exact absurd ‹_ ∈ workerKinds› (by decide)
  -- Only the server and the scans enqueue.
  have hqueue : After job.handler (fun _ σ' => σ'.rest.queue = σ.rest.queue) σ :=
    After.only (@Job.only_handler .plain job)
      (fun c σ₁ x σ₂ hc hx hσ₁ => (queue_exec hc hx).trans hσ₁) rfl fun _ _ h => h
  have hparts : After job.handler (fun _ σ' =>
      (∀ i, σ'.rest.storage.lookup (partKey κ i) = s.lookup (partKey κ i)) ∨
        σ'.db.saved .files f = none) σ := by
    rcases h.parts with hsame | hgone
    -- The parts are there: no job deletes them, unless it deletes the record as well.
    · have hstorage : ∀ {K : List Kind}, job.handler.Only (Issued .plain K) → Kind.put ∉ K →
          Kind.deleteObject ∉ K → After job.handler (fun _ σ' =>
            (∀ i, σ'.rest.storage.lookup (partKey κ i) = s.lookup (partKey κ i)) ∨
              σ'.db.saved .files f = none) σ := fun hK hput hdelete =>
        After.unstored hK hput hdelete fun r σ' hs => .inl (hs ▸ hsame)
      cases job with
      | roomCleanup room_id =>
        refine (after_sparesParts (sparesParts_runRoomCleanup room_id) σ κ).mono fun r σ' h => ?_
        exact .inl fun i => (h i).trans (hsame i)
      | deleteFileObject key => exact (parts_deleteKey hjob hsame).mono fun _ _ h => .inl h
      | expireUploadSession file_id =>
        cases file_id with
        | none => exact .inl hsame
        | some g => exact parts_expire h.clean h.owner hsame
      | sendRoomExpirationEvent room_id =>
        exact hstorage (Job.only_handler _) List.not_mem_nil List.not_mem_nil
      | cleanupOrphanedObject key => exact (parts_deleteKey hjob hsame).mono fun _ _ h => .inl h
      | generateAuditEvent room_id type =>
        exact hstorage (K := [.commit, .close]) (Job.only_handler (.generateAuditEvent room_id type))
          (by decide) (by decide)
    -- The record is gone, and no handler brings it back.
    · have hall : σ.All .files fun g _ => g ≠ f := by
        rintro g row hrow rfl
        rw [h.clean, or_self, hgone] at hrow
        cases hrow
      have hnone : ∀ σ' : Serial, σ'.All .files (fun g _ => g ≠ f) →
          σ'.db.saved .files f = none := by
        intro σ' hall'
        cases hrow : σ'.db.saved .files f with
        | none => rfl
        | some row => exact absurd rfl (hall' f row (.inr hrow))
      refine After.only ((@Job.only_handler .plain job).mono fun c hc => hc.mono job.kinds_worker)
        (fun c σ₁ x σ₂ hc hx hσ₁ => hσ₁.exec hx (fun g u row _ _ hg => hg) ?_) hall
        fun _ σ' h => .inr (hnone σ' h)
      rintro g row rfl
      cases hc with
      | _ => exact absurd ‹_ ∈ workerKinds› (by decide)
  refine ((clean_handler job h.clean).and (howner.and (hqueue.and hparts))).mono ?_
  rintro r σ' ⟨hclean, howner', hqueue', hparts'⟩
  exact ⟨hclean, howner', hparts', fun j hj => h.queue j (hqueue' ▸ hj)⟩

/-- A harmless job with its retries. -/
theorem Draining.runWithRetries {job : Job} (hjob : Harmless κ job) (attempts : ℕ)
    (h : Draining κ f s σ) :
    After (jobQueue.runWithRetries job.handler attempts) (fun _ σ' => Draining κ f s σ') σ := by
  induction attempts generalizing σ with
  | zero => exact h
  | succ n ih =>
    refine (After.tryCatch_iff _ _).2 ((h.handler hjob).mono ?_)
    rintro (e | ⟨⟩) σ' h'
    · exact ih h'
    · exact h'

/-- A worker that takes harmless jobs off the queue. -/
theorem Draining.worker (env : Env) (jobs : ℕ) (h : Draining κ f s σ) :
    After (jobQueue.worker env jobs) (fun _ σ' => Draining κ f s σ') σ := by
  induction jobs generalizing σ with
  | zero => exact h
  | succ n ih =>
    refine (After.bind_iff _ _ _).2 ((After.issue_iff _ _).2 fun x σ₁ hx => ?_)
    cases hqueue : σ.rest.queue with
    | nil =>
      rw [Serial.exec_of_ne_sql (by rintro q ⟨⟩), exec, hqueue] at hx
      cases hx
    | cons job queue =>
      rw [Serial.exec_of_ne_sql (by rintro q ⟨⟩), exec, hqueue] at hx
      cases hx
      have h₁ : Draining κ f s { σ with rest := { σ.rest with queue } } :=
        ⟨h.clean, h.owner, h.parts, fun j hj => h.queue j (hqueue ▸ List.mem_cons_of_mem _ hj)⟩
      have hjob : Harmless κ job := h.queue job (hqueue ▸ List.mem_cons_self)
      refine (After.bind_iff _ _ _).2 ((h₁.runWithRetries hjob _).mono ?_)
      rintro (e | ⟨⟩) σ₂ h₂
      · exact h₂
      · exact ih h₂

end

/-! ## Scans -/

/-- The storage keys of the committed records. -/
def recordKeys (w : World) : List Key :=
  (w.db .files).filterMap fun c => c.committed.map fun r => r.storage_key.text

/-- No enqueued job removes the object of a record, or a part of a pending record, as an orphan. -/
def SparesUploads (w : World) (queue : List Job) : Prop :=
  ∀ key, Job.cleanupOrphanedObject (some key) ∈ queue → ∀ f row,
    w.db.committed .files f = some row → key ≠ row.storage_key.text ∧
      (row.status = .pending → ∀ i, key ≠ partKey row.storage_key i)

/-- Every staged part of a pending record comes after as many keys of no record as a scan
enqueues. -/
def Beyond (env : Env) (w : World) : Prop :=
  ∀ f row, w.db.committed .files f = some row → row.status = .pending → ∀ i,
    w.storage.lookup (partKey row.storage_key i) ≠ none →
      env.job_orphan_sweep_limit ≤ (w.storage.keys.filter fun k =>
        !(recordKeys w).contains k && decide (k < partKey row.storage_key i)).length

/-- Each storage key belongs to one record, as the unique constraint of its column says. -/
def UniqueKeys (w : World) : Prop :=
  ∀ f g row row', w.db.committed .files f = some row → w.db.committed .files g = some row' →
    row.storage_key = row'.storage_key → f = g

/-- The keys of the records. -/
theorem mem_recordKeys {w : World} {key : Key} :
    key ∈ recordKeys w ↔ ∃ f row, w.db.committed .files f = some row ∧ row.storage_key.text = key := by
  rw [recordKeys, List.mem_filterMap]
  constructor
  · rintro ⟨c, hc, hkey⟩
    obtain ⟨row, hrow, rfl⟩ := Option.map_eq_some_iff.1 hkey
    obtain ⟨f, hf⟩ := List.mem_iff_getElem?.1 hc
    refine ⟨f, row, ?_, rfl⟩
    rw [Tables.committed, Tables.cell, hf]
    exact hrow
  · rintro ⟨f, row, hrow, rfl⟩
    have hlt := Tables.lt_length_of_committed hrow
    refine ⟨(w.db .files)[f], List.getElem_mem hlt, ?_⟩
    rw [Tables.committed, Tables.cell, List.getElem?_eq_getElem hlt, Option.getD_some] at hrow
    rw [hrow]
    rfl

/-- The keys that a scan knows are those of the records. -/
theorem mem_known {p : ℕ} {w : World} (hw : w.db.Free) {key : Key} :
    key ∈ known (.of p w) ↔ key ∈ recordKeys w := by
  rw [known, List.mem_map, mem_recordKeys]
  constructor
  · rintro ⟨⟨f, row⟩, hrow, rfl⟩
    refine ⟨f, row, ?_, rfl⟩
    exact (congrFun (congrFun (Snapshot.rows_of_free hw) _) _).symm.trans
      (Snapshot.mem_select.1 hrow).1
  · rintro ⟨f, row, hrow, rfl⟩
    refine ⟨(f, row), Snapshot.mem_select.2 ⟨?_, rfl⟩, rfl⟩
    exact (congrFun (congrFun (Snapshot.rows_of_free hw) _) _).trans hrow

/-- What a scan enqueues. -/
structure Scanned (env : Env) (w w₁ : World) (jobs : List Job) : Prop where
  committed : ∀ t f, w₁.db.committed t f = w.db.committed t f
  storage : w₁.storage = w.storage
  queue : w₁.queue = w.queue ++ jobs
  ordinary : ∀ job ∈ jobs, Ordinary job ∨ ∃ key, job = .cleanupOrphanedObject (some key)
  mem_iff : ∀ key, Job.cleanupOrphanedObject (some key) ∈ jobs ↔
    (w.storage.lookup key ≠ none ∧ key ∉ recordKeys w) ∧ (w.storage.keys.filter fun k =>
      !(recordKeys w).contains k && decide (k < key)).length < env.job_orphan_sweep_limit

/-- A scan in which nothing fails. -/
theorem exists_scanned {env : Env} {p : ℕ} {w w₁ : World} {r : Except Err Unit}
    (hw : w.db.Free) (hr : calm.Runs p (scheduler.scanOnce env) w r w₁) :
    ∃ jobs, Scanned env w w₁ jobs := by
  obtain ⟨hdb, hs, jobs, hjobs, hq⟩ := (@after_scan env _).of_runs hr (hw.alone p)
  have hno : ∀ key, Job.cleanupOrphanedObject key ∉ jobs := fun key h => hjobs _ h
  refine ⟨_, fun t f => congrFun (congrFun (congrArg Snapshot.saved hdb) t) f, hs, hq, ?_, ?_⟩
  · intro job hjob
    rcases List.mem_append.1 hjob with hjob | hjob
    · exact .inl (hjobs job hjob)
    · obtain ⟨key, -, rfl⟩ := List.mem_map.1 hjob
      exact .inr ⟨key, rfl⟩
  · intro key
    have hperm : (w.storage.listKeys []).Perm w.storage.keys := by
      refine (List.perm_insertionSort _ _).trans (.of_eq ?_)
      simp
    have hknown : ∀ k, k ∈ known (.of p w) ↔ k ∈ recordKeys w := fun k => mem_known hw
    rw [List.mem_append, or_iff_right (hno _),
      List.mem_map_of_injective fun k k' hk => by cases hk; rfl]
    refine (mem_take_orphans (hperm.nodup_iff.2 w.storage.nodupKeys)).trans ?_
    refine and_congr ?_ ?_
    · rw [hknown, ← mem_keys_iff]
      exact and_congr_left fun _ => hperm.mem_iff
    · refine iff_of_eq (congrArg (· < env.job_orphan_sweep_limit) ?_)
      refine ((hperm.filter _).length_eq).trans (congrArg List.length ?_)
      refine List.filter_congr fun k _ => ?_
      rw [Bool.eq_iff_iff]
      simp [hknown]

/-- A part key is the key of no record. -/
theorem partKey_not_mem_recordKeys (w : World) (κ : Uuid) (i : ℕ) :
    partKey κ i ∉ recordKeys w := by
  intro h
  obtain ⟨f, row, -, hkey⟩ := mem_recordKeys.1 h
  exact text_ne_partKey _ _ _ hkey

/-- A scan spares the uploads exactly when their parts are beyond its limit. -/
theorem Scanned.spares_iff {env : Env} {w w₁ : World} {jobs : List Job}
    (h : Scanned env w w₁ jobs) : SparesUploads w jobs ↔ Beyond env w := by
  constructor
  · intro hspares f row hrow hpending i hstaged
    by_contra hlt
    have hmem := (h.mem_iff (partKey row.storage_key i)).2
      ⟨⟨hstaged, partKey_not_mem_recordKeys _ _ _⟩, Nat.lt_of_not_le hlt⟩
    exact (hspares _ hmem f row hrow).2 hpending i rfl
  · intro hbeyond key hkey f row hrow
    obtain ⟨⟨hstored, hunknown⟩, hlt⟩ := (h.mem_iff key).1 hkey
    refine ⟨?_, ?_⟩
    · rintro rfl
      exact hunknown (mem_recordKeys.2 ⟨f, row, hrow, rfl⟩)
    · rintro hpending i rfl
      have hle := hbeyond f row hrow hpending i hstored
      omega

/-- After a scan that spares the uploads, the jobs that it enqueued leave the parts of a pending record
alone. -/
theorem Scanned.draining {env : Env} {p : ℕ} {w w₁ : World} {jobs : List Job}
    (h : Scanned env w w₁ jobs) (hw₁ : w₁.db.Free) (hunique : UniqueKeys w)
    (hspares : SparesUploads w jobs) {f : ℕ} {row : FileRow}
    (hrow : w.db.committed .files f = some row) (hpending : row.status = .pending) :
    Draining row.storage_key f w.storage (.of p { w₁ with queue := jobs }) where
  clean := Snapshot.rows_of_free hw₁
  owner g row' hrow' hkey := by
    refine hunique g f row' row ?_ hrow hkey
    exact (h.committed _ _).symm.trans hrow'
  parts := .inl fun i => congrArg (AList.lookup _) h.storage
  queue job hjob := by
    rcases h.ordinary job hjob with hord | ⟨key, rfl⟩
    · exact hord.harmless _
    · intro i hi
      cases hi
      exact (hspares _ hjob f row hrow).2 hpending i rfl

end orphans

open chunks orphans

/-- For every database content and every storage, no key that a scan enqueues as an orphan belongs to a
record or is a part of a pending record, and the jobs of the scan leave the parts of the records that
are still there, exactly when every part of a pending record comes after as many keys of no record as
the scan enqueues. -/
theorem scan_spares_uploads_iff {env : Env} {p : ℕ} {w w₁ : World} {r : Except Err Unit}
    (hw : w.db.Free) (hunique : UniqueKeys w)
    (hr : calm.Runs p (scheduler.scanOnce env) w r w₁) :
    ∃ jobs, w₁.queue = w.queue ++ jobs ∧
      ((SparesUploads w jobs ∧ ∀ q n r' w', calm.Runs q (jobQueue.worker env n)
          { w₁ with queue := jobs } r' w' → ∀ f row row', w.db.committed .files f = some row →
            row.status = .pending → w'.db.committed .files f = some row' → ∀ i,
              w'.storage.lookup (partKey row.storage_key i) =
                w.storage.lookup (partKey row.storage_key i)) ↔
        Beyond env w) := by
  obtain ⟨jobs, hscan⟩ := exists_scanned hw hr
  have hw₁ : w₁.db.Free := (settles_scanOnce env).free calm_faithful hr hw
  refine ⟨jobs, hscan.queue, fun h => hscan.spares_iff.1 h.1, fun h => ?_⟩
  have hspares := hscan.spares_iff.2 h
  refine ⟨hspares, fun q n r' w' hr' f row row' hrow hpending hrow' => ?_⟩
  have hdrain := hscan.draining (p := q) hw₁ hunique hspares hrow hpending
  have hend := (hdrain.worker env n).of_runs hr' (hw₁.alone q)
  refine hend.parts.resolve_right fun hnone => ?_
  change w'.db.committed .files f = none at hnone
  rw [hrow'] at hnone
  cases hnone

/-- A scan between two chunks of an upload enqueues the chunk that is staged, and the job deletes it. -/
theorem scan_takes_part_for_orphan :
    ∃ w₁ w₂, calm.Runs 0 (scheduler.scanOnce .plain) storedWorld (.ok ()) w₁ ∧
      calm.Runs 0 (jobQueue.worker .plain 1) w₁ (.ok ()) w₂ ∧
      storedWorld.queue = [] ∧ ¬SparesUploads storedWorld w₁.queue ∧
      storedWorld.storage.lookup (partKey (World.initial.uuids 0) 0) = some [65] ∧
      (w₂.db.committed .files 0).map FileRow.status = some .pending ∧
      w₂.storage.lookup (partKey (World.initial.uuids 0) 0) = none := by
  obtain ⟨⟨⟩, -, hscan⟩ := calm.exists_runs_ok 0 (scheduler.scanOnce .plain) storedWorld
    (fun a => a) (b := ()) (by decide)
  obtain ⟨⟨⟩, -, hdrain⟩ := calm.exists_runs_ok 0 (jobQueue.worker .plain 1)
    (calm.endWorld 0 (scheduler.scanOnce .plain) storedWorld) (fun a => a) (b := ()) (by decide)
  refine ⟨_, _, hscan, hdrain, rfl, fun h => ?_, by decide, by decide, by decide⟩
  have hmem : Job.cleanupOrphanedObject (some (partKey (World.initial.uuids 0) 0)) ∈
      (calm.endWorld 0 (scheduler.scanOnce .plain) storedWorld).queue := by
    decide
  exact (h _ hmem 0 _ storedRow).2 rfl 0 rfl

namespace orphans

/-- The upload of `storedWorld`, with two objects of no record before its part. -/
def crowded : World :=
  { storedWorld with
    storage := (storedWorld.storage.insert ['a'] [66]).insert ['b'] [67] }

/-- A scheduler that enqueues two orphans at a time. -/
def twoAtATime : Env := { Env.plain with job_orphan_sweep_limit := 2 }

/-- There is one record. -/
theorem crowded_record {f : ℕ} {row : FileRow} (h : crowded.db.committed .files f = some row) :
    f = 0 ∧ row.storage_key = World.initial.uuids 0 := by
  have hone : (crowded.db .files).length = 1 := by decide
  have hlt := Tables.lt_length_of_committed h
  obtain rfl : f = 0 := by omega
  have hrow : storedWorld.db.committed .files 0 = some row := h
  rw [storedRow] at hrow
  cases hrow
  exact ⟨rfl, rfl⟩

/-- Both objects come before every part of the upload. -/
theorem beyond_crowded : Beyond twoAtATime crowded := by
  intro f row hrow hpending i hstaged
  obtain ⟨-, hkey⟩ := crowded_record hrow
  have hbefore : ∀ c, c < 'u' → [c] < partKey row.storage_key i := by
    intro c hc
    rw [hkey]
    exact List.Lex.rel hc
  have hkeys : crowded.storage.keys = [['b'], ['a'], partKey (World.initial.uuids 0) 0] := by decide
  have hrecords : recordKeys crowded = [['u']] := by decide
  rw [hkeys, hrecords]
  simp [hbefore, twoAtATime]

end orphans

/-- The scan enqueues the two objects, and the part of the pending upload behind them survives the
jobs. -/
theorem scan_spares_uploads_iff_crowded :
    ∃ w₁ w₂, calm.Runs 0 (scheduler.scanOnce twoAtATime) crowded (.ok ()) w₁ ∧
      w₁.queue = [.cleanupOrphanedObject (some ['a']), .cleanupOrphanedObject (some ['b'])] ∧
      calm.Runs 0 (jobQueue.worker twoAtATime 2) w₁ (.ok ()) w₂ ∧
      w₂.queue = [] ∧ w₂.storage.lookup ['a'] = none ∧
      (w₂.db.committed .files 0).map FileRow.status = some .pending ∧
      w₂.storage.lookup (partKey (World.initial.uuids 0) 0) = some [65] := by
  obtain ⟨⟨⟩, -, hscan⟩ := calm.exists_runs_ok 0 (scheduler.scanOnce twoAtATime) crowded
    (fun a => a) (b := ()) (by decide)
  obtain ⟨⟨⟩, -, hdrain⟩ := calm.exists_runs_ok 0 (jobQueue.worker twoAtATime 2)
    (calm.endWorld 0 (scheduler.scanOnce twoAtATime) crowded) (fun a => a) (b := ()) (by decide)
  have hunique : UniqueKeys crowded := fun f g row row' hrow hrow' _ =>
    (crowded_record hrow).1.trans (crowded_record hrow').1.symm
  have hfree : crowded.db.Free := uploaded_storedWorld.staged.1
  obtain ⟨jobs, hqueue, hiff⟩ := scan_spares_uploads_iff hfree hunique hscan
  have hempty : crowded.queue = [] := by decide
  rw [hempty, List.nil_append] at hqueue
  subst hqueue
  obtain ⟨row, hrow, hpending⟩ : ∃ row, (calm.endWorld 0 (jobQueue.worker twoAtATime 2)
      (calm.endWorld 0 (scheduler.scanOnce twoAtATime) crowded)).db.committed .files 0 = some row ∧
      row.status = .pending := Option.map_eq_some_iff.1 (by decide)
  have hkept := (hiff.2 beyond_crowded).2 0 2 _ _ hdrain 0 _ row storedRow rfl hrow 0
  refine ⟨_, _, hscan, by decide, hdrain, by decide, by decide, ?_, hkept.trans (by decide)⟩
  rw [hrow, Option.map_some, hpending]

end DropRoom
