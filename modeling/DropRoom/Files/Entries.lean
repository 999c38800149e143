import DropRoom.App.Transactions
import DropRoom.Files.Streaming
import DropRoom.Files.Writes
import DropRoom.Rooms.Cleanup

/-!
# What the operations on files make of the rows

An operation that creates, confirms, deletes or drops a file record changes that record, at most the
counters of its room, and the audit events (`Change`). There is one lemma for each function of the
services, about the runs that return.
-/

namespace DropRoom

open Effect Store Prog uploadService

/-- One file record has become `v`, and one room was updated by `g`. The audit events are left
open. -/
structure Change (b b' : Books) (f : ℕ) (v : Option FileRow) (ρ : ℕ) (g : RoomRow → RoomRow) :
    Prop where
  files : ∀ i, b' .files i = if i = f then v else b .files i
  rooms : ∀ i, b' .rooms i = if i = ρ then (b .rooms i).map g else b .rooms i
  sessions : ∀ i, b' .sessions i = b .sessions i
  messages : ∀ i, b' .messages i = b .messages i

namespace Change

variable {b : Books} {s : Snapshot Table Row} {f ρ : ℕ} {v : Option FileRow}
  {g : RoomRow → RoomRow}

/-- Nothing has changed. -/
theorem refl (hv : b .files f = v) : Change b b f v ρ id where
  files i := by
    split
    · next hi => rw [hi, hv]
    · rfl
  rooms i := by rw [Option.map_id, id, ite_self]
  sessions _ := rfl
  messages _ := rfl

/-- A record was inserted. -/
theorem add_file (r : FileRow) :
    Change s.rows (s.add .files r).rows (s.count .files) (some r) ρ id where
  files i := by
    split
    · next hi => rw [hi, Snapshot.rows_add_self]
    · next hi => rw [Snapshot.rows_add_of_ne hi]
  rooms i := by rw [Snapshot.rows_add_of_table (by decide), Option.map_id, id, ite_self]
  sessions _ := by rw [Snapshot.rows_add_of_table (by decide)]
  messages _ := by rw [Snapshot.rows_add_of_table (by decide)]

/-- The record is written. -/
theorem set_file (h : Change b s.rows f v ρ g) (hf : f < s.count .files) (v' : Option FileRow) :
    Change b (s.set .files f v').rows f v' ρ g where
  files i := by
    split
    · next hi => rw [hi, Snapshot.rows_set_self hf]
    · next hi => rw [Snapshot.rows_set_of_ne hi, h.files, if_neg hi]
  rooms i := by rw [Snapshot.rows_set_of_table (by decide), h.rooms]
  sessions i := by rw [Snapshot.rows_set_of_table (by decide), h.sessions]
  messages i := by rw [Snapshot.rows_set_of_table (by decide), h.messages]

/-- The record is deleted. -/
theorem drop_file (h : Change b s.rows f v ρ g) :
    Change b (s.drop .files (dialect.deletes (t := .files) (.byId f))).rows f none ρ g where
  files i := by
    rw [Snapshot.rows_drop, h.files]
    split
    · next hi =>
      subst hi
      cases v with
      | none => rfl
      | some r => simp [dialect]
    · next hi =>
      have hkept : ∀ r : FileRow, dialect.deletes (t := .files) (.byId f) i r = false := fun r => by
        simpa [dialect] using hi
      cases b .files i with
      | none => rfl
      | some r => simp [hkept]
  rooms i := by rw [Snapshot.rows_drop_of_table (by decide), h.rooms]
  sessions i := by rw [Snapshot.rows_drop_of_table (by decide), h.sessions]
  messages i := by rw [Snapshot.rows_drop_of_table (by decide), h.messages]

/-- The room is updated. -/
theorem set_room (h : Change b s.rows f v ρ id) {r : RoomRow} (hr : s.rows .rooms ρ = some r)
    (g : RoomRow → RoomRow) : Change b (s.set .rooms ρ (some (g r))).rows f v ρ g where
  files i := by rw [Snapshot.rows_set_of_table (by decide), h.files]
  rooms i := by
    have hroom := h.rooms i
    by_cases hi : i = ρ
    · subst hi
      rw [if_pos rfl, Option.map_id, id] at hroom
      rw [if_pos rfl, Snapshot.rows_set_self (s.rows_lt _ _ _ hr), ← hroom, hr]
      rfl
    · rw [if_neg hi] at hroom ⊢
      rw [Snapshot.rows_set_of_ne hi, hroom]
  sessions i := by rw [Snapshot.rows_set_of_table (by decide), h.sessions]
  messages i := by rw [Snapshot.rows_set_of_table (by decide), h.messages]

/-- There is no room to update. -/
theorem no_room (h : Change b s.rows f v ρ id) (hr : s.rows .rooms ρ = none)
    (g : RoomRow → RoomRow) : Change b s.rows f v ρ g where
  files := h.files
  rooms i := by
    have hroom := h.rooms i
    by_cases hi : i = ρ
    · subst hi
      rw [if_pos rfl, Option.map_id, id] at hroom
      rw [if_pos rfl, ← hroom, hr]
      rfl
    · rw [if_neg hi] at hroom ⊢
      exact hroom
  sessions := h.sessions
  messages := h.messages

/-- An event is audited. -/
theorem audit (h : Change b s.rows f v ρ g) (r : AuditEventRow) :
    Change b (s.add .auditEvents r).rows f v ρ g where
  files i := by rw [Snapshot.rows_add_of_table (by decide), h.files]
  rooms i := by rw [Snapshot.rows_add_of_table (by decide), h.rooms]
  sessions i := by rw [Snapshot.rows_add_of_table (by decide), h.sessions]
  messages i := by rw [Snapshot.rows_add_of_table (by decide), h.messages]

end Change

/-! ## The functions of the services -/

/-- What the claim of a file of `n` bytes does to its room. -/
def claimOf (env : Env) (n : ℕ) : RoomUpdate :=
  .claimQuota n env.max_files_per_room env.max_room_storage_bytes

/-- The room lets the member upload, as both `_authorize_upload` and `_authorize_chunked_upload` ask. -/
structure MayUpload (room : Room) (actor : SessionRecord) : Prop where
  active : room.status = .active
  allowed : actor.role = .owner ∨ room.guest_upload_enabled = true

/-- A record `v` has been confirmed under the number `f`, and its size has been claimed. -/
structure Confirms (env : Env) (b b' : Books) (room : Room) (f : ℕ) (v : FileRow) : Prop where
  room_id : v.room_id = room.id
  status : v.status = .confirmed
  active : ∃ row, b .rooms room.id = some row ∧ (claimOf env v.size_bytes).applies row = true
  change : Change b b' f (some v) room.id (claimOf env v.size_bytes).set

section

variable {env : Env} {σ : Serial} {room : Room} {actor : SessionRecord}

/-- A member that passes may upload. -/
theorem yields_authorizeUpload {Q : Unit → Serial → Prop} (hQ : MayUpload room actor → Q () σ) :
    Yields (fileService.authorizeUpload room actor) Q σ :=
  .require_bind fun hactive => .require fun hallowed => hQ ⟨hactive, hallowed⟩

/-- A member that passes may upload. -/
theorem yields_authorizeChunkedUpload {Q : Unit → Serial → Prop}
    (hQ : MayUpload room actor → Q () σ) : Yields (authorizeChunkedUpload room actor) Q σ :=
  yields_authorizeUpload hQ

/-- The source is read into storage. -/
theorem yields_putSource {key : Uuid} {chunks : fileService.Source} {Q : Bytes × ℕ → Serial → Prop}
    (hQ : ∀ datas : List Bytes, chunks = datas.map .ok →
      datas.flatten.length ≤ env.max_file_size_bytes → Q (datas.headD [], datas.flatten.length)
        { σ with rest := { σ.rest with
          storage := σ.rest.storage.insert key.text datas.flatten } }) :
    Yields (fileService.putSource env key chunks) Q σ := by
  unfold fileService.putSource
  split
  · exact .raise _
  · next first rest hnext =>
    refine .require_bind fun hsmall => ?_
    dsimp only
    cases hdrain : fileService.drain env first.length rest with
    | error e =>
      exact .bind (.of_forall fun _ _ => .raise _)
    | ok s =>
      obtain ⟨data, total⟩ := s
      obtain ⟨datas, hchunks, rfl, hflatten, rfl, hle⟩ := streaming.anext_ok hnext hsmall hdrain
      refine .bind (.put (.pure ?_))
      change Q _ { σ with rest := { σ.rest with
        storage := σ.rest.storage.insert key.text (datas.headD [] ++ data) } }
      rw [hflatten]
      exact hQ datas hchunks hle

/-- `create_file_record` inserts a pending record. -/
theorem yields_createFileRecord {ρ : ℕ} {name : String} {key : Uuid} {type : Option String}
    {by_ : Option ℕ} {at_ : Time} {Q : FileRecord → Serial → Prop}
    (hQ : ∀ v : FileRow, v.room_id = ρ → v.storage_key = key → v.status = .pending →
      Q { v with id := σ.db.count .files } { σ with db := σ.db.add .files v }) :
    Yields (fileRepository.createFileRecord ρ name key type by_ at_) Q σ :=
  .bind (.utcnow (.bind (.insert (.pure (hQ _ rfl rfl rfl)))))

/-- `upload_file`. -/
theorem yields_uploadFile {filename content_type : Option String} {chunks : fileService.Source} :
    Yields (fileService.uploadFile env room actor filename content_type chunks) (fun rec_ σ' =>
      MayUpload room actor ∧ rec_.id = σ.db.count .files ∧
        Confirms env σ.db.rows σ'.db.rows room rec_.id rec_.toFileRow ∧
        rec_.storage_key = σ.rest.uuids σ.rest.uuidsUsed ∧
        σ'.rest.uuidsUsed = σ.rest.uuidsUsed + 1 ∧
        ∃ datas : List Bytes, chunks = datas.map .ok ∧ rec_.size_bytes = datas.flatten.length ∧
          σ'.rest.storage =
            σ.rest.storage.insert (σ.rest.uuids σ.rest.uuidsUsed).text datas.flatten) σ := by
  unfold fileService.uploadFile
  refine .bind (yields_authorizeUpload fun hmay => ?_)
  refine .bind (.uuid4 (.bind (yields_createFileRecord fun v hroom hkey hstatus => ?_)))
  refine .bind (.tryCatch_of_raises (yields_putSource fun datas hchunks hle => ?_) fun e σ' => ?_)
  swap
  · refine .bind (.of_forall fun _ _ => ?_)
    cases e <;> exact .raise _
  refine .require_bind fun _ => ?_
  refine .bind (.updateAt_cases (fun _ => ?_) fun row hrow happlies => ?_)
  · exact .bind (.of_forall fun _ _ => .raise _)
  have hadded := (Change.add_file v (ρ := room.id)).set_room hrow
    (claimOf env datas.flatten.length).set
  have hv : (σ.db.add .files v).rows .files (σ.db.count .files) = some v := Snapshot.rows_add_self
  refine .bind (.fileFlush ?_ ?_ ?_)
  · rw [Snapshot.rows_set_of_table (by decide)]
    exact hv
  · rfl
  refine .bind (.insert (.pure ?_))
  rw [Snapshot.rows_add_of_table (by decide)] at hrow
  refine ⟨hmay, rfl, ⟨hroom, rfl, ⟨row, hrow, happlies⟩, ?_⟩, hkey, rfl, datas, hchunks,
    rfl, ?_⟩
  · exact (hadded.set_file (by simp) _).audit _
  · rfl

/-- `create_upload_session`. -/
theorem yields_createUploadSession {filename content_type : Option String} {size chunks : ℕ} :
    Yields (createUploadSession env room actor filename content_type size chunks) (fun rec_ σ' =>
      MayUpload room actor ∧ rec_.id = σ.db.count .files ∧ rec_.room_id = room.id ∧
        rec_.status = .pending ∧ rec_.storage_key = σ.rest.uuids σ.rest.uuidsUsed ∧
        σ'.rest.uuidsUsed = σ.rest.uuidsUsed + 1 ∧
        Change σ.db.rows σ'.db.rows rec_.id (some rec_.toFileRow) room.id id ∧
        σ'.rest.storage = σ.rest.storage) σ := by
  unfold createUploadSession
  refine .bind (yields_authorizeChunkedUpload fun hmay => ?_)
  refine .require_bind fun _ => .require_bind fun _ => .bind (.uuid4 ?_)
  refine .bind (yields_createFileRecord fun v hroom hkey hstatus => ?_)
  refine .bind (.fileFlush ?_ ?_ (.pure ?_))
  · exact Snapshot.rows_add_self
  · rfl
  refine ⟨hmay, rfl, hroom, hstatus, hkey, rfl, ?_, rfl⟩
  exact (Change.add_file v (ρ := room.id)).set_file (by simp) _

/-- `store_chunk`, for a record that was loaded. -/
theorem yields_storeChunk {rec_ : FileRecord} {index : ℕ} {chunk : Bytes} (ρ : ℕ)
    (hrow : σ.db.rows .files rec_.id = some rec_.toFileRow) :
    Yields (storeChunk env rec_ index chunk) (fun stored σ' => rec_.status = .pending ∧
      stored.toFileRow = { rec_.toFileRow with size_bytes := stored.size_bytes } ∧
      Change σ.db.rows σ'.db.rows rec_.id (some stored.toFileRow) ρ id ∧
      σ'.rest.storage = σ.rest.storage.insert (partKey rec_.storage_key index) chunk) σ := by
  unfold storeChunk
  refine .require_bind fun hpending => .require_bind fun _ => .require_bind fun _ => ?_
  refine .bind (.put (.bind (.fileFlush ?_ ?_ (.pure ?_))))
  · exact hrow
  · rfl
  refine ⟨hpending, rfl, ?_, rfl⟩
  exact (Change.refl hrow).set_file (σ.db.rows_lt _ _ _ hrow) _

/-- `_merged` reads the parts one after the other. -/
theorem yields_merged (keys : List Key) : Yields (merged keys) (fun data σ' => σ' = σ ∧
    data = (keys.map fun k => (σ.rest.storage.lookup k).getD []).flatten) σ := by
  induction keys with
  | nil => exact .pure ⟨rfl, rfl⟩
  | cons k keys ih =>
    refine .bind (.getStream (.bind (ih.mono ?_)))
    rintro rest σ' ⟨rfl, rfl⟩
    exact .pure ⟨rfl, rfl⟩

/-- `complete_upload_session`, for a record that was loaded. -/
theorem yields_completeUploadSession {rec_ : FileRecord} {n : ℕ}
    (hrow : σ.db.rows .files rec_.id = some rec_.toFileRow) :
    Yields (completeUploadSession env room actor rec_ n) (fun confirmed σ' =>
      MayUpload room actor ∧ rec_.status = .pending ∧
        Confirms env σ.db.rows σ'.db.rows room rec_.id confirmed.toFileRow ∧
        confirmed.storage_key = rec_.storage_key ∧
        ∃ keys data, keys = parts (σ.rest.storage.listKeys (partPrefix rec_.storage_key)) n ∧
          missing (σ.rest.storage.listKeys (partPrefix rec_.storage_key)) n = [] ∧
          data = (keys.map fun k => (σ.rest.storage.lookup k).getD []).flatten ∧
          confirmed.size_bytes = data.length ∧
          σ'.rest.storage =
            Storage.eraseAll (σ.rest.storage.insert rec_.storage_key.text data) keys) σ := by
  unfold completeUploadSession
  refine .require_bind fun hroom => .bind (yields_authorizeChunkedUpload fun hmay => ?_)
  refine .require_bind fun hpending => .bind (.listKeys (.require_bind fun hmissing => ?_))
  -- A request that returns has assembled the object, and the sizes agree.
  unfold assembleUpload assemble
  refine .bind (.tryCatch_of_raises ?_ fun e σ' => .bind (.of_forall fun _ _ => .raise _))
  refine .bind ((yields_merged _).mono ?_)
  rintro data σ ⟨rfl, hdata⟩
  refine .bind (.put (.bind (.getStream (.pure ?_))))
  dsimp only
  split
  · exact .bind (.of_forall fun _ _ => .raise _)
  split
  · exact .bind (.of_forall fun _ _ => .raise _)
  -- It has claimed the quota as well.
  unfold confirmUpload
  refine .bind (.updateAt_cases (fun _ => ?_) fun row hclaim happlies => ?_)
  · exact .bind (.of_forall fun _ _ => .bind (.of_forall fun _ _ => .raise _))
  refine .bind (.fileFlush ?_ ?_ (.bind (.insert (.bind (.forM_delete (.pure ?_))))))
  · rw [Snapshot.rows_set_of_table (by decide)]
    exact hrow
  · rfl
  have hclaimed := (Change.refl hrow (ρ := room.id)).set_room hclaim (claimOf env data.length).set
  refine ⟨hmay, hpending, ⟨hroom, rfl, ⟨row, hclaim, happlies⟩, ?_⟩, rfl, _, data, rfl, hmissing,
    hdata, rfl, rfl⟩
  refine (hclaimed.set_file ?_ _).audit _
  rw [Snapshot.count_set]
  exact σ.db.rows_lt _ _ _ hrow

/-- `abort_upload_session`, for a record that was loaded. -/
theorem yields_abortUploadSession {rec_ : FileRecord}
    (hrow : σ.db.rows .files rec_.id = some rec_.toFileRow) :
    Yields (abortUploadSession room rec_) (fun _ σ' => rec_.room_id = room.id ∧
      Change σ.db.rows σ'.db.rows rec_.id none room.id id ∧
      σ'.rest.storage = σ.rest.storage.eraseAll
        (σ.rest.storage.listKeys (partPrefix rec_.storage_key))) σ := by
  unfold abortUploadSession cleanupUploadParts
  refine .require_bind fun hroom => .bind (.bind (.listKeys (.forM_delete ?_)))
  refine .bind (.deleteWhere fun _ => .bind (.insert (.pure ⟨hroom, ?_, rfl⟩)))
  exact (Change.refl hrow).drop_file.audit _

/-- `get_file` finds a confirmed record of the room. -/
theorem yields_getFile {file_id : ℤ} {Q : FileRecord → Serial → Prop}
    (hQ : ∀ rec_, σ.file file_id = some rec_ → rec_.room_id = room.id → rec_.status = .confirmed →
      Q rec_ σ) : Yields (fileService.getFile room file_id) Q σ := by
  unfold fileService.getFile
  refine .bind (Ends.getFileById ?_ fun e => by rintro a ⟨⟩)
  rintro _ ⟨⟩
  cases hfile : σ.file file_id with
  | none => exact .raise _
  | some rec_ => exact .require_bind fun h => .pure (hQ rec_ hfile h.1 h.2)

/-- `download_file`. -/
theorem yields_downloadFile {file_id : ℤ} :
    Yields (fileService.downloadFile room actor file_id) (fun rec_ σ' =>
      σ.file file_id = some rec_ ∧ rec_.room_id = room.id ∧ rec_.status = .confirmed ∧
        room.status = .active ∧ (actor.role = .owner ∨ room.guest_download_enabled = true) ∧
        Change σ.db.rows σ'.db.rows rec_.id
          (some { rec_.toFileRow with download_count := rec_.download_count + 1 }) room.id id ∧
        σ'.rest.storage = σ.rest.storage) σ := by
  unfold fileService.downloadFile fileService.authorizeDownload
  refine .bind (.require_bind fun hactive => .require fun hallowed => ?_)
  refine .bind (yields_getFile fun rec_ hfile hroom hstatus => ?_)
  have hrow := (Serial.of_file hfile).1
  refine .bind (.updateAt_cases (fun hno => ?_) fun row hrow' _ => .pure ?_)
  · have hfalse := hno _ hrow
    cases hfalse
  rw [hrow] at hrow'
  cases hrow'
  refine ⟨hfile, hroom, hstatus, hactive, hallowed, ?_, rfl⟩
  exact (Change.refl hrow).set_file (σ.db.rows_lt _ _ _ hrow) _

/-- What the deletion of a file of `n` bytes does to its room. -/
def releaseOf (n : ℕ) : RoomUpdate := .addStorageAndFiles (-n) (-1)

/-- `delete_file`. -/
theorem yields_deleteFile {file_id : ℤ} :
    Yields (fileService.deleteFile room actor file_id) (fun rec_ σ' => actor.role = .owner ∧
      ∃ old, σ.file file_id = some old ∧ old.room_id = room.id ∧ old.status = .confirmed ∧
        rec_ = { old with status := .deleted } ∧
        Change σ.db.rows σ'.db.rows old.id (some rec_.toFileRow) room.id
          (releaseOf old.size_bytes).set ∧
        σ'.rest.storage = σ.rest.storage.erase old.storage_key.text) σ := by
  unfold fileService.deleteFile
  refine .require_bind fun howner => .bind (yields_getFile fun old hfile hroom hstatus => ?_)
  have hrow := (Serial.of_file hfile).1
  refine .bind (.updateAt_cases (fun hno => ?_) fun row hrow' _ => ?_)
  · have hfalse := hno _ hrow
    cases hfalse
  rw [hrow] at hrow'
  cases hrow'
  have hmarked := (Change.refl hrow (ρ := room.id)).set_file (σ.db.rows_lt _ _ _ hrow)
    (some { old.toFileRow with status := .deleted })
  refine .bind (.updateAt_cases (fun hno => ?_) fun row hroomRow _ => ?_)
  · refine .bind (.insert (.bind (.delete (.pure ⟨howner, old, hfile, hroom, hstatus, rfl, ?_, rfl⟩))))
    refine (hmarked.no_room ?_ _).audit _
    cases hr : ((σ.db.set .files old.id (some { old.toFileRow with status := .deleted })).rows
      .rooms room.id) with
    | none => rfl
    | some r => cases hno r hr
  · refine .bind (.insert (.bind (.delete (.pure ⟨howner, old, hfile, hroom, hstatus, rfl, ?_, rfl⟩))))
    exact (hmarked.set_room hroomRow (releaseOf old.size_bytes).set).audit _

end

end DropRoom
