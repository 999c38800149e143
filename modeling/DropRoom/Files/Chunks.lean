import DropRoom.App.Serial
import DropRoom.Files.Parts

/-!
# Uploads in chunks, one request at a time

`Uploaded` is the history of an upload: a request creates it, requests store chunks of it in any order
and with any repetition, and in between anything may happen that leaves the upload alone while it is
pending. A history leaves in storage what was stored last for each index (`Uploaded.staged`), so
`complete_upload_session` finds all chunks or misses one as the history says.
-/

namespace DropRoom

open Effect Store Prog uploadService

namespace chunks

/-- The history of upload `f` of room `ρ`, with the chunk that was stored last for each index. The
`uuid4` that is drawn for it is new. -/
inductive Uploaded (env : Env) (ρ f : ℕ) : World → (ℕ → Option Bytes) → Prop
  | created {p w w' room_token body request rec_} (hw : w.db.Free)
      (hnew : ∀ key ∈ w.storage.keys, ¬(w.uuids w.uuidsUsed).text <+: key)
      (hr : calm.Runs p (uploads.createUploadSession env room_token body request) w (.ok rec_) w')
      (hf : rec_.id = f) (hρ : rec_.room_id = ρ) : Uploaded env ρ f w' fun _ => none
  | stored {p w w' chunk room_token index data request rec_} (h : Uploaded env ρ f w chunk)
      (hr : calm.Runs p (uploads.uploadChunk env room_token f index (.ok data) request) w
        (.ok rec_) w') : Uploaded env ρ f w' (Function.update chunk index.toNat (some data))
  | elsewhere {w w' chunk} (h : Uploaded env ρ f w chunk) (hw' : w'.db.Free)
      (hsame : ∀ row, w'.db.committed .files f = some row → row.status = .pending →
        w.db.committed .files f = some row ∧
          ∀ key, row.storage_key.text <+: key → w'.storage.lookup key = w.storage.lookup key) :
      Uploaded env ρ f w' chunk

/-- The chunks below `n`, one after the other. -/
def object (chunk : ℕ → Option Bytes) (n : ℕ) : Bytes := concat (fun i => (chunk i).getD []) n

/-- What is staged for a pending upload. -/
structure Staged (env : Env) (ρ : ℕ) (row : FileRow) (chunk : ℕ → Option Bytes) (s : Storage) :
    Prop where
  room_id : row.room_id = ρ
  total : ∃ n, row.total_size_bytes = some n ∧ n ≤ env.max_file_size_bytes
  lookup : ∀ i, s.lookup (partKey row.storage_key i) = chunk i
  final : s.lookup row.storage_key.text = none
  only : OnlyParts s row.storage_key

/-! ## The requests of a history -/

section

variable {env : Env} {σ : Serial} {room_token : Token} {request : Request}

/-- A request that creates an upload commits a pending record under a new key, and stores nothing. -/
theorem returns_create {body : uploads.UploadSessionCreate} :
    After.Returns (uploads.createUploadSession env room_token body request) (fun rec_ σ' =>
      σ'.rest.storage = σ.rest.storage ∧ body.total_size_bytes ≤ env.max_file_size_bytes ∧
        ∃ row, σ'.db.saved .files rec_.id = some row ∧
          row.storage_key = σ.rest.uuids σ.rest.uuidsUsed ∧ row.room_id = rec_.room_id ∧
          row.size_bytes = 0 ∧ row.total_size_bytes = some body.total_size_bytes) σ := by
  refine (After.returns_withSession_iff _).2 ((After.returns_bind_iff _ _).2 ?_)
  refine After.requireMember fun r _ => ?_
  rintro ⟨session_rec, room⟩ rfl
  refine (After.returns_bind_iff _ _).2 (After.validateCsrf fun r => ?_)
  rintro ⟨⟩ rfl
  refine (After.returns_bind_iff _ _).2 (After.limiterCheck fun r σ' hσ => ?_)
  obtain ⟨_, _, _, rfl⟩ := hσ
  rintro ⟨⟩ rfl
  unfold uploadService.createUploadSession authorizeChunkedUpload fileRepository.createFileRecord
  simp only [After.returns_bind_iff, After.returns_require_iff]
  intro _ _ hsize _
  refine (After.returns_iff_of After.uuid4_iff).2 ((After.returns_iff_of After.utcnow_iff).2 ?_)
  refine (After.returns_iff_of (After.insert_iff _ _)).2 ((After.returns_pure_iff _).2 ?_)
  refine (After.returns_iff_of (After.fileFlush_iff ?_ ?_)).2 ?_
  · exact Snapshot.rows_add_self
  · rfl
  refine (After.returns_pure_iff _).2 ((After.returns_iff_of After.commit_iff).2 ?_)
  refine (After.returns_pure_iff _).2 ⟨rfl, hsize.2, _, ?_, rfl, rfl, rfl, rfl⟩
  exact Snapshot.rows_set_self (by simp)

/-- A request that stores a chunk of the pending record `row`, and answers `rec_`. -/
structure StoresChunk (σ : Serial) (f : ℕ) (index : ℤ) (data : Bytes) (row : FileRow)
    (rec_ : FileRecord) (σ' : Serial) : Prop where
  found : σ.db.saved .files f = some row
  pending : row.status = .pending
  data_ne : data ≠ []
  storage : σ'.rest.storage = σ.rest.storage.insert (partKey row.storage_key index.toNat) data
  saved : σ'.db.saved .files f = some { row with size_bytes := row.size_bytes + data.length }
  returned : rec_.size_bytes = row.size_bytes + data.length

/-- A request that sends a chunk stores it, or is refused and changes nothing. -/
theorem after_uploadChunk {f : ℕ} {index : ℤ} {body : Except Err Bytes}
    (hσ : σ.db.rows = σ.db.saved) :
    After (uploads.uploadChunk env room_token f index body request) (fun r σ' =>
      (∀ rec_, r = .ok rec_ → ∃ data row, body = .ok data ∧
        StoresChunk σ f index data row rec_ σ') ∧
      ∀ e, r = .error e → σ'.rest.storage = σ.rest.storage ∧ σ'.db.saved = σ.db.saved) σ := by
  -- Every check but the last stands before the part is stored.
  have hrefused : ∀ (e : Err) (σ' : Serial), σ'.rest.storage = σ.rest.storage →
      σ'.db.saved = σ.db.saved → (∀ rec_, (.error e : Except Err FileRecord) = .ok rec_ →
        ∃ data row, body = .ok data ∧ StoresChunk σ f index data row rec_ σ') ∧
      ∀ e', (.error e : Except Err FileRecord) = .error e' →
        σ'.rest.storage = σ.rest.storage ∧ σ'.db.saved = σ.db.saved := by
    intro e σ' hstorage hsaved
    refine ⟨?_, fun _ _ => ⟨hstorage, hsaved⟩⟩
    rintro rec_ ⟨⟩
  refine (After.withSession_iff _ _).2 ((After.bind_iff _ _ _).2 ?_)
  refine After.requireMember fun r _ => ?_
  rcases r with e | ⟨session_rec, room⟩
  · exact hrefused _ _ rfl rfl
  refine (After.bind_iff _ _ _).2 (After.limiterCheck fun r σ' hσ' => ?_)
  obtain ⟨_, _, _, rfl⟩ := hσ'
  rcases r with e | ⟨⟩
  · exact hrefused _ _ rfl rfl
  refine (After.bind_iff _ _ _).2 ((After.pendingSession_iff _ _ _).2 ⟨fun rec_ hrec _ => ?_, ?_⟩)
  swap
  · exact fun _ => hrefused _ _ rfl rfl
  obtain ⟨row, hrow, rfl⟩ := Option.map_eq_some_iff.1 hrec
  rcases body with e | data
  · exact hrefused _ _ rfl rfl
  refine (After.require_bind_iff _ _ _).2 ⟨fun hdata => ?_, fun _ => hrefused _ _ rfl rfl⟩
  refine (After.require_bind_iff _ _ _).2 ⟨fun _ => ?_, fun _ => hrefused _ _ rfl rfl⟩
  -- The chunk passes its checks, and the part, the size and the event follow.
  unfold storeChunk
  refine (After.bind_iff _ _ _).2 ?_
  refine (After.require_bind_iff _ _ _).2 ⟨fun hpending => ?_, fun _ => hrefused _ _ rfl rfl⟩
  refine (After.require_bind_iff _ _ _).2 ⟨fun _ => ?_, fun _ => hrefused _ _ rfl rfl⟩
  refine (After.require_bind_iff _ _ _).2 ⟨fun _ => ?_, fun _ => hrefused _ _ rfl rfl⟩
  refine (After.bind_iff _ _ _).2 ((After.put_ok_iff _ _ _).2 ?_)
  refine (After.bind_iff _ _ _).2 ((After.fileFlush_iff ?_ ?_ _).2 ((After.pure_iff _).2 ?_))
  · exact hrow
  · rfl
  refine (After.bind_iff _ _ _).2 ((After.insert_iff _ _ _).2 ?_)
  refine (After.bind_iff _ _ _).2 ((After.commit_iff _).2 ?_)
  refine (After.bind_iff _ _ _).2 (After.broadcastProgress fun σ' hσ' => ?_)
  obtain ⟨_, _, _, rfl⟩ := hσ'
  refine (After.pure_iff _).2 ⟨?_, by rintro e ⟨⟩⟩
  rintro _ ⟨⟩
  refine ⟨data, row, rfl, hσ ▸ hrow, hpending, hdata, rfl, ?_, rfl⟩
  rw [Snapshot.saved_rollback, Snapshot.saved_commit, Snapshot.rows_add_of_table (by decide)]
  exact Snapshot.rows_set_self (σ.db.rows_lt _ _ _ hrow)

end

/-! ## What a history leaves in storage -/

section

variable {env : Env} {ρ f : ℕ} {row : FileRow} {chunk : ℕ → Option Bytes} {s s' : Storage}

/-- The parts below `n` are the object. -/
theorem Staged.flatten_parts (h : Staged env ρ row chunk s) (n : ℕ) :
    (((List.range n).map (partKey row.storage_key)).map fun k => (s.lookup k).getD []).flatten =
      object chunk n := by
  rw [object, concat, List.map_map]
  exact congrArg List.flatten (List.map_congr_left fun i _ => congrArg (·.getD []) (h.lookup i))

/-- Storing a chunk. -/
theorem Staged.store (h : Staged env ρ row chunk s) (n index : ℕ) (data : Bytes) :
    Staged env ρ { row with size_bytes := n } (Function.update chunk index (some data))
      (s.insert (partKey row.storage_key index) data) where
  room_id := h.room_id
  total := h.total
  lookup i := by
    by_cases hi : i = index
    · subst hi
      rw [AList.lookup_insert, Function.update_self]
    · rw [AList.lookup_insert_ne fun hk => hi (partKey_injective _ hk), Function.update_of_ne hi]
      exact h.lookup i
  final := by
    rw [AList.lookup_insert_ne (text_ne_partKey _ _ _)]
    exact h.final
  only key hkey hpre := by
    rcases (AList.mem_insert s).1 (AList.mem_keys.2 hkey) with rfl | hkey
    · exact ⟨index, rfl⟩
    · exact h.only key (AList.mem_keys.1 hkey) hpre

/-- What is staged for an upload depends on the keys that start with its storage key. -/
theorem Staged.congr (h : Staged env ρ row chunk s)
    (hs : ∀ key, row.storage_key.text <+: key → s'.lookup key = s.lookup key) :
    Staged env ρ row chunk s' where
  room_id := h.room_id
  total := h.total
  lookup i := (hs _ ⟨_, rfl⟩).trans (h.lookup i)
  final := (hs _ List.prefix_rfl).trans h.final
  only key hkey hpre := by
    have hk : row.storage_key.text <+: key := (List.prefix_append _ _).trans hpre
    refine h.only key ?_ hpre
    rw [mem_keys_iff] at hkey ⊢
    rwa [← hs key hk]

/-- While an upload is pending, what was stored last for each index is staged. -/
theorem Uploaded.staged {w : World} (h : Uploaded env ρ f w chunk) :
    w.db.Free ∧ ∀ row, w.db.committed .files f = some row → row.status = .pending →
      Staged env ρ row chunk w.storage := by
  induction h with
  -- Under the new key nothing is stored.
  | @created p w w' room_token body request rec_ hw hnew hr hf hρ =>
    refine ⟨free_of_withSession calm_faithful hr (hw.alone p), fun row hrow hpending => ?_⟩
    obtain ⟨hs, hn, row', hrow', hkey, hroom, -, htotal⟩ :=
      After.of_runs returns_create hr (hw.alone p) rec_ rfl
    change w'.storage = w.storage at hs
    change w'.db.committed .files rec_.id = some row' at hrow'
    change row'.storage_key = w.uuids w.uuidsUsed at hkey
    rw [← hf, hrow'] at hrow
    cases hrow
    have hnone : ∀ key, row.storage_key.text <+: key → w'.storage.lookup key = none := by
      intro key hpre
      by_contra hsome
      rw [hs, ← ne_eq, ← mem_keys_iff] at hsome
      rw [hkey] at hpre
      exact hnew key hsome hpre
    refine ⟨hroom.trans hρ, ⟨_, htotal, hn⟩, fun i => hnone _ ⟨_, rfl⟩, hnone _ List.prefix_rfl, ?_⟩
    intro key hkey hpre
    exact absurd (hnone key ((List.prefix_append _ _).trans hpre)) (mem_keys_iff.1 hkey)
  -- The chunk is staged under its own part key.
  | @stored p w w' chunk room_token index data request rec_ h hr ih =>
    obtain ⟨hw, hstaged⟩ := ih
    refine ⟨free_of_withSession calm_faithful hr (hw.alone p), fun row hrow hpending => ?_⟩
    obtain ⟨data', row', hdata, hstore⟩ := (After.of_runs
      (after_uploadChunk (Snapshot.rows_of_free hw)) hr (hw.alone p)).1 rec_ rfl
    cases hdata
    have hs : w'.storage = _ := hstore.storage
    have hnew : w'.db.committed .files f = _ := hstore.saved
    rw [hnew] at hrow
    cases hrow
    rw [hs]
    exact (hstaged row' hstore.found hstore.pending).store _ _ _
  | @elsewhere w w' chunk h hw' hsame ih =>
    refine ⟨hw', fun row hrow hpending => ?_⟩
    obtain ⟨hrow, hs⟩ := hsame row hrow hpending
    exact (ih.2 row hrow hpending).congr hs

end

/-! ## Completing an upload -/

/-- When `complete_upload_session` succeeds: for `n` chunks of a record, in a room. -/
structure Completable (env : Env) (row : FileRow) (room : RoomRow) (chunk : ℕ → Option Bytes)
    (n : ℕ) : Prop where
  pending : row.status = .pending
  stored : ∀ i < n, chunk i ≠ none
  total : row.total_size_bytes = some (object chunk n).length
  active : room.status = .active
  files : room.file_count < env.max_files_per_room
  storage : room.storage_used_bytes + (object chunk n).length ≤ env.max_room_storage_bytes

section

variable {env : Env} {σ : Serial} {room : Room} {actor : SessionRecord} {rec_ : FileRecord}
  {chunk : ℕ → Option Bytes} {n : ℕ}

/-- Reading chunks one after the other. -/
theorem merged_iff (keys : List Key) (Q : Except Err Bytes → Serial → Prop) :
    After (merged keys) Q σ ↔
      Q (.ok (keys.map fun k => (σ.rest.storage.lookup k).getD []).flatten) σ := by
  induction keys generalizing Q with
  | nil => exact Iff.rfl
  | cons k ks ih =>
    unfold merged
    rw [After.bind_iff, After.getStream_iff]
    dsimp only
    rw [After.bind_iff, ih]
    exact Iff.rfl

/-- Assembling the object. -/
theorem assemble_iff (key : Uuid) (parts : List Key) {data : Bytes}
    (hdata : (parts.map fun k => (σ.rest.storage.lookup k).getD []).flatten = data)
    (Q : Except Err (ℕ × Bytes) → Serial → Prop) :
    After (assemble key parts) Q σ ↔ Q (.ok (data.length, data.take chunkSize))
      { σ with rest := { σ.rest with storage := σ.rest.storage.insert key.text data } } := by
  unfold assemble
  rw [After.bind_iff, merged_iff, hdata]
  dsimp only
  rw [After.bind_iff, After.put_ok_iff]
  dsimp only
  rw [After.bind_iff, After.getStream_iff]
  simp only [AList.lookup_insert, Option.getD_some]
  exact Iff.rfl

/-- Claiming the quota of a room. -/
theorem claimQuota_iff (hroom : σ.db.rows .rooms room.id = some room.toRoomRow) (size_bytes : ℕ)
    (Q : Except Err Bool → Serial → Prop) :
    After (claimQuota env room.id size_bytes) Q σ ↔
      ((room.status = .active ∧ room.file_count < env.max_files_per_room ∧
          room.storage_used_bytes + size_bytes ≤ env.max_room_storage_bytes) →
        Q (.ok true) { σ with db := σ.db.set .rooms room.id (some { room.toRoomRow with
          storage_used_bytes := room.storage_used_bytes + size_bytes
          file_count := room.file_count + 1 }) }) ∧
      (¬(room.status = .active ∧ room.file_count < env.max_files_per_room ∧
          room.storage_used_bytes + size_bytes ≤ env.max_room_storage_bytes) →
        Q (.ok false) σ) := by
  unfold claimQuota
  have happlies : dialect.applies (t := Table.rooms)
      (.claimQuota size_bytes env.max_files_per_room env.max_room_storage_bytes) room.toRoomRow =
      true ↔ room.status = .active ∧ room.file_count < env.max_files_per_room ∧
        room.storage_used_bytes + size_bytes ≤ env.max_room_storage_bytes := by
    simp [dialect, RoomUpdate.applies, and_assoc]
  refine (After.updateAt_iff _ _ _ _).trans ?_
  by_cases h : room.status = .active ∧ room.file_count < env.max_files_per_room ∧
      room.storage_used_bytes + size_bytes ≤ env.max_room_storage_bytes
  · rw [Snapshot.updateAt_of_some hroom (happlies.2 h)]
    exact ⟨fun hQ => ⟨fun _ => hQ, fun hn => absurd h hn⟩, fun hQ => hQ.1 h⟩
  · rw [Snapshot.updateAt_of_none]
    · exact ⟨fun hQ => ⟨fun hy => absurd hy h, fun _ => hQ⟩, fun hQ => hQ.2 h⟩
    · intro r hr
      rw [hroom] at hr
      cases hr
      exact Bool.eq_false_iff.2 fun ha => h (happlies.1 ha)

/-- The record once it is confirmed. -/
def confirmedRow (row : FileRow) (data : Bytes) : FileRow := { row with
  content_type := some (magic.normalizeContentType (data.take chunkSize) row.content_type)
  size_bytes := data.length
  status := .confirmed }

/-- The room once its quota is claimed. -/
def claimedRow (room : RoomRow) (data : Bytes) : RoomRow := { room with
  storage_used_bytes := room.storage_used_bytes + data.length
  file_count := room.file_count + 1 }

/-- What `complete_upload_session` ends in before its caller commits. -/
structure Outcome (env : Env) (σ : Serial) (room : Room) (rec_ : FileRecord)
    (chunk : ℕ → Option Bytes) (n : ℕ) (r : Except Err FileRecord) (σ' : Serial) : Prop where
  saved : σ'.db.saved = σ.db.saved
  done : Completable env rec_.toFileRow room.toRoomRow chunk n → (∃ confirmed, r = .ok confirmed) ∧
    σ'.db.rows .files rec_.id = some (confirmedRow rec_.toFileRow (object chunk n)) ∧
    σ'.db.rows .rooms room.id = some (claimedRow room.toRoomRow (object chunk n)) ∧
    σ'.rest.storage.lookup rec_.storage_key.text = some (object chunk n)
  failed : ¬Completable env rec_.toFileRow room.toRoomRow chunk n → (∃ e, r = .error e) ∧
    (rec_.status = .pending → σ'.rest.storage.lookup rec_.storage_key.text = none)

/-- A failure. -/
theorem Outcome.fail {e : Err} {σ' : Serial} (hsaved : σ'.db.saved = σ.db.saved)
    (h : ¬Completable env rec_.toFileRow room.toRoomRow chunk n)
    (hfinal : rec_.status = .pending → σ'.rest.storage.lookup rec_.storage_key.text = none) :
    Outcome env σ room rec_ chunk n (.error e) σ' where
  saved := hsaved
  done hc := absurd hc h
  failed _ := ⟨⟨e, rfl⟩, hfinal⟩

/-- `complete_upload_session` from the quota claim on, for all chunks. -/
theorem after_confirm (hroom : σ.db.rows .rooms room.id = some room.toRoomRow)
    (hfile : σ.db.rows .files rec_.id = some rec_.toFileRow) (hpending : rec_.status = .pending)
    (hstored : ∀ i < n, chunk i ≠ none)
    (htotal : rec_.total_size_bytes = some (object chunk n).length) {s : Storage} :
    After (confirmUpload env room rec_ ((List.range n).map (partKey rec_.storage_key))
      (object chunk n).length ((object chunk n).take chunkSize))
      (Outcome env σ room rec_ chunk n)
      { σ with rest := { σ.rest with
        storage := s.insert rec_.storage_key.text (object chunk n) } } := by
  -- The object has a key that no part has.
  have hkey : rec_.storage_key.text ∉ (List.range n).map (partKey rec_.storage_key) := by
    intro h
    obtain ⟨i, -, hi⟩ := List.mem_map.1 h
    exact text_ne_partKey _ _ _ hi.symm
  unfold confirmUpload
  refine (After.bind_iff _ _ _).2 ((claimQuota_iff ?_ _ _).2 ⟨fun hquota => ?_, fun hquota => ?_⟩)
  · exact hroom
  -- With the quota everything is there that the condition asks for.
  · have hc : Completable env rec_.toFileRow room.toRoomRow chunk n :=
      ⟨hpending, hstored, htotal, hquota.1, hquota.2.1, hquota.2.2⟩
    dsimp only
    rw [if_pos rfl]
    refine (After.bind_iff _ _ _).2 ((After.fileFlush_iff ?_ ?_ _).2 ?_)
    · rw [Snapshot.rows_set_of_table (by decide), hfile]
    · rfl
    refine (After.bind_iff _ _ _).2 ((After.insert_iff _ _ _).2 ?_)
    refine (After.bind_iff _ _ _).2 ((After.forM_delete_iff _ _).2 ((After.pure_iff _).2 ?_))
    refine ⟨?_, fun _ => ⟨⟨_, rfl⟩, ?_, ?_, ?_⟩, fun hn => absurd hc hn⟩
    · simp
    · rw [Snapshot.rows_add_of_table (by decide), Snapshot.rows_set_self]
      · rfl
      · simpa using σ.db.rows_lt _ _ _ hfile
    · rw [Snapshot.rows_add_of_table (by decide), Snapshot.rows_set_of_table (by decide),
        Snapshot.rows_set_self (σ.db.rows_lt _ _ _ hroom)]
      rfl
    · rw [Storage.lookup_eraseAll, if_neg hkey, AList.lookup_insert]
  · dsimp only
    rw [if_neg (by decide)]
    refine (After.bind_iff _ _ _).2 ((After.delete_iff _ _).2 ?_)
    refine (After.bind_iff _ _ _).2 ((After.forM_delete_iff _ _).2 ((After.raise_iff _).2 ?_))
    refine .fail rfl (fun hc => hquota ⟨hc.active, hc.files, hc.storage⟩) fun _ => ?_
    rw [Storage.lookup_eraseAll, if_neg hkey, AList.lookup_erase]

/-- `complete_upload_session` of an allowed actor. -/
theorem after_complete {ρ : ℕ} (hroom : σ.db.rows .rooms room.id = some room.toRoomRow)
    (hfile : σ.db.rows .files rec_.id = some rec_.toFileRow) (hid : rec_.room_id = room.id)
    (hactor : actor.role = .owner ∨ room.guest_upload_enabled = true)
    (hstaged : rec_.status = .pending → Staged env ρ rec_.toFileRow chunk σ.rest.storage) :
    After (uploadService.completeUploadSession env room actor rec_ n)
      (Outcome env σ room rec_ chunk n) σ := by
  unfold uploadService.completeUploadSession authorizeChunkedUpload
  refine (After.require_bind_iff _ _ _).2 ⟨fun _ => ?_, fun h => absurd hid h⟩
  refine (After.bind_iff _ _ _).2 ((After.require_bind_iff _ _ _).2 ⟨fun _ => ?_, fun h => ?_⟩)
  swap
  · exact .fail rfl (fun hc => h hc.active) fun hp => (hstaged hp).final
  refine (After.require_iff _ _ _).2 ⟨fun _ => ?_, fun h => absurd hactor h⟩
  refine (After.require_bind_iff _ _ _).2 ⟨fun hpending => ?_, fun h => ?_⟩
  swap
  · exact .fail rfl (fun hc => h hc.pending) fun hp => absurd hp h
  -- From here on the record is pending, and the storage has its parts.
  have hs := hstaged hpending
  refine (After.bind_iff _ _ _).2 ((After.listKeys_iff _ _).2 ?_)
  refine (After.require_bind_iff _ _ _).2 ⟨fun hmissing => ?_, fun h => ?_⟩
  swap
  · refine .fail rfl (fun hc => h ?_) fun _ => hs.final
    refine List.eq_nil_iff_forall_not_mem.2 fun i hi => ?_
    obtain ⟨hin, hnone⟩ := hs.only.mem_missing.1 hi
    exact hc.stored i hin ((hs.lookup i).symm.trans hnone)
  -- No part is missing.
  have hstored : ∀ i < n, chunk i ≠ none := by
    intro i hin hnone
    have hi : i ∈ missing (σ.rest.storage.listKeys (partPrefix rec_.storage_key)) n :=
      hs.only.mem_missing.2 ⟨hin, (hs.lookup i).trans hnone⟩
    rw [hmissing] at hi
    cases hi
  rw [hs.only.parts_eq hmissing]
  unfold assembleUpload
  refine (After.bind_iff _ _ _).2 ((After.tryCatch_iff _ _).2
    ((assemble_iff _ _ (hs.flatten_parts n) _).2 ?_))
  dsimp only
  obtain ⟨total, htotal, hmax⟩ := hs.total
  rw [htotal, Option.getD_some]
  split
  -- The sizes do not add up: the assembled object is deleted again.
  · next hne =>
    refine (After.bind_iff _ _ _).2 ((After.delete_iff _ _).2 ((After.raise_iff _).2 ?_))
    refine .fail rfl (fun hc => hne ?_) fun _ => AList.lookup_erase _ _
    exact Option.some.inj (hc.total.symm.trans htotal)
  · next heq =>
    have htotal' : rec_.total_size_bytes = some (object chunk n).length := by
      rw [htotal, not_not.1 heq]
    rw [if_neg (by omega)]
    exact after_confirm hroom hfile hpending hstored htotal'

/-- What a request ends in that completes upload `f` with `n` chunks. -/
structure Completed (env : Env) (σ : Serial) (room : Room) (f : ℕ) (chunk : ℕ → Option Bytes)
    (n : ℕ) (r : Except Err FileView) (σ' : Serial) : Prop where
  ok_iff : (∃ view, r = .ok view) ↔ ∃ row, σ.db.saved .files f = some row ∧
    Completable env row room.toRoomRow chunk n
  ok : ∀ view, r = .ok view → ∃ row, σ.db.saved .files f = some row ∧
    σ'.db.saved .files f = some (confirmedRow row (object chunk n)) ∧
    σ'.db.saved .rooms room.id = some (claimedRow room.toRoomRow (object chunk n)) ∧
    σ'.rest.storage.lookup row.storage_key.text = some (object chunk n)
  error : ∀ e, r = .error e → σ'.db.saved = σ.db.saved ∧
    ∀ row, σ.db.saved .files f = some row → row.status = .pending →
      σ'.rest.storage.lookup row.storage_key.text = none

/-- The endpoint after the checks of the request. -/
theorem after_completeAs {f : ℕ} {body : uploads.UploadSessionComplete}
    (hσ : σ.db.rows = σ.db.saved) (hroom : σ.db.rows .rooms room.id = some room.toRoomRow)
    (hactor : actor.role = .owner ∨ room.guest_upload_enabled = true)
    (hstaged : ∀ row, σ.db.saved .files f = some row → row.status = .pending →
      Staged env room.id row chunk σ.rest.storage) :
    After (uploads.completeAs env actor room f body)
      (Completed env σ room f chunk body.totalChunks) σ := by
  unfold uploads.completeAs
  refine (After.bind_iff _ _ _).2 ((After.pendingSession_iff _ _ _).2 ⟨fun rec_ hrec hid => ?_, ?_⟩)
  · obtain ⟨row, hrow, rfl⟩ := Option.map_eq_some_iff.1 hrec
    have hsaved : σ.db.saved .files f = some row := hσ ▸ hrow
    refine (After.bind_iff _ _ _).2 ((after_complete hroom hrow hid hactor
      (hstaged row hsaved)).mono fun r σ₁ hout => ?_)
    have hrow' : (toFile (f, row)).toFileRow = row := rfl
    -- The answer is a view exactly if the upload could be completed.
    by_cases hc : Completable env row room.toRoomRow chunk body.totalChunks
    · obtain ⟨⟨confirmed, rfl⟩, hfile, hroom', hlookup⟩ := hout.done hc
      refine (After.bind_iff _ _ _).2 ((After.commit_iff _).2 ?_)
      refine (After.bind_iff _ _ _).2 (After.broadcast fun σ₂ hσ₂ => ?_)
      obtain ⟨_, _, _, rfl⟩ := hσ₂
      refine (After.pure_iff _).2 ⟨⟨fun _ => ⟨row, hsaved, hc⟩, fun _ => ⟨_, rfl⟩⟩, ?_, ?_⟩
      · intro view _
        exact ⟨row, hsaved, hfile, hroom', hlookup⟩
      · rintro e ⟨⟩
    · obtain ⟨⟨e, rfl⟩, hfinal⟩ := hout.failed hc
      refine ⟨⟨?_, ?_⟩, ?_, fun _ _ => ⟨hout.saved, ?_⟩⟩
      · rintro ⟨view, ⟨⟩⟩
      · rintro ⟨row', h, hc'⟩
        rw [hsaved] at h
        cases h
        exact absurd hc' hc
      · rintro view ⟨⟩
      · intro row' h hpending
        rw [hsaved] at h
        cases h
        exact hfinal hpending
  -- No record of the room has the number, or it is not pending: then it is not completable either.
  · intro hnone
    have hno : ∀ row, σ.db.saved .files f = some row → row.status ≠ .pending := by
      intro row hrow hpending
      refine hnone (toFile (f, row)) ?_ (hstaged row hrow hpending).room_id
      change (σ.db.rows .files f).map _ = _
      rw [hσ, hrow]
      rfl
    refine ⟨⟨?_, ?_⟩, ?_, fun _ _ => ⟨rfl, fun row hrow hp => absurd hp (hno row hrow)⟩⟩
    · rintro ⟨view, ⟨⟩⟩
    · rintro ⟨row, hrow, hc⟩
      exact absurd hc.pending (hno row hrow)
    · rintro view ⟨⟩

end

end chunks

open chunks

/-- For every history of an upload, in which its chunks are stored in any order and with any
repetition, a request that completes it with `n` chunks for a member that may upload succeeds exactly
when the record is PENDING, all of the `n` chunks were stored, their lengths sum to the declared size,
and the room is ACTIVE and has quota left. On success the object is the chunks in the order of their
indices and the counters grow by its size and by one; on failure the record and the counters are
unchanged, and a pending record has no object under its key. -/
theorem complete_upload_session_exact {env : Env} {ρ f : ℕ} {w : World} {chunk : ℕ → Option Bytes}
    (h : Uploaded env ρ f w chunk) {p : ℕ} {room_token : Token} {request : Request}
    (body : uploads.UploadSessionComplete) {actor : SessionRecord} {room : Room}
    {w₁ w₂ : World} (hmember : calm.Runs p (requireMember env room_token request) w
      (.ok (actor, room)) w₁)
    (hcsrf : calm.Runs p (validateCsrf env .post request) w (.ok ()) w₂)
    (hactor : actor.role = .owner ∨ room.guest_upload_enabled = true) (hρ : room.id = ρ) :
    (∃ r w', calm.Runs p (uploads.completeUploadSession env room_token f body request) w r w') ∧
    ∀ r w', calm.Runs p (uploads.completeUploadSession env room_token f body request) w r w' →
      ((∃ view, r = .ok view) ↔ ∃ row, w.db.committed .files f = some row ∧
        Completable env row room.toRoomRow chunk body.totalChunks) ∧
      (∀ view, r = .ok view → ∃ row, w.db.committed .files f = some row ∧
        w.db.committed .rooms ρ = some room.toRoomRow ∧
        w'.db.committed .files f = some (confirmedRow row (object chunk body.totalChunks)) ∧
        w'.db.committed .rooms ρ =
          some (claimedRow room.toRoomRow (object chunk body.totalChunks)) ∧
        w'.storage.lookup row.storage_key.text = some (object chunk body.totalChunks)) ∧
      (∀ e, r = .error e → w'.db.committed .files f = w.db.committed .files f ∧
        w'.db.committed .rooms ρ = w.db.committed .rooms ρ ∧
        ∀ row, w'.db.committed .files f = some row → row.status = .pending →
          w'.storage.lookup row.storage_key.text = none) := by
  subst hρ
  obtain ⟨hw, hstaged⟩ := h.staged
  have halone := hw.alone p
  refine ⟨calm_exists_runs (only_uploads_completeUploadSession room_token f body)
    (by simp [Route.kinds, completeKinds]) halone, fun r w' hr => ?_⟩
  have hclean := Snapshot.rows_of_free (p := p) hw
  -- The two checks before the record is looked up change nothing.
  have hsame₁ : Serial.of p w₁ = .of p w := After.of_runs (Q := fun _ σ => σ = .of p w)
    (After.requireMember fun _ _ => rfl) hmember halone
  have hsame₂ : Serial.of p w₂ = .of p w := After.of_runs (Q := fun _ σ => σ = .of p w)
    (After.validateCsrf fun _ => rfl) hcsrf halone
  have hroom : (Serial.of p w).db.rows .rooms room.id = some room.toRoomRow :=
    (After.of_runs (Q := fun r σ => ∀ s room, r = .ok (s, room) →
      (Serial.of p w).db.rows .rooms room.id = some room.toRoomRow)
      (After.requireMember fun r hm s room hr => (hm s room hr).room_row) hmember halone) _ _ rfl
  have hafter : After (uploads.completeUploadSession env room_token f body request)
      (Completed env (.of p w) room f chunk body.totalChunks) (.of p w) := by
    refine (After.withSession_iff _ _).2 ((After.bind_iff _ _ _).2 ?_)
    refine (After.iff_of_runs hmember halone).2 ?_
    rw [hsame₁]
    refine (After.bind_iff _ _ _).2 ((After.iff_of_runs hcsrf halone).2 ?_)
    rw [hsame₂]
    refine (after_completeAs hclean hroom hactor hstaged).mono fun r σ' hc => ?_
    exact ⟨hc.ok_iff, hc.ok, hc.error⟩
  obtain ⟨hiff, hok, herror⟩ := hafter.of_runs hr halone
  refine ⟨hiff, fun view hv => ?_, fun e he => ?_⟩
  -- The room that the member was checked in is the committed one.
  · obtain ⟨row, hrow, hfile, hroom', hlookup⟩ := hok view hv
    refine ⟨row, hrow, ?_, hfile, hroom', hlookup⟩
    exact (congrFun (congrFun hclean _) _).symm.trans hroom
  -- A refusal has committed nothing.
  · obtain ⟨hsaved, hfinal⟩ := herror e he
    have hcommitted : ∀ t i, w'.db.committed t i = w.db.committed t i := fun t i =>
      congrFun (congrFun hsaved t) i
    refine ⟨hcommitted _ _, hcommitted _ _, fun row hrow => hfinal row ?_⟩
    exact (hcommitted _ _).symm.trans hrow

namespace chunks

/-- An upload of one byte. -/
def oneByte : uploads.UploadSessionCreate := ⟨"f", none, 1, 1, Nat.one_pos, Nat.one_pos⟩

/-- The world after the upload is created, and after its only chunk is stored. -/
def createdWorld : World :=
  calm.endWorld 0 (uploads.createUploadSession .plain "a" oneByte .owner) .owned

/-- The server after one chunk of one byte was stored. -/
def storedWorld : World :=
  calm.endWorld 0 (uploads.uploadChunk .plain "a" 0 0 (.ok [65]) .owner) createdWorld

/-- That chunk is what was uploaded. -/
theorem uploaded_storedWorld :
    Uploaded .plain 0 0 storedWorld (Function.update (fun _ => none) 0 (some [65])) := by
  obtain ⟨rec_, hid, hcreate⟩ := calm.exists_runs_ok 0
    (uploads.createUploadSession .plain "a" oneByte .owner) .owned
    (fun rec_ => (rec_.id, rec_.room_id)) (b := (0, 0)) (by decide)
  obtain ⟨_, -, hstore⟩ := calm.exists_runs_ok 0
    (uploads.uploadChunk .plain "a" 0 0 (.ok [65]) .owner) createdWorld (fun _ => ())
    (b := ()) (by decide)
  refine .stored (.created World.holding_free ?_ hcreate (Prod.mk.inj hid).1 (Prod.mk.inj hid).2)
    hstore
  intro key hkey
  cases hkey

/-- The record of the upload once its chunk is stored. -/
theorem storedRow : storedWorld.db.committed .files 0 = some { FileRow.plain with
    storage_key := World.initial.uuids 0
    status := .pending
    size_bytes := 1
    total_size_bytes := some 1
    uploaded_by := some 0
    expires_at := some (seconds 4900) } := by
  decide

/-- Chunks of that upload, stored one after the other. -/
def storeAll : List (ℤ × Bytes) → Op Unit
  | [] => pure ()
  | c :: cs => do
    let _ ← uploads.uploadChunk .plain "a" 0 c.1 (.ok c.2) .owner
    storeAll cs

/-- Storing them continues a history. -/
theorem Uploaded.storeAll {ρ : ℕ} {w w' : World} {chunk : ℕ → Option Bytes}
    {cs : List (ℤ × Bytes)} (h : Uploaded .plain ρ 0 w chunk)
    (hr : calm.Runs 0 (chunks.storeAll cs) w (.ok ()) w') :
    Uploaded .plain ρ 0 w' (cs.foldl (fun chunk c => Function.update chunk c.1.toNat (some c.2))
      chunk) := by
  induction cs generalizing w chunk with
  | nil =>
    cases hr
    exact h
  | cons c cs ih =>
    obtain ⟨_, w₁, hstore, hrest⟩ := hr.of_bind_ok
    exact ih (.stored h hstore) hrest

/-- An upload of three bytes in two chunks. -/
def threeBytes : uploads.UploadSessionCreate := ⟨"f", none, 3, 2, by decide, by decide⟩

/-- The server after an upload of two chunks was opened. -/
def openedWorld : World :=
  calm.endWorld 0 (uploads.createUploadSession .plain "a" threeBytes .owner) .owned

/-- The second chunk is sent before the first, which is sent twice. -/
def shuffled : List (ℤ × Bytes) := [(1, [67]), (0, [66]), (0, [65, 66])]

/-- The server after the chunks of `shuffled` were stored. -/
def shuffledWorld : World := calm.endWorld 0 (storeAll shuffled) openedWorld

/-- The latest data for each index is what was uploaded. -/
theorem uploaded_shuffledWorld : Uploaded .plain 0 0 shuffledWorld
    (shuffled.foldl (fun chunk c => Function.update chunk c.1.toNat (some c.2)) fun _ => none) := by
  obtain ⟨rec_, hid, hcreate⟩ := calm.exists_runs_ok 0
    (uploads.createUploadSession .plain "a" threeBytes .owner) .owned
    (fun rec_ => (rec_.id, rec_.room_id)) (b := (0, 0)) (by decide)
  obtain ⟨⟨⟩, -, hstore⟩ := calm.exists_runs_ok 0 (storeAll shuffled) openedWorld id (b := ())
    (by decide)
  have hcreated : Uploaded .plain 0 0 openedWorld fun _ => none := by
    refine .created World.holding_free ?_ hcreate (Prod.mk.inj hid).1 (Prod.mk.inj hid).2
    intro key hkey
    cases hkey
  exact hcreated.storeAll hstore

/-- The record of the upload, which counts four bytes. -/
theorem shuffledRow : shuffledWorld.db.committed .files 0 = some { FileRow.plain with
    storage_key := World.initial.uuids 0
    status := .pending
    size_bytes := 4
    total_size_bytes := some 3
    uploaded_by := some 0
    expires_at := some (seconds 4900) } := by
  decide

end chunks

/-- An upload is completed whose chunks came out of order, and one of them twice. -/
theorem complete_upload_session_exact_shuffled :
    ∃ view w', calm.Runs 0 (uploads.completeUploadSession .plain "a" 0 ⟨2, by decide⟩ .owner)
      chunks.shuffledWorld (.ok view) w' ∧ w'.storage.lookup ['u'] = some [65, 66, 67] := by
  obtain ⟨_, rfl, hmember⟩ := calm.exists_runs_ok 0 (requireMember .plain "a" .owner) shuffledWorld
    (fun a => a) (b := (toSession (0, .owner), toRoom (0, .plain))) (by decide)
  obtain ⟨⟨⟩, -, hcsrf⟩ := calm.exists_runs_ok 0 (validateCsrf .plain .post .owner) shuffledWorld
    (fun a => a) (b := ()) (by decide)
  obtain ⟨⟨r, w', hr⟩, hall⟩ := complete_upload_session_exact uploaded_shuffledWorld
    ⟨2, by decide⟩ hmember hcsrf (.inl rfl) rfl
  obtain ⟨hiff, hok, -⟩ := hall r w' hr
  obtain ⟨view, rfl⟩ := hiff.2 ⟨_, shuffledRow, ⟨rfl, by decide, rfl, rfl, by decide, by decide⟩⟩
  obtain ⟨row, hrow', -, -, -, hlookup⟩ := hok view rfl
  rw [shuffledRow] at hrow'
  cases hrow'
  exact ⟨view, w', hr, hlookup⟩

end DropRoom
