import DropRoom.Files.Acts

/-!
# What the requests on files do to the vault

Each request on files, run alone, makes the steps of the vault that its member is allowed
(`Allowed`), whatever fails on the way: a service that commits at its end does what its successful
path does, and what fails before the `COMMIT` touches only loose objects, but for the deletions,
which may lose the object of a record that stays.
-/

namespace DropRoom

open Effect Store Prog uploadService

/-- `delete_file` deletes the object of a confirmed record of the room, for its owner. -/
theorem ends_deleteAs {σ : Serial} {room : Room} {actor : SessionRecord} {file_id : ℤ} :
    Ends (files.deleteAs actor room file_id) (fun _ σ' => σ.Quiet σ' ∨ actor.role = .owner ∧
      ∃ old, σ.file file_id = some old ∧ old.room_id = room.id ∧ old.status = .confirmed ∧
        σ.Touches (· = old.storage_key.text) σ') σ := by
  have hgetFile : (fileService.getFile room file_id).Only Cmd.Quiet := by
    unfold fileService.getFile fileRepository.getFileById
    refine only_bind (only_bind (quiet_select _ _) fun _ => only_scalarOneOrNone _) fun found => ?_
    split
    · exact only_bind (only_require _ _) fun _ => only_pure _
    · exact only_raise _
  unfold files.deleteAs fileService.deleteFile
  refine .bind (.require_bind (fun howner => ?_) fun _ => .inl (.refl σ))
  refine .check_bind (I := fun old => σ.file file_id = some old ∧ old.room_id = room.id ∧
    old.status = .confirmed) hgetFile (yields_getFile fun _ hfile hroom hstatus =>
      ⟨hfile, hroom, hstatus⟩) (fun old σ₁ hold hσ₁ => ?_) fun e σ₁ hσ₁ => .inl hσ₁
  obtain ⟨hfile, hroom, hstatus⟩ := hold
  have hfrom : ∀ σ', σ₁.Touches (· = old.storage_key.text) σ' →
      σ.Touches (· = old.storage_key.text) σ' := by
    obtain ⟨_, _, _, rfl⟩ := hσ₁
    exact fun σ' hσ' => ⟨⟨hσ'.draws.uuids, hσ'.draws.uuidsUsed, hσ'.draws.count, hσ'.draws.queue⟩,
      hσ'.kept⟩
  -- The statements touch no object, and `storage.delete` the one.
  have hrest : Handles (· = old.storage_key.text) (do
      let _ ← fileRepository.markDeleted old.id
      let _ ← roomRepository.updateStorageAndFileCount room.id (-old.size_bytes) (-1)
      let _ ← roomRepository.createAuditEvent (some room.id) "FILE_DELETED"
      storage.delete old.storage_key.text
      pure { old with status := .deleted } : Op FileRecord) := by
    refine .bind (.of_only Env.plain [.markFileDeleted]
      ((only_issue _).2 (.markFileDeleted (by decide) _)) (by decide) (by decide) (by decide)) fun _ => ?_
    refine .bind (.of_only Env.plain [.release] ((only_issue _).2 (.release (by decide) _ _))
      (by decide) (by decide) (by decide)) fun _ => ?_
    exact .bind handles_createAuditEvent fun _ => .bind (.delete rfl) fun _ => .pure _
  have hcommit : ∀ rec_ : FileRecord, Handles (· = old.storage_key.text) (do
      commit
      broadcast (wsChannel room) (.fileDeleted rec_.id) []
      pure (fileView rec_ actor.display_name) : Op FileView) := fun rec_ =>
    .of_only Env.plain [.commit] (only_bind (only_commit (by decide)) fun _ =>
      only_bind (only_broadcast _ _ _ fun hsettings => hsettings.elim) fun _ => only_pure _)
      (by decide) (by decide) (by decide)
  refine (hrest σ₁).mono ?_
  rintro (e | rec_) σ₂ hσ₂
  · exact .inr ⟨howner, old, hfile, hroom, hstatus, hfrom σ₂ hσ₂⟩
  · exact (hcommit rec_ σ₂).mono fun _ σ' hσ' =>
      .inr ⟨howner, old, hfile, hroom, hstatus, hfrom σ' (hσ₂.trans hσ')⟩

/-- `cleanup_room` in a transaction of its own: the room is closed, or objects of its files are
lost. -/
theorem ends_cleanup {α : Type} {ok : Vault.Act → Prop} {σ σ₁ : Serial} {room : Room}
    {f : Bool → Op α} (hf : ∀ b, (f b).Only Cmd.Quiet) (hclose : ok (.close room.id))
    (hlose : ∀ f, ok (.lose room.id f)) (hσ : σ.db.rows = σ.db.saved) (hσ₁ : σ.Quiet σ₁) :
    Ends (cleanupService.cleanupRoom room >>= fun b => commit >>= fun _ => f b)
      (fun _ σ' => σ.Result ok σ') σ₁ := by
  -- The keys that the teardown deletes are those of the room, which may lose them.
  have hkeys : ∀ key ∈ σ₁.roomKeys room.id, ∃ f r, σ.db.saved .files f = some r ∧
      ok (.lose r.room_id f) ∧ key = r.storage_key.text := by
    obtain ⟨_, _, _, rfl⟩ := hσ₁
    intro key hkey
    obtain ⟨i, r, hr, hroom, rfl⟩ := mem_roomKeys.1 hkey
    exact ⟨i, r, hσ ▸ hr, hroom ▸ hlose i, rfl⟩
  -- Without the commit that is all that happens.
  have herased : ∀ keys σ', (∀ key ∈ keys, key ∈ σ₁.roomKeys room.id) →
      σ'.db.saved = σ₁.db.saved →
      (∀ key, σ'.rest.storage.lookup key = (σ₁.rest.storage.eraseAll keys).lookup key) →
      σ.Result ok σ' := by
    intro keys σ' hmem hsaved hs hok hd
    obtain ⟨_, _, _, rfl⟩ := hσ₁
    exact refines_erased keys hok hd hsaved (fun key hkey => hkeys key (hmem key hkey)) hs
  refine .bind (.cleanupRoom (fun hcan σ₂ hwiped => ?_) (fun _ => ?_) fun e keys σ' hmem hσ' => ?_)
  · refine .bind (.commit ?_ fun e => ?_)
    · refine .quiet (hf true) fun _ σ' hσ' hok hd => ?_
      obtain ⟨row, hrow, -⟩ := hcan
      obtain ⟨_, _, _, rfl⟩ := hσ₁
      obtain ⟨_, _, _, rfl⟩ := hσ'
      refine refines_close hok hclose hd (hσ ▸ hrow) (fun t i => ?_) fun key hkey => ?_
      · exact (hwiped.rows t i).trans (congrArg (wiped room.id t i) (congrFun₂ hσ t i))
      · change σ₂.rest.storage.lookup key = _
        rw [hwiped.rest, Storage.lookup_eraseAll, if_neg fun hmem => ?_]
        obtain ⟨i, r, hr, hroom, htext⟩ := mem_roomKeys.1 hmem
        exact hkey i r (hσ ▸ hr) hroom htext
    · exact herased _ σ₂ (fun _ hkey => hkey) hwiped.saved fun key => by rw [hwiped.rest]
  · refine .bind (.commit (.quiet (hf false) fun _ σ' hσ' => ?_) fun e => hσ₁.result)
    refine herased [] σ' (fun _ hkey => by cases hkey) ?_ fun key => ?_
    · obtain ⟨_, _, _, rfl⟩ := hσ₁
      obtain ⟨_, _, _, rfl⟩ := hσ'
      exact hσ
    · obtain ⟨_, _, _, rfl⟩ := hσ'
      rfl
  · exact herased keys σ' (fun key hkey => (hmem key hkey).1) hσ'.1 fun key => by rw [hσ'.2]

section

variable {env : Env} {σ : Serial} {request : Request} {room_token : Token}
variable (h : Sound σ) (hσ : σ.db.rows = σ.db.saved)
include h hσ

/-- `POST /rooms/{room_token}/files`. -/
theorem ends_upload {name type : Option String} {chunks : fileService.Source} :
    Ends (files.upload env room_token name type chunks request) (fun _ σ' =>
      Refines (Allowed env σ (.request (.upload room_token name type chunks) request)) σ σ') σ := by
  refine refines_of_result (.scratch _) (only_upload _ _ _ _) (by simp [Route.kinds, uploadKinds]) ?_
  refine ends_checkMember fun session room σ₁ hm hσ₁ => ?_
  refine ends_checkCsrf hσ₁ fun σ₂ hσ₂ => ends_checkLimiter hσ₂ fun σ₃ hσ₃ => ?_
  refine ends_commit hσ₃ (only_uploadFile (K := uploadKinds) (fun _ hk => hk) _ _ _ _ _) (by decide)
    (fun rec_ => only_bind (quiet_broadcast _ _ _) fun _ => only_pure _)
    (ends_scratches h hσ₃ handles_uploadFile fun _ hkey => hkey.elim) yields_uploadFile ?_
  rintro rec_ σ₄ σ' ⟨hmay, hid, hc, hkey, hused, datas, -, hlength, hstorage⟩ hσ' hd hs
  obtain ⟨_, _, _, rfl⟩ := hσ₃
  obtain ⟨_, _, _, rfl⟩ := hσ'
  rw [hσ] at hc
  refine refines_upload (.scratch _) (.member hm (.reserveUpload hmay _ _ _ _))
    (.member hm (.confirmUpload hmay _ _ _ _)) hd hs hid hc hkey ?_ hlength ?_
  · exact hused ▸ Nat.lt_succ_self _
  · change σ₄.rest.storage.lookup rec_.storage_key.text = _
    rw [hstorage, hkey]
    exact AList.lookup_insert _

/-- `POST /rooms/{room_token}/uploads`. -/
theorem ends_createUploadSession {body : uploads.UploadSessionCreate} :
    Ends (uploads.createUploadSession env room_token body request) (fun _ σ' =>
      Refines (Allowed env σ (.request (.createUploadSession room_token body) request)) σ σ') σ := by
  refine refines_of_result (.scratch _) (only_uploads_createUploadSession _ _)
    (by simp [Route.kinds]) ?_
  refine ends_checkMember fun session room σ₁ hm hσ₁ => ?_
  refine ends_checkCsrf hσ₁ fun σ₂ hσ₂ => ends_checkLimiter hσ₂ fun σ₃ hσ₃ => ?_
  refine ends_commit (K := [.newFile, .flushFile]) hσ₃
    (only_createUploadSession (by decide) (by decide) _ _ _ _ _ _) (by decide)
    (fun rec_ => only_pure _)
    (ends_scratches h hσ₃ (T := fun _ => False) handles_createUploadSession fun _ hkey => hkey.elim)
    yields_createUploadSession ?_
  rintro rec_ σ₄ σ' ⟨hmay, hid, hroom, hpending, hkey, hused, hc, -⟩ hσ' hd hs
  obtain ⟨_, _, _, rfl⟩ := hσ₃
  obtain ⟨_, _, _, rfl⟩ := hσ'
  rw [hσ] at hc
  refine refines_reserve (.scratch _) (.member hm (.reserve hmay _ _)) hd hs hid hroom hpending
    ⟨_, hσ ▸ hm.room_row⟩ hkey ?_ hc
  exact hused ▸ Nat.lt_succ_self _

/-- `PUT /rooms/{room_token}/uploads/{upload_id}/chunks/{index}`. -/
theorem ends_uploadChunk {upload_id index : ℤ} {body : Except Err Bytes} :
    Ends (uploads.uploadChunk env room_token upload_id index body request) (fun _ σ' =>
      Refines (Allowed env σ (.request (.uploadChunk room_token upload_id index body) request)) σ σ')
      σ := by
  refine refines_of_result (.scratch _) (only_uploadChunk _ _ _ _) (by simp [Route.kinds]) ?_
  refine ends_checkMember fun session room σ₁ hm hσ₁ => ends_checkLimiter hσ₁ fun σ₂ hσ₂ => ?_
  refine ends_pendingSession hσ₂ fun rec_ σ₃ hrec hroom hσ₃ => ?_
  cases body with
  | error e => exact hσ₃.result
  | ok chunk =>
    refine .require_bind (fun _ => .require_bind (fun _ => ?_) fun _ => hσ₃.result) fun _ =>
      hσ₃.result
    obtain ⟨hrow, rfl⟩ := Serial.of_file hrec
    -- What follows the commit changes neither rows nor objects.
    have hquiet : ∀ stored : FileRecord, (uploads.broadcastProgress room stored >>= fun _ =>
        pure stored : Op FileRecord).Only Cmd.Quiet := fun stored => by
      unfold uploads.broadcastProgress
      refine only_bind ?_ fun _ => only_pure _
      dsimp only
      split
      · exact quiet_broadcast _ _ _
      · exact only_pure _
    -- The event that is audited is committed with the part.
    have hprog : (do
        let stored ← storeChunk env rec_ index.toNat chunk
        let _ ← roomRepository.createAuditEvent (some room.id) "UPLOAD_CHUNK"
        commit
        uploads.broadcastProgress room stored
        pure stored : Op FileRecord) = (do
          let stored ← storeChunk env rec_ index.toNat chunk
          let _ ← roomRepository.createAuditEvent (some room.id) "UPLOAD_CHUNK"
          pure stored : Op FileRecord) >>= fun stored => commit >>= fun _ =>
            uploads.broadcastProgress room stored >>= fun _ => pure stored := by
      simp only [bind_assoc, pure_bind]
    rw [hprog]
    have hrow₃ : σ₃.db.rows .files rec_.id = some rec_.toFileRow := by
      obtain ⟨_, _, _, rfl⟩ := hσ₃
      exact hrow
    -- What stands before it stages the part.
    have hyields : Yields (do
        let stored ← storeChunk env rec_ index.toNat chunk
        let _ ← roomRepository.createAuditEvent (some room.id) "UPLOAD_CHUNK"
        pure stored : Op FileRecord) (fun stored σ₄ => rec_.status = .pending ∧
          stored.toFileRow = { rec_.toFileRow with size_bytes := stored.size_bytes } ∧
          Change σ₃.db.rows σ₄.db.rows rec_.id (some stored.toFileRow) room.id id) σ₃ := by
      refine .bind ((yields_storeChunk room.id hrow₃).mono fun stored σ₄ hstored => ?_)
      obtain ⟨hpending, hstored, hc, -⟩ := hstored
      exact .bind (.insert (.pure ⟨hpending, hstored, hc.audit _⟩))
    have honly : (do
        let stored ← storeChunk env rec_ index.toNat chunk
        let _ ← roomRepository.createAuditEvent (some room.id) "UPLOAD_CHUNK"
        pure stored : Op FileRecord).Only (Issued env [.put, .flushFile, .newAudit]) := by
      refine only_bind (only_storeChunk (by decide) (by decide) _ _ _) fun stored => ?_
      exact only_bind (only_createAuditEvent (by decide) _ _) fun _ => only_pure _
    refine ends_commit hσ₃ honly (by decide) hquiet
      (ends_scratches h hσ₃ (T := Key.OfPart) ?_ fun _ hkey => .inl hkey) hyields ?_
    · exact .bind handles_storeChunk fun _ => .bind handles_createAuditEvent fun _ => .pure _
    -- The commit is the step `stage` of the vault, which a member may take.
    · rintro stored σ₄ σ' ⟨hpending, hstored, hc⟩ hσ' hd hs
      obtain ⟨_, _, _, rfl⟩ := hσ₃
      obtain ⟨_, _, _, rfl⟩ := hσ'
      rw [hσ] at hc hrow
      rw [hstored] at hc
      have hmay : Allowed env σ (.request (.uploadChunk room_token rec_.id index (.ok chunk)) request)
          (.stage rec_.room_id rec_.id) := by
        rw [hroom]
        exact .member hm (.stage rec_.id index (.ok chunk))
      exact refines_stage (.scratch _) hmay hd hs hrow hpending hc

/-- `POST /rooms/{room_token}/uploads/{upload_id}/complete`. -/
theorem ends_completeUploadSession {upload_id : ℤ} {body : uploads.UploadSessionComplete} :
    Ends (uploads.completeUploadSession env room_token upload_id body request) (fun _ σ' =>
      Refines (Allowed env σ (.request (.completeUploadSession room_token upload_id body) request))
        σ σ') σ := by
  refine refines_of_result (.scratch _) (only_uploads_completeUploadSession _ _ _)
    (by simp [Route.kinds, completeKinds]) ?_
  refine ends_checkMember fun session room σ₁ hm hσ₁ => ends_checkCsrf hσ₁ fun σ₂ hσ₂ => ?_
  refine ends_pendingSession hσ₂ fun rec_ σ₃ hrec hroom hσ₃ => ?_
  obtain ⟨hrow, rfl⟩ := Serial.of_file hrec
  have hrow₃ : σ₃.db.rows .files rec_.id = some rec_.toFileRow := by
    obtain ⟨_, _, _, rfl⟩ := hσ₃
    exact hrow
  rw [hσ] at hrow
  refine ends_commit hσ₃ (only_completeUploadSession (K := completeKinds) (fun _ hk => hk) _ _ _ _)
    (by decide) (fun confirmed => only_bind (quiet_broadcast _ _ _) fun _ => only_pure _)
    (ends_scratches h hσ₃ handles_completeUploadSession ?_) (yields_completeUploadSession hrow₃) ?_
  · rintro key (hpart | ⟨rfl, hpending⟩)
    · exact .inl hpart
    · refine .inr (.inl ⟨rec_.id, rec_.toFileRow, hrow, ?_, rfl⟩)
      rw [hpending]
      decide
  · rintro confirmed σ₄ σ' ⟨hmay, hpending, hc, hkey, keys, data, hkeys, -, -, hlength, hs₄⟩ hσ' hd hs
    obtain ⟨_, _, _, rfl⟩ := hσ₃
    obtain ⟨_, _, _, rfl⟩ := hσ'
    rw [hσ] at hc
    refine refines_confirm (.scratch _) (.member hm (.confirm hmay _ _)) hd hs hrow hpending hroom hc
      hkey hlength ?_
    change σ₄.rest.storage.lookup rec_.storage_key.text = some data
    rw [hs₄, Storage.lookup_eraseAll, if_neg fun hmem => ?_, AList.lookup_insert]
    -- The parts are stored under other keys.
    rw [hkeys] at hmem
    exact not_partPrefix_isPrefix _ _ (mem_listKeys.1 (mem_of_mem_parts hmem)).2

/-- `DELETE /rooms/{room_token}/uploads/{upload_id}`. -/
theorem ends_abortUploadSession {upload_id : ℤ} :
    Ends (uploads.abortUploadSession env room_token upload_id request) (fun _ σ' =>
      Refines (Allowed env σ (.request (.abortUploadSession room_token upload_id) request)) σ σ')
      σ := by
  refine refines_of_result (.scratch _) (only_uploads_abortUploadSession _ _) (by simp [Route.kinds]) ?_
  refine ends_checkMember fun session room σ₁ hm hσ₁ => ends_checkCsrf hσ₁ fun σ₂ hσ₂ => ?_
  refine ends_pendingSession hσ₂ fun rec_ σ₃ hrec hroom hσ₃ => ?_
  obtain ⟨hrow, rfl⟩ := Serial.of_file hrec
  have hrow₃ : σ₃.db.rows .files rec_.id = some rec_.toFileRow := by
    obtain ⟨_, _, _, rfl⟩ := hσ₃
    exact hrow
  rw [hσ] at hrow
  rw [← bind_pure commit]
  have honly : (abortUploadSession room rec_).Only
      (Issued env [.deleteObject, .dropFile, .newAudit]) :=
    only_abortUploadSession (by decide) (by decide) (by decide) _ _
  refine ends_commit hσ₃ honly (by decide) (fun _ => only_pure _)
    (ends_scratches h hσ₃ handles_abortUploadSession fun _ hkey => .inl hkey)
    (yields_abortUploadSession hrow₃) ?_
  rintro ⟨⟩ σ₄ σ' ⟨-, hc, -⟩ hσ' hd hs
  obtain ⟨_, _, _, rfl⟩ := hσ₃
  obtain ⟨_, _, _, rfl⟩ := hσ'
  rw [hσ] at hc
  have hmay : Allowed env σ (.request (.abortUploadSession room_token rec_.id) request)
      (.abort rec_.room_id rec_.id) := by
    rw [hroom]
    exact .member hm (.abort rec_.id)
  exact refines_abort (.scratch _) hmay hd hs hrow hc

/-- `DELETE /rooms/{room_token}/files/{file_id}`. -/
theorem ends_delete {file_id : ℤ} :
    Ends (files.delete env room_token file_id request) (fun _ σ' =>
      Refines (Allowed env σ (.request (.deleteFile room_token file_id) request)) σ σ') σ := by
  refine refines_of_result (.scratch _) (only_files_delete _ _)
    (by simp [Route.kinds, deleteFileKinds]) ?_
  refine ends_checkMember fun session room σ₁ hm hσ₁ => ends_checkCsrf hσ₁ fun σ₂ hσ₂ => ?_
  -- The rows are as before, or the record is deleted and the room has its quota back.
  have hposts : Posts σ.db.saved (fun σ' => ∃ old, session.role = .owner ∧
      σ.file file_id = some old ∧ old.room_id = room.id ∧ old.status = .confirmed ∧
      Change σ.db.saved σ'.db.saved old.id (some { old.toFileRow with status := .deleted }) room.id
        (releaseOf old.size_bytes).set) (files.deleteAs session room file_id) σ₂ := by
    obtain ⟨_, _, _, rfl⟩ := hσ₂
    have honly : (fileService.deleteFile room session file_id).Only (Issued env deleteFileKinds) :=
      only_deleteFile (fun _ hk => hk) _ _ _
    refine .bind honly (by decide) rfl (yields_deleteFile.mono fun rec_ σ₃ hrec hσ₃ => ?_)
    obtain ⟨howner, old, hfile, hroom, hstatus, rfl, hc, -⟩ := hrec
    refine .commit_bind (only_bind (quiet_broadcast _ _ _) fun _ => only_pure _) hσ₃ fun σ' hσ' => ?_
    obtain ⟨_, _, _, rfl⟩ := hσ'
    exact ⟨old, howner, hfile, hroom, hstatus, hσ ▸ hc⟩
  have honly : (files.deleteAs session room file_id).Only
      (Issued env (deleteFileKinds ++ [.commit])) := by
    refine only_bind (only_deleteFile (fun _ hk => List.mem_append_left _ hk) _ _ _) fun _ => ?_
    refine only_bind (only_commit (by decide)) fun _ => ?_
    exact only_bind (only_broadcast _ _ _ fun hsettings => hsettings.elim) fun _ => only_pure _
  refine ((hposts.and ends_deleteAs).and (Ends.storesNothing honly (by decide)
    (Q := fun _ σ' => ∀ key data, σ'.rest.storage.lookup key = some data →
      σ₂.rest.storage.lookup key = some data) fun _ _ hs => hs)).mono ?_
  rintro _ σ' ⟨⟨hsaved, htouches⟩, hnothing⟩
  rcases htouches with hquiet | ⟨howner, old, hfile, hroom, hstatus, htouches⟩
  · exact (hσ₂.trans hquiet).result
  obtain ⟨_, _, _, rfl⟩ := hσ₂
  obtain ⟨hrow, rfl⟩ := Serial.of_file hfile
  rw [hσ] at hrow
  intro hok hd
  -- A deletion stores nothing.
  have hgone : ∀ key, σ.rest.storage.lookup key = none → σ'.rest.storage.lookup key = none := by
    intro key hkey
    refine Option.eq_none_iff_forall_ne_some.2 fun data hdata => ?_
    have hdata₀ : σ.rest.storage.lookup key = some data := hnothing key data hdata
    rw [hkey] at hdata₀
    cases hdata₀
  -- Under a key that is drawn on the way nothing is stored, before and after.
  have hkept : ∀ key, key ≠ old.storage_key.text →
      σ'.rest.storage.lookup key = σ.rest.storage.lookup key := by
    intro key hkey
    by_cases hnew : ∃ n, σ.rest.uuidsUsed ≤ n ∧ key = (σ.rest.uuids n).text
    · obtain ⟨n, hn, rfl⟩ := hnew
      rw [h.unused n hn, hgone _ (h.unused n hn)]
    · exact htouches.kept key hkey fun n hn _ htext => hnew ⟨n, hn, htext⟩
  rcases hsaved with hsaved | ⟨old', -, hfile', -, -, hc⟩
  -- Without the commit the object may be gone: the vault calls it lost.
  · have hlose : Allowed env σ (.request (.deleteFile room_token old.id) request)
        (.lose old.room_id old.id) := by
      rw [hroom]
      exact .member hm (.lose howner old.id)
    by_cases hself : σ'.rest.storage.lookup old.storage_key.text =
        σ.rest.storage.lookup old.storage_key.text
    · refine refines_erased [] hok hd hsaved (fun _ hkey => by cases hkey) fun key => ?_
      by_cases hkey : key = old.storage_key.text
      · rw [hkey]
        exact hself
      · exact hkept key hkey
    · refine refines_erased [old.storage_key.text] hok hd hsaved ?_ fun key => ?_
      · intro key hkey
        obtain rfl := List.mem_singleton.1 hkey
        exact ⟨old.id, old.toFileRow, hrow, hlose, rfl⟩
      · rw [Storage.lookup_eraseAll]
        by_cases hkey : key = old.storage_key.text
        · rw [if_pos (List.mem_singleton.2 hkey), hkey]
          refine Option.eq_none_iff_forall_ne_some.2 fun data hdata => hself ?_
          exact hdata.trans (hnothing _ data hdata).symm
        · rw [if_neg fun hmem => hkey (List.mem_singleton.1 hmem), hkept key hkey]
  -- With it the file is released.
  · obtain rfl := Option.some.inj (hfile.symm.trans hfile')
    have hrelease : Allowed env σ (.request (.deleteFile room_token old.id) request)
        (.release old.room_id old.id) := by
      rw [hroom]
      exact .member hm (.release howner old.id)
    rw [← hroom] at hc
    exact refines_release hok hrelease hd hrow hstatus hc hkept

omit h in
/-- `DELETE /rooms/{room_token}`. -/
theorem ends_deleteRoom : Ends (rooms.deleteRoom env room_token request) (fun _ σ' =>
    Refines (Allowed env σ (.request (.deleteRoom room_token) request)) σ σ') σ := by
  refine refines_of_result (.scratch _) (only_deleteRoom _) (by simp [Route.kinds, cleanupKinds,
    contentKinds]) ?_
  refine ends_check (.refl σ) quiet_requireRoomOwner (I := fun x =>
    After.Member env room_token request σ x.1 x.2 ∧ x.1.role = .owner)
    (.owner fun _ _ hm howner => ⟨hm, howner⟩) fun x σ₁ hx hσ₁ => ?_
  obtain ⟨session, room⟩ := x
  obtain ⟨hm, howner⟩ := hx
  refine ends_checkCsrf hσ₁ fun σ₂ hσ₂ => ?_
  exact ends_cleanup (fun _ => quiet_broadcast _ _ _) (.member hm (.close howner))
    (fun f => .member hm (.loseAll howner f)) hσ hσ₂

end

end DropRoom
