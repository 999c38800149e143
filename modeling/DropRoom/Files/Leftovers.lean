import DropRoom.Files.Chunks

/-!
# What is left of an upload that has ended

Six operations end an upload. Those that list the keys with the prefix of its parts leave none of
them (`abort_upload_session`, `expire_upload_session`), `complete_upload_session` leaves the chunks
beyond the number that it was asked for, and those that know only storage keys leave all of them
(`sweep_stale_pending`, `cleanup_room`).
-/

namespace DropRoom

open Effect Store Prog uploadService chunks

namespace leftovers

/-- The operations that end an upload: requests on it, its jobs, and the teardown of its room. -/
inductive Ending
  | completeUploadSession (room_token : Token) (body : uploads.UploadSessionComplete)
      (request : Request)
  | abortUploadSession (room_token : Token) (request : Request)
  | expireUploadSession
  | sweepStalePending
  | runRoomCleanup
  | deleteRoom (room_token : Token) (request : Request)

/-- The program of an operation on upload `f` of room `ρ`. -/
def Ending.program (env : Env) (ρ f : ℕ) : Ending → Op Unit
  | completeUploadSession room_token body request =>
    discard (uploads.completeUploadSession env room_token f body request)
  | abortUploadSession room_token request => uploads.abortUploadSession env room_token f request
  | expireUploadSession => handlers.expireUploadSession (some f)
  | sweepStalePending => withSession do
    cleanupService.sweepStalePending
    commit
  | runRoomCleanup => handlers.runRoomCleanup (some ρ)
  | deleteRoom room_token request => rooms.deleteRoom env room_token request

/-- The staged chunks are those that the operation removes. -/
def Ending.Removes (chunk : ℕ → Option Bytes) : Ending → Prop
  | completeUploadSession _ body _ => ∀ i, chunk i ≠ none → i < body.totalChunks
  | abortUploadSession .. | expireUploadSession => True
  | sweepStalePending | runRoomCleanup | deleteRoom .. => ∀ i, chunk i = none

/-! ## Operations that know only storage keys -/

/-- A command that leaves every part key alone. -/
def Cmd.SparesParts : Cmd → Prop
  | .put .. => False
  | .deleteObject key => '.' ∉ key
  | _ => True

/-- Commands that change no object leave the part keys alone. -/
theorem sparesParts_of_issued {env : Env} {K : List Kind} {c : Cmd} (h : Issued env K c)
    (hput : Kind.put ∉ K) (hdelete : Kind.deleteObject ∉ K) : Cmd.SparesParts c := by
  cases h with
  | put hk => exact absurd hk hput
  | deleteObject hk => exact absurd hk hdelete
  | _ => trivial

/-- A program that only reads spares the parts. -/
theorem Issued.sparesParts {env : Env} {α : Type} {prog : Op α} (h : prog.Only (Issued env [])) :
    prog.Only Cmd.SparesParts :=
  h.mono fun _ hc => sparesParts_of_issued hc (by decide) (by decide)

/-- A program with its own database session. -/
theorem only_session {P : Cmd → Prop} (hclose : P (.sql .rollback)) {α : Type} {body : Op α}
    (h : body.Only P) : (withSession body).Only P := by
  have hc : closeDb.Only P := (only_issue _).2 hclose
  refine only_bind (only_tryCatch h fun e => ?_) fun a => ?_
  · exact only_bind hc fun _ => only_raise e
  · exact only_bind hc fun _ => only_pure a

/-- The sweep of stale uploads spares the parts. -/
theorem sparesParts_sweepStalePending : cleanupService.sweepStalePending.Only Cmd.SparesParts := by
  refine only_bind ((only_issue _).2 trivial) fun now => ?_
  refine only_bind ((only_issue _).2 trivial) fun rows => only_forM (fun r => ?_) rows
  refine only_bind ((only_issue _).2 r.2.storage_key.noDot) fun _ => ?_
  exact only_bind ((only_issue _).2 trivial) fun _ => only_pure _

/-- The cleanup of a room spares the parts. -/
theorem sparesParts_cleanupRoom (room : Room) :
    (cleanupService.cleanupRoom room).Only Cmd.SparesParts := by
  have hmark : ∀ u, (updateAt .rooms room.id u).Only Cmd.SparesParts := fun u =>
    (only_issue _).2 trivial
  have hwipe : (cleanupService.deleteContent room.id).Only Cmd.SparesParts := by
    refine only_bind (only_bind ((only_issue _).2 trivial) fun _ => only_pure _) fun keys => ?_
    refine only_bind (only_forM (fun key => (only_issue _).2 key.noDot) _) fun _ => ?_
    refine only_bind ((only_issue _).2 trivial) fun _ => ?_
    refine only_bind ((only_issue _).2 trivial) fun _ => ?_
    refine only_bind ((only_issue _).2 trivial) fun _ => ?_
    exact only_bind ((only_issue _).2 trivial) fun _ => only_pure _
  have hrest : (do
      if ← roomRepository.markRoomDeleting room.id then
        cleanupService.deleteContent room.id
        let _ ← roomRepository.markRoomDeleted room.id
        pure true
      else pure false : Op Bool).Only Cmd.SparesParts := by
    refine only_bind (hmark _) fun b => ?_
    split
    · exact only_bind hwipe fun _ => only_bind (hmark _) fun _ => only_pure _
    · exact only_pure _
  unfold cleanupService.cleanupRoom
  split
  · exact only_bind (hmark _) fun _ => hrest
  · exact hrest

/-- The job that cleans a room up spares the parts. -/
theorem sparesParts_runRoomCleanup (room_id : Option ℕ) :
    (handlers.runRoomCleanup room_id).Only Cmd.SparesParts := by
  unfold handlers.runRoomCleanup
  split
  · exact only_pure _
  · refine only_session trivial (only_bind (Issued.sparesParts (@only_getRoomById .plain [] _))
      fun room => ?_)
    split
    · exact only_pure _
    · split
      · exact only_pure _
      · refine only_bind (sparesParts_cleanupRoom _) fun changed => ?_
        refine only_bind ((only_issue _).2 trivial) fun _ => ?_
        split
        · exact Issued.sparesParts (@only_broadcast .plain [] _ _ _ fun h => h.elim)
        · exact only_pure _

/-- Deleting a room spares the parts. -/
theorem sparesParts_deleteRoom (env : Env) (room_token : Token) (request : Request) :
    (rooms.deleteRoom env room_token request).Only Cmd.SparesParts := by
  refine only_session trivial (only_bind (Issued.sparesParts (only_requireRoomOwner room_token request))
    fun auth => ?_)
  refine only_bind (Issued.sparesParts (only_validateCsrf _ _)) fun _ => ?_
  refine only_bind (sparesParts_cleanupRoom _) fun _ => only_bind ((only_issue _).2 trivial) fun _ => ?_
  exact Issued.sparesParts (@only_broadcast env [] _ _ _ fun h => h.elim)

/-- A command that spares the part keys leaves what is staged. -/
theorem Cmd.SparesParts.exec {c : Cmd} (hc : Cmd.SparesParts c) {σ σ' : Serial} {x}
    (hx : Serial.exec c σ = some (x, σ')) (κ : Uuid) (i : ℕ) :
    σ'.rest.storage.lookup (partKey κ i) = σ.rest.storage.lookup (partKey κ i) := by
  by_cases hc' : c.Stores
  · cases c with
    | put key data => exact hc.elim
    | deleteObject key =>
      have hkey : partKey κ i ≠ key := by
        rintro rfl
        exact hc (by simp [partKey])
      cases hx
      exact AList.lookup_erase_ne hkey
    | _ => exact hc'.elim
  · rw [Serial.storage_exec hc' hx]

/-- A program that spares the part keys leaves what is staged. -/
theorem after_sparesParts {α : Type} {prog : Op α} (h : prog.Only Cmd.SparesParts) (σ : Serial)
    (κ : Uuid) : After prog (fun _ σ' => ∀ i,
      σ'.rest.storage.lookup (partKey κ i) = σ.rest.storage.lookup (partKey κ i)) σ :=
  After.only h (fun _ _ _ _ hc hx hσ i => (hc.exec hx κ i).trans (hσ i)) (fun _ => rfl) fun _ _ h => h

/-! ## Operations that list the part keys -/

section

variable {env : Env} {σ : Serial}

/-- A listing of part keys finds all of them. -/
theorem lookup_eraseAll_listKeys (s : Storage) (κ : Uuid) (i : ℕ) :
    (s.eraseAll (s.listKeys (partPrefix κ))).lookup (partKey κ i) = none := by
  rw [Storage.lookup_eraseAll]
  split
  · rfl
  · next h =>
    by_contra hsome
    exact h (mem_listKeys.2 ⟨mem_keys_iff.2 hsome, partPrefix_isPrefix_partKey κ i⟩)

/-- `cleanup_upload_parts` removes what the listing finds. -/
theorem cleanupUploadParts_iff (rec_ : FileRecord) (Q : Except Err Unit → Serial → Prop) :
    After (cleanupUploadParts rec_) Q σ ↔ Q (.ok ()) { σ with rest := { σ.rest with
      storage := σ.rest.storage.eraseAll
        (σ.rest.storage.listKeys (partPrefix rec_.storage_key)) } } := by
  unfold cleanupUploadParts
  rw [After.bind_iff, After.listKeys_iff]
  exact After.forM_delete_iff _ _

/-- A request that aborts a pending upload removes its parts, or leaves its record as it is. -/
theorem after_abort {f : ℕ} {row : FileRow} (hσ : σ.db.rows = σ.db.saved)
    (hrow : σ.db.saved .files f = some row) {room_token : Token} {request : Request} :
    After (uploads.abortUploadSession env room_token f request) (fun _ σ' =>
      σ'.db.saved = σ.db.saved ∨
        ∀ i, σ'.rest.storage.lookup (partKey row.storage_key i) = none) σ := by
  refine (After.withSession_iff _ _).2 ((After.bind_iff _ _ _).2 ?_)
  refine After.requireMember fun r _ => ?_
  rcases r with e | ⟨session_rec, room⟩
  · exact .inl rfl
  refine (After.bind_iff _ _ _).2 (After.validateCsrf fun r => ?_)
  rcases r with e | ⟨⟩
  · exact .inl rfl
  refine (After.bind_iff _ _ _).2 ((After.pendingSession_iff _ _ _).2 ⟨fun rec_ hrec hid => ?_, ?_⟩)
  · obtain ⟨row', hrow', rfl⟩ := Option.map_eq_some_iff.1 hrec
    rw [hσ, hrow] at hrow'
    cases hrow'
    unfold abortUploadSession
    refine (After.bind_iff _ _ _).2 ((After.require_bind_iff _ _ _).2 ⟨fun _ => ?_, fun h => ?_⟩)
    · refine (After.bind_iff _ _ _).2 ((cleanupUploadParts_iff _ _).2 ?_)
      refine (After.bind_iff _ _ _).2 ((After.deleteWhere_iff _ _ _).2 ?_)
      refine (After.bind_iff _ _ _).2 ((After.insert_iff _ _ _).2 ((After.pure_iff _).2 ?_))
      exact (After.commit_iff _).2 (.inr fun i => lookup_eraseAll_listKeys _ _ i)
    · exact absurd hid h
  · exact fun _ => .inl rfl

/-- `expire_upload_session` removes the parts of a pending upload. -/
theorem after_expire {f : ℕ} {row : FileRow} (hσ : σ.db.rows = σ.db.saved)
    (hrow : σ.db.saved .files f = some row) (hpending : row.status = .pending) :
    After (handlers.expireUploadSession (some f)) (fun _ σ' =>
      ∀ i, σ'.rest.storage.lookup (partKey row.storage_key i) = none) σ := by
  have hfile : σ.file f = some (toFile (f, row)) := by
    change (σ.db.rows .files f).map _ = _
    rw [hσ, hrow]
    rfl
  refine (After.withSession_iff _ _).2 ((After.bind_iff _ _ _).2 ((After.getFileById_iff _ _).2 ?_))
  rw [hfile]
  dsimp only
  rw [if_pos (show (toFile (f, row)).status = .pending from hpending)]
  refine (After.bind_iff _ _ _).2 ((cleanupUploadParts_iff _ _).2 ?_)
  refine (After.bind_iff _ _ _).2 ((After.delete_iff _ _).2 ?_)
  refine (After.bind_iff _ _ _).2 ((After.deleteWhere_iff _ _ _).2 ((After.commit_iff _).2 ?_))
  intro i
  refine (AList.lookup_erase_ne fun h => text_ne_partKey _ _ _ h.symm).trans ?_
  exact lookup_eraseAll_listKeys _ _ i

/-- If `complete_upload_session` returns, it has removed the parts that it was asked for. -/
theorem returns_complete {room : Room} {actor : SessionRecord} {rec_ : FileRecord} {n : ℕ}
    (honly : OnlyParts σ.rest.storage rec_.storage_key) :
    After.Returns (uploadService.completeUploadSession env room actor rec_ n) (fun _ σ' =>
      ∀ i, σ'.rest.storage.lookup (partKey rec_.storage_key i) =
        if i < n then none else σ.rest.storage.lookup (partKey rec_.storage_key i)) σ := by
  unfold uploadService.completeUploadSession authorizeChunkedUpload
  simp only [After.returns_bind_iff, After.returns_require_iff]
  intro _ _ _ _
  refine (After.returns_iff_of (After.listKeys_iff _)).2 fun hmissing => ?_
  -- What is assembled, and deleted in the end, are the parts below `n`.
  rw [honly.parts_eq hmissing]
  unfold assembleUpload
  refine (After.returns_bind_iff _ _).2 ((After.tryCatch_iff _ _).2 ((assemble_iff _ _ rfl _).2 ?_))
  rintro _ ⟨⟩
  dsimp only
  split
  · refine (After.returns_bind_iff _ _).2 ((After.returns_iff_of (After.delete_iff _)).2 ?_)
    exact After.returns_raise _
  split
  · refine (After.returns_bind_iff _ _).2 ((After.returns_iff_of (After.delete_iff _)).2 ?_)
    exact After.returns_raise _
  unfold confirmUpload
  refine (After.returns_bind_iff _ _).2 (After.unstored (@only_claimQuota env [.claim] (by decide)
    _ _) (by decide) (by decide) fun r σ₁ h₁ => ?_)
  -- Without the quota the request does not return.
  rintro claimed rfl
  split
  · refine (After.returns_bind_iff _ _).2 (After.unstored (@only_fileFlush env [.flushFile]
      (by decide) _ _) (by decide) (by decide) fun r σ₂ h₂ => ?_)
    rintro - rfl
    refine (After.returns_bind_iff _ _).2 ((After.returns_iff_of (After.insert_iff _ _)).2 ?_)
    refine (After.returns_bind_iff _ _).2 ((After.returns_iff_of (After.forM_delete_iff _)).2 ?_)
    refine (After.returns_pure_iff _).2 fun i => ?_
    have hmem : partKey rec_.storage_key i ∈ (List.range n).map (partKey rec_.storage_key) ↔ i < n :=
      (List.mem_map_of_injective fun _ _ => partKey_injective _).trans List.mem_range
    have hs : σ₂.rest.storage.lookup (partKey rec_.storage_key i) =
        σ.rest.storage.lookup (partKey rec_.storage_key i) := by
      rw [h₂, h₁]
      exact AList.lookup_insert_ne fun h => text_ne_partKey _ _ _ h.symm
    change AList.lookup _ (σ₂.rest.storage.eraseAll _) = _
    rw [Storage.lookup_eraseAll, hs]
    exact if_congr hmem rfl rfl
  · refine (After.returns_bind_iff _ _).2 ((After.returns_iff_of (After.delete_iff _)).2 ?_)
    refine (After.returns_bind_iff _ _).2 ((After.returns_iff_of (After.forM_delete_iff _)).2 ?_)
    exact After.returns_raise _

/-- A request that completes a pending upload removes the parts that it was asked for, or leaves its
record as it is. -/
theorem after_complete {f : ℕ} {row : FileRow} (hσ : σ.db.rows = σ.db.saved)
    (hrow : σ.db.saved .files f = some row) (honly : OnlyParts σ.rest.storage row.storage_key)
    {room_token : Token} {body : uploads.UploadSessionComplete} {request : Request} :
    After (uploads.completeUploadSession env room_token f body request) (fun _ σ' =>
      σ'.db.saved = σ.db.saved ∨
        ∀ i, σ'.rest.storage.lookup (partKey row.storage_key i) = if i < body.totalChunks then none
          else σ.rest.storage.lookup (partKey row.storage_key i)) σ := by
  refine (After.withSession_iff _ _).2 ((After.bind_iff _ _ _).2 ?_)
  refine After.requireMember fun r _ => ?_
  rcases r with e | ⟨session_rec, room⟩
  · exact .inl rfl
  refine (After.bind_iff _ _ _).2 (After.validateCsrf fun r => ?_)
  rcases r with e | ⟨⟩
  · exact .inl rfl
  refine (After.bind_iff _ _ _).2 ((After.pendingSession_iff _ _ _).2 ⟨fun rec_ hrec hid => ?_, ?_⟩)
  · obtain ⟨row', hrow', rfl⟩ := Option.map_eq_some_iff.1 hrec
    rw [hσ, hrow] at hrow'
    cases hrow'
    have hsaved : After (uploadService.completeUploadSession env room session_rec (toFile (f, row))
        body.totalChunks) (fun _ σ' => σ'.db.saved = σ.db.saved) σ :=
      After.unsaved (only_completeUploadSession (fun _ h => h) _ _ _ _) (by decide) fun _ _ h => h
    refine (After.bind_iff _ _ _).2 ((hsaved.and (returns_complete honly)).mono fun r σ₁ h => ?_)
    rcases r with e | confirmed
    · exact .inl h.1
    refine (After.bind_iff _ _ _).2 ((After.commit_iff _).2 ?_)
    refine (After.bind_iff _ _ _).2 (After.broadcast fun σ₂ hσ₂ => ?_)
    obtain ⟨_, _, _, rfl⟩ := hσ₂
    exact .inr (h.2 confirmed rfl)
  · exact fun _ => .inl rfl

end

end leftovers

open leftovers

/-- For every history of an upload and every operation by which its record stops being PENDING or
disappears: no part of it remains in storage exactly when the staged chunks are those that the
operation removes. -/
theorem ended_upload_leaves_no_part_iff {env : Env} {ρ f : ℕ} {w : World}
    {chunk : ℕ → Option Bytes} (h : Uploaded env ρ f w chunk) {row : FileRow}
    (hrow : w.db.committed .files f = some row) (hpending : row.status = .pending) (op : Ending)
    {p : ℕ} {r : Except Err Unit} {w' : World} (hr : calm.Runs p (op.program env ρ f) w r w')
    (hend : ∀ row', w'.db.committed .files f = some row' → row'.status ≠ .pending) :
    (∀ i, w'.storage.lookup (partKey row.storage_key i) = none) ↔ op.Removes chunk := by
  obtain ⟨hw, hstaged⟩ := h.staged
  have hs := hstaged row hrow hpending
  have halone := hw.alone p
  have hclean := Snapshot.rows_of_free (p := p) hw
  -- A record that is committed as before has not ended.
  have hchanged : (Serial.of p w').db.saved ≠ (Serial.of p w).db.saved := by
    intro hsaved
    exact hend row ((congrFun (congrFun hsaved _) _).trans hrow) hpending
  have hkept : (op.program env ρ f).Only Cmd.SparesParts →
      ((∀ i, w'.storage.lookup (partKey row.storage_key i) = none) ↔ ∀ i, chunk i = none) := by
    intro honly
    refine forall_congr' fun i => ?_
    rw [← hs.lookup i]
    exact Eq.congr_left ((after_sparesParts honly _ row.storage_key).of_runs hr halone i)
  cases op with
  | completeUploadSession room_token body request =>
    have hafter : After (discard (uploads.completeUploadSession env room_token f body request))
        (fun _ σ' => σ'.db.saved = (Serial.of p w).db.saved ∨
          ∀ i, σ'.rest.storage.lookup (partKey row.storage_key i) =
            if i < body.totalChunks then none
            else w.storage.lookup (partKey row.storage_key i)) (.of p w) :=
      (After.map_iff _ _ _).2 (leftovers.after_complete hclean hrow hs.only)
    have hlookup := (hafter.of_runs hr halone).resolve_left hchanged
    constructor
    · intro hnone i hi
      by_contra hn
      have hi' := hlookup i
      rw [if_neg hn] at hi'
      exact hi ((hs.lookup i).symm.trans (hi'.symm.trans (hnone i)))
    · intro hremoves i
      refine (hlookup i).trans ?_
      split
      · rfl
      · next hn =>
        by_contra hsome
        exact hn (hremoves i fun hc => hsome ((hs.lookup i).trans hc))
  | abortUploadSession room_token request =>
    have hafter := (after_abort hclean hrow).of_runs hr halone
    exact iff_of_true (hafter.resolve_left hchanged) trivial
  | expireUploadSession =>
    exact iff_of_true ((after_expire hclean hrow hpending).of_runs hr halone) trivial
  | sweepStalePending =>
    refine hkept (only_session trivial (only_bind sparesParts_sweepStalePending fun _ => ?_))
    exact (only_issue _).2 trivial
  | runRoomCleanup => exact hkept (sparesParts_runRoomCleanup (some ρ))
  | deleteRoom room_token request => exact hkept (sparesParts_deleteRoom env room_token request)

/-- The job that tears down a room leaves the chunk of a pending upload in storage. -/
theorem room_cleanup_leaves_part :
    (storedWorld.db.committed .files 0).map FileRow.status = some .pending ∧
    ∃ w', calm.Runs 0 (handlers.runRoomCleanup (some 0)) storedWorld (.ok ()) w' ∧
      w'.db.committed .files 0 = none ∧
      ¬∀ i, w'.storage.lookup (partKey (World.initial.uuids 0) i) = none := by
  obtain ⟨⟨⟩, -, hr⟩ := calm.exists_runs_ok 0 (handlers.runRoomCleanup (some 0)) storedWorld
    (fun a => a) (b := ()) (by decide)
  refine ⟨by decide, _, hr, by decide, fun h => ?_⟩
  have hkept : (calm.endWorld 0 (handlers.runRoomCleanup (some 0)) storedWorld).storage.lookup
      (partKey (World.initial.uuids 0) 0) = some [65] := by
    decide
  exact absurd ((h 0).symm.trans hkept) (by decide)

/-- An upload of one chunk that is aborted. -/
theorem ended_upload_leaves_no_part_iff_aborted :
    ∃ w', calm.Runs 0 (uploads.abortUploadSession .plain "a" 0 .owner) storedWorld (.ok ()) w' ∧
      ∀ i, w'.storage.lookup (partKey (World.initial.uuids 0) i) = none := by
  obtain ⟨⟨⟩, -, hr⟩ := calm.exists_runs_ok 0 (uploads.abortUploadSession .plain "a" 0 .owner)
    storedWorld (fun a => a) (b := ()) (by decide)
  have hgone : (calm.endWorld 0 (uploads.abortUploadSession .plain "a" 0 .owner)
      storedWorld).db.committed .files 0 = none := by
    decide
  refine ⟨_, hr, (ended_upload_leaves_no_part_iff uploaded_storedWorld storedRow rfl
    (.abortUploadSession "a" .owner) hr fun row' hrow' => ?_).2 trivial⟩
  rw [hgone] at hrow'
  cases hrow'

end DropRoom
