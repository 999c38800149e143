import DropRoom.Files.Writes
import DropRoom.Files.Chunks
import DropRoom.Rooms.Codes

/-!
# Requests without a CSRF token

Every endpoint that changes something asks for the CSRF token first, except the download, which
counts itself, and the one that stores a chunk. So a request without the token leaves everything
else as it is exactly when it is no chunk that is accepted.
-/

namespace DropRoom

open Effect Store Prog uploadService

namespace forgery

/-- What a request without a CSRF token must not change of a row: anything but the number of
downloads of a file. Audit events are not looked at. -/
def observed : (t : Table) → ℕ → Option (Row t) → Option (Row t)
  | .files, _, row => row.map fun r => { r with download_count := 0 }
  | .auditEvents, _, _ => none
  | .rooms, _, row => row
  | .sessions, _, row => row
  | .messages, _, row => row

/-- The stored objects, the rooms, sessions and messages are the same, and so are the file records
but for the number of their downloads. -/
def Preserved (w w' : World) : Prop :=
  (∀ t i, observed t i (w'.db.committed t i) = observed t i (w.db.committed t i)) ∧
    w'.storage = w.storage

section

variable {env : Env} {request : Request} {σ : Serial}

/-- What is committed after a request, as `Preserved` compares it. -/
def Preserves (σ σ' : Serial) : Prop :=
  (∀ t i, observed t i (σ'.db.saved t i) = observed t i (σ.db.saved t i)) ∧
    σ'.rest.storage = σ.rest.storage

/-- Nothing was committed and no object has changed. -/
theorem preserves_of_eq {σ' : Serial} (hsaved : σ'.db.saved = σ.db.saved)
    (hs : σ'.rest.storage = σ.rest.storage) : Preserves σ σ' :=
  ⟨fun _ _ => by rw [hsaved], hs⟩

/-- A request that only reads. -/
theorem ends_reads {α : Type} {body : Op α} (h : body.Only (Issued env [])) :
    Ends (withSession body) (fun _ σ' => Preserves σ σ') σ := by
  refine .withSession (.reads h fun r σ' hdb hs => preserves_of_eq ?_ hs)
  change σ'.db.saved = σ.db.saved
  rw [hdb]

/-- A request that is refused once it has read something. -/
theorem ends_refused {α β : Type} {prog : Op α} (h : prog.Only (Issued env [])) {f : α → Op β}
    (hf : ∀ a, ∃ e, f a = .raise e) :
    Ends (withSession (prog >>= f)) (fun _ σ' => Preserves σ σ') σ := by
  refine @ends_reads env σ _ _ (only_bind h fun a => ?_)
  obtain ⟨e, he⟩ := hf a
  rw [he]
  exact only_raise e

/-- The statements of a download change nothing that is observed. -/
theorem invisible_download : Invisible (Issued env [.countDownload, .newAudit, .commit, .close])
    observed where
  updateAt t i u r hc _ := by
    cases hc with
    | countDownload => rfl
    | _ => exact absurd ‹_ ∈ [Kind.countDownload, .newAudit, .commit, .close]› (by decide)
  deleteWhere t d i r hc _ := by
    cases hc with
    | _ => exact absurd ‹_ ∈ [Kind.countDownload, .newAudit, .commit, .close]› (by decide)
  insert t i r hc := by
    cases hc with
    | newAudit => rfl
    | _ => exact absurd ‹_ ∈ [Kind.countDownload, .newAudit, .commit, .close]› (by decide)

/-- A request without a CSRF token that stores no chunk. -/
theorem ends_of_not_csrf (hcsrf : ¬CsrfValid env request) (hσ : σ.db.rows = σ.db.saved)
    (hu : UniqueColumns σ.db.rows) (route : Route) (hchunk : ¬StoresChunk env route request σ) :
    Ends (route.handle env request) (fun _ σ' => Preserves σ σ') σ := by
  -- The check raises on every method but `GET`, whatever follows.
  have hcheck : ∀ {method : Method}, method ≠ .get → ∀ {β : Type} (f : Unit → Op β),
      ∃ e, validateCsrf env method request >>= f = .raise e := by
    intro method hm β f
    obtain ⟨detail, h⟩ := validateCsrf_of_not hcsrf hm
    exact ⟨_, by rw [h]; rfl⟩
  have hfirst : ∀ {method : Method}, method ≠ .get → ∀ {β : Type} (f : Unit → Op β),
      Ends (withSession (validateCsrf env method request >>= f))
        (fun _ σ' => Preserves σ σ') σ := by
    intro method hm β f
    obtain ⟨e, he⟩ := hcheck hm f
    rw [he]
    exact .withSession (preserves_of_eq rfl rfl)
  -- What stands before the check only reads.
  have hmember : ∀ room_token, (requireMember env room_token request).Only (Issued env []) :=
    fun room_token => only_requireMember room_token request
  have howner : ∀ room_token, (requireRoomOwner env room_token request).Only (Issued env []) :=
    fun room_token => only_requireRoomOwner room_token request
  cases route with
  -- The check comes first.
  | createRoom body => exact .map (hfirst (by rintro ⟨⟩) _)
  | joinRoom room_token body => exact .map (hfirst (by rintro ⟨⟩) _)
  | joinByCode room_code body => exact .map (hfirst (by rintro ⟨⟩) _)
  -- The check comes after the member, or the owner, has been found.
  | patchRoom room_token body =>
    refine .map (ends_refused (howner room_token) ?_)
    rintro ⟨session, room⟩
    exact hcheck (by rintro ⟨⟩) _
  | deleteRoom room_token =>
    refine ends_refused (howner room_token) ?_
    rintro ⟨session, room⟩
    exact hcheck (by rintro ⟨⟩) _
  | upload room_token filename content_type chunks =>
    refine .map (ends_refused (hmember room_token) ?_)
    rintro ⟨session, room⟩
    exact hcheck (by rintro ⟨⟩) _
  | deleteFile room_token file_id =>
    refine .map (ends_refused (hmember room_token) ?_)
    rintro ⟨session, room⟩
    exact hcheck (by rintro ⟨⟩) _
  | createUploadSession room_token body =>
    refine .map (ends_refused (hmember room_token) ?_)
    rintro ⟨session, room⟩
    exact hcheck (by rintro ⟨⟩) _
  | completeUploadSession room_token upload_id body =>
    refine .map (ends_refused (hmember room_token) ?_)
    rintro ⟨session, room⟩
    exact hcheck (by rintro ⟨⟩) _
  | abortUploadSession room_token upload_id =>
    refine ends_refused (hmember room_token) ?_
    rintro ⟨session, room⟩
    exact hcheck (by rintro ⟨⟩) _
  | deleteMessage room_token message_id =>
    refine .map (ends_refused (hmember room_token) ?_)
    rintro ⟨session, room⟩
    exact hcheck (by rintro ⟨⟩) _
  -- Nothing is checked, and nothing is written.
  | getRoom room_token =>
    refine .map (@ends_reads env σ _ _ ?_)
    exact only_bind (only_getRoomByToken _) fun room => only_bind only_utcnow fun _ => only_pure _
  | listFiles room_token =>
    refine .map (@ends_reads env σ _ _ (only_bind (hmember room_token) ?_))
    rintro ⟨session, room⟩
    exact only_bind (only_bind (only_select _ _) fun _ => only_pure _) fun _ => only_pure _
  | getUploadStatus room_token upload_id =>
    refine .map (@ends_reads env σ _ _ (only_bind (hmember room_token) ?_))
    rintro ⟨session, room⟩
    exact only_pendingSession _ _
  | listMessages room_token =>
    refine .map (@ends_reads env σ _ _ (only_bind (hmember room_token) ?_))
    rintro ⟨session, room⟩
    exact only_bind (only_listRoomMessages _ _) fun _ => only_pure _
  -- A download counts itself and is audited, in columns that no answer shows.
  | download room_token file_id =>
    have honly : (files.download env room_token file_id request).Only
        (Issued env [.countDownload, .newAudit, .commit, .close]) :=
      only_download room_token file_id
    refine .map ((Ends.frame honly invisible_download hσ fun r σ' h => h).and
      (Ends.unstored honly (by decide) (by decide) fun r σ' h => h) |>.mono fun r σ' h => h)
  -- No check at all: the condition says that no part is stored.
  | uploadChunk room_token upload_id index body =>
    refine .map ((ends_uploadChunk_of_not hu fun rec_ chunk h => hchunk ?_).mono fun r σ' h => ?_)
    · exact ⟨room_token, upload_id, index, body, rec_, chunk, rfl, h⟩
    · exact preserves_of_eq h.1 h.2

/-- A chunk that is accepted grows the size of its record. -/
theorem after_of_storesChunk (hσ : σ.db.rows = σ.db.saved) (hu : UniqueColumns σ.db.rows) {route}
    (h : StoresChunk env route request σ) :
    After (route.handle env request) (fun _ σ' => ¬Preserves σ σ') σ := by
  obtain ⟨room_token, upload_id, index, body, rec_, chunk, rfl, haccepted⟩ := h
  refine (Prog.wp_map _ _ _ _).2 ?_
  refine (after_uploadChunk hu haccepted).mono fun r σ' hstored hsame => ?_
  have hfile := hsame.1 .files rec_.id
  rw [hstored.1, ← hσ, (Serial.of_file haccepted.file).1] at hfile
  have hsize := congrArg FileRow.size_bytes (Option.some.inj hfile)
  have hpos := List.length_pos_of_ne_nil haccepted.nonempty
  change rec_.size_bytes + chunk.length = rec_.size_bytes at hsize
  omega

end

end forgery

open forgery

/-- A request without a CSRF token leaves the stored objects, the rooms, sessions and messages, and
the file records but for the number of their downloads as they are, whatever fails in it, exactly
when it is no chunk that is accepted. -/
theorem csrf_protection {env : Env} {request : Request} {w : World} (hfree : w.db.Free)
    (hu : UniqueColumns w.db.committed) (hcsrf : ¬CsrfValid env request) (p : ℕ) (route : Route) :
    (∀ r w', server.Runs p (route.handle env request) w r w' → Preserved w w') ↔
      ¬StoresChunk env route request (.of p w) := by
  have hclean : (Serial.of p w).db.rows = (Serial.of p w).db.saved := Snapshot.rows_of_free hfree
  have hu' : UniqueColumns (Serial.of p w).db.rows := hclean ▸ hu
  have halone := hfree.alone p
  refine ⟨fun hall hstores => ?_, fun hno r w' hr => ?_⟩
  · have hkinds : Kind.dequeue ∉ route.kinds := by
      obtain ⟨_, _, _, _, _, _, rfl, -⟩ := hstores
      simp [Route.kinds]
    obtain ⟨r, w', hr⟩ := calm_exists_runs (@Route.only_handle env request route) hkinds halone
    exact (after_of_storesChunk hclean hu' hstores).of_runs hr halone
      (hall r w' (server_of_calm hr))
  · exact (ends_of_not_csrf hcsrf hclean hu' route hno).of_runs hr halone

namespace forgery

/-- The cookie of the owner, sent by another site. -/
def forged : Request := { Request.owner with csrf_cookie := none, x_csrf_token := none }

end forgery

/-- A forged request to delete the room changes nothing. -/
theorem csrf_protection_deleteRoom : ∃ r w',
    server.Runs 0 (Route.handle .plain forged (.deleteRoom "a")) .owned r w' ∧
      Preserved .owned w' := by
  have hr := calm.runs_error 0 (Route.handle .plain forged (.deleteRoom "a")) World.owned
    (e := error .csrfValidationFailed "CSRF token missing") (by decide)
  have hu : UniqueColumns World.owned.db.committed :=
    World.holding_unique (by decide) (by decide) (by decide)
  refine ⟨_, _, server_of_calm hr, (csrf_protection World.holding_free hu (fun h => ?_) 0 _).2 ?_ _ _
    (server_of_calm hr)⟩
  · obtain ⟨_, hcookie, -⟩ := h
    cases hcookie
  · rintro ⟨_, _, _, _, _, _, ⟨⟩, -⟩

/-- A forged request stores a chunk of an upload that the owner has begun. -/
theorem forged_chunk_is_stored : ∃ r w',
    server.Runs 0 (Route.handle .plain forged (.uploadChunk "a" 0 0 (.ok [65])))
      chunks.createdWorld r w' ∧
    chunks.createdWorld.storage.lookup (partKey (chunks.createdWorld.uuids 0) 0) = none ∧
    w'.storage.lookup (partKey (chunks.createdWorld.uuids 0) 0) = some [65] ∧
    (∃ session, (Serial.of 0 chunks.createdWorld).session .plain forged = .ok session) ∧
    ¬CsrfValid .plain forged ∧ ¬Preserved chunks.createdWorld w' := by
  obtain ⟨r, hr⟩ := calm.exists_runs_endWorld 0
    (Route.handle .plain forged (.uploadChunk "a" 0 0 (.ok [65]))) chunks.createdWorld (by decide)
  have hbefore : chunks.createdWorld.storage.lookup
      (partKey (chunks.createdWorld.uuids 0) 0) = none := by
    decide
  have hafter : (calm.endWorld 0 (Route.handle .plain forged (.uploadChunk "a" 0 0 (.ok [65])))
      chunks.createdWorld).storage.lookup (partKey (chunks.createdWorld.uuids 0) 0) =
        some [65] := by
    decide
  have hcookie : (Serial.of 0 chunks.createdWorld).session .plain forged =
      .ok (toSession (0, .owner)) := by
    rfl
  refine ⟨r, _, server_of_calm hr, hbefore, hafter, ⟨_, hcookie⟩, ?_, fun hsame => ?_⟩
  · rintro ⟨_, hcookie, -⟩
    cases hcookie
  · rw [hsame.2, hbefore] at hafter
    cases hafter

end DropRoom
