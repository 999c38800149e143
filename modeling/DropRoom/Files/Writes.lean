import DropRoom.App.Frames

/-!
# A chunk that is accepted

`PUT .../chunks/{index}` stores a chunk for any member of the room, as long as the upload is pending
and the chunk is in bounds (`Accepted`). It asks for no CSRF token, for no permission to upload, and
it does not look at the status of the room.
-/

namespace DropRoom

open Effect Store Prog uploadService

/-- The request stores the chunk: it comes from a member of the room of the upload, the limiter
admits it, the upload is pending, and the chunk is in bounds. -/
structure Accepted (env : Env) (room_token : Token) (upload_id index : ℤ)
    (body : Except Err Bytes) (request : Request) (σ : Serial) (rec_ : FileRecord) (chunk : Bytes) :
    Prop where
  member : ∃ session room, σ.member env room_token request = .ok (session, room) ∧
    rec_.room_id = room.id
  admitted : σ.Admits env "upload" (clientIp request) env.upload_limit
  file : σ.file upload_id = some rec_
  pending : rec_.status = .pending
  body : body = .ok chunk
  nonempty : chunk ≠ []
  index : 0 ≤ index ∧ index < 1000000
  length : chunk.length ≤ env.upload_chunk_size_bytes

/-- The request stores a chunk that is accepted. -/
def StoresChunk (env : Env) (route : Route) (request : Request) (σ : Serial) : Prop :=
  ∃ room_token upload_id index body rec_ chunk,
    route = .uploadChunk room_token upload_id index body ∧
      Accepted env room_token upload_id index body request σ rec_ chunk

section

variable {env : Env} {room_token : Token} {upload_id index : ℤ} {body : Except Err Bytes}
  {request : Request} {σ : Serial}

/-- The record that an `id` names. -/
theorem Serial.of_file {i : ℤ} {rec_ : FileRecord} (h : σ.file i = some rec_) :
    σ.db.rows .files rec_.id = some rec_.toFileRow ∧ (rec_.id : ℤ) = i := by
  cases i with
  | ofNat i =>
    obtain ⟨row, hrow, rfl⟩ := Option.map_eq_some_iff.1 h
    exact ⟨hrow, rfl⟩
  | negSucc i => cases h

/-- `get_file_by_id` answers the record with that number, or fails. -/
theorem Ends.getFileById {i : ℤ} {Q : Except Err (Option FileRecord) → Serial → Prop}
    (hok : Q (.ok (σ.file i)) σ) (herr : ∀ e, Q (.error e) σ) :
    Ends (fileRepository.getFileById i) Q σ := by
  have hsingle : σ.Single .files fun j _ => (j : ℤ) == i := by
    intro j k r r' _ hw _ hw'
    have hj : (j : ℤ) = i := by simpa using hw
    have hk : (k : ℤ) = i := by simpa using hw'
    omega
  have hfile : (σ.find .files fun j _ => (j : ℤ) == i).map toFile = σ.file i := by
    have hafter := (After.find_iff hsingle toFile fun r _ =>
      r = .ok ((σ.find .files fun j _ => (j : ℤ) == i).map toFile)).2 rfl
    exact (Except.ok.inj ((After.getFileById_iff i _).1 hafter)).symm
  refine .find hsingle _ ?_ herr
  rw [hfile]
  exact hok

/-- `_pending_session` answers a record of the room, or raises. -/
theorem Ends.pendingSession {room : Room} {Q : Except Err FileRecord → Serial → Prop}
    (hok : ∀ rec_, σ.file upload_id = some rec_ → rec_.room_id = room.id → Q (.ok rec_) σ)
    (herr : ∀ e, Q (.error e) σ) : Ends (uploads.pendingSession room upload_id) Q σ := by
  refine .bind (.getFileById ?_ herr)
  cases hfile : σ.file upload_id with
  | none => exact herr _
  | some rec_ => exact .require_bind (fun hid => hok rec_ hfile hid) fun _ => herr _

/-- A request whose chunk is not accepted changes neither the rows nor the storage. -/
theorem ends_uploadChunk_of_not (hu : UniqueColumns σ.db.rows)
    (h : ∀ rec_ chunk, ¬Accepted env room_token upload_id index body request σ rec_ chunk) :
    Ends (uploads.uploadChunk env room_token upload_id index body request) (fun _ σ' =>
      σ'.db.saved = σ.db.saved ∧ σ'.rest.storage = σ.rest.storage) σ := by
  refine .withSession (.bind (.requireMember hu (fun session room hmember => ?_)
    fun _ => ⟨rfl, rfl⟩))
  refine .bind (.limiter (fun hadmits σ' hσ' => ?_) fun _ σ' hσ' => ?_)
  · obtain ⟨_, _, _, rfl⟩ := hσ'
    refine .bind (.pendingSession (fun rec_ hrec hid => ?_) fun _ => ⟨rfl, rfl⟩)
    rcases body with e | chunk
    · exact ⟨rfl, rfl⟩
    · refine .require_bind (fun hne => ?_) fun _ => ⟨rfl, rfl⟩
      refine .require_bind (fun hindex => ?_) fun _ => ⟨rfl, rfl⟩
      refine .bind (.require_bind (fun hpending => ?_) fun _ => ⟨rfl, rfl⟩)
      refine .require_bind (fun _ => ?_) fun _ => ⟨rfl, rfl⟩
      refine .require_bind (fun hlength => ?_) fun _ => ⟨rfl, rfl⟩
      have haccepted : Accepted env room_token upload_id index (.ok chunk) request σ rec_ chunk :=
        ⟨⟨session, room, hmember, hid⟩, hadmits, hrec, hpending, rfl, hne, hindex, hlength⟩
      exact absurd haccepted (h rec_ chunk)
  · obtain ⟨_, _, _, rfl⟩ := hσ'
    exact ⟨rfl, rfl⟩

/-- A request whose chunk is accepted stores it and counts its bytes. -/
theorem after_uploadChunk (hu : UniqueColumns σ.db.rows) {rec_ : FileRecord} {chunk : Bytes}
    (h : Accepted env room_token upload_id index body request σ rec_ chunk) :
    After (uploads.uploadChunk env room_token upload_id index body request) (fun _ σ' =>
      σ'.db.saved .files rec_.id =
        some { rec_.toFileRow with size_bytes := rec_.size_bytes + chunk.length } ∧
      σ'.rest.storage = σ.rest.storage.insert (partKey rec_.storage_key index.toNat) chunk) σ := by
  obtain ⟨session, room, hmember, hid⟩ := h.member
  refine (After.withSession_iff _ _).2 ((After.bind_iff _ _ _).2 ?_)
  refine (After.requireMember_iff hu _).2 ?_
  rw [hmember]
  refine (After.bind_iff _ _ _).2 (After.limiter_of_admits h.admitted fun σ' hσ' => ?_)
  obtain ⟨_, _, _, rfl⟩ := hσ'
  refine (After.bind_iff _ _ _).2 ((After.pendingSession_iff _ _ _).2
    ⟨fun rec' hrec hid' => ?_, ?_⟩)
  swap
  · exact fun hnone => absurd hid (hnone rec_ h.file)
  obtain rfl : rec' = rec_ := Option.some.inj (hrec.symm.trans h.file)
  rw [h.body]
  refine (After.require_bind_iff _ _ _).2 ⟨fun _ => ?_, fun hno => absurd h.nonempty hno⟩
  refine (After.require_bind_iff _ _ _).2 ⟨fun _ => ?_, fun hno => absurd h.index hno⟩
  refine (After.bind_iff _ _ _).2 ?_
  unfold storeChunk
  refine (After.require_bind_iff _ _ _).2 ⟨fun _ => ?_, fun hno => absurd h.pending hno⟩
  refine (After.require_bind_iff _ _ _).2 ⟨fun _ => ?_, fun hno => absurd h.nonempty hno⟩
  refine (After.require_bind_iff _ _ _).2 ⟨fun _ => ?_, fun hno => absurd h.length hno⟩
  have hrow := (Serial.of_file h.file).1
  refine (After.bind_iff _ _ _).2 ((After.put_ok_iff _ _ _).2 ?_)
  refine (After.bind_iff _ _ _).2 ((After.fileFlush_iff ?_ ?_ _).2 ((After.pure_iff _).2 ?_))
  · exact hrow
  · rfl
  refine (After.bind_iff _ _ _).2 ((After.insert_iff _ _ _).2 ?_)
  refine (After.bind_iff _ _ _).2 ((After.commit_iff _).2 ?_)
  refine (After.bind_iff _ _ _).2 (After.broadcastProgress fun σ' hσ' => ?_)
  obtain ⟨_, _, _, rfl⟩ := hσ'
  refine (After.pure_iff _).2 ⟨?_, rfl⟩
  rw [Snapshot.saved_rollback, Snapshot.saved_commit, Snapshot.rows_add_of_table (by decide)]
  exact Snapshot.rows_set_self (σ.db.rows_lt _ _ _ hrow)

end

end DropRoom
