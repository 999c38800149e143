import DropRoom.Files.Completion
import DropRoom.Files.Owing

/-!
# Uploads against a teardown

`upload_file`, `complete_upload_session` and `cleanup_room` keep to the protocol of `Owing`, so that
every object of an upload has somebody who is to delete it or to commit its record. In every run in
which PostgreSQL aborts no `_claim_quota` as the victim of a deadlock, a room that is DELETED in the end
has no file record and no object. Without that condition it may keep an object: the `INSERT` of
`upload_file` has locked the row of its session against deletion, so a teardown waits for it while the
claim waits for the teardown, and the claim is not under the handler that deletes the object.
-/

namespace DropRoom

open Effect Store uploadService

namespace latecomer

/-! ## The programs keep to the protocol -/

section

variable {α : Type} {env : Env} {ρ : ℕ} {st : Stage} {row : RoomRow} {actor : SessionRecord}

/-- Whoever has been answered as nobody can be is not watched any more. -/
theorem sink : (monitor env ρ).Sink .broken :=
  ⟨.broken, fun c x => next_eq (fun _ => by cases c <;> rfl) (by cases c <;> rfl)⟩

/-- What a program must end in: nothing broken, and `Q`. -/
abbrev Ends (env : Env) (ρ : ℕ) (prog : Op α) (Q : Except Err α → Stage → Prop) (st : Stage) :
    Prop :=
  prog.wp (monitor env ρ).trans (Monitor.orSink .broken Q) st

/-- Telling the sockets of the room, in no transaction. -/
theorem tell_wp {prog : Op α} (h : prog.Only Cmd.Tells) {Q : Except Err α → Stage → Prop}
    (hQ : ∀ x, Q x .idle) : Ends env ρ prog Q .idle := by
  have hwp := h.wp (M := monitor env ρ) (I := fun s => s = .idle) (l := .idle) ?_ rfl
  · refine Prog.wp_mono (monitor env ρ).trans_monotone (fun x s hs => ?_) hwp
    exact .inr (hs ▸ hQ x)
  · rintro c s hc rfl
    cases c with
    | items ch => exact ⟨.look (.items ch), fun _ => next_eq (fun _ => rfl) rfl⟩
    | socketsOf ch sid ident =>
      exact ⟨.look (.socketsOf ch sid ident), fun _ => next_eq (fun _ => rfl) rfl⟩
    | sendJson ws event =>
      exact ⟨.look (.sendJson ws event fun _ => by decide), fun _ => next_eq (fun _ => rfl) rfl⟩
    | _ => exact hc.elim

/-- A command that leads to one stage, or ends the program. -/
theorem then_wp {c : Cmd} {f : Resp c → Op α} {Q : Except Err α → Stage → Prop} {t : Stage}
    (ha : Allowed env ρ st c) (hok : ∀ a, after ρ st c a = t)
    (herr : failed st c = .broken ∨ ∀ e, Q (.error e) (failed st c))
    (hf : ∀ a, Ends env ρ (f a) Q t) : Ends env ρ (issue c >>= f) Q st := by
  refine wp_then sink ha (fun a => .inr ?_) fun e => ?_
  · rw [show (monitor env ρ).next st c (.ok a) = t from hok a]
    exact hf a
  · exact herr.imp id fun h => h e

/-- A check that ends the program where it fails. -/
theorem require_wp {b : Prop} [Decidable b] {e : Err} {f : Unit → Op α}
    {Q : Except Err α → Stage → Prop} (hf : b → Ends env ρ (f ()) Q st) (he : Q (.error e) st) :
    Ends env ρ (Prog.require b e >>= f) Q st :=
  (Prog.wp_require_bind _ _ _ _ _).2 ⟨hf, fun _ => .inr he⟩

/-- Deleting objects where that is always allowed. -/
theorem deleteAll_wp {t : Stage} (ha : ∀ key, Allowed env ρ t (.deleteObject key))
    (hn : ∀ key, after ρ t (.deleteObject key) () = t)
    (he : ∀ key, failed t (.deleteObject key) = .broken) (keys : List Key) :
    Ends env ρ (keys.forM storage.delete) (fun x s => s = t ∧ x = .ok ()) t := by
  induction keys with
  | nil => exact .inr ⟨rfl, rfl⟩
  | cons key keys ih => exact then_wp (ha key) (fun _ => hn key) (.inl (he key)) fun _ => ih

/-- Claiming the quota, for one that has written its object. -/
theorem claim_wp {r : Rec} {n : ℕ} {f : Bool → Op α} {Q : Except Err α → Stage → Prop}
    (htrue : Ends env ρ (f true) Q (.claimed r)) (hfalse : Ends env ρ (f false) Q (.wrote r)) :
    Ends env ρ (claimQuota env ρ n >>= f) Q (.wrote r) := by
  refine wp_then sink (.claim r n) (fun ok => .inr ?_) fun e => .inl rfl
  cases ok with
  | true => exact htrue
  | false => exact hfalse

/-- Confirming the record. -/
theorem flush_wp {r : Rec} {loaded new : FileRecord} (hid : loaded.id = r.id)
    (hpending : loaded.status = .pending) (hconfirmed : new.status = .confirmed) :
    Ends env ρ (fileRepository.flush loaded new) (fun x s => s = .confirmed r ∧ x = .ok ())
      (.claimed r) := by
  unfold fileRepository.flush
  split
  · next h =>
    have hs := congrArg FileRow.status h
    rw [hpending, hconfirmed] at hs
    cases hs
  · have ha : Allowed env ρ (.claimed r)
        (.sql (.updateAt .files loaded.id (.flush loaded.toFileRow new.toFileRow))) := by
      rw [hid]
      exact .confirm r _ _
    refine wp_then sink ha (fun updated => ?_) fun e => .inl rfl
    cases updated with
    | true => exact .inr (.inr ⟨rfl, rfl⟩)
    | false => exact .inl rfl

/-- The stages in which a request may end before its database session is closed. -/
def Stage.Last : Stage → Prop
  | .idle | .ready _ | .refused _ => True
  | _ => False

/-- Closing the database session. -/
theorem session_wp {body : Op α} (h : Ends env ρ body (fun _ s => s.Last) st) :
    Ends env ρ (discard (withSession body)) (fun _ s => s = .idle) st := by
  refine (Prog.wp_map _ _ _ _).2 (wp_withSession (monitor env ρ).trans_monotone ?_)
  refine Prog.wp_mono (monitor env ρ).trans_monotone ?_ h
  have hidle : ∀ s : Stage, s.Last → Allowed env ρ s (.sql .rollback) ∧
      ∀ x, next ρ s (.sql .rollback) x = .idle := by
    intro s hs
    cases s with
    | idle => exact ⟨.look (.close (by decide)), fun _ => next_eq (fun _ => rfl) rfl⟩
    | ready r => exact ⟨.leave r, fun _ => next_eq (fun _ => rfl) rfl⟩
    | refused own => exact ⟨.refuse own, fun _ => next_eq (fun _ => rfl) rfl⟩
    | _ => exact hs.elim
  rintro x s (rfl | hs)
  · exact ⟨.broken _, by rintro (e | u) <;> cases x <;> exact .inl rfl⟩
  · obtain ⟨ha, hn⟩ := hidle s hs
    refine ⟨ha, ?_⟩
    rintro (e | u)
    · have herr := hn (.error e)
      cases x <;> exact .inr herr
    · have hok := hn (.ok u)
      cases x <;> exact .inr hok

/-! ### Uploads in one request -/

/-- What `_source` yields does not exceed the maximum size. -/
theorem drain_le {chunks : fileService.Source} {total n : ℕ} {data : Bytes}
    (h : fileService.drain env total chunks = .ok (data, n)) (ht : total ≤ env.max_file_size_bytes) :
    n ≤ env.max_file_size_bytes := by
  induction chunks generalizing total data with
  | nil =>
    cases h
    exact ht
  | cons chunk chunks ih =>
    cases chunk with
    | error e => cases h
    | ok chunk =>
      simp only [fileService.drain] at h
      split_ifs at h with hlarge
      split at h
      · next data' n' hd =>
        cases h
        exact ih hd (by omega)
      · cases h

/-- Storing the chunks writes the object, or ends without it. -/
theorem putSource_wp {r : Rec} {chunks : fileService.Source} :
    Ends env ρ (fileService.putSource env r.key chunks)
      (fun x s => match x with
        | .ok (_, total) => s = .wrote r ∧ total ≤ env.max_file_size_bytes
        | .error _ => s = .ready r) (.ready r) := by
  unfold fileService.putSource
  cases fileService.anext chunks with
  | error e => exact .inr rfl
  | ok a =>
    obtain ⟨first, chunks⟩ := a
    dsimp only
    refine require_wp (fun hfirst => ?_) rfl
    cases hd : fileService.drain env first.length chunks with
    | error e =>
      exact wp_then sink (.write r _) (fun _ => .inl rfl) fun e => .inr rfl
    | ok a =>
      obtain ⟨data, total⟩ := a
      exact wp_then sink (.write r _) (fun _ => .inr (.inr ⟨rfl, drain_le hd hfirst⟩))
        fun e => .inl rfl

/-- `_cleanup_failed_upload` deletes the object and the record. -/
theorem cleanupFailedUpload_wp {id : ℕ} {key : Uuid} {f : Unit → Op α}
    {Q : Except Err α → Stage → Prop}
    (hst : st = .ready ⟨id, key, true⟩ ∨ st = .wrote ⟨id, key, true⟩)
    (hidle : ∀ e, Q (.error e) .idle) (hf : Ends env ρ (f ()) Q (.refused (some id))) :
    Ends env ρ (fileService.cleanupFailedUpload id key >>= f) Q st := by
  unfold fileService.cleanupFailedUpload
  simp only [bind_assoc, pure_bind]
  have hdrop : Ends env ρ (fileRepository.deleteRecord id >>= fun _ => f ()) Q
      (.refused (some id)) :=
    then_wp (t := .refused (some id)) (.dropRecord id) (fun _ => rfl) (.inr hidle) fun _ => hf
  rcases hst with rfl | rfl
  · exact wp_then sink (.giveUp (r := ⟨id, key, true⟩) rfl) (fun _ => .inr hdrop)
      fun _ => .inl rfl
  · exact wp_then sink (.undo ⟨id, key, true⟩) (fun _ => .inr hdrop) fun _ => .inl rfl

/-- `upload_file` ends with the record confirmed, or has deleted its object. -/
theorem uploadFile_wp (filename content_type : Option String) (chunks : fileService.Source) :
    Ends env ρ (fileService.uploadFile env (toRoom (ρ, row)) actor filename content_type chunks)
      (fun x s => match x with
        | .ok _ => ∃ r, s = .confirmed r
        | .error _ => s.Last) .idle := by
  unfold fileService.uploadFile fileService.authorizeUpload
  rw [bind_assoc]
  refine require_wp (fun _ => require_wp (fun _ => ?_) trivial) trivial
  refine then_wp (t := .idle) (.look .uuid4) (fun _ => rfl) (.inr fun _ => trivial) fun key => ?_
  unfold fileRepository.createFileRecord
  simp only [bind_assoc]
  refine then_wp (t := .idle) (.look .utcnow) (fun _ => rfl) (.inr fun _ => trivial) fun now => ?_
  refine wp_then sink (.newFile rfl) (fun id => .inr ?_) fun e => .inr trivial
  change Ends env ρ _ _ (.ready ⟨id, key, true⟩)
  rw [pure_bind]
  refine sink.bind (P := fun x s => match x with
      | .ok a => s = .wrote ⟨id, key, true⟩ ∧ a.2 ≤ env.max_file_size_bytes
      | .error _ => s.Last) ?_ ?_ ?_
  · refine sink.tryCatch (putSource_wp (r := ⟨id, key, true⟩)) ?_ ?_
    · rintro ⟨first, total⟩ s hs
      exact .inr hs
    · rintro e s rfl
      refine cleanupFailedUpload_wp (.inl rfl) (fun _ => trivial) ?_
      cases e <;> exact .inr trivial
  · rintro ⟨first, total⟩ s ⟨rfl, htotal⟩
    refine (Prog.wp_require_bind _ _ _ _ _).2 ⟨fun _ => ?_, fun h => absurd htotal h⟩
    refine claim_wp ?_ ?_
    · rw [if_pos rfl]
      refine sink.bind (flush_wp rfl rfl rfl) ?_ ?_
      · rintro _ s ⟨rfl, -⟩
        exact wp_then sink (.audit _ rfl) (fun _ => .inr (.inr ⟨_, rfl⟩)) fun _ => .inl rfl
      · rintro e s ⟨-, hx⟩
        cases hx
    · exact cleanupFailedUpload_wp (.inr rfl) (fun _ => trivial) (.inr trivial)
  · exact fun e s hs => .inr hs

/-! ### Completions -/

/-- The record that a request completes, as the monitor has it. -/
def loadedRec (i : ℕ) (file : FileRow) : Rec := ⟨i, file.storage_key, false⟩

/-- Reading the parts. -/
theorem merged_wp {r : Rec} (keys : List Key) :
    Ends env ρ (merged keys) (fun x s => s = .ready r ∧ ∃ data, x = .ok data) (.ready r) := by
  induction keys with
  | nil => exact .inr ⟨rfl, _, rfl⟩
  | cons key keys ih =>
    refine wp_then sink (.readPart r key) (fun part => .inr (sink.bind ih ?_ ?_)) fun e => .inl rfl
    · rintro rest s ⟨rfl, -⟩
      exact .inr ⟨rfl, _, rfl⟩
    · rintro e s ⟨-, data, hx⟩
      cases hx

/-- Assembling the object. -/
theorem assemble_wp {r : Rec} (parts : List Key) :
    Ends env ρ (assemble r.key parts) (fun x s => s = .wrote r ∧ ∃ a, x = .ok a) (.ready r) := by
  refine sink.bind (merged_wp parts) ?_ ?_
  · rintro data s ⟨rfl, -⟩
    refine wp_then sink (.write r _) (fun total => .inr ?_) fun e => .inl rfl
    exact wp_then sink (.readBack r _) (fun stream => .inr (.inr ⟨rfl, _, rfl⟩)) fun e => .inl rfl
  · rintro e s ⟨-, a, hx⟩
    cases hx

/-- Deleting the object of a record that was loaded. -/
theorem undo_wp {i : ℕ} {file : FileRow} {f : Unit → Op α} {Q : Except Err α → Stage → Prop}
    (hf : Ends env ρ (f ()) Q (.refused none)) :
    Ends env ρ (storage.delete file.storage_key.text >>= f) Q (.wrote (loadedRec i file)) :=
  wp_then sink (.undo (loadedRec i file)) (fun _ => .inr hf) fun _ => .inl rfl

/-- The end of `complete_upload_session`: the record is confirmed, or the object is deleted. -/
def Completed (x : Except Err FileRecord) (s : Stage) : Prop :=
  match x with
  | .ok _ => ∃ r, s = .confirmed r
  | .error _ => s.Last

/-- Claiming the quota and confirming the record. -/
theorem confirmUpload_wp {i : ℕ} {file : FileRow} (hpending : file.status = .pending)
    (parts : List Key) (total : ℕ) (first : Bytes) :
    Ends env ρ (confirmUpload env (toRoom (ρ, row)) (toFile (i, file)) parts total first) Completed
      (.wrote (loadedRec i file)) := by
  unfold confirmUpload
  refine claim_wp ?_ ?_
  · rw [if_pos rfl]
    refine sink.bind (flush_wp (r := loadedRec i file) rfl hpending rfl) ?_ ?_
    · rintro _ s ⟨rfl, -⟩
      refine wp_then sink (.audit _ rfl) (fun _ => .inr ?_) fun e => .inl rfl
      refine sink.bind (deleteAll_wp (t := .confirmed (loadedRec i file)) (.deletePart _)
        (fun _ => rfl) (fun _ => rfl) parts) ?_ ?_
      · rintro _ s ⟨rfl, -⟩
        exact .inr ⟨_, rfl⟩
      · rintro e s ⟨-, hx⟩
        cases hx
    · rintro e s ⟨-, hx⟩
      cases hx
  · refine undo_wp (sink.bind (deleteAll_wp (t := .refused none) (.deleteRest none)
      (fun _ => rfl) (fun _ => rfl) parts) ?_ ?_)
    · rintro _ s ⟨rfl, -⟩
      exact .inr trivial
    · rintro e s ⟨-, hx⟩
      cases hx

/-- `complete_upload_session` once the parts are known. -/
theorem assembleUpload_wp {i : ℕ} {file : FileRow} (hpending : file.status = .pending)
    (parts : List Key) :
    Ends env ρ (assembleUpload env (toRoom (ρ, row)) (toFile (i, file)) parts) Completed
      (.ready (loadedRec i file)) := by
  refine sink.bind (P := fun x s => s = .wrote (loadedRec i file) ∧ ∃ a, x = .ok a) ?_ ?_ ?_
  · refine sink.tryCatch (assemble_wp (r := loadedRec i file) parts) (fun a s h => .inr h) ?_
    rintro e s ⟨-, a, hx⟩
    cases hx
  · rintro ⟨total, first⟩ s ⟨rfl, -⟩
    dsimp only
    split
    · exact undo_wp (.inr trivial)
    · split
      · exact undo_wp (.inr trivial)
      · exact confirmUpload_wp hpending parts total first
  · rintro e s ⟨-, a, hx⟩
    cases hx

/-- `complete_upload_session` of a record of the room. -/
theorem completeUploadSession_wp (i : ℕ) (file : FileRow) (n : ℕ) :
    Ends env ρ (uploadService.completeUploadSession env (toRoom (ρ, row)) actor (toFile (i, file)) n)
      Completed (.ready (loadedRec i file)) := by
  unfold uploadService.completeUploadSession authorizeChunkedUpload
  rw [bind_assoc]
  refine require_wp (fun _ => require_wp (fun _ => require_wp (fun _ => ?_) trivial) trivial) trivial
  refine require_wp (fun hpending => ?_) trivial
  refine wp_then sink (.listParts _ _) (fun keys => .inr ?_) fun e => .inl rfl
  exact require_wp (fun _ => assembleUpload_wp hpending _) trivial

/-! ### Teardowns -/

/-- Deleting the objects that were listed. -/
theorem deleteListed_wp (todo : List Uuid) :
    Ends env ρ (todo.forM fun key => storage.delete key.text)
      (fun x s => s = .listed [] ∧ x = .ok ()) (.listed todo) := by
  induction todo with
  | nil => exact .inr ⟨rfl, rfl⟩
  | cons key todo ih =>
    exact wp_then sink (.deleteListed key todo) (fun _ => .inr ih) fun _ => .inl rfl

/-- Deleting the rows of another table. -/
theorem dropRows_wp {t : Table} {d : Del t} {f : ℕ → Op α} {Q : Except Err α → Stage → Prop}
    (ht : t ≠ .files) (hidle : ∀ e, Q (.error e) .idle) (hf : ∀ n, Ends env ρ (f n) Q .wiped) :
    Ends env ρ (deleteWhere t d >>= f) Q .wiped :=
  wp_then sink (.dropRows d ht) (fun n => .inr (hf n)) fun e => .inr (hidle e)

/-- `_delete_content` deletes the objects of all records that are committed, and the records. -/
theorem deleteContent_wp :
    Ends env ρ (cleanupService.deleteContent ρ)
      (fun x s => match x with
        | .ok _ => s = .wiped
        | .error _ => s = .idle) .deleting := by
  unfold cleanupService.deleteContent fileRepository.listRoomStorageKeys
  rw [bind_assoc]
  refine wp_then sink .list (fun rows => .inr ?_) fun e => .inr rfl
  rw [pure_bind]
  refine sink.bind (deleteListed_wp (rows.map fun r => r.2.storage_key)) ?_ ?_
  · rintro _ s ⟨rfl, -⟩
    refine wp_then sink .dropRecords (fun _ => .inr ?_) fun e => .inr rfl
    refine dropRows_wp (by decide) (fun _ => rfl) fun _ => ?_
    refine dropRows_wp (by decide) (fun _ => rfl) fun _ => ?_
    exact dropRows_wp (by decide) (fun _ => rfl) fun _ => .inr rfl
  · rintro e s ⟨-, hx⟩
    cases hx

/-- `cleanup_room` marks the room as DELETED, or does nothing. -/
theorem cleanupRoom_wp :
    Ends env ρ (cleanupService.cleanupRoom (toRoom (ρ, row)))
      (fun x s => s = .idle ∨ s = .marked ∧ x = .ok true) .idle := by
  have hmark : Ends env ρ (do
      cleanupService.deleteContent ρ
      let _ ← roomRepository.markRoomDeleted ρ
      pure true : Op Bool) (fun x s => s = .idle ∨ s = .marked ∧ x = .ok true) .deleting := by
    refine sink.bind deleteContent_wp ?_ ?_
    · rintro _ s rfl
      refine wp_then sink .markDeleted (fun ok => ?_) fun e => .inr (.inl rfl)
      cases ok with
      | true => exact .inr (.inr (.inr ⟨rfl, rfl⟩))
      | false => exact .inl rfl
    · rintro e s rfl
      exact .inr (.inl rfl)
  -- A room that is not expired is left alone.
  have hidle : Ends env ρ (do
      if ← roomRepository.markRoomDeleting ρ then
        cleanupService.deleteContent ρ
        let _ ← roomRepository.markRoomDeleted ρ
        pure true
      else
        pure false : Op Bool) (fun x s => s = .idle ∨ s = .marked ∧ x = .ok true) .idle := by
    refine wp_then sink .markDeleting (fun ok => .inr ?_) fun e => .inr (.inl rfl)
    cases ok with
    | true => exact hmark
    | false => exact .inr (.inl rfl)
  unfold cleanupService.cleanupRoom
  split
  -- A room that this task has marked expired is there to be marked deleting.
  · refine wp_then sink .markExpired (fun ok => .inr ?_) fun e => .inr (.inl rfl)
    cases ok with
    | true =>
      refine wp_then sink .goOn (fun ok => ?_) fun e => .inr (.inl rfl)
      cases ok with
      | true => exact .inr hmark
      | false => exact .inl rfl
    | false => exact hidle
  · exact hidle

end

/-! ## Runs -/

/-- `POST /rooms/{room_token}/files` after the checks of the request. -/
def uploadAs (env : Env) (session_rec : SessionRecord) (room : Room)
    (filename content_type : Option String) (chunks : fileService.Source) : Op FileView := do
  let rec_ ← fileService.uploadFile env room session_rec filename content_type chunks
  commit
  let view := fileView rec_ session_rec.display_name
  broadcast (wsChannel room) (.fileUploadCompleted view) []
  pure view

/-- The endpoint goes on with `uploadAs` after its checks. -/
theorem upload_eq (env : Env) (room_token : Token) (filename content_type : Option String)
    (chunks : fileService.Source) (request : Request) :
    files.upload env room_token filename content_type chunks request = withSession (do
      let (session_rec, room) ← requireMember env room_token request
      validateCsrf env .post request
      limiterCheck env "upload" (request.client_host.getD "unknown") env.upload_limit
      uploadAs env session_rec room filename content_type chunks) := rfl

/-- `cleanup_room` with the commit of its caller, who tells the room in the end if `tell` says so. -/
def cleanupAs (tell : Bool → Bool) (room : Room) : Op Unit := do
  let changed ← cleanupService.cleanupRoom room
  commit
  if tell changed then broadcast (wsChannel room) .roomExpired []

/-- The job `ROOM_CLEANUP` goes on with `cleanupAs` once it has found its room. -/
theorem runRoomCleanup_eq (room_id : ℕ) :
    handlers.runRoomCleanup (some room_id) = withSession (do
      match ← roomRepository.getRoomById room_id with
      | none => pure ()
      | some room => if room.status = .deleted then pure () else cleanupAs id room) := rfl

/-- `DELETE /rooms/{room_token}` goes on with `cleanupAs` after its checks. -/
theorem deleteRoom_eq (env : Env) (room_token : Token) (request : Request) :
    rooms.deleteRoom env room_token request = withSession (do
      let (_, room) ← requireRoomOwner env room_token request
      validateCsrf env .delete request
      cleanupAs (fun _ => true) room) := rfl

/-- What a process does with the room, whose row it has read at some time. -/
inductive Work
  | upload (row : RoomRow) (actor : SessionRecord) (filename content_type : Option String)
      (chunks : fileService.Source)
  | complete (row : RoomRow) (actor : SessionRecord) (upload_id : ℤ)
      (body : uploads.UploadSessionComplete)
  | cleanup (row : RoomRow) (tell : Bool → Bool)

/-- The program of a process. -/
def Work.program (env : Env) (ρ : ℕ) : Work → Op Unit
  | .upload row actor filename content_type chunks =>
    discard (withSession (uploadAs env actor (toRoom (ρ, row)) filename content_type chunks))
  | .complete row actor upload_id body =>
    discard (withSession (uploads.completeAs env actor (toRoom (ρ, row)) upload_id body))
  | .cleanup row tell => discard (withSession (cleanupAs tell (toRoom (ρ, row))))

section

variable {α : Type} {env : Env} {ρ : ℕ}

/-- A request that has confirmed its record commits and tells the room. -/
theorem finish_wp {r : Rec} (room : Room) (file : FileRecord) (name : Option String) :
    Ends env ρ (do
      commit
      broadcast (wsChannel room) (.fileUploadCompleted (fileView file name)) []
      pure (fileView file name) : Op FileView) (fun _ s => s.Last) (.confirmed r) := by
  refine wp_then sink (.publish r) (fun _ => .inr ?_) fun e => .inl rfl
  exact tell_wp (Prog.only_bind (broadcast_tells _ _ _) fun _ => only_pure _) fun _ => trivial

/-- Every process keeps to the protocol. -/
theorem Work.program_wp (work : Work) :
    Ends env ρ (work.program env ρ) (fun _ s => s = .idle) .idle := by
  cases work with
  | upload row actor filename content_type chunks =>
    refine session_wp (sink.bind (uploadFile_wp filename content_type chunks) ?_ ?_)
    · rintro file s ⟨r, rfl⟩
      exact finish_wp _ _ _
    · exact fun e s hs => .inr hs
  | complete row actor upload_id body =>
    refine session_wp ?_
    unfold uploads.completeAs uploads.pendingSession fileRepository.getFileById
    simp only [bind_assoc]
    refine wp_then sink (.look (.select _ _)) (fun rows => .inr ?_) fun e => .inr trivial
    change Ends env ρ _ _ (found ρ rows)
    -- The lookup may find no record, or one of another room: nothing is written then.
    rcases rows with _ | ⟨⟨i, file⟩, _ | ⟨b, rest⟩⟩
    · exact .inr trivial
    · simp only [List.map_cons, List.map_nil, scalarOneOrNone, pure_bind, bind_assoc]
      by_cases hroom : file.room_id = ρ
      · rw [show found ρ [(i, file)] = .ready (loadedRec i file) from if_pos hroom]
        refine require_wp (fun _ => ?_) trivial
        refine sink.bind (completeUploadSession_wp i file body.totalChunks) ?_
          fun e s hs => .inr hs
        rintro confirmed s ⟨r, rfl⟩
        exact finish_wp _ _ _
      · rw [show found ρ [(i, file)] = .idle from if_neg hroom]
        exact require_wp (fun h => absurd h hroom) trivial
    · exact .inr trivial
  | cleanup row tell =>
    refine session_wp (sink.bind cleanupRoom_wp ?_ ?_)
    -- The caller commits, whether the room was torn down or not.
    · rintro changed s hs
      have htell : Ends env ρ (if tell changed then
          broadcast (wsChannel (toRoom (ρ, row))) .roomExpired [] else pure ())
          (fun _ s => s.Last) .idle := by
        split
        · exact tell_wp (broadcast_tells _ _ _) fun _ => trivial
        · exact .inr trivial
      rcases hs with rfl | ⟨rfl, -⟩
      · exact wp_then sink (.look (.commit (by decide))) (fun _ => .inr htell) fun e => .inr trivial
      · exact wp_then sink .tearDown (fun _ => .inr htell) fun e => .inr trivial
    · rintro e s (rfl | ⟨-, hx⟩)
      · exact .inr trivial
      · cases hx

end

/-- `n` processes, and nobody else. -/
def start (env : Env) (ρ n : ℕ) (work : ℕ → Work) (w : World) :
    Conf Cmd Resp Err Unit KeyedWorld Stage :=
  .start w.keyed .idle fun p => if p < n then (work p).program env ρ else pure ()

/-- The storage keys of the uploads of a run from `w` on: those of the records of the room that are
there before, and those that are drawn. -/
def UploadKey (ρ : ℕ) (w : World) (k : Key) : Prop :=
  (∃ i key, key.text = k ∧ ∃ row : FileRow, w.db.committed .files i = some row ∧ row.Of ρ key) ∨
    ∃ i, w.uuidsUsed ≤ i ∧ (w.uuids i).text = k

/-- A run of the processes, in which PostgreSQL may abort those that are deadlocked in a command that
`may` admits. -/
abbrev Runs (env : Env) (ρ n : ℕ) (work : ℕ → Work) (w : World) (may : Cmd → Prop)
    (s : Conf Cmd Resp Err Unit KeyedWorld Stage) : Prop :=
  deadlocks.Reaches keyed (monitor env ρ) may (start env ρ n work w) s

end latecomer

open latecomer

/-- For every run of any number of `upload_file` and `complete_upload_session` requests on a room
with any number of `cleanup_room` transactions, while nothing fails but what is aborted in a deadlock,
and no `_claim_quota` is: once the room is committed as DELETED and all processes have ended, the room
has no file record, and no object is left under the storage key of any of the uploads. -/
theorem teardown_leaves_no_upload (env : Env) (ρ n : ℕ) (work : ℕ → Work) (w : World)
    (hfree : w.db.Free) (hlive : ∀ r, w.db.committed .rooms ρ = some r → r.status ≠ .deleted)
    (hfresh : ∀ i, w.uuidsUsed ≤ i → (w.uuids i).text ∉ w.storage)
    (s : Conf Cmd Resp Err Unit KeyedWorld Stage)
    (h : Runs env ρ n work w (fun c => ¬c.Claims) s)
    (hend : ∀ p < n, (s.proc p).outcome.isSome = true) (r : RoomRow)
    (hr : s.world.world.db.committed .rooms ρ = some r) (hdel : r.status = .deleted) :
    (∀ i row, s.world.world.db.committed .files i = some row → row.room_id = ρ →
      row.status ≠ .confirmed) ∧
      ∀ k, UploadKey ρ w k → k ∉ s.world.world.storage := by
  have hconforms : (start env ρ n work w).Conforms (monitor env ρ)
      (Monitor.orSink .broken fun _ s => s = .idle) := by
    intro p
    dsimp only [start, Conf.start]
    split
    · exact (work p).program_wp
    · exact .inr rfl
  -- At the start nothing is locked, and an object of interest has its record.
  have hinit : ∀ k, UploadKey ρ w k → WorldInv ρ k w fun _ => .idle := by
    intro k hk
    refine ⟨?_, fun _ => trivial, fun q v hl => ?_, fun i q v hl => ?_, fun r hr hs =>
      absurd hs (hlive r hr), fun hmem => ?_⟩
    · rintro q s ⟨⟩
    · rw [hfree .rooms ρ] at hl
      cases hl
    · rw [hfree .files i] at hl
      cases hl
    · rcases hk with hrow | ⟨i, hi, rfl⟩
      · exact .inr ⟨hrow, fun q h => h⟩
      · exact absurd hmem (hfresh i hi)
  have hrun : ∀ k, UploadKey ρ w k → WorldInv ρ k s.world.world s.phase ∧
      s.Conforms (monitor env ρ) (Monitor.orSink .broken fun _ s => s = .idle) := by
    intro k hk
    refine Victims.invariant (I := fun w' φ => WorldInv ρ k w'.world φ) ?_ ?_ ?_ h (hinit k hk)
      hconforms
    · exact fun w φ p c x w' I ha hx => I.done ha (keyed_done hx)
    · rintro w φ w' I ⟨⟨d, d', hw'⟩, -⟩
      rw [hw']
      exact I
    · exact fun w φ p c I ha hmay hw => I.abort ha hmay hw
  have hkey : UploadKey ρ w (w.uuids w.uuidsUsed).text := .inr ⟨_, Nat.le_refl _, rfl⟩
  have hidle : ∀ q, s.phase q = .idle := by
    intro q
    obtain ⟨I, hC⟩ := hrun _ hkey
    have hq : (s.proc q).outcome.isSome = true := by
      by_cases hqn : q < n
      · exact hend q hqn
      · refine Victims.ended h ?_
        rw [show (start env ρ n work w).proc q = .ret () from if_neg hqn]
        rfl
    obtain ⟨x, hx⟩ := Option.isSome_iff_exists.1 hq
    rcases Prog.wp_outcome hx (hC q) with hb | hi
    · have hrec := I.recorded q
      rw [hb] at hrec
      exact hrec.elim
    · exact hi
  refine ⟨fun i row hrow hρ => ?_, fun k hk hmem => ?_⟩
  · exact absurd hρ ((hrun _ hkey).1.deleted r hr hdel i row hrow)
  · have hI := (hrun k hk).1
    rcases hI.stored hmem with ⟨q, hq⟩ | ⟨⟨i, key, -, row, hrow, hof⟩, -⟩
    · rw [hidle q] at hq
      exact hq
    · exact hI.deleted r hr hdel i row hrow hof.1

/-- A room with its owner and a pending upload, whose only chunk is staged. -/
def World.hosted : World :=
  { World.holding [.plain] [.owner] [.chunked] with
    storage := (∅ : Storage).insert (partKey FileRow.chunked.storage_key 0) [65] }

namespace latecomer

/-- An upload, a completion and two teardowns of the same room. -/
def crowd : ℕ → Work
  | 0 => .upload .plain (toSession (0, .owner)) none none [.ok [65]]
  | 1 => .complete .plain (toSession (0, .owner)) 0 completion.oneChunk
  | _ => .cleanup .plain id

/-- Both requests have written their objects and are to claim the quota. The first teardown, which
holds the row of the room, waits for the upload to delete the sessions. -/
def crowded : Conf Cmd Resp Err Unit KeyedWorld Stage :=
  Victims.played keyed (monitor .plain 0) (start .plain 0 4 crowd .hosted)
    (List.replicate 4 0 ++ List.replicate 5 1 ++ List.replicate 6 2)

/-- The first teardown is aborted, the upload is confirmed, the second teardown deletes everything,
and the completion takes its object back. -/
def cleared : Conf Cmd Resp Err Unit KeyedWorld Stage :=
  Victims.played keyed (monitor .plain 0) (deadlocks.aborted (monitor .plain 0) crowded 2)
    (2 :: List.replicate 6 0 ++ List.replicate 13 3 ++ List.replicate 4 1)

/-- The first teardown and the upload wait for each other. -/
theorem deadlocked_crowded : deadlocks.Deadlocked keyed crowded 2 := by
  have hclaim : deadlocks.WaitsFor keyed crowded 0 2 :=
    ⟨.sql (.updateAt .rooms 0 (.claimQuota 1 100 2147483648)), _, rfl, by decide +kernel, _, rfl,
      .updateAt (r := .plain) rfl rfl rfl (by decide)⟩
  have hdelete : deadlocks.WaitsFor keyed crowded 2 0 :=
    ⟨.sql (.deleteWhere .sessions 0), _, rfl, by decide +kernel, _, rfl,
      .share (i := 0) rfl (by decide) (by decide)⟩
  exact Victims.deadlocked_of_pair hdelete hclaim

/-- The run to `cleared`, in which no claim is aborted. -/
theorem runs_cleared : Runs .plain 0 4 crowd .hosted (fun c => ¬c.Claims) cleared := by
  have hbegin : (keyed.play (monitor .plain 0) Guard.all
      (List.replicate 4 0 ++ List.replicate 5 1 ++ List.replicate 6 2)
      (start .plain 0 4 crowd .hosted)).isSome = true := by decide +kernel
  have hend : (keyed.play (monitor .plain 0) Guard.all
      (2 :: List.replicate 6 0 ++ List.replicate 13 3 ++ List.replicate 4 1)
      (deadlocks.aborted (monitor .plain 0) crowded 2)).isSome = true := by decide +kernel
  refine (Victims.reaches_played hbegin).trans
    ((Victims.reaches_aborted deadlocked_crowded fun c k hp => ?_).trans
      (Victims.reaches_played hend))
  have hdelete : ∃ k', crowded.proc 2 = .call (.sql (.deleteWhere .sessions 0)) k' := ⟨_, rfl⟩
  obtain ⟨k', hdelete⟩ := hdelete
  cases hp.symm.trans hdelete
  exact fun h => h

/-- The keys that are drawn on `World.hosted` are new. -/
theorem fresh_hosted (i : ℕ) : (World.hosted.uuids i).text ∉ World.hosted.storage := by
  intro h
  have hkeys : World.hosted.storage.keys = [partKey FileRow.chunked.storage_key 0] := rfl
  rw [AList.mem_keys, hkeys, List.mem_singleton] at h
  have hhead := congrArg List.head? h
  cases hhead

end latecomer

/-- The objects of both uploads are gone in the end, though one was confirmed and the other one was
written while the room was being torn down. -/
theorem teardown_leaves_no_upload_crowd :
    (cleared.world.world.db.committed .rooms 0).map RoomRow.status = some .deleted ∧
      UploadKey 0 .hosted ['k'] ∧ UploadKey 0 .hosted ['u'] ∧
      (∀ i row, cleared.world.world.db.committed .files i = some row → row.room_id = 0 →
        row.status ≠ .confirmed) ∧
      ∀ k, UploadKey 0 .hosted k → k ∉ cleared.world.world.storage := by
  have hlive : ∀ r, World.hosted.db.committed .rooms 0 = some r → r.status ≠ .deleted := by
    rintro r ⟨⟩
    decide
  have hended : ∀ p < 4, (cleared.proc p).outcome.isSome = true := by decide +kernel
  have hstatus : (cleared.world.world.db.committed .rooms 0).map RoomRow.status = some .deleted := by
    decide +kernel
  obtain ⟨r, hr, hdel⟩ := Option.map_eq_some_iff.1 hstatus
  refine ⟨hstatus, .inl ⟨0, FileRow.chunked.storage_key, rfl, FileRow.chunked, rfl, rfl, rfl⟩,
    .inr ⟨0, Nat.le_refl 0, rfl⟩, ?_⟩
  exact teardown_leaves_no_upload .plain 0 4 crowd .hosted World.holding_free hlive
    (fun i _ => fresh_hosted i) cleared runs_cleared hended r hr hdel

namespace latecomer

/-- An upload and a teardown of the same room. -/
def pair : ℕ → Work
  | 0 => .upload .plain (toSession (0, .owner)) none none [.ok [65]]
  | _ => .cleanup .plain id

/-- The upload has written its object and is to claim the quota. The teardown, which holds the row of
the room, waits for the upload to delete the sessions. -/
def stuck : Conf Cmd Resp Err Unit KeyedWorld Stage :=
  Victims.played keyed (monitor .plain 0) (start .plain 0 2 pair .owned)
    (List.replicate 4 0 ++ List.replicate 5 1)

/-- The upload is aborted, and the teardown goes on to its end. -/
def abandoned : Conf Cmd Resp Err Unit KeyedWorld Stage :=
  Victims.played keyed (monitor .plain 0) (deadlocks.aborted (monitor .plain 0) stuck 0)
    (0 :: List.replicate 6 1)

/-- The upload and the teardown wait for each other. -/
theorem deadlocked_stuck : deadlocks.Deadlocked keyed stuck 0 := by
  have hclaim : deadlocks.WaitsFor keyed stuck 0 1 :=
    ⟨.sql (.updateAt .rooms 0 (.claimQuota 1 100 2147483648)), _, rfl, by decide +kernel, _, rfl,
      .updateAt (r := .plain) rfl rfl rfl (by decide)⟩
  have hdelete : deadlocks.WaitsFor keyed stuck 1 0 :=
    ⟨.sql (.deleteWhere .sessions 0), _, rfl, by decide +kernel, _, rfl,
      .share (i := 0) rfl (by decide) (by decide)⟩
  exact Victims.deadlocked_of_pair hclaim hdelete

/-- The run to `abandoned`. -/
theorem runs_abandoned : Runs .plain 0 2 pair .owned (fun _ => True) abandoned := by
  have hbegin : (keyed.play (monitor .plain 0) Guard.all
      (List.replicate 4 0 ++ List.replicate 5 1) (start .plain 0 2 pair .owned)).isSome = true := by
    decide +kernel
  have hend : (keyed.play (monitor .plain 0) Guard.all (0 :: List.replicate 6 1)
      (deadlocks.aborted (monitor .plain 0) stuck 0)).isSome = true := by decide +kernel
  exact (Victims.reaches_played hbegin).trans
    ((Victims.reaches_aborted deadlocked_stuck fun _ _ _ => trivial).trans
      (Victims.reaches_played hend))

end latecomer

/-- Where the upload is the victim of the deadlock, the room is DELETED in the end and the object is
left. -/
theorem teardown_leaves_upload :
    ¬∀ s, Runs .plain 0 2 pair .owned (fun _ => True) s →
      (∀ p < 2, (s.proc p).outcome.isSome = true) →
      ∀ r, s.world.world.db.committed .rooms 0 = some r → r.status = .deleted →
        (∀ i row, s.world.world.db.committed .files i = some row → row.room_id = 0 →
          row.status ≠ .confirmed) ∧
        ∀ k, UploadKey 0 .owned k → k ∉ s.world.world.storage := by
  intro h
  have hended : ∀ p < 2, (abandoned.proc p).outcome.isSome = true := by decide +kernel
  have hstatus : (abandoned.world.world.db.committed .rooms 0).map RoomRow.status =
      some .deleted := by decide +kernel
  obtain ⟨r, hr, hdel⟩ := Option.map_eq_some_iff.1 hstatus
  have hkey : UploadKey 0 .owned ['u'] := .inr ⟨0, Nat.le_refl 0, rfl⟩
  refine (h abandoned runs_abandoned hended r hr hdel).2 _ hkey ?_
  have hkeys : abandoned.world.world.storage.keys = [['u']] := by decide +kernel
  rw [AList.mem_keys, hkeys]
  exact List.mem_singleton_self _

end DropRoom
