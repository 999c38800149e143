import DropRoom.App.Server
import DropRoom.App.Rules

/-!
# Footprints

Which commands each program may issue, up to their parameters. `Kind` names the commands that change
something that is shared; `Issued env K` admits these kinds of them, with what the program fixes of
their parameters, and every command that only reads. The theorems `only_*` go through the functions
bottom up; `Route.only_handle` and `Task.only_program` are the tables for whole programs.
-/

namespace DropRoom

open Effect Store Prog

/-- The commands that change something that is shared. -/
inductive Kind
  | commit | close
  | newRoom | join | leave | claim | release | fields | markExpired | markDeleting | markDeleted
  | newSession | renewSession | expireSession | dropSessions
  | newFile | flushFile | markFileDeleted | countDownload | dropFile | dropFiles
  | newMessage | dropMessages | newAudit | dropAudit
  | put | deleteObject
  | register | unregister
  | enqueue | dequeue
  | tellSettings
  deriving DecidableEq

/-- A row that `create_room` inserts. -/
def RoomRow.Fresh (env : Env) (r : RoomRow) : Prop :=
  r.status = .active ∧ r.user_count = 0 ∧ r.storage_used_bytes = 0 ∧ r.file_count = 0 ∧
    r.max_users = env.max_users_per_room

/-- The commands of some kinds, and those that only read. -/
@[grind intro]
inductive Issued (env : Env) (K : List Kind) : Cmd → Prop
  | select (t where_) : Issued env K (.sql (.select t where_))
  | close (h : Kind.close ∈ K) : Issued env K (.sql .rollback)
  | getStream (key) : Issued env K (.getStream key)
  | objectExists (key) : Issued env K (.objectExists key)
  | listKeys (pre) : Issued env K (.listKeys pre)
  | utcnow : Issued env K .utcnow
  | uuid4 : Issued env K .uuid4
  | generateToken : Issued env K .generateToken
  | generateRoomCode : Issued env K .generateRoomCode
  | checkRate (scope key limit window) : Issued env K (.checkRate scope key limit window)
  | accept (ws) : Issued env K (.accept ws)
  | connectedAmong (ch sids) : Issued env K (.connectedAmong ch sids)
  | items (ch) : Issued env K (.items ch)
  | socketsOf (ch sid ident) : Issued env K (.socketsOf ch sid ident)
  | sendJson (ws) (event : Event) (h : event.ChangesSettings → Kind.tellSettings ∈ K) :
      Issued env K (.sendJson ws event)
  | closeSocket (ws code) : Issued env K (.closeSocket ws code)
  | commit (h : Kind.commit ∈ K) : Issued env K (.sql .commit)
  | newRoom (h : Kind.newRoom ∈ K) (r : RoomRow) (hr : r.Fresh env) :
      Issued env K (.sql (.insert .rooms r))
  | join (h : Kind.join ∈ K) (i) : Issued env K (.sql (.updateAt .rooms i .incrementUserCount))
  | leave (h : Kind.leave ∈ K) (i) : Issued env K (.sql (.updateAt .rooms i .decrementUserCount))
  | claim (h : Kind.claim ∈ K) (i n) : Issued env K (.sql (.updateAt .rooms i
      (.claimQuota n env.max_files_per_room env.max_room_storage_bytes)))
  | release (h : Kind.release ∈ K) (i) (n : ℕ) :
      Issued env K (.sql (.updateAt .rooms i (.addStorageAndFiles (-n) (-1))))
  | fields (h : Kind.fields ∈ K) (i a b c d) :
      Issued env K (.sql (.updateAt .rooms i (.fields a b c d)))
  | markExpired (h : Kind.markExpired ∈ K) (i) :
      Issued env K (.sql (.updateAt .rooms i .markExpired))
  | markDeleting (h : Kind.markDeleting ∈ K) (i) :
      Issued env K (.sql (.updateAt .rooms i .markDeleting))
  | markDeleted (h : Kind.markDeleted ∈ K) (i) :
      Issued env K (.sql (.updateAt .rooms i .markDeleted))
  | newSession (h : Kind.newSession ∈ K) (r) : Issued env K (.sql (.insert .sessions r))
  | renewSession (h : Kind.renewSession ∈ K) (i loaded new) :
      Issued env K (.sql (.updateAt .sessions i (.flush loaded new)))
  | expireSession (h : Kind.expireSession ∈ K) (i a b) :
      Issued env K (.sql (.updateAt .sessions i (.expire a b)))
  | dropSessions (h : Kind.dropSessions ∈ K) (d) : Issued env K (.sql (.deleteWhere .sessions d))
  | newFile (h : Kind.newFile ∈ K) (r : FileRow) (hr : r.status = .pending) :
      Issued env K (.sql (.insert .files r))
  | flushFile (h : Kind.flushFile ∈ K) (i loaded new) :
      Issued env K (.sql (.updateAt .files i (.flush loaded new)))
  | markFileDeleted (h : Kind.markFileDeleted ∈ K) (i) :
      Issued env K (.sql (.updateAt .files i .markDeleted))
  | countDownload (h : Kind.countDownload ∈ K) (i) :
      Issued env K (.sql (.updateAt .files i .incrementDownload))
  | dropFile (h : Kind.dropFile ∈ K) (i) : Issued env K (.sql (.deleteWhere .files (.byId i)))
  | dropFiles (h : Kind.dropFiles ∈ K) (i) : Issued env K (.sql (.deleteWhere .files (.byRoom i)))
  | newMessage (h : Kind.newMessage ∈ K) (r) : Issued env K (.sql (.insert .messages r))
  | dropMessages (h : Kind.dropMessages ∈ K) (d) : Issued env K (.sql (.deleteWhere .messages d))
  | newAudit (h : Kind.newAudit ∈ K) (r) : Issued env K (.sql (.insert .auditEvents r))
  | dropAudit (h : Kind.dropAudit ∈ K) (d) : Issued env K (.sql (.deleteWhere .auditEvents d))
  | put (h : Kind.put ∈ K) (key data) : Issued env K (.put key data)
  | deleteObject (h : Kind.deleteObject ∈ K) (key) : Issued env K (.deleteObject key)
  | register (h : Kind.register ∈ K) (ch sid ws) : Issued env K (.register ch sid ws)
  | unregister (h : Kind.unregister ∈ K) (ch sid ws) : Issued env K (.unregister ch sid ws)
  | enqueue (h : Kind.enqueue ∈ K) (job) : Issued env K (.enqueue job)
  | dequeue (h : Kind.dequeue ∈ K) : Issued env K .dequeue

variable {env : Env} {K : List Kind}

/-- More kinds admit more commands. -/
theorem Issued.mono {K' : List Kind} (hK : ∀ k ∈ K, k ∈ K') {c : Cmd} (h : Issued env K c) :
    Issued env K' c := by
  cases h with
  | sendJson ws event h => exact .sendJson ws event fun hsettings => hK _ (h hsettings)
  | _ => constructor <;> first | assumption | exact hK _ ‹_›

/-- Reading, and closing a database session, spares every row but for the rollback. -/
theorem Issued.quiet {c : Cmd} (h : Issued env [.close] c) :
    c = .sql .rollback ∨ ∀ t i, c.Spares t i := by
  cases h with
  | close h => exact .inl rfl
  | _ =>
    first
    | exact .inr fun _ _ => trivial
    | exact absurd ‹_ ∈ [Kind.close]› (by decide)

/-- Reading, and closing a database session, changes neither the storage nor a row that is not
locked by the process itself. -/
theorem Issued.frame {m : Machine Cmd Resp Err World} (hm : Faithful m) {p : ℕ} {c : Cmd}
    {w w' : World} {x} (hc : Issued env [.close] c) (hx : m.Answer p c w x w') :
    w'.storage = w.storage ∧ ∀ t i, (∀ v, (w.db.cell t i).lock ≠ some (p, v)) →
      w'.db.cell t i = w.db.cell t i := by
  refine ⟨hm.storage_eq hx ?_, fun t i hl => ?_⟩
  · cases hc with
    | put h => exact absurd h (by decide)
    | deleteObject h => exact absurd h (by decide)
    | _ => exact id
  · rcases hc.quiet with rfl | hs
    · obtain ⟨-, rfl⟩ := hm.rollback hx
      exact (Tables.cell_rollback t i).trans (Cell.rollback_of_ne hl)
    · exact hm.cell_of_spares hx (hs t i)

/-! ## Building blocks -/

attribute [grind ←] only_bind only_ret only_raise only_require only_tryCatch only_forM

section

variable {α : Type} {P : Cmd → Prop}

/-- A value issues nothing. -/
@[grind ←] theorem only_pure (a : α) : (pure a : Op α).Only P := only_ret a

/-- One command issues itself. -/
@[grind =] theorem only_issue (c : Cmd) : (issue c).Only P ↔ P c := only_perform c

/-- `scalar_one_or_none` works on rows that are already read. -/
@[grind ←] theorem only_scalarOneOrNone (l : List α) : (scalarOneOrNone l).Only P := by
  unfold scalarOneOrNone
  split
  · exact only_pure _
  · exact only_pure _
  · exact only_raise _

/-- The result of a program may be changed. -/
@[grind ←] theorem only_map {β : Type} {p : Op α} (hp : p.Only P) (f : α → β) :
    (f <$> p).Only P := by
  rw [← bind_pure_comp]
  exact only_bind hp fun a => only_pure (f a)

/-- The result of a program may be dropped. -/
@[grind ←] theorem only_discard {p : Op α} (hp : p.Only P) : (discard p).Only P :=
  only_map hp _

/-- The end of a `with` block rolls back what is open. -/
@[grind ←] theorem only_closeDb (h : Kind.close ∈ K) : closeDb.Only (Issued env K) :=
  (only_issue _).2 (.close h)

/-- A program in a `with` block adds the rollback at its end. -/
@[grind ←] theorem only_withSession (h : Kind.close ∈ K) {p : Op α}
    (hp : p.Only (Issued env K)) : (withSession p).Only (Issued env K) := by
  grind [withSession]

end

/-- A SELECT only reads. -/
@[grind ←] theorem only_select (t : Table) (where_) :
    (select t where_).Only (Issued env K) := by
  grind [select]

/-- The clock is only read. -/
@[grind ←] theorem only_utcnow : utcnow.Only (Issued env K) := (only_issue _).2 .utcnow

/-- A uuid is drawn, and nothing that is shared changes. -/
@[grind ←] theorem only_uuid4 : uuid4.Only (Issued env K) := (only_issue _).2 .uuid4

/-- A token is drawn, and nothing that is shared changes. -/
@[grind ←] theorem only_generateToken : generateToken.Only (Issued env K) :=
  (only_issue _).2 .generateToken

/-- A room code is drawn, and nothing that is shared changes. -/
@[grind ←] theorem only_generateRoomCode : generateRoomCode.Only (Issued env K) :=
  (only_issue _).2 .generateRoomCode

/-- `has_expired` compares with the clock. -/
@[grind ←] theorem only_hasExpired (t : Time) : (hasExpired t).Only (Issued env K) := by
  grind [hasExpired]

/-- A commit. -/
@[grind ←] theorem only_commit (h : Kind.commit ∈ K) : commit.Only (Issued env K) :=
  (only_issue _).2 (.commit h)

/-- An audit event is inserted. -/
@[grind ←] theorem only_createAuditEvent (h : Kind.newAudit ∈ K) (room_id event_type) :
    (roomRepository.createAuditEvent room_id event_type).Only (Issued env K) := by
  grind [roomRepository.createAuditEvent, insert]

/-- One object is deleted. -/
@[grind ←] theorem only_delete (h : Kind.deleteObject ∈ K) (key) :
    (storage.delete key).Only (Issued env K) := by
  grind [storage.delete]

/-- One object is stored. -/
@[grind ←] theorem only_put (h : Kind.put ∈ K) (key data) :
    (storage.put key data).Only (Issued env K) := by
  grind [storage.put]

/-- An object is only read. -/
@[grind ←] theorem only_getStream (key) : (storage.getStream key).Only (Issued env K) := by
  grind [storage.getStream]

/-- The keys are only read. -/
@[grind ←] theorem only_listKeys (pre) : (storage.listKeys pre).Only (Issued env K) := by
  grind [storage.listKeys]

/-- An event is sent; it may be one that changes the settings only if that kind is admitted. -/
@[grind ←] theorem only_sendJson (ws) (event : Event)
    (h : event.ChangesSettings → Kind.tellSettings ∈ K) :
    (sendJson ws event).Only (Issued env K) :=
  (only_issue _).2 (.sendJson ws event h)

/-- An event is sent to every socket of the channel. -/
@[grind ←] theorem only_broadcast (ch) (event : Event) (exclude)
    (h : event.ChangesSettings → Kind.tellSettings ∈ K) :
    (broadcast ch event exclude).Only (Issued env K) := by
  grind [broadcast]

/-- The commands of `broadcast`. -/
def Cmd.Tells : Cmd → Prop
  | .items _ => True
  | .socketsOf .. => True
  | .sendJson .. => True
  | _ => False

/-- `broadcast` only sends. -/
theorem broadcast_tells (ch event exclude) : (broadcast ch event exclude).Only Cmd.Tells := by
  refine only_bind ((only_issue _).2 trivial) fun items => only_forM (fun item => ?_) items
  split
  · exact only_pure _
  · refine only_bind ((only_issue _).2 trivial) fun sockets => only_forM (fun ws => ?_) sockets
    exact only_tryCatch ((only_issue _).2 trivial) fun _ => only_pure _

/-- A job is put into the queue. -/
@[grind ←] theorem only_enqueue (h : Kind.enqueue ∈ K) (job) :
    (enqueue job).Only (Issued env K) := by
  grind [enqueue]

/-! ## Requests -/

/-- The limiter counts a call, and raises or not. -/
@[grind ←] theorem only_limiterCheck (scope key limit) :
    (limiterCheck env scope key limit).Only (Issued env K) := by
  grind [limiterCheck]

/-- `validate_csrf` compares two texts of the request. -/
@[grind ←] theorem only_validateCsrf (method request) :
    (validateCsrf env method request).Only (Issued env K) := by
  cases method <;> grind [validateCsrf]

/-- A session is looked up. -/
@[grind ←] theorem only_getByTokenHash (h) :
    (sessionRepository.getByTokenHash h).Only (Issued env K) := by
  grind [sessionRepository.getByTokenHash]

/-- The session of the request is looked up. -/
@[grind ←] theorem only_requireSession (request) :
    (requireSession env request).Only (Issued env K) := by
  unfold requireSession
  split
  · refine only_bind (by grind) fun session => ?_
    grind
  · grind

/-- A room is looked up by the hash of its token. -/
@[grind ←] theorem only_getRoomByAccessToken (token) :
    (roomRepository.getRoomByAccessToken env token).Only (Issued env K) := by
  grind [roomRepository.getRoomByAccessToken]

/-- A room is looked up by its number. -/
@[grind ←] theorem only_getRoomById (i) : (roomRepository.getRoomById i).Only (Issued env K) := by
  grind [roomRepository.getRoomById]

/-- The room of the request is looked up, and its state checked. -/
@[grind ←] theorem only_getRoomByToken (token) :
    (getRoomByToken env token).Only (Issued env K) := by
  grind [getRoomByToken]

/-- The session and the room of the request are looked up and compared. -/
@[grind ←] theorem only_requireMember (token request) :
    (requireMember env token request).Only (Issued env K) := by
  grind [requireMember]

/-- The same for an owner. -/
@[grind ←] theorem only_requireRoomOwner (token request) :
    (requireRoomOwner env token request).Only (Issued env K) := by
  grind [requireRoomOwner]

/-! ## Rooms -/

/-- A room that has just been made is inserted, with its audit event. -/
@[grind ←] theorem only_roomRepository_createRoom (h : Kind.newRoom ∈ K) (h' : Kind.newAudit ∈ K)
    (name hash up down lifetime) :
    (roomRepository.createRoom env name hash up down env.max_users_per_room lifetime).Only
      (Issued env K) := by
  refine only_bind only_generateToken fun _ => only_bind only_generateToken fun _ => ?_
  refine only_bind only_generateRoomCode fun _ => only_bind only_utcnow fun _ => ?_
  refine only_bind ((only_issue _).2 (.newRoom h _ ⟨rfl, rfl, rfl, rfl, rfl⟩)) fun _ => ?_
  exact only_bind ((only_issue _).2 (.newAudit h' _)) fun _ => only_pure _

/-- The life time is compared with the one that is admitted. -/
@[grind ←] theorem only_validateLifetime (lifetime) :
    (roomService.validateLifetime env lifetime).Only (Issued env K) := by
  cases lifetime <;> grind [roomService.validateLifetime]

/-- `create_room` checks the life time before it inserts the room. -/
@[grind ←] theorem only_createRoom (h : Kind.newRoom ∈ K) (h' : Kind.newAudit ∈ K) (data) :
    (roomService.createRoom env data).Only (Issued env K) :=
  only_bind (only_validateLifetime _) fun _ => only_roomRepository_createRoom h h' _ _ _ _ _

/-- The state of the room is compared with the clock. -/
@[grind ←] theorem only_assertJoinable (room) :
    (roomService.assertJoinable room).Only (Issued env K) := by
  grind [roomService.assertJoinable]

/-- A hash is computed, or the text cannot be encoded. -/
@[grind ←] theorem only_hashToken {P : Cmd → Prop} (token) :
    (roomService.hashToken env token).Only P := by
  unfold roomService.hashToken
  split
  · exact only_pure _
  · exact only_raise _

/-- The password and the token of the owner are compared with their hashes. -/
@[grind ←] theorem only_resolveRole (room password owner_token) :
    (roomService.resolveRole env room password owner_token).Only (Issued env K) := by
  grind [roomService.resolveRole]

/-- A session is inserted. -/
@[grind ←] theorem only_createSession (h : Kind.newSession ∈ K) (room_id hash name role) :
    (sessionRepository.createSession env room_id hash name role).Only (Issued env K) :=
  only_bind only_utcnow fun _ => only_bind ((only_issue _).2 (.newSession h _)) fun _ => only_pure _

/-- A join counts the user and inserts the session. -/
@[grind ←] theorem only_joinRoom (h : Kind.join ∈ K) (h' : Kind.newSession ∈ K)
    (room name password owner_token) :
    (roomService.joinRoom env room name password owner_token).Only (Issued env K) := by
  refine only_bind (only_assertJoinable _) fun _ => ?_
  refine only_bind (only_resolveRole _ _ _) fun _ => ?_
  refine only_bind ((only_issue _).2 (.join h _)) fun _ => ?_
  refine only_bind (only_require _ _) fun _ => only_bind only_generateToken fun _ => ?_
  exact only_bind (only_createSession h' _ _ _ _) fun _ => only_pure _

/-- A session that was loaded is written back. -/
@[grind ←] theorem only_sessionFlush (h : Kind.renewSession ∈ K) (loaded new) :
    (sessionRepository.flush loaded new).Only (Issued env K) := by
  grind [sessionRepository.flush, updateAt]

/-- The session of the cookie is looked up. -/
@[grind ←] theorem only_existingSession (room token) :
    (rooms.existingSession env room token).Only (Issued env K) := by
  grind [rooms.existingSession]

/-- A session is renewed if the cookie has one, and made by a join if not. -/
@[grind ←] theorem only_establishSession (h : Kind.join ∈ K) (h' : Kind.newSession ∈ K)
    (h'' : Kind.renewSession ∈ K) (room join token) :
    (rooms.establishSession env room join token).Only (Issued env K) := by
  refine only_bind (only_existingSession _ _) fun existing => ?_
  split
  · refine only_bind only_utcnow fun _ => only_bind only_utcnow fun _ => ?_
    exact only_bind (only_sessionFlush h'' _ _) fun _ => only_pure _
  · exact only_bind (only_joinRoom h h' _ _ _ _) fun _ => only_pure _

/-- The settings of a room are written. -/
@[grind ←] theorem only_patchRoom (h : Kind.fields ∈ K) (room data) :
    (roomService.patchRoom env room data).Only (Issued env K) := by
  refine only_bind (only_assertJoinable _) fun _ => ?_
  split
  · exact only_pure _
  · refine only_bind (only_bind ((only_issue _).2 (.fields h _ _ _ _ _)) fun _ => ?_) fun _ =>
      only_pure _
    exact only_bind (only_getRoomById _) fun _ => only_pure _

/-- The kinds of `_delete_content`. -/
def contentKinds : List Kind :=
  [.deleteObject, .dropFiles, .dropMessages, .dropSessions, .dropAudit]

/-- The content of a room: its objects, then the rows of four tables. -/
theorem only_deleteContent (h : ∀ k ∈ contentKinds, k ∈ K) (room_id) :
    (cleanupService.deleteContent room_id).Only (Issued env K) := by
  simp only [contentKinds, List.forall_mem_cons] at h
  obtain ⟨h₁, h₂, h₃, h₄, h₅, -⟩ := h
  refine only_bind (only_bind (only_select _ _) fun _ => only_pure _) fun keys => ?_
  refine only_bind (only_forM (fun _ => only_delete h₁ _) _) fun _ => ?_
  refine only_bind ((only_issue _).2 (.dropFiles h₂ _)) fun _ => ?_
  refine only_bind ((only_issue _).2 (.dropMessages h₃ _)) fun _ => ?_
  refine only_bind ((only_issue _).2 (.dropSessions h₄ _)) fun _ => ?_
  exact only_bind ((only_issue _).2 (.dropAudit h₅ _)) fun _ => only_pure _

/-- The kinds of `cleanup_room`. -/
def cleanupKinds : List Kind := [.markExpired, .markDeleting, .markDeleted] ++ contentKinds

/-- A room goes from ACTIVE over EXPIRED and DELETING to DELETED, with its content. -/
theorem only_cleanupRoom (h : ∀ k ∈ cleanupKinds, k ∈ K) (room) :
    (cleanupService.cleanupRoom room).Only (Issued env K) := by
  have hc : ∀ k ∈ contentKinds, k ∈ K := fun k hk => h k (List.mem_append_right _ hk)
  have h₁ : Kind.markExpired ∈ K := h _ (by decide)
  have h₂ : Kind.markDeleting ∈ K := h _ (by decide)
  have h₃ : Kind.markDeleted ∈ K := h _ (by decide)
  have wipe : ∀ b : Bool, (if b then do
      cleanupService.deleteContent room.id
      let _ ← roomRepository.markRoomDeleted room.id
      pure true else pure false : Op Bool).Only (Issued env K) := by
    intro b
    split
    · refine only_bind (only_deleteContent hc _) fun _ => ?_
      exact only_bind ((only_issue _).2 (.markDeleted h₃ _)) fun _ => only_pure _
    · exact only_pure _
  unfold cleanupService.cleanupRoom
  split
  · refine only_bind ((only_issue _).2 (.markExpired h₁ _)) fun _ => ?_
    exact only_bind ((only_issue _).2 (.markDeleting h₂ _)) wipe
  · exact only_bind ((only_issue _).2 (.markDeleting h₂ _)) wipe

/-! ## Files -/

/-- A record is looked up by its number. -/
@[grind ←] theorem only_getFileById (i) :
    (fileRepository.getFileById i).Only (Issued env K) := by
  grind [fileRepository.getFileById]

/-- The record that is inserted is PENDING. -/
@[grind ←] theorem only_createFileRecord (h : Kind.newFile ∈ K) (room_id name key type by_ at_) :
    (fileRepository.createFileRecord room_id name key type by_ at_).Only (Issued env K) := by
  refine only_bind only_utcnow fun _ => ?_
  exact only_bind ((only_issue _).2 (.newFile h _ rfl)) fun _ => only_pure _

/-- A record that was loaded is written back, if it was changed. -/
@[grind ←] theorem only_fileFlush (h : Kind.flushFile ∈ K) (loaded new) :
    (fileRepository.flush loaded new).Only (Issued env K) := by
  unfold fileRepository.flush
  split
  · exact only_pure _
  · exact only_bind ((only_issue _).2 (.flushFile h _ _ _)) fun _ => only_require _ _

/-- One record is deleted. -/
@[grind ←] theorem only_deleteRecord (h : Kind.dropFile ∈ K) (i) :
    (fileRepository.deleteRecord i).Only (Issued env K) := (only_issue _).2 (.dropFile h i)

/-- The quota of the room is claimed, within the limits of the settings. -/
@[grind ←] theorem only_claimQuota (h : Kind.claim ∈ K) (i n) :
    (claimQuota env i n).Only (Issued env K) := (only_issue _).2 (.claim h i n)

/-- A record is looked up and its state checked. -/
@[grind ←] theorem only_getFile (room i) :
    (fileService.getFile room i).Only (Issued env K) := by
  grind [fileService.getFile]

/-- The object and the record of a failed upload are deleted. -/
theorem only_cleanupFailedUpload (h : Kind.deleteObject ∈ K) (h' : Kind.dropFile ∈ K) (i key) :
    (fileService.cleanupFailedUpload i key).Only (Issued env K) :=
  only_bind (only_delete h _) fun _ => only_bind (only_deleteRecord h' _) fun _ => only_pure _

/-- The body of an upload is stored as one object. -/
theorem only_putSource (h : Kind.put ∈ K) (key chunks) :
    (fileService.putSource env key chunks).Only (Issued env K) := by
  unfold fileService.putSource
  split
  · exact only_raise _
  · refine only_bind (only_require _ _) fun _ => only_bind (only_put h _ _) fun _ => ?_
    split
    · exact only_pure _
    · exact only_raise _

/-- The kinds of `upload_file`. -/
def uploadKinds : List Kind :=
  [.newFile, .put, .deleteObject, .dropFile, .claim, .flushFile, .newAudit]

/-- An upload: the record, the object, the quota, and the way back from a failure. -/
theorem only_uploadFile (h : ∀ k ∈ uploadKinds, k ∈ K) (room actor name type chunks) :
    (fileService.uploadFile env room actor name type chunks).Only (Issued env K) := by
  simp only [uploadKinds, List.forall_mem_cons] at h
  obtain ⟨h₁, h₂, h₃, h₄, h₅, h₆, h₇, -⟩ := h
  refine only_bind (only_bind (only_require _ _) fun _ => only_require _ _) fun _ => ?_
  refine only_bind only_uuid4 fun _ => only_bind (only_createFileRecord h₁ _ _ _ _ _ _) fun _ => ?_
  refine only_bind (only_tryCatch (only_putSource h₂ _ _) fun e => ?_) fun s => ?_
  · refine only_bind (only_cleanupFailedUpload h₃ h₄ _ _) fun _ => ?_
    split <;> exact only_raise _
  · refine only_bind (only_require _ _) fun _ => only_bind (only_claimQuota h₅ _ _) fun claimed => ?_
    split
    · refine only_bind (only_fileFlush h₆ _ _) fun _ => ?_
      exact only_bind (only_createAuditEvent h₇ _ _) fun _ => only_pure _
    · exact only_bind (only_cleanupFailedUpload h₃ h₄ _ _) fun _ => only_raise _

/-- A download is counted. -/
theorem only_downloadFile (h : Kind.countDownload ∈ K) (room actor i) :
    (fileService.downloadFile room actor i).Only (Issued env K) := by
  refine only_bind (only_bind (only_require _ _) fun _ => only_require _ _) fun _ => ?_
  refine only_bind (only_getFile _ _) fun _ => ?_
  exact only_bind ((only_issue _).2 (.countDownload h _)) fun _ => only_pure _

/-- The kinds of `delete_file`. -/
def deleteFileKinds : List Kind := [.markFileDeleted, .release, .newAudit, .deleteObject]

/-- A deletion marks the record, gives the quota back and deletes the object. -/
theorem only_deleteFile (h : ∀ k ∈ deleteFileKinds, k ∈ K) (room actor i) :
    (fileService.deleteFile room actor i).Only (Issued env K) := by
  simp only [deleteFileKinds, List.forall_mem_cons] at h
  obtain ⟨h₁, h₂, h₃, h₄, -⟩ := h
  refine only_bind (only_require _ _) fun _ => only_bind (only_getFile _ _) fun _ => ?_
  refine only_bind ((only_issue _).2 (.markFileDeleted h₁ _)) fun _ => ?_
  refine only_bind ((only_issue _).2 (.release h₂ _ _)) fun _ => ?_
  refine only_bind (only_createAuditEvent h₃ _ _) fun _ => ?_
  exact only_bind (only_delete h₄ _) fun _ => only_pure _

/-! ## Uploads in chunks -/

/-- The two switches of the room are read. -/
theorem only_authorizeChunkedUpload (room actor) :
    (uploadService.authorizeChunkedUpload room actor).Only (Issued env K) :=
  only_bind (only_require _ _) fun _ => only_require _ _

/-- A session of chunks is a PENDING record with its expected sizes. -/
theorem only_createUploadSession (h : Kind.newFile ∈ K) (h' : Kind.flushFile ∈ K)
    (room actor name type size chunks) :
    (uploadService.createUploadSession env room actor name type size chunks).Only
      (Issued env K) := by
  refine only_bind (only_authorizeChunkedUpload _ _) fun _ => ?_
  refine only_bind (only_require _ _) fun _ => only_bind (only_require _ _) fun _ => ?_
  refine only_bind only_uuid4 fun _ => only_bind (only_createFileRecord h _ _ _ _ _ _) fun _ => ?_
  exact only_bind (only_fileFlush h' _ _) fun _ => only_pure _

/-- A chunk is stored under its part key, and the size of the record is written. -/
theorem only_storeChunk (h : Kind.put ∈ K) (h' : Kind.flushFile ∈ K) (rec_ index chunk) :
    (uploadService.storeChunk env rec_ index chunk).Only (Issued env K) := by
  refine only_bind (only_require _ _) fun _ => only_bind (only_require _ _) fun _ => ?_
  refine only_bind (only_require _ _) fun _ => only_bind (only_put h _ _) fun _ => ?_
  exact only_bind (only_fileFlush h' _ _) fun _ => only_pure _

/-- The parts are read one after the other. -/
theorem only_merged (keys) : (uploadService.merged keys).Only (Issued env K) := by
  induction keys with
  | nil => exact only_pure _
  | cons k ks ih => exact only_bind (only_getStream _) fun _ => only_bind ih fun _ => only_pure _

/-- The parts are put together as one object. -/
theorem only_assemble (h : Kind.put ∈ K) (key parts) :
    (uploadService.assemble key parts).Only (Issued env K) := by
  refine only_bind (only_merged _) fun _ => only_bind (only_put h _ _) fun _ => ?_
  exact only_bind (only_getStream _) fun _ => only_pure _

/-- Several objects are deleted. -/
theorem only_deleteAll (h : Kind.deleteObject ∈ K) (keys : List Key) :
    (keys.forM storage.delete).Only (Issued env K) :=
  only_forM (fun _ => only_delete h _) _

/-- The kinds of `complete_upload_session`. -/
def completeKinds : List Kind := [.put, .deleteObject, .claim, .flushFile, .newAudit]

/-- The end of `complete_upload_session`: the quota, the flush, the parts. -/
theorem only_confirmUpload (h : ∀ k ∈ completeKinds, k ∈ K) (room rec_ parts total first) :
    (uploadService.confirmUpload env room rec_ parts total first).Only (Issued env K) := by
  simp only [completeKinds, List.forall_mem_cons] at h
  obtain ⟨-, h₁, h₂, h₃, h₄, -⟩ := h
  refine only_bind (only_claimQuota h₂ _ _) fun claimed => ?_
  split
  · refine only_bind (only_fileFlush h₃ _ _) fun _ => ?_
    refine only_bind (only_createAuditEvent h₄ _ _) fun _ => ?_
    exact only_bind (only_deleteAll h₁ _) fun _ => only_pure _
  · refine only_bind (only_delete h₁ _) fun _ => ?_
    exact only_bind (only_deleteAll h₁ _) fun _ => only_raise _

/-- A completion puts the object together before it claims the quota. -/
theorem only_completeUploadSession (h : ∀ k ∈ completeKinds, k ∈ K) (room actor rec_ n) :
    (uploadService.completeUploadSession env room actor rec_ n).Only (Issued env K) := by
  have hp : Kind.put ∈ K := h _ (by decide)
  have hd : Kind.deleteObject ∈ K := h _ (by decide)
  refine only_bind (only_require _ _) fun _ => ?_
  refine only_bind (only_authorizeChunkedUpload _ _) fun _ => only_bind (only_require _ _) fun _ => ?_
  refine only_bind (only_listKeys _) fun keys => only_bind (only_require _ _) fun _ => ?_
  refine only_bind (only_tryCatch (only_assemble hp _ _) fun e => ?_) fun s => ?_
  · exact only_bind (only_delete hd _) fun _ => only_raise _
  · simp only
    split
    · exact only_bind (only_delete hd _) fun _ => only_raise _
    · split
      · exact only_bind (only_delete hd _) fun _ => only_raise _
      · exact only_confirmUpload h _ _ _ _ _

/-- The parts of an upload are deleted. -/
theorem only_cleanupUploadParts (h : Kind.deleteObject ∈ K) (rec_) :
    (uploadService.cleanupUploadParts rec_).Only (Issued env K) :=
  only_bind (only_listKeys _) fun _ => only_deleteAll h _

/-- An abort deletes the parts and the record. -/
theorem only_abortUploadSession (h₁ : Kind.deleteObject ∈ K) (h₂ : Kind.dropFile ∈ K)
    (h₃ : Kind.newAudit ∈ K) (room rec_) :
    (uploadService.abortUploadSession room rec_).Only (Issued env K) := by
  refine only_bind (only_require _ _) fun _ => only_bind (only_cleanupUploadParts h₁ _) fun _ => ?_
  refine only_bind (only_deleteRecord h₂ _) fun _ => ?_
  exact only_bind (only_createAuditEvent h₃ _ _) fun _ => only_pure _

/-! ## Endpoints -/

/-- A PENDING record of the room is looked up. -/
theorem only_pendingSession (room i) :
    (uploads.pendingSession room i).Only (Issued env K) := by
  refine only_bind (only_getFileById _) fun rec_ => ?_
  split
  · exact only_bind (only_require _ _) fun _ => only_pure _
  · exact only_raise _

/-- The kinds of the endpoint of a route. -/
def Route.kinds : Route → List Kind
  | .createRoom _ => [.newRoom, .newAudit, .join, .newSession, .commit, .close]
  | .getRoom _ | .listFiles _ | .getUploadStatus _ _ | .listMessages _ => [.close]
  | .joinRoom _ _ | .joinByCode _ _ => [.join, .newSession, .renewSession, .commit, .close]
  | .patchRoom _ _ => [.fields, .tellSettings, .commit, .close]
  | .deleteRoom _ => cleanupKinds ++ [.commit, .close]
  | .upload _ _ _ _ => uploadKinds ++ [.commit, .close]
  | .download _ _ => [.countDownload, .newAudit, .commit, .close]
  | .deleteFile _ _ => deleteFileKinds ++ [.commit, .close]
  | .createUploadSession _ _ => [.newFile, .flushFile, .commit, .close]
  | .uploadChunk _ _ _ _ => [.put, .flushFile, .newAudit, .commit, .close]
  | .completeUploadSession _ _ _ => completeKinds ++ [.commit, .close]
  | .abortUploadSession _ _ => [.deleteObject, .dropFile, .newAudit, .commit, .close]
  | .deleteMessage _ _ => [.dropMessages, .commit, .close]

section

variable {request : Request}

/-- `POST /rooms`. -/
theorem only_rooms_createRoom (body) :
    (rooms.createRoom env body request).Only (Issued env (Route.createRoom body).kinds) := by
  refine only_withSession (by simp [Route.kinds]) ?_
  refine only_bind (only_validateCsrf _ _) fun _ => only_bind (only_limiterCheck _ _ _) fun _ => ?_
  refine only_bind (only_createRoom (by simp [Route.kinds]) (by simp [Route.kinds]) _) fun r => ?_
  refine only_bind (only_joinRoom (by simp [Route.kinds]) (by simp [Route.kinds]) _ _ _ _) fun s => ?_
  exact only_bind (only_commit (by simp [Route.kinds])) fun _ => only_pure _

/-- `GET /rooms/{room_token}`. -/
theorem only_getRoom (token) :
    (rooms.getRoom env token).Only (Issued env (Route.getRoom token).kinds) :=
  only_withSession (by simp [Route.kinds]) (only_bind (only_getRoomByToken _) fun _ =>
    only_bind only_utcnow fun _ => only_pure _)

/-- What the two ways into a room have in common. -/
theorem only_join (token body cookie) :
    (rooms.join env token body cookie).Only (Issued env (Route.joinRoom token body).kinds) := by
  refine only_bind (only_getRoomByToken _) fun _ => ?_
  refine only_bind (only_establishSession (by simp [Route.kinds]) (by simp [Route.kinds])
    (by simp [Route.kinds]) _ _ _) fun _ => ?_
  exact only_bind (only_commit (by simp [Route.kinds])) fun _ => only_pure _

/-- `POST /rooms/{room_token}/join`. -/
theorem only_rooms_joinRoom (token body) :
    (rooms.joinRoom env token body request).Only
      (Issued env (Route.joinRoom token body).kinds) := by
  refine only_withSession (by simp [Route.kinds]) ?_
  refine only_bind (only_validateCsrf _ _) fun _ => only_bind (only_limiterCheck _ _ _) fun _ => ?_
  exact only_join _ _ _

/-- `POST /rooms/join-by-code`. -/
theorem only_joinByCode (code body) :
    (rooms.joinByCode env code body request).Only
      (Issued env (Route.joinByCode code body).kinds) := by
  refine only_withSession (by simp [Route.kinds]) ?_
  refine only_bind (only_validateCsrf _ _) fun _ => only_bind (only_limiterCheck _ _ _) fun _ => ?_
  refine only_bind (only_bind (only_select _ _) fun _ => only_scalarOneOrNone _) fun found => ?_
  split
  · refine only_bind (only_tryCatch ?_ fun _ => only_raise _) fun s => ?_
    · exact only_establishSession (by simp [Route.kinds]) (by simp [Route.kinds])
        (by simp [Route.kinds]) _ _ _
    · exact only_bind (only_commit (by simp [Route.kinds])) fun _ => only_pure _
  · exact only_raise _

/-- `PATCH /rooms/{room_token}`. -/
theorem only_rooms_patchRoom (token body) :
    (rooms.patchRoom env token body request).Only
      (Issued env (Route.patchRoom token body).kinds) := by
  refine only_withSession (by simp [Route.kinds]) (only_bind (only_requireRoomOwner _ _) fun auth => ?_)
  refine only_bind (only_validateCsrf _ _) fun _ => ?_
  refine only_bind (only_patchRoom (by simp [Route.kinds]) _ _) fun _ => ?_
  refine only_bind (only_commit (by simp [Route.kinds])) fun _ => ?_
  exact only_bind (only_broadcast _ _ _ fun _ => by simp [Route.kinds]) fun _ => only_pure _

/-- `DELETE /rooms/{room_token}`. -/
theorem only_deleteRoom (token) :
    (rooms.deleteRoom env token request).Only (Issued env (Route.deleteRoom token).kinds) := by
  refine only_withSession (by simp [Route.kinds]) (only_bind (only_requireRoomOwner _ _) fun auth => ?_)
  refine only_bind (only_validateCsrf _ _) fun _ => ?_
  refine only_bind (only_cleanupRoom (fun _ => List.mem_append_left _) _) fun _ => ?_
  exact only_bind (only_commit (by simp [Route.kinds])) fun _ => only_broadcast _ _ _ fun h => h.elim

/-- `POST /rooms/{room_token}/files`. -/
theorem only_upload (token name type chunks) :
    (files.upload env token name type chunks request).Only
      (Issued env (Route.upload token name type chunks).kinds) := by
  refine only_withSession (by simp [Route.kinds]) (only_bind (only_requireMember _ _) fun auth => ?_)
  refine only_bind (only_validateCsrf _ _) fun _ => only_bind (only_limiterCheck _ _ _) fun _ => ?_
  refine only_bind (only_uploadFile (fun _ => List.mem_append_left _) _ _ _ _ _) fun _ => ?_
  refine only_bind (only_commit (by simp [Route.kinds])) fun _ => ?_
  exact only_bind (only_broadcast _ _ _ fun h => h.elim) fun _ => only_pure _

/-- `GET /rooms/{room_token}/files`. -/
theorem only_listFiles (token) :
    (files.listFiles env token request).Only (Issued env (Route.listFiles token).kinds) :=
  only_withSession (by simp [Route.kinds]) (only_bind (only_requireMember _ _) fun _ =>
    only_bind (only_bind (only_select _ _) fun _ => only_pure _) fun _ => only_pure _)

/-- `GET /rooms/{room_token}/files/{file_id}/download`. -/
theorem only_download (token i) :
    (files.download env token i request).Only (Issued env (Route.download token i).kinds) := by
  refine only_bind (only_withSession (by simp [Route.kinds]) ?_) fun _ =>
    only_bind (only_getStream _) fun _ => only_pure _
  refine only_bind (only_requireMember _ _) fun auth => ?_
  refine only_bind (only_downloadFile (by simp [Route.kinds]) _ _ _) fun _ => ?_
  refine only_bind (only_commit (by simp [Route.kinds])) fun _ => ?_
  refine only_bind (only_createAuditEvent (by simp [Route.kinds]) _ _) fun _ => ?_
  refine only_bind (only_commit (by simp [Route.kinds])) fun _ => ?_
  refine only_bind (only_getFileById _) fun rec_ => ?_
  split
  · exact only_bind (only_broadcast _ _ _ fun h => h.elim) fun _ => only_pure _
  · exact only_raise _

/-- `DELETE /rooms/{room_token}/files/{file_id}`. -/
theorem only_files_delete (token i) :
    (files.delete env token i request).Only (Issued env (Route.deleteFile token i).kinds) := by
  refine only_withSession (by simp [Route.kinds]) (only_bind (only_requireMember _ _) fun auth => ?_)
  refine only_bind (only_validateCsrf _ _) fun _ => ?_
  refine only_bind (only_deleteFile (fun _ => List.mem_append_left _) _ _ _) fun _ => ?_
  refine only_bind (only_commit (by simp [Route.kinds])) fun _ => ?_
  exact only_bind (only_broadcast _ _ _ fun h => h.elim) fun _ => only_pure _

/-- `POST /rooms/{room_token}/uploads`. -/
theorem only_uploads_createUploadSession (token body) :
    (uploads.createUploadSession env token body request).Only
      (Issued env (Route.createUploadSession token body).kinds) := by
  refine only_withSession (by simp [Route.kinds]) (only_bind (only_requireMember _ _) fun auth => ?_)
  refine only_bind (only_validateCsrf _ _) fun _ => only_bind (only_limiterCheck _ _ _) fun _ => ?_
  refine only_bind (only_createUploadSession (by simp [Route.kinds]) (by simp [Route.kinds])
    _ _ _ _ _ _) fun _ => ?_
  exact only_bind (only_commit (by simp [Route.kinds])) fun _ => only_pure _

/-- `GET /rooms/{room_token}/uploads/{upload_id}`. -/
theorem only_getUploadStatus (token i) :
    (uploads.getUploadStatus env token i request).Only
      (Issued env (Route.getUploadStatus token i).kinds) :=
  only_withSession (by simp [Route.kinds])
    (only_bind (only_requireMember _ _) fun _ => only_pendingSession _ _)

/-- `PUT /rooms/{room_token}/uploads/{upload_id}/chunks/{index}`. -/
theorem only_uploadChunk (token i index body) :
    (uploads.uploadChunk env token i index body request).Only
      (Issued env (Route.uploadChunk token i index body).kinds) := by
  refine only_withSession (by simp [Route.kinds]) (only_bind (only_requireMember _ _) fun auth => ?_)
  refine only_bind (only_limiterCheck _ _ _) fun _ => ?_
  refine only_bind (only_pendingSession _ _) fun rec_ => ?_
  split
  · exact only_raise _
  · refine only_bind (only_require _ _) fun _ => only_bind (only_require _ _) fun _ => ?_
    refine only_bind (only_storeChunk (by simp [Route.kinds]) (by simp [Route.kinds]) _ _ _) fun _ => ?_
    refine only_bind (only_createAuditEvent (by simp [Route.kinds]) _ _) fun _ => ?_
    refine only_bind (only_commit (by simp [Route.kinds])) fun _ => only_bind ?_ fun _ => only_pure _
    unfold uploads.broadcastProgress
    dsimp only
    split
    · exact only_broadcast _ _ _ fun h => h.elim
    · exact only_pure _

/-- `POST /rooms/{room_token}/uploads/{upload_id}/complete`. -/
theorem only_uploads_completeUploadSession (token i body) :
    (uploads.completeUploadSession env token i body request).Only
      (Issued env (Route.completeUploadSession token i body).kinds) := by
  refine only_withSession (by simp [Route.kinds]) (only_bind (only_requireMember _ _) fun auth => ?_)
  refine only_bind (only_validateCsrf _ _) fun _ => ?_
  refine only_bind (only_pendingSession _ _) fun _ => ?_
  refine only_bind (only_completeUploadSession (fun _ => List.mem_append_left _) _ _ _ _) fun _ => ?_
  refine only_bind (only_commit (by simp [Route.kinds])) fun _ => ?_
  exact only_bind (only_broadcast _ _ _ fun h => h.elim) fun _ => only_pure _

/-- `DELETE /rooms/{room_token}/uploads/{upload_id}`. -/
theorem only_uploads_abortUploadSession (token i) :
    (uploads.abortUploadSession env token i request).Only
      (Issued env (Route.abortUploadSession token i).kinds) := by
  refine only_withSession (by simp [Route.kinds]) (only_bind (only_requireMember _ _) fun auth => ?_)
  refine only_bind (only_validateCsrf _ _) fun _ => ?_
  refine only_bind (only_pendingSession _ _) fun _ => ?_
  refine only_bind (only_abortUploadSession (by simp [Route.kinds]) (by simp [Route.kinds])
    (by simp [Route.kinds]) _ _) fun _ => ?_
  exact only_commit (by simp [Route.kinds])

/-- The messages of a room are only read. -/
@[grind ←] theorem only_listRoomMessages (room_id limit) :
    (messageRepository.listRoomMessages room_id limit).Only (Issued env K) :=
  only_bind (only_select _ _) fun _ => only_pure _

/-- `GET /rooms/{room_token}/messages`. -/
theorem only_listMessages (token) :
    (messages.listMessages env token request).Only
      (Issued env (Route.listMessages token).kinds) :=
  only_withSession (by simp [Route.kinds]) (only_bind (only_requireMember _ _) fun _ =>
    only_bind (only_listRoomMessages _ _) fun _ => only_pure _)

/-- A message is deleted. -/
theorem only_messageService_deleteMessage (h : Kind.dropMessages ∈ K) (room actor i) :
    (messageService.deleteMessage room actor i).Only (Issued env K) := by
  refine only_bind (only_require _ _) fun _ => ?_
  exact only_bind ((only_issue _).2 (.dropMessages h _)) fun _ => only_pure _

/-- `DELETE /rooms/{room_token}/messages/{message_id}`. -/
theorem only_messages_deleteMessage (token i) :
    (messages.deleteMessage env token i request).Only
      (Issued env (Route.deleteMessage token i).kinds) := by
  refine only_withSession (by simp [Route.kinds]) (only_bind (only_requireMember _ _) fun auth => ?_)
  refine only_bind (only_validateCsrf _ _) fun _ => ?_
  refine only_bind (only_messageService_deleteMessage (by simp [Route.kinds]) _ _ _) fun ok => ?_
  refine only_bind (only_commit (by simp [Route.kinds])) fun _ => ?_
  grind [Event.ChangesSettings]

/-- A request issues only the commands of its route. -/
theorem Route.only_handle (route : Route) :
    (route.handle env request).Only (Issued env route.kinds) := by
  cases route with
  | createRoom body => exact only_discard (only_rooms_createRoom _)
  | getRoom token => exact only_discard (only_getRoom _)
  | joinRoom token body => exact only_discard (only_rooms_joinRoom _ _)
  | joinByCode code body => exact only_discard (only_joinByCode _ _)
  | patchRoom token body => exact only_discard (only_rooms_patchRoom _ _)
  | deleteRoom token => exact only_deleteRoom _
  | upload token name type chunks => exact only_discard (only_upload _ _ _ _)
  | listFiles token => exact only_discard (only_listFiles _)
  | download token i => exact only_discard (only_download _ _)
  | deleteFile token i => exact only_discard (only_files_delete _ _)
  | createUploadSession token body => exact only_discard (only_uploads_createUploadSession _ _)
  | getUploadStatus token i => exact only_discard (only_getUploadStatus _ _)
  | uploadChunk token i index body => exact only_discard (only_uploadChunk _ _ _ _)
  | completeUploadSession token i body =>
    exact only_discard (only_uploads_completeUploadSession _ _ _)
  | abortUploadSession token i => exact only_uploads_abortUploadSession _ _
  | listMessages token => exact only_discard (only_listMessages _)
  | deleteMessage token i => exact only_discard (only_messages_deleteMessage _ _)

end

/-! ## Sockets -/

namespace websocket

/-- The kinds of `_handle_message`. -/
def messageKinds : List Kind := [.newMessage, .newAudit, .dropMessages, .commit]

/-- The session and the room of a handshake are looked up. -/
theorem only_wsAuth (handshake) : (wsAuth env handshake).Only (Issued env K) := by
  unfold wsAuth
  split
  · exact only_pure _
  · refine only_bind (only_getByTokenHash _) fun session => ?_
    grind

/-- The state of the room is read and sent to one socket. -/
theorem only_sendState (ws session room) :
    (sendState env ws session room).Only (Issued env K) := by
  refine only_bind (only_bind (only_select _ _) fun _ => only_pure _) fun _ => ?_
  refine only_bind (only_bind only_utcnow fun _ =>
    only_bind (only_select _ _) fun _ => only_pure _) fun _ => ?_
  refine only_bind (only_listRoomMessages _ _) fun _ => only_bind only_utcnow fun _ => ?_
  refine only_bind ((only_issue _).2 (.connectedAmong _ _)) fun _ => ?_
  grind [Event.ChangesSettings]

/-- An error event is sent to one socket. -/
theorem only_sendError (ws code detail) : (sendError ws code detail).Only (Issued env K) :=
  only_tryCatch (only_sendJson _ _ fun h => h.elim) fun _ => only_pure _

/-- A handler whose errors are sent to its socket. -/
theorem only_orSendError {α : Type} {body : Op α} (h : body.Only (Issued env K)) (ws) :
    (orSendError ws body).Only (Issued env K) := by
  refine only_tryCatch (only_map h _) fun e => ?_
  split
  · exact only_bind (only_sendError _ _ _) fun _ => only_pure _
  · exact only_raise _

/-- A field of the payload is read. -/
theorem only_payloadGet (payload key default) :
    (payloadGet payload key default).Only (Issued env K) := by
  unfold payloadGet
  split
  · exact only_pure _
  · exact only_raise _

/-- The limiter of the chat counts a message, and a refusal is told to the socket. -/
theorem only_chatAllowed (ws session room) :
    (chatAllowed env ws session room).Only (Issued env K) := by
  refine only_tryCatch (only_bind (only_limiterCheck _ _ _) fun _ => only_pure _) fun e => ?_
  split
  · exact only_bind (only_sendError _ _ _) fun _ => only_pure _
  · exact only_raise _

/-- The length of a message is checked. -/
theorem only_validateBody (body) :
    (messageService.validateBody env body).Only (Issued env K) := by
  unfold messageService.validateBody
  exact only_bind (only_require _ _) fun _ => only_bind (only_require _ _) fun _ => only_pure _

/-- A message is inserted. -/
theorem only_sendMessage (h : Kind.newMessage ∈ K) (room actor body) :
    (messageService.sendMessage env room actor body).Only (Issued env K) := by
  refine only_bind (only_validateBody _) fun _ => only_bind only_utcnow fun _ => ?_
  exact only_bind ((only_issue _).2 (.newMessage h _)) fun _ => only_pure _

/-- A message is inserted and committed. -/
theorem only_chatStore (h : ∀ k ∈ messageKinds, k ∈ K) (session room payload) :
    (chatStore env session room payload).Only (Issued env K) := by
  simp only [messageKinds, List.forall_mem_cons] at h
  obtain ⟨h₁, h₂, -, h₃, -⟩ := h
  unfold chatStore
  refine only_bind (only_payloadGet _ _ _) fun _ => ?_
  refine only_bind (only_sendMessage h₁ _ _ _) fun _ => only_bind (only_commit h₃) fun _ => ?_
  refine only_bind (only_createAuditEvent h₂ _ _) fun _ => ?_
  exact only_bind (only_commit h₃) fun _ => only_pure _

/-- The `chat.send` frame. -/
theorem only_chatSend (h : ∀ k ∈ messageKinds, k ∈ K) (ws ch session room payload) :
    (chatSend env ws ch session room payload).Only (Issued env K) := by
  refine only_bind (only_chatAllowed _ _ _) fun allowed => ?_
  split
  · refine only_bind (only_orSendError (only_chatStore h _ _ _) _) fun sent => ?_
    split
    · exact only_broadcast _ _ _ fun h => h.elim
    · exact only_pure _
  · exact only_pure _

/-- The `chat.delete` frame. -/
theorem only_chatDelete (h : ∀ k ∈ messageKinds, k ∈ K) (ws ch session room payload) :
    (chatDelete env ws ch session room payload).Only (Issued env K) := by
  simp only [messageKinds, List.forall_mem_cons] at h
  obtain ⟨-, -, h₁, h₂, -⟩ := h
  refine only_bind (only_orSendError ?_ _) fun deleted => ?_
  · refine only_bind (only_payloadGet _ _ _) fun _ => ?_
    split
    · refine only_bind (only_messageService_deleteMessage h₁ _ _ _) fun _ => ?_
      exact only_bind (only_commit h₂) fun _ => only_pure _
    · exact only_raise _
  · split
    · exact only_broadcast _ _ _ fun h => h.elim
    · exact only_pure _

/-- A frame is read without a command. -/
theorem only_receiveJson {P : Cmd → Prop} (frame) : (receiveJson env frame).Only P := by
  cases frame with
  | json data => exact only_bind (only_require _ _) fun _ => only_pure _
  | malformed => exact only_raise _

/-- One frame of a socket. -/
theorem only_receive (h : ∀ k ∈ messageKinds, k ∈ K) (ws ch session room frame) :
    (receive env ws ch session room frame).Only (Issued env K) := by
  refine only_bind (only_receiveJson _) fun data => ?_
  split
  · split
    · unfold handleMessage
      dsimp only
      split
      · exact only_sendJson _ _ fun h => h.elim
      · exact only_chatSend h _ _ _ _ _
      · exact only_chatDelete h _ _ _ _ _
      · exact only_sendError _ _ _
      · exact only_sendError _ _ _
    · exact only_pure _
  · exact only_pure _

/-- A socket is registered and told the state of the room. -/
theorem only_greet (h : Kind.register ∈ K) (ws session room) :
    (greet env ws session room).Only (Issued env K) := by
  refine only_bind ((only_issue _).2 (.accept _)) fun _ => ?_
  refine only_bind ((only_issue _).2 (.register h _ _ _)) fun _ => ?_
  exact only_bind (only_sendState _ _ _) fun _ => only_broadcast _ _ _ fun h => h.elim

/-- What ends a socket is swallowed. -/
theorem only_swallow (ws e) : (swallow ws e).Only (Issued env K) := by
  unfold swallow
  split
  · exact only_pure _
  · exact only_tryCatch ((only_issue _).2 (.closeSocket _ _)) fun _ => only_pure _

/-- A handshake is refused by closing the socket. -/
theorem only_authenticate (ws handshake) :
    (authenticate env ws handshake).Only (Issued env K) := by
  refine only_tryCatch (only_bind (only_wsAuth _) fun auth => ?_) fun e => ?_
  · split
    · exact only_pure _
    · exact only_bind ((only_issue _).2 (.closeSocket _ _)) fun _ => only_pure _
  · exact only_bind (only_swallow _ _) fun _ => only_pure _

/-- The kinds of the `finally` block of `room_ws`. -/
def leaveKinds : List Kind := [.unregister, .leave, .expireSession, .commit]

/-- The `finally` block of a socket: it is unregistered, the user counted down, the session expired.
-/
theorem only_leave (h : ∀ k ∈ leaveKinds, k ∈ K) (ws session room) :
    (leave ws session room).Only (Issued env K) := by
  simp only [leaveKinds, List.forall_mem_cons] at h
  obtain ⟨h₁, h₂, h₃, h₄, -⟩ := h
  refine only_bind ((only_issue _).2 (.unregister h₁ _ _ _)) fun connected => ?_
  split
  · exact only_pure _
  · refine only_bind (only_broadcast _ _ _ fun h => h.elim) fun _ => ?_
    refine only_bind ((only_issue _).2 (.leave h₂ _)) fun _ => only_bind ?_ fun _ => only_commit h₄
    refine only_bind only_utcnow fun _ => only_bind only_utcnow fun _ => ?_
    exact (only_issue _).2 (.expireSession h₃ _ _ _)

/-- The kinds of `room_ws`. -/
def kinds : List Kind := [.register, .close] ++ messageKinds ++ leaveKinds

/-- The whole life of a socket. -/
theorem only_roomWs (ws handshake frames) :
    (roomWs env ws handshake frames).Only (Issued env kinds) := by
  refine only_withSession (by decide) (only_bind (only_authenticate _ _) fun auth => ?_)
  split
  · refine only_bind (only_tryCatch ?_ fun _ => only_swallow _ _) fun _ =>
      only_leave (by decide) _ _ _
    refine only_bind (only_greet (by decide) _ _ _) fun _ => ?_
    refine only_bind (only_forM (fun _ => only_receive (by decide) _ _ _ _ _) _) fun _ => ?_
    exact only_raise _
  · exact only_pure _

end websocket

/-! ## Jobs -/

/-- The kinds of the handler of a job. -/
def Job.kinds : Job → List Kind
  | .roomCleanup _ => cleanupKinds ++ [.commit, .close]
  | .deleteFileObject _ | .cleanupOrphanedObject _ => [.deleteObject]
  | .expireUploadSession _ => [.deleteObject, .dropFile, .commit, .close]
  | .sendRoomExpirationEvent _ => []
  | .generateAuditEvent _ _ => [.commit, .close]

/-- The `delete_file` and `cleanup_orphan` handlers. -/
theorem only_deleteKey (h : Kind.deleteObject ∈ K) (key) :
    (handlers.deleteKey key).Only (Issued env K) := by
  unfold handlers.deleteKey
  split
  · split
    · exact only_pure _
    · exact only_delete h _
  · exact only_pure _

/-- The `room_cleanup` handler. -/
theorem only_runRoomCleanup (room_id) :
    (handlers.runRoomCleanup room_id).Only (Issued env (Job.roomCleanup room_id).kinds) := by
  cases room_id with
  | none => exact only_pure _
  | some room_id =>
    refine only_withSession (by simp [Job.kinds]) ?_
    refine only_bind (only_getRoomById _) fun room => ?_
    split
    · exact only_pure _
    · split
      · exact only_pure _
      · refine only_bind (only_cleanupRoom (fun _ => List.mem_append_left _) _) fun changed => ?_
        refine only_bind (only_commit (by simp [Job.kinds])) fun _ => ?_
        split
        · exact only_broadcast _ _ _ fun h => h.elim
        · exact only_pure _

/-- The `expire_upload_session` handler. -/
theorem only_expireUploadSession (file_id) :
    (handlers.expireUploadSession file_id).Only
      (Issued env (Job.expireUploadSession file_id).kinds) := by
  cases file_id with
  | none => exact only_pure _
  | some file_id =>
    refine only_withSession (by simp [Job.kinds]) ?_
    refine only_bind (only_getFileById _) fun rec_ => ?_
    split
    · exact only_pure _
    · split
      · refine only_bind (only_cleanupUploadParts (by simp [Job.kinds]) _) fun _ => ?_
        refine only_bind (only_delete (by simp [Job.kinds]) _) fun _ => ?_
        refine only_bind (only_deleteRecord (by simp [Job.kinds]) _) fun _ => ?_
        exact only_commit (by simp [Job.kinds])
      · exact only_pure _

/-- The handler of a job issues only the commands of the job. -/
theorem Job.only_handler (job : Job) : job.handler.Only (Issued env job.kinds) := by
  cases job with
  | roomCleanup room_id => exact only_runRoomCleanup _
  | deleteFileObject key => exact only_deleteKey (by simp [Job.kinds]) _
  | expireUploadSession file_id => exact only_expireUploadSession _
  | sendRoomExpirationEvent room_id =>
    cases room_id with
    | none => exact only_pure _
    | some room_id => exact only_broadcast _ _ _ fun h => h.elim
  | cleanupOrphanedObject key => exact only_deleteKey (by simp [Job.kinds]) _
  | generateAuditEvent room_id type =>
    exact only_withSession (by simp [Job.kinds]) (only_commit (by simp [Job.kinds]))

/-- The kinds of a worker. -/
def workerKinds : List Kind := [.dequeue] ++ cleanupKinds ++ [.dropFile, .commit, .close]

/-- A worker may do what any job does. -/
theorem Job.kinds_worker (job : Job) : ∀ k ∈ job.kinds, k ∈ workerKinds := by
  cases job <;>
  · simp only [Job.kinds]
    decide

/-- An attempt may be made again. -/
theorem only_runWithRetries {handler : Op Unit} (h : handler.Only (Issued env K)) (attempts) :
    (jobQueue.runWithRetries handler attempts).Only (Issued env K) := by
  induction attempts with
  | zero => exact only_pure _
  | succ n ih => exact only_tryCatch h fun _ => ih

/-- A worker takes jobs out of the queue and runs their handlers. -/
theorem only_worker (jobs) : (jobQueue.worker env jobs).Only (Issued env workerKinds) := by
  induction jobs with
  | zero => exact only_pure _
  | succ n ih =>
    refine only_bind ((only_issue _).2 (.dequeue (by decide))) fun job => ?_
    refine only_bind (only_runWithRetries ?_ _) fun _ => ih
    exact job.only_handler.mono fun c hc => hc.mono job.kinds_worker

/-- A scan only reads, and puts jobs into the queue. -/
theorem only_scanOnce : (scheduler.scanOnce env).Only (Issued env [.enqueue, .close]) := by
  refine only_bind only_utcnow fun _ => only_tryCatch ?_ fun _ => only_pure _
  refine only_bind (only_withSession (by decide) ?_) fun known =>
    only_bind (only_listKeys _) fun keys => ?_
  · refine only_bind (only_bind only_utcnow fun _ => only_bind (only_select _ _) fun _ =>
      only_pure _) fun rooms => ?_
    refine only_bind (only_forM (fun _ => only_enqueue (by decide) _) _) fun _ => ?_
    refine only_bind (only_bind (only_select _ _) fun _ => only_pure _) fun deleted => ?_
    refine only_bind (only_forM (fun _ => ?_) _) fun _ => ?_
    · refine only_bind ((only_issue _).2 (.objectExists _)) fun b => ?_
      split
      · exact only_enqueue (by decide) _
      · exact only_pure _
    · refine only_bind (only_bind (only_select _ _) fun _ => only_pure _) fun stale => ?_
      refine only_bind (only_forM (fun _ => only_enqueue (by decide) _) _) fun _ => ?_
      exact only_bind (only_select _ _) fun _ => only_pure _
  · exact only_forM (fun _ => only_enqueue (by decide) _) _

/-! ## Tasks -/

/-- The kinds of a task. -/
def Task.kinds : Task → List Kind
  | .request route _ => route.kinds
  | .socket .. => websocket.kinds
  | .worker _ => workerKinds
  | .scan => [.enqueue, .close]
  | .idle => []

/-- A task issues only the commands of its kinds. -/
theorem Task.only_program (task : Task) : (task.program env).Only (Issued env task.kinds) := by
  cases task with
  | request route req => exact route.only_handle
  | socket ws handshake frames => exact websocket.only_roomWs _ _ _
  | worker jobs => exact only_worker _
  | scan => exact only_scanOnce
  | idle => exact only_pure _

end DropRoom
