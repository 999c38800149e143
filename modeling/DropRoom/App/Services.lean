import DropRoom.App.Repositories
import DropRoom.App.Magic

/-!
# Services

The functions of `app/services`, each under its name in the namespace of its file. They work in the
transaction of their caller, who commits.
-/

namespace DropRoom

open Effect

variable (env : Env)

/-- `has_expired`. -/
def hasExpired (expires_at : Time) : Op Bool := do
  let now ← utcnow
  pure (decide (expires_at ≤ now))

/-! ## Rooms -/

namespace roomService

/-- `validate_lifetime`. -/
def validateLifetime (lifetime_seconds : Option ℕ) : Op ℕ := do
  match lifetime_seconds with
  | none => pure env.default_room_lifetime_seconds
  | some lifetime_seconds =>
    let options := env.room_lifetime_options_seconds
    Prog.require (lifetime_seconds ∈ options)
      (error .dropRoomError s!"lifetime_seconds must be one of {options}")
    Prog.require (lifetime_seconds ≤ env.max_room_lifetime_seconds)
      (error .dropRoomError "lifetime exceeds the server-enforced maximum")
    pure lifetime_seconds

/-- `RoomCreate`. -/
structure RoomCreate where
  name : Option String
  password : Option String
  guest_upload_enabled : Bool
  guest_download_enabled : Bool
  lifetime_seconds : Option ℕ

/-- A text that is absent or empty counts as absent. -/
def truthy : Option String → Option String
  | some s => if s = "" then none else some s
  | none => none

/-- A text that is neither absent nor empty. -/
theorem truthy_eq_some {o : Option String} {s : String} :
    truthy o = some s ↔ o = some s ∧ s ≠ "" := by
  cases o with
  | none => simp [truthy]
  | some s' =>
    by_cases hs' : s' = ""
    · simp only [truthy, hs', if_true, Option.some.injEq]
      exact iff_of_false (fun h => by cases h) fun h => h.2 h.1.symm
    · simp only [truthy, hs', if_false, Option.some.injEq]
      exact (and_iff_left_of_imp fun h => h ▸ hs').symm

/-- `create_room`, where `validate_max_users(None)` is the default. -/
def createRoom (data : RoomCreate) : Op (Room × Token × Token × String) := do
  let lifetime ← validateLifetime env data.lifetime_seconds
  let password_hash := (truthy data.password).map env.hash_password
  roomRepository.createRoom env data.name password_hash data.guest_upload_enabled
    data.guest_download_enabled env.max_users_per_room lifetime

/-- `_assert_joinable`. -/
def assertJoinable (room : Room) : Op Unit := do
  Prog.require (room.status ≠ .expired ∧ room.status ≠ .deleted) (error .roomExpired "")
  Prog.require (room.status = .active) (error .dropRoomError "Room is not active")
  let expired ← hasExpired room.expires_at
  Prog.require (expired = false) (error .roomExpired "")

/-- `hash_token` of a text from a body. -/
def hashToken (token : PyStr) : Op TokenHash :=
  match token.encode with
  | some token => pure (env.hash_token token)
  | none => .raise .exception

/-- `_resolve_role`. -/
def resolveRole (room : Room) (password : Option String) (owner_token : Option PyStr) :
    Op Role := do
  match PyStr.truthy owner_token with
  | some owner_token =>
    let hash ← hashToken env owner_token
    Prog.require (room.owner_token_hash = hash) (error .invalidOwnerToken "")
    pure .owner
  | none =>
    match truthy room.password_hash with
    | some password_hash =>
      -- Whether the password is missing or wrong is not revealed.
      match truthy password with
      | some password =>
        Prog.require (env.verify_password password password_hash = true)
          (error .wrongPassword "")
        pure .guest
      | none => .raise (error .wrongPassword "")
    | none => pure .guest

/-- `join_room`: the new session with its token. -/
def joinRoom (room : Room) (display_name password : Option String)
    (owner_token : Option PyStr) : Op (SessionRecord × Token) := do
  assertJoinable room
  let role ← resolveRole env room password owner_token
  let ok ← roomRepository.incrementUserCountAtomic room.id
  Prog.require (ok = true) (error .roomFull "")
  let token ← generateToken
  let sess ← sessionRepository.createSession env room.id (env.hash_token token) display_name role
  pure (sess, token)

/-- `RoomPatch`: an absent field is left as it is. -/
structure RoomPatch where
  name : Option String
  guest_upload_enabled : Option Bool
  guest_download_enabled : Option Bool
  password : Option String

/-- The values that `patch_room` sets. -/
def RoomPatch.values (data : RoomPatch) : RoomUpdate :=
  .fields (data.name.map fun name => truthy (some (strip name))) data.guest_upload_enabled
    data.guest_download_enabled
    (data.password.map fun password =>
      if password = "" then none else some (env.hash_password password))

/-- `patch_room`. -/
def patchRoom (room : Room) (data : RoomPatch) : Op Room := do
  assertJoinable room
  if data.name = none ∧ data.guest_upload_enabled = none ∧ data.guest_download_enabled = none ∧
      data.password = none then
    pure room
  else
    let updated ← roomRepository.updateRoomFields room (data.values env)
    pure (updated.getD room)

end roomService

/-- `_claim_quota`, which `file_service` and `upload_service` hold a copy of each. -/
def claimQuota (room_id size_bytes : ℕ) : Op Bool :=
  updateAt .rooms room_id
    (.claimQuota size_bytes env.max_files_per_room env.max_room_storage_bytes)

/-- `(filename or "unnamed")[:255] or "unnamed"`. -/
def safeName (filename : Option String) : String :=
  match roomService.truthy filename with
  | some filename => String.ofList (filename.toList.take 255)
  | none => "unnamed"

/-- `CHUNK_SIZE` of the storage backends. -/
def chunkSize : ℕ := 1024 * 256

/-! ## Files -/

namespace fileService

/-- The chunks of a request body, in which reading may fail at any point. -/
abbrev Source : Type := List (Except Err Bytes)

/-- `_authorize_upload`. -/
def authorizeUpload (room : Room) (actor : SessionRecord) : Op Unit := do
  Prog.require (room.status = .active) (error .roomExpired "")
  Prog.require (actor.role = .owner ∨ room.guest_upload_enabled = true)
    (error .permissionDenied "Guest uploads are disabled in this room")

/-- `_authorize_download`. -/
def authorizeDownload (room : Room) (actor : SessionRecord) : Op Unit := do
  Prog.require (room.status = .active) (error .roomExpired "")
  Prog.require (actor.role = .owner ∨ room.guest_download_enabled = true)
    (error .permissionDenied "Guest downloads are disabled in this room")

/-- What `_check_size` raises. -/
def tooLarge : Err :=
  let limit := env.max_file_size_bytes
  error .fileTooLarge s!"File exceeds the maximum size of {limit} bytes"

/-- The rest of `_source`, after `total` bytes: what it yields, with the new total. -/
def drain (total : ℕ) : Source → Except Err (Bytes × ℕ)
  | [] => .ok ([], total)
  | .error e :: _ => .error e
  | .ok chunk :: chunks =>
    let total := total + chunk.length
    if env.max_file_size_bytes < total then .error (tooLarge env)
    else match drain total chunks with
      | .ok (data, total) => .ok (chunk ++ data, total)
      | .error e => .error e

/-- `anext(chunks, b"")`, with what is left of the chunks. -/
def anext : Source → Except Err (Bytes × Source)
  | [] => .ok ([], [])
  | .error e :: _ => .error e
  | .ok chunk :: chunks => .ok (chunk, chunks)

/-- `_cleanup_failed_upload`. -/
def cleanupFailedUpload (file_id : ℕ) (storage_key : Uuid) : Op Unit := do
  storage.delete storage_key.text
  let _ ← fileRepository.deleteRecord file_id

/-- The body of the `try` of `upload_file`: the first chunk and the size of what was stored. -/
def putSource (storage_key : Uuid) (chunks : Source) : Op (Bytes × ℕ) := do
  match anext chunks with
  | .error e => .raise e
  | .ok (first_chunk, chunks) =>
    Prog.require (first_chunk.length ≤ env.max_file_size_bytes) (tooLarge env)
    let stream := drain env first_chunk.length chunks
    let _ ← storage.put storage_key.text (stream.map fun s => first_chunk ++ s.1)
    match stream with
    | .ok (_, total) => pure (first_chunk, total)
    | .error e => .raise e

/-- `upload_file`. -/
def uploadFile (room : Room) (actor : SessionRecord) (filename content_type : Option String)
    (chunks : Source) : Op FileRecord := do
  authorizeUpload room actor
  let safe_name := safeName filename
  let storage_key ← uuid4
  let rec_ ← fileRepository.createFileRecord room.id safe_name storage_key content_type
    (some actor.id) (room.expires_at + seconds 300)
  let (first_chunk, total) ← (putSource env storage_key chunks).tryCatch fun e => do
    cleanupFailedUpload rec_.id storage_key
    match e with
    | .dropRoom .. => .raise e
    | _ => .raise (error .dropRoomError "Upload failed while writing to storage")
  Prog.require (total ≤ env.max_file_size_bytes) (tooLarge env)
  let claimed ← claimQuota env room.id total
  if claimed then
    let confirmed := { rec_ with
      content_type := some (magic.normalizeContentType first_chunk content_type)
      size_bytes := total
      status := .confirmed }
    fileRepository.flush rec_ confirmed
    let _ ← roomRepository.createAuditEvent (some room.id) "FILE_UPLOADED"
    pure confirmed
  else
    cleanupFailedUpload rec_.id storage_key
    .raise (error .roomStorageQuotaExceeded "Room storage quota exceeded")

/-- `get_file`. -/
def getFile (room : Room) (file_id : ℤ) : Op FileRecord := do
  match ← fileRepository.getFileById file_id with
  | some rec_ =>
    Prog.require (rec_.room_id = room.id ∧ rec_.status = .confirmed) (error .fileNotFound "")
    pure rec_
  | none => .raise (error .fileNotFound "")

/-- `download_file`; the stream that it returns is read by the caller. -/
def downloadFile (room : Room) (actor : SessionRecord) (file_id : ℤ) : Op FileRecord := do
  authorizeDownload room actor
  let rec_ ← getFile room file_id
  let _ ← fileRepository.incrementDownload rec_.id
  pure rec_

/-- `delete_file`. -/
def deleteFile (room : Room) (actor : SessionRecord) (file_id : ℤ) : Op FileRecord := do
  Prog.require (actor.role = .owner)
    (error .permissionDenied "Only the room owner can delete files")
  let rec_ ← getFile room file_id
  let _ ← fileRepository.markDeleted rec_.id
  let _ ← roomRepository.updateStorageAndFileCount room.id (-rec_.size_bytes) (-1)
  let _ ← roomRepository.createAuditEvent (some room.id) "FILE_DELETED"
  storage.delete rec_.storage_key.text
  pure { rec_ with status := .deleted }

end fileService

/-! ## Uploads in chunks -/

namespace uploadService

/-- `{index:06d}`. -/
def pad (index : ℕ) : List Char :=
  let digits := Nat.toDigits 10 index
  List.replicate (6 - digits.length) '0' ++ digits

/-- `part_key`. -/
def partKey (storage_key : Uuid) (index : ℕ) : Key := storage_key.text ++ '.' :: pad index

/-- The prefix of the part keys of an upload. -/
def partPrefix (storage_key : Uuid) : Key := storage_key.text ++ ['.']

/-- `_authorize_chunked_upload`. -/
def authorizeChunkedUpload (room : Room) (actor : SessionRecord) : Op Unit := do
  Prog.require (room.status = .active) (error .roomExpired "")
  Prog.require (actor.role = .owner ∨ room.guest_upload_enabled = true)
    (error .permissionDenied "Guest uploads are disabled in this room")

/-- `create_upload_session`. -/
def createUploadSession (room : Room) (actor : SessionRecord)
    (filename content_type : Option String) (total_size_bytes total_chunks : ℕ) :
    Op FileRecord := do
  authorizeChunkedUpload room actor
  Prog.require (0 < total_size_bytes ∧ total_size_bytes ≤ env.max_file_size_bytes)
    (fileService.tooLarge env)
  Prog.require (0 < total_chunks ∧ total_chunks ≤ 100000)
    (error .dropRoomError "total_chunks out of bounds")
  let safe_name := safeName filename
  let storage_key ← uuid4
  let rec_ ← fileRepository.createFileRecord room.id safe_name storage_key content_type
    (some actor.id) (room.expires_at + seconds 300)
  let sized := { rec_ with total_size_bytes := some total_size_bytes }
  fileRepository.flush rec_ sized
  pure sized

/-- `store_chunk`: the record with the bytes staged so far. -/
def storeChunk (rec_ : FileRecord) (index : ℕ) (chunk : Bytes) : Op FileRecord := do
  Prog.require (rec_.status = .pending) (error .fileNotFound "Upload session is not active")
  Prog.require (chunk ≠ []) (error .dropRoomError "Empty chunk")
  let limit := env.upload_chunk_size_bytes
  Prog.require (chunk.length ≤ limit)
    (error .fileTooLarge s!"Chunk exceeds the maximum chunk size of {limit} bytes")
  let _ ← storage.put (partKey rec_.storage_key index) (.ok chunk)
  let stored := { rec_ with size_bytes := rec_.size_bytes + chunk.length }
  fileRepository.flush rec_ stored
  pure stored

/-- `k.rsplit(".", 1)[1]`. -/
def keySuffix (k : Key) : List Char := (k.reverse.takeWhile (· ≠ '.')).reverse

/-- `str.isdigit`, for ASCII. -/
def isDigits (s : List Char) : Bool := !s.isEmpty && s.all Char.isDigit

/-- `int(s)` of ASCII digits. -/
def parseInt (s : List Char) : ℕ := s.foldl (fun n c => 10 * n + (c.toNat - '0'.toNat)) 0

/-- `received`: the part keys by their index, the last one listed if there are several. -/
def received (keys : List Key) : AList fun _ : ℕ => Key :=
  keys.foldl (fun d k =>
    if isDigits (keySuffix k) then d.insert (parseInt (keySuffix k)) k else d) ∅

/-- `missing`: the indices below `n` that were not received. -/
def missing (keys : List Key) (n : ℕ) : List ℕ :=
  (List.range n).filter fun i => ((received keys).lookup i).isNone

/-- `received[i]` for `i` below `n`. -/
def parts (keys : List Key) (n : ℕ) : List Key :=
  (List.range n).filterMap fun i => (received keys).lookup i

/-- `_merged`. -/
def merged : List Key → Op Bytes
  | [] => pure []
  | k :: ks => do
    let part ← storage.getStream k
    let rest ← merged ks
    pure (part ++ rest)

/-- The body of the `try` of `complete_upload_session`: the size of the object and its first
chunk. -/
def assemble (storage_key : Uuid) (parts : List Key) : Op (ℕ × Bytes) := do
  let data ← merged parts
  let total ← storage.put storage_key.text (.ok data)
  let stream ← storage.getStream storage_key.text
  pure (total, stream.take chunkSize)

/-- `complete_upload_session` from the quota claim on. -/
def confirmUpload (room : Room) (rec_ : FileRecord) (parts : List Key) (total : ℕ)
    (first_chunk : Bytes) : Op FileRecord := do
  let claimed ← claimQuota env room.id total
  if claimed then
    let confirmed := { rec_ with
      content_type := some (magic.normalizeContentType first_chunk rec_.content_type)
      size_bytes := total
      status := .confirmed }
    fileRepository.flush rec_ confirmed
    let _ ← roomRepository.createAuditEvent (some room.id) "FILE_UPLOADED"
    parts.forM storage.delete
    pure confirmed
  else
    storage.delete rec_.storage_key.text
    parts.forM storage.delete
    .raise (error .roomStorageQuotaExceeded "Room storage quota exceeded")

/-- `complete_upload_session` once the chunks are known to be there. -/
def assembleUpload (room : Room) (rec_ : FileRecord) (parts : List Key) : Op FileRecord := do
  let (total, first_chunk) ← (assemble rec_.storage_key parts).tryCatch fun e => do
    storage.delete rec_.storage_key.text
    .raise e
  let total_expected := rec_.total_size_bytes.getD 0
  if total ≠ total_expected then
    storage.delete rec_.storage_key.text
    .raise (error .dropRoomError s!"Size mismatch: expected {total_expected} bytes, got {total}")
  else if env.max_file_size_bytes < total then
    storage.delete rec_.storage_key.text
    .raise (error .fileTooLarge "")
  else confirmUpload env room rec_ parts total first_chunk

/-- `complete_upload_session`. -/
def completeUploadSession (room : Room) (actor : SessionRecord) (rec_ : FileRecord)
    (expected_total_chunks : ℕ) : Op FileRecord := do
  Prog.require (rec_.room_id = room.id) (error .fileNotFound "")
  authorizeChunkedUpload room actor
  Prog.require (rec_.status = .pending) (error .fileNotFound "Upload session is not active")
  let keys ← storage.listKeys (partPrefix rec_.storage_key)
  let first := (missing keys expected_total_chunks).take 10
  Prog.require (missing keys expected_total_chunks = [])
    (error .dropRoomError s!"Upload incomplete: missing chunk(s) {first}")
  assembleUpload env room rec_ (parts keys expected_total_chunks)

/-- `cleanup_upload_parts`. -/
def cleanupUploadParts (rec_ : FileRecord) : Op Unit := do
  let keys ← storage.listKeys (partPrefix rec_.storage_key)
  keys.forM storage.delete

/-- `abort_upload_session`. -/
def abortUploadSession (room : Room) (rec_ : FileRecord) : Op Unit := do
  Prog.require (rec_.room_id = room.id) (error .fileNotFound "")
  cleanupUploadParts rec_
  let _ ← fileRepository.deleteRecord rec_.id
  let _ ← roomRepository.createAuditEvent (some room.id) "UPLOAD_ABORTED"

end uploadService

/-! ## Messages -/

namespace messageService

/-- `validate_body`. -/
def validateBody (body : String) : Op String := do
  let body := strip body
  Prog.require (body ≠ "") (error .dropRoomError "Message must not be empty")
  let limit := env.max_message_length
  Prog.require (body.length ≤ limit)
    (error .dropRoomError s!"Message exceeds the maximum length of {limit} characters")
  pure body

/-- `send_message`. -/
def sendMessage (room : Room) (actor : SessionRecord) (body : String) : Op Message := do
  let clean ← validateBody env body
  messageRepository.createMessage room.id (some actor.id) actor.display_name clean

/-- `list_messages`. -/
def listMessages (room_id : ℕ) : Op (List Message) :=
  messageRepository.listRoomMessages room_id env.chat_scrollback

/-- `delete_message`. -/
def deleteMessage (room : Room) (actor : SessionRecord) (message_id : ℤ) : Op Bool := do
  Prog.require (actor.role = .owner)
    (error .permissionDenied "Only the room owner can delete chat messages")
  messageRepository.deleteMessage message_id room.id

end messageService

/-! ## Cleanup -/

namespace cleanupService

/-- `sweep_deleted_objects`. -/
def sweepDeletedObjects : Op Unit := do
  let rows ← select .files fun _ r => r.status == .deleted
  (rows.take 500).forM fun r => storage.delete r.2.storage_key.text

/-- `sweep_stale_pending`. -/
def sweepStalePending : Op Unit := do
  let now ← utcnow
  let cutoff := now - seconds (24 * 60 * 60)
  let rows ← select .files fun _ r => fileRepository.stalePending cutoff r
  rows.forM fun r => do
    storage.delete r.2.storage_key.text
    let _ ← fileRepository.deleteRecord r.1

/-- `_delete_content`. -/
def deleteContent (room_id : ℕ) : Op Unit := do
  let keys ← fileRepository.listRoomStorageKeys room_id
  keys.forM fun key => storage.delete key.text
  let _ ← fileRepository.deleteFileRecords room_id
  let _ ← messageRepository.deleteMessagesByRoom room_id
  let _ ← sessionRepository.deleteByRoom room_id
  let _ ← deleteWhere .auditEvents room_id

/-- `cleanup_room`: whether this invocation did the wiping. -/
def cleanupRoom (room : Room) : Op Bool := do
  if room.status = .active then
    let _ ← roomRepository.markRoomExpired room.id
  if ← roomRepository.markRoomDeleting room.id then
    deleteContent room.id
    let _ ← roomRepository.markRoomDeleted room.id
    pure true
  else
    -- Already being deleted by another worker.
    pure false

/-- One room of `run_cleanup_pass`: the answer of `cleanup_room`, or `none` if it raised. A rollback
expires the rooms that were loaded before it, and `refresh` is what becomes of the next look at one
of them. -/
def tryRoom (refresh : Room → Op Room) (expired : Bool) (room : Room) : Op (Option Bool) :=
  (do
    let loaded ← if expired then refresh room else pure room
    let wiped ← cleanupRoom loaded
    pure (some wiped) : Op (Option Bool)).tryCatch fun _ => do
  issue (.sql .rollback)
  pure none

/-- The loop of `run_cleanup_pass`, with the rooms that were torn down so far. -/
def tryRooms (refresh : Room → Op Room) : Bool → List Room → List Room → Op (List Room)
  | _, cleaned, [] => pure cleaned
  | expired, cleaned, room :: rooms => do
    match ← tryRoom refresh expired room with
    | some true => tryRooms refresh expired (cleaned ++ [room]) rooms
    | some false => tryRooms refresh expired cleaned rooms
    | none => tryRooms refresh true cleaned rooms

/-- `run_cleanup_pass`: the rooms that were torn down. -/
def runCleanupPass (refresh : Room → Op Room) : Op (List Room) := do
  sweepDeletedObjects
  sweepStalePending
  let rooms ← roomRepository.listRoomsPendingCleanup
  tryRooms refresh false [] rooms

end cleanupService

end DropRoom
