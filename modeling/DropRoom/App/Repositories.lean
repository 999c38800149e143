import DropRoom.App.World

/-!
# Repositories

The functions of `app/repositories`, each under its name in the namespace of its file. An
`update(..).where(id == .., ..).values(..)` is an `updateAt` with the update that stands for its
further conditions and its values; `rowcount > 0` is its answer. A flush of an object that was
loaded writes the attributes that were changed, and fails if the row is gone.

The scheduler calls nothing that ends the sessions whose time is over:
`session_repository.delete_expired_sessions` has no caller, so it is not modelled.
-/

namespace DropRoom

open Effect

variable (env : Env)

/-! ## Rooms -/

namespace roomRepository

/-- `create_room`: the room with its access token, its owner token and its code. -/
def createRoom (name password_hash : Option String)
    (guest_upload_enabled guest_download_enabled : Bool) (max_users : ℤ) (lifetime_seconds : ℕ) :
    Op (Room × Token × Token × String) := do
  let access_token ← generateToken
  let owner_token ← generateToken
  let room_code ← generateRoomCode
  let now ← utcnow
  let row : RoomRow := {
    room_code
    access_token_hash := env.hash_token access_token
    access_token_signed := some (env.sign_access_token access_token)
    owner_token_hash := env.hash_token owner_token
    password_hash
    name
    status := .active
    guest_upload_enabled
    guest_download_enabled
    max_users
    user_count := 0
    storage_used_bytes := 0
    file_count := 0
    created_at := now
    expires_at := now + seconds lifetime_seconds }
  let id ← insert .rooms row
  let _ ← insert .auditEvents { room_id := some id, event_type := "ROOM_CREATED" }
  pure ({ row with id }, access_token, owner_token, room_code)

/-- `get_room_by_access_token`: by the hash of the token. -/
def getRoomByAccessToken (access_token : Token) : Op (Option Room) := do
  let h := env.hash_token access_token
  let rows ← select .rooms fun _ r => r.access_token_hash == h
  scalarOneOrNone (rows.map toRoom)

/-- `get_room_by_code`. -/
def getRoomByCode (room_code : String) : Op (Option Room) := do
  let code := strip (env.upper room_code)
  let rows ← select .rooms fun _ r => r.room_code == code
  scalarOneOrNone (rows.map toRoom)

/-- `recover_access_token`: the token that the encrypted column holds, while its signature is good.
-/
def recoverAccessToken (room : Room) : Option Token :=
  match room.access_token_signed with
  | some signed => if signed = "" then none else env.unsign_access_token signed
  | none => none

/-- `get_room_by_id`. -/
def getRoomById (room_id : ℕ) : Op (Option Room) := do
  let rows ← select .rooms fun i _ => i == room_id
  scalarOneOrNone (rows.map toRoom)

/-- `update_room_fields`, for a change of the values that `patch_room` collects. The room that is
read back is the object that the transaction has loaded before, with the new values. -/
def updateRoomFields (room : Room) (values : RoomUpdate) : Op (Option Room) := do
  let _ ← updateAt .rooms room.id values
  let found ← getRoomById room.id
  pure (found.map fun _ => { values.set room.toRoomRow with id := room.id })

/-- `increment_user_count_atomic`: whether there was a free place. -/
def incrementUserCountAtomic (room_id : ℕ) : Op Bool :=
  updateAt .rooms room_id .incrementUserCount

/-- `decrement_user_count`. -/
def decrementUserCount (room_id : ℕ) : Op Bool := updateAt .rooms room_id .decrementUserCount

/-- `update_storage_and_file_count`. -/
def updateStorageAndFileCount (room_id : ℕ) (size_delta file_delta : ℤ) : Op Bool :=
  updateAt .rooms room_id (.addStorageAndFiles size_delta file_delta)

/-- `mark_room_expired`: ACTIVE to EXPIRED. -/
def markRoomExpired (room_id : ℕ) : Op Bool := updateAt .rooms room_id .markExpired

/-- `mark_room_deleting`: EXPIRED to DELETING. -/
def markRoomDeleting (room_id : ℕ) : Op Bool := updateAt .rooms room_id .markDeleting

/-- `mark_room_deleted`: DELETING to DELETED. -/
def markRoomDeleted (room_id : ℕ) : Op Bool := updateAt .rooms room_id .markDeleted

/-- The rooms that `list_rooms_pending_cleanup` selects. -/
def pendingCleanup (now : Time) (r : RoomRow) : Bool :=
  (r.status == .active || r.status == .expired) && decide (r.expires_at ≤ now)

/-- `list_rooms_pending_cleanup`. -/
def listRoomsPendingCleanup : Op (List Room) := do
  let now ← utcnow
  let rows ← select .rooms fun _ r => pendingCleanup now r
  pure ((rows.take 100).map toRoom)

/-- `create_audit_event`. -/
def createAuditEvent (room_id : Option ℕ) (event_type : String) : Op ℕ :=
  insert .auditEvents { room_id, event_type }

end roomRepository

/-! ## Sessions -/

namespace sessionRepository

/-- `create_session`. -/
def createSession (room_id : ℕ) (session_token_hash : TokenHash) (display_name : Option String)
    (role : Role) : Op SessionRecord := do
  let now ← utcnow
  let row : SessionRow := {
    room_id
    session_token_hash
    display_name := match display_name with
      | some name => some (if name = "" then "Guest" else name)
      | none => some "Guest"
    role
    connected_at := now
    last_seen_at := now
    expires_at := now + seconds env.session_ttl_seconds }
  let id ← insert .sessions row
  pure { row with id }

/-- `get_by_token_hash`. -/
def getByTokenHash (token_hash : TokenHash) : Op (Option SessionRecord) := do
  let now ← utcnow
  let rows ← select .sessions fun _ r => r.session_token_hash == token_hash &&
    decide (now < r.expires_at)
  scalarOneOrNone (rows.map toSession)

/-- `get_active_sessions`. -/
def getActiveSessions (room_id : ℕ) : Op (List SessionRecord) := do
  let now ← utcnow
  let rows ← select .sessions fun _ r => r.room_id == room_id && decide (now < r.expires_at)
  pure (rows.map toSession)

/-- `delete_by_room`. -/
def deleteByRoom (room_id : ℕ) : Op ℕ := deleteWhere .sessions room_id

/-- `expire_session`: the end of its life is set to the present. -/
def expireSession (session_id : ℕ) : Op Bool := do
  let expires_at ← utcnow
  let last_seen_at ← utcnow
  updateAt .sessions session_id (.expire expires_at last_seen_at)

/-- The flush of a session whose `expires_at` and `last_seen_at` were set. -/
def flush (loaded new : SessionRecord) : Op Unit :=
  if new.toSessionRow = loaded.toSessionRow then pure ()
  else do
    let updated ← updateAt .sessions loaded.id (.flush loaded.toSessionRow new.toSessionRow)
    Prog.require (updated = true) .exception

end sessionRepository

/-! ## Files -/

namespace fileRepository

/-- `create_file_record`: a PENDING record of size 0. -/
def createFileRecord (room_id : ℕ) (original_filename : String) (storage_key : Uuid)
    (content_type : Option String) (uploaded_by : Option ℕ) (expires_at : Time) :
    Op FileRecord := do
  let now ← utcnow
  let row : FileRow := {
    room_id
    original_filename
    storage_key
    content_type
    size_bytes := 0
    total_size_bytes := none
    status := .pending
    uploaded_by
    download_count := 0
    created_at := now
    expires_at := some expires_at }
  let id ← insert .files row
  pure { row with id }

/-- `get_file_by_id`. -/
def getFileById (file_id : ℤ) : Op (Option FileRecord) := do
  let rows ← select .files fun i _ => (i : ℤ) == file_id
  scalarOneOrNone (rows.map toFile)

/-- `mark_deleted`. -/
def markDeleted (file_id : ℕ) : Op Bool := updateAt .files file_id .markDeleted

/-- `increment_download`. -/
def incrementDownload (file_id : ℕ) : Op Bool := updateAt .files file_id .incrementDownload

/-- `list_confirmed_files`. -/
def listConfirmedFiles (room_id : ℕ) : Op (List FileRecord) := do
  let rows ← select .files fun _ r => r.room_id == room_id && r.status == .confirmed
  pure (rows.map toFile)

/-- `list_room_storage_keys`. -/
def listRoomStorageKeys (room_id : ℕ) : Op (List Uuid) := do
  let rows ← select .files fun _ r => r.room_id == room_id
  pure (rows.map fun r => r.2.storage_key)

/-- `delete_file_records`. -/
def deleteFileRecords (room_id : ℕ) : Op ℕ := deleteWhere .files (.byRoom room_id)

/-- `list_deleted_records`. -/
def listDeletedRecords : Op (List FileRecord) := do
  let rows ← select .files fun _ r => r.status == .deleted
  pure ((rows.take 500).map toFile)

/-- The condition of `list_stale_pending`. -/
def stalePending (before : Time) (r : FileRow) : Bool :=
  r.status == .pending && decide (r.created_at < before)

/-- `list_stale_pending`. -/
def listStalePending (before : Time) : Op (List FileRecord) := do
  let rows ← select .files fun _ r => stalePending before r
  pure ((rows.take 500).map toFile)

/-- `list_all_storage_keys`. -/
def listAllStorageKeys : Op (List Key) := do
  let rows ← select .files fun _ _ => true
  pure (rows.map fun r => r.2.storage_key.text)

/-- The flush of a record that was changed after it was loaded. -/
def flush (loaded new : FileRecord) : Op Unit :=
  if new.toFileRow = loaded.toFileRow then pure ()
  else do
    let updated ← updateAt .files loaded.id (.flush loaded.toFileRow new.toFileRow)
    Prog.require (updated = true) .exception

/-- `db.delete(rec)` with its flush, and `delete(FileRecord).where(id == ..)`. -/
def deleteRecord (file_id : ℕ) : Op ℕ := deleteWhere .files (.byId file_id)

end fileRepository

/-! ## Messages -/

namespace messageRepository

/-- `create_message`. -/
def createMessage (room_id : ℕ) (sender_session_id : Option ℕ) (display_name : Option String)
    (body : String) : Op Message := do
  let now ← utcnow
  let row : MessageRow := { room_id, sender_session_id, display_name, body, created_at := now }
  let id ← insert .messages row
  pure { row with id }

/-- `list_room_messages`: the latest `limit` messages, oldest first. -/
def listRoomMessages (room_id limit : ℕ) : Op (List Message) := do
  let rows ← select .messages fun _ r => r.room_id == room_id
  let desc := rows.insertionSort fun a b => b.2.created_at ≤ a.2.created_at
  pure ((desc.take limit).map toMessage).reverse

/-- `delete_message`. -/
def deleteMessage (message_id : ℤ) (room_id : ℕ) : Op Bool := do
  let n ← deleteWhere .messages (.byId message_id room_id)
  pure (decide (0 < n))

/-- `delete_messages_by_room`. -/
def deleteMessagesByRoom (room_id : ℕ) : Op ℕ := deleteWhere .messages (.byRoom room_id)

end messageRepository

end DropRoom
