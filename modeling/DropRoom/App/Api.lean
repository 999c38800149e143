import DropRoom.App.Services

/-!
# Endpoints

The dependencies of `app/api/deps.py` and the endpoints of `app/api`, each under its name in the
namespace of its file. An endpoint has its own database session, commits after its service returns,
and tells the sockets of the room afterwards; its dependencies run in the order of its parameters.

An endpoint answers the values that its response is rendered from. The rendering, the cookies that
a response sets, and `GET /csrf` and the health check, which touch nothing that is shared, are left
out. Bodies are given as validated.
-/

namespace DropRoom

open Effect

variable (env : Env)

/-! ## Requests -/

/-- What the dependencies read of a request. -/
structure Request where
  session_cookie : Option Token
  csrf_cookie : Option String
  x_csrf_token : Option String
  x_forwarded_for : Option String
  client_host : Option String

/-- The methods of the endpoints. -/
inductive Method
  | get | post | put | patch | delete

/-- `client_ip`. -/
def clientIp (request : Request) : String :=
  match roomService.truthy request.x_forwarded_for with
  | some xff => strip (String.ofList (xff.toList.takeWhile (· ≠ ',')))
  | none => request.client_host.getD "unknown"

/-- `limiter.check`. -/
def limiterCheck (scope key : String) (limit : ℕ) : Op Unit :=
  if env.rate_limit_enabled then do
    let ok ← issue (.checkRate scope key limit env.rate_limit_window_seconds)
    Prog.require (ok = true) (error .rateLimited "Too many requests; try again shortly")
  else pure ()

/-- `validate_csrf`. -/
def validateCsrf (method : Method) (request : Request) : Op Unit :=
  match method with
  | .get => pure ()
  | _ =>
    match roomService.truthy request.csrf_cookie, roomService.truthy request.x_csrf_token with
    | some cookie_value, some x_csrf_token => do
      Prog.require (env.verify_csrf_token cookie_value = true)
        (error .csrfValidationFailed "CSRF cookie is not valid")
      Prog.require (cookie_value = x_csrf_token)
        (error .csrfValidationFailed "CSRF header does not match cookie")
    | _, _ => .raise (error .csrfValidationFailed "CSRF token missing")

/-- `require_session`, which `rooms.py` has a copy of as `_load_session`. -/
def requireSession (request : Request) : Op SessionRecord := do
  match roomService.truthy request.session_cookie with
  | some token =>
    match ← sessionRepository.getByTokenHash (env.hash_token token) with
    | some session =>
      let expired ← hasExpired session.expires_at
      Prog.require (expired = false) (error .notAuthenticated "")
      pure session
    | none => .raise (error .notAuthenticated "")
  | none => .raise (error .notAuthenticated "")

/-- `get_room_by_token`. -/
def getRoomByToken (room_token : Token) : Op Room := do
  match ← roomRepository.getRoomByAccessToken env room_token with
  | some room => pure room
  | none => .raise (error .roomNotFound "")

/-- `require_member`. -/
def requireMember (room_token : Token) (request : Request) : Op (SessionRecord × Room) := do
  let session ← requireSession env request
  let room ← getRoomByToken env room_token
  Prog.require (session.room_id = room.id)
    (error .permissionDenied "You are not a member of this room")
  pure (session, room)

/-- `require_room_owner` of `rooms.py`. -/
def requireRoomOwner (room_token : Token) (request : Request) : Op (SessionRecord × Room) := do
  let session ← requireSession env request
  let room ← getRoomByToken env room_token
  Prog.require (session.room_id = room.id)
    (error .permissionDenied "You are not a member of this room")
  Prog.require (session.role = .owner)
    (error .permissionDenied "Only the room owner can do this")
  pure (session, room)

/-! ## Views and broadcasts -/

/-- `_file_view`. -/
def fileView (rec_ : FileRecord) (uploaded_by_name : Option String) : FileView where
  id := rec_.id
  original_filename := rec_.original_filename
  content_type := rec_.content_type
  size_bytes := rec_.size_bytes
  status := rec_.status
  download_count := rec_.download_count
  uploaded_by_name
  created_at := rec_.created_at

/-- `_message_view`. -/
def messageView (msg : Message) : MessageView where
  id := msg.id
  display_name := msg.display_name
  body := msg.body
  created_at := msg.created_at

/-- `room_view`. -/
def roomView (room : Room) : RoomView where
  room_code := room.room_code
  name := room.name
  status := room.status
  guest_upload_enabled := room.guest_upload_enabled
  guest_download_enabled := room.guest_download_enabled
  user_count := room.user_count
  max_users := room.max_users
  storage_used_bytes := room.storage_used_bytes
  file_count := room.file_count
  created_at := room.created_at
  expires_at := room.expires_at

/-- `ws_channel`. -/
def wsChannel (room : Room) : Channel := .room room.id

/-- `manager.broadcast`: a socket that cannot be reached is passed over. -/
def broadcast (ch : Channel) (event : Event) (exclude_session_ids : List ℕ) : Op Unit := do
  let items ← issue (.items ch)
  items.forM fun item =>
    if item.1 ∈ exclude_session_ids then pure ()
    else do
      let sockets ← issue (.socketsOf ch item.1 item.2)
      sockets.forM fun ws => (sendJson ws event).tryCatch fun _ => pure ()

/-! ## Rooms -/

namespace rooms

/-- `JoinRequest`, with `room_code` for `JoinByCodeRequest`. -/
structure JoinRequest where
  display_name : Option String
  password : Option String
  owner_token : Option PyStr

/-- The live session of the room that `_establish_session` uses again, with its token. -/
def existingSession (room : Room) (existing_session_token : Option Token) :
    Op (Option (SessionRecord × Token)) :=
  match roomService.truthy existing_session_token with
  | some token => do
    let existing ← sessionRepository.getByTokenHash (env.hash_token token)
    pure (existing.bind fun existing =>
      if existing.room_id = room.id then some (existing, token) else none)
  | none => pure none

/-- `_establish_session`. -/
def establishSession (room : Room) (join : JoinRequest)
    (existing_session_token : Option Token) : Op (SessionRecord × Token × Bool) := do
  match ← existingSession env room existing_session_token with
  | some (existing, token) =>
    let now ← utcnow
    let last_seen_at ← utcnow
    let renewed := { existing with
      expires_at := now + seconds env.session_ttl_seconds
      last_seen_at }
    sessionRepository.flush existing renewed
    pure (renewed, token, false)
  | none =>
    let (sess, token) ← roomService.joinRoom env room join.display_name join.password
      join.owner_token
    pure (sess, token, true)

/-- `POST /rooms`: the owner joins at once. -/
def createRoom (body : roomService.RoomCreate) (request : Request) :
    Op (Room × Token × Token × Token) := withSession do
  validateCsrf env .post request
  limiterCheck env "create_room" (clientIp request) env.create_room_limit
  let (room, access_token, owner_token, _) ← roomService.createRoom env body
  let (_, token) ← roomService.joinRoom env room (some "Owner") none
    (some (.of owner_token))
  commit
  pure (room, access_token, owner_token, token)

/-- `GET /rooms/{room_token}`: the view, `passwordRequired`, `remainingSeconds` and `canJoin`. -/
def getRoom (room_token : Token) : Op (RoomView × Bool × ℕ × Bool) := withSession do
  let room ← getRoomByToken env room_token
  let now ← utcnow
  pure (roomView room, (roomService.truthy room.password_hash).isSome,
    (room.expires_at - now) / 1000000,
    room.status == .active && decide (room.user_count < room.max_users))

/-- `POST /rooms/{room_token}/join` after the checks of the request. -/
def join (room_token : Token) (body : JoinRequest) (existing_token : Option Token) :
    Op (SessionRecord × Token) := do
  let room ← getRoomByToken env room_token
  let (sess, token, _) ← establishSession env room body existing_token
  commit
  pure (sess, token)

/-- `POST /rooms/{room_token}/join`. -/
def joinRoom (room_token : Token) (body : JoinRequest) (request : Request) :
    Op (SessionRecord × Token) := withSession do
  validateCsrf env .post request
  limiterCheck env "join" (clientIp request) env.generic_limit
  join env room_token body request.session_cookie

/-- What `join_by_code` makes of an exception, which tells only that a room is full. -/
def hideFailure : Err → Err
  | .dropRoom .roomFull detail => .dropRoom .roomFull detail
  | .dropRoom _ _ => error .joinFailed "Room not found or has expired"
  | e => e

/-- `POST /rooms/join-by-code`: the session, its token and the access token of the room. -/
def joinByCode (room_code : String) (body : JoinRequest) (request : Request) :
    Op (SessionRecord × Token × Token) := withSession do
  validateCsrf env .post request
  limiterCheck env "join_by_code" (clientIp request) env.join_by_code_limit
  let found ← roomRepository.getRoomByCode env room_code
  match found with
  | some room =>
    let (sess, token, _) ← (establishSession env room body request.session_cookie).tryCatch
      fun e => .raise (hideFailure e)
    commit
    let access_token := roomService.truthy (roomRepository.recoverAccessToken env room)
    pure (sess, token, access_token.getD room.room_code)
  | none => .raise (error .joinFailed "Room not found or has expired")

/-- `PATCH /rooms/{room_token}`. -/
def patchRoom (room_token : Token) (body : roomService.RoomPatch) (request : Request) :
    Op RoomView := withSession do
  let (_, room) ← requireRoomOwner env room_token request
  validateCsrf env .patch request
  let updated ← roomService.patchRoom env room body
  commit
  broadcast (wsChannel updated) (.roomSettingsChanged (roomView updated)) []
  pure (roomView updated)

/-- `DELETE /rooms/{room_token}`, where `force_delete_room` is `cleanup_room`. -/
def deleteRoom (room_token : Token) (request : Request) : Op Unit := withSession do
  let (_, room) ← requireRoomOwner env room_token request
  validateCsrf env .delete request
  let _ ← cleanupService.cleanupRoom room
  commit
  broadcast (wsChannel room) .roomExpired []

end rooms

/-! ## Files -/

namespace files

/-- `POST /rooms/{room_token}/files`. The limiter counts by the peer's address here. -/
def upload (room_token : Token) (filename content_type : Option String)
    (chunks : fileService.Source) (request : Request) : Op FileView := withSession do
  let (session_rec, room) ← requireMember env room_token request
  validateCsrf env .post request
  limiterCheck env "upload" (request.client_host.getD "unknown") env.upload_limit
  let rec_ ← fileService.uploadFile env room session_rec filename content_type chunks
  commit
  let view := fileView rec_ session_rec.display_name
  broadcast (wsChannel room) (.fileUploadCompleted view) []
  pure view

/-- `GET /rooms/{room_token}/files`: the files with the used storage and the count. -/
def listFiles (room_token : Token) (request : Request) : Op (List FileView × ℤ × ℤ) :=
  withSession do
    let (_, room) ← requireMember env room_token request
    let records ← fileRepository.listConfirmedFiles room.id
    pure (records.map (fileView · none), room.storage_used_bytes, room.file_count)

/-- `GET /rooms/{room_token}/files/{file_id}/download`. The stream is read after the response has
begun. -/
def download (room_token : Token) (file_id : ℤ) (request : Request) :
    Op (FileRecord × Bytes) := do
  let rec_ ← withSession do
    let (session_rec, room) ← requireMember env room_token request
    let rec_ ← fileService.downloadFile room session_rec file_id
    commit
    let _ ← roomRepository.createAuditEvent (some room.id) "FILE_DOWNLOADED"
    commit
    match ← fileRepository.getFileById rec_.id with
    | some rec_ =>
      broadcast (wsChannel room) (.fileDownloaded rec_.id rec_.download_count) []
      pure rec_
    | none => .raise .exception
  let stream ← storage.getStream rec_.storage_key.text
  pure (rec_, stream)

/-- `DELETE /rooms/{room_token}/files/{file_id}` after the checks of the request. -/
def deleteAs (session_rec : SessionRecord) (room : Room) (file_id : ℤ) : Op FileView := do
  let rec_ ← fileService.deleteFile room session_rec file_id
  commit
  broadcast (wsChannel room) (.fileDeleted rec_.id) []
  pure (fileView rec_ session_rec.display_name)

/-- `DELETE /rooms/{room_token}/files/{file_id}`. -/
def delete (room_token : Token) (file_id : ℤ) (request : Request) : Op FileView :=
  withSession do
    let (session_rec, room) ← requireMember env room_token request
    validateCsrf env .delete request
    deleteAs session_rec room file_id

end files

/-! ## Uploads in chunks -/

namespace uploads

/-- `UploadSessionCreate`. -/
structure UploadSessionCreate where
  filename : String
  content_type : Option String
  total_size_bytes : ℕ
  total_chunks : ℕ
  total_size_bytes_pos : 0 < total_size_bytes
  total_chunks_pos : 0 < total_chunks

/-- `UploadSessionComplete`. -/
structure UploadSessionComplete where
  totalChunks : ℕ
  totalChunks_pos : 0 < totalChunks

/-- `_pending_session`, which checks the room of a record but not its status. -/
def pendingSession (room : Room) (upload_id : ℤ) : Op FileRecord := do
  match ← fileRepository.getFileById upload_id with
  | some rec_ =>
    Prog.require (rec_.room_id = room.id) (error .fileNotFound "")
    pure rec_
  | none => .raise (error .fileNotFound "")

/-- `_broadcast_progress`. -/
def broadcastProgress (room : Room) (rec_ : FileRecord) : Op Unit :=
  let total := rec_.total_size_bytes.getD 0
  if total ≠ 0 ∧ rec_.status = .pending then
    broadcast (wsChannel room)
      (.fileUploadProgress rec_.id rec_.size_bytes total rec_.original_filename) []
  else pure ()

/-- `POST /rooms/{room_token}/uploads`. -/
def createUploadSession (room_token : Token) (body : UploadSessionCreate)
    (request : Request) : Op FileRecord := withSession do
  let (session_rec, room) ← requireMember env room_token request
  validateCsrf env .post request
  limiterCheck env "upload" (clientIp request) env.upload_limit
  let rec_ ← uploadService.createUploadSession env room session_rec (some body.filename)
    body.content_type body.total_size_bytes body.total_chunks
  commit
  pure rec_

/-- `GET /rooms/{room_token}/uploads/{upload_id}`. -/
def getUploadStatus (room_token : Token) (upload_id : ℤ) (request : Request) :
    Op FileRecord := withSession do
  let (_, room) ← requireMember env room_token request
  pendingSession room upload_id

/-- `PUT /rooms/{room_token}/uploads/{upload_id}/chunks/{index}`, which checks no CSRF token. -/
def uploadChunk (room_token : Token) (upload_id index : ℤ) (body : Except Err Bytes)
    (request : Request) : Op FileRecord := withSession do
  let (_, room) ← requireMember env room_token request
  limiterCheck env "upload" (clientIp request) env.upload_limit
  let rec_ ← pendingSession room upload_id
  match body with
  | .error e => .raise e
  | .ok chunk =>
    Prog.require (chunk ≠ []) (error .dropRoomError "Empty chunk")
    Prog.require (0 ≤ index ∧ index < 1000000)
      (error .dropRoomError "Chunk index out of bounds")
    let stored ← uploadService.storeChunk env rec_ index.toNat chunk
    let _ ← roomRepository.createAuditEvent (some room.id) "UPLOAD_CHUNK"
    commit
    broadcastProgress room stored
    pure stored

/-- `POST /rooms/{room_token}/uploads/{upload_id}/complete` after the checks of the request. -/
def completeAs (session_rec : SessionRecord) (room : Room) (upload_id : ℤ)
    (body : UploadSessionComplete) : Op FileView := do
  let rec_ ← pendingSession room upload_id
  let confirmed ← uploadService.completeUploadSession env room session_rec rec_ body.totalChunks
  commit
  let view := fileView confirmed session_rec.display_name
  broadcast (wsChannel room) (.fileUploadCompleted view) []
  pure view

/-- `POST /rooms/{room_token}/uploads/{upload_id}/complete`. -/
def completeUploadSession (room_token : Token) (upload_id : ℤ) (body : UploadSessionComplete)
    (request : Request) : Op FileView := withSession do
  let (session_rec, room) ← requireMember env room_token request
  validateCsrf env .post request
  completeAs env session_rec room upload_id body

/-- `DELETE /rooms/{room_token}/uploads/{upload_id}`. -/
def abortUploadSession (room_token : Token) (upload_id : ℤ) (request : Request) : Op Unit :=
  withSession do
    let (_, room) ← requireMember env room_token request
    validateCsrf env .delete request
    let rec_ ← pendingSession room upload_id
    uploadService.abortUploadSession room rec_
    commit

end uploads

/-! ## Messages -/

namespace messages

/-- `GET /rooms/{room_token}/messages`. -/
def listMessages (room_token : Token) (request : Request) : Op (List MessageView) :=
  withSession do
    let (_, room) ← requireMember env room_token request
    let messages ← messageService.listMessages env room.id
    pure (messages.map messageView)

/-- `DELETE /rooms/{room_token}/messages/{message_id}`: whether there was such a message. -/
def deleteMessage (room_token : Token) (message_id : ℤ) (request : Request) : Op Bool :=
  withSession do
    let (session_rec, room) ← requireMember env room_token request
    validateCsrf env .delete request
    let ok ← messageService.deleteMessage room session_rec message_id
    commit
    if ok then broadcast (wsChannel room) (.chatMessageDeleted message_id.toNat) []
    pure ok

end messages

/-! ## Routes -/

/-- A request by its endpoint, with what its path and its body hold. -/
inductive Route
  | createRoom (body : roomService.RoomCreate)
  | getRoom (room_token : Token)
  | joinRoom (room_token : Token) (body : rooms.JoinRequest)
  | joinByCode (room_code : String) (body : rooms.JoinRequest)
  | patchRoom (room_token : Token) (body : roomService.RoomPatch)
  | deleteRoom (room_token : Token)
  | upload (room_token : Token) (filename content_type : Option String)
      (chunks : fileService.Source)
  | listFiles (room_token : Token)
  | download (room_token : Token) (file_id : ℤ)
  | deleteFile (room_token : Token) (file_id : ℤ)
  | createUploadSession (room_token : Token) (body : uploads.UploadSessionCreate)
  | getUploadStatus (room_token : Token) (upload_id : ℤ)
  | uploadChunk (room_token : Token) (upload_id index : ℤ) (body : Except Err Bytes)
  | completeUploadSession (room_token : Token) (upload_id : ℤ)
      (body : uploads.UploadSessionComplete)
  | abortUploadSession (room_token : Token) (upload_id : ℤ)
  | listMessages (room_token : Token)
  | deleteMessage (room_token : Token) (message_id : ℤ)

/-- The program of a request. -/
def Route.handle (request : Request) : Route → Op Unit
  | .createRoom body => discard (rooms.createRoom env body request)
  | .getRoom room_token => discard (rooms.getRoom env room_token)
  | .joinRoom room_token body => discard (rooms.joinRoom env room_token body request)
  | .joinByCode room_code body => discard (rooms.joinByCode env room_code body request)
  | .patchRoom room_token body => discard (rooms.patchRoom env room_token body request)
  | .deleteRoom room_token => rooms.deleteRoom env room_token request
  | .upload room_token filename content_type chunks =>
    discard (files.upload env room_token filename content_type chunks request)
  | .listFiles room_token => discard (files.listFiles env room_token request)
  | .download room_token file_id => discard (files.download env room_token file_id request)
  | .deleteFile room_token file_id => discard (files.delete env room_token file_id request)
  | .createUploadSession room_token body =>
    discard (uploads.createUploadSession env room_token body request)
  | .getUploadStatus room_token upload_id =>
    discard (uploads.getUploadStatus env room_token upload_id request)
  | .uploadChunk room_token upload_id index body =>
    discard (uploads.uploadChunk env room_token upload_id index body request)
  | .completeUploadSession room_token upload_id body =>
    discard (uploads.completeUploadSession env room_token upload_id body request)
  | .abortUploadSession room_token upload_id =>
    uploads.abortUploadSession env room_token upload_id request
  | .listMessages room_token => discard (messages.listMessages env room_token request)
  | .deleteMessage room_token message_id =>
    discard (messages.deleteMessage env room_token message_id request)

end DropRoom
