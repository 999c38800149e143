import DropRoom.App.Api

/-!
# Sockets

`app/api/websocket.py`. A handler authenticates its socket, connects it, and answers its messages
until it ends; `leave` is its `finally` block, which runs however the socket ends. The messages of a
client are given as a list, after which the client disconnects.
-/

namespace DropRoom

open Effect

variable (env : Env)

/-- What `_ws_auth` reads of a handshake. -/
structure Handshake where
  token : Option Token
  session_cookie : Option Token
  room_token : Token

/-- The session token of a handshake: the one in its query goes first. -/
def Handshake.sessionToken (handshake : Handshake) : Option Token :=
  match roomService.truthy handshake.token with
  | some token => some token
  | none => roomService.truthy handshake.session_cookie

namespace websocket

/-- `_ws_auth`. -/
def wsAuth (handshake : Handshake) : Op (Option (SessionRecord × Room)) := do
  match handshake.sessionToken with
  | none => pure none
  | some token =>
    match ← sessionRepository.getByTokenHash (env.hash_token token) with
    | none => pure none
    | some session =>
      let expired ← hasExpired session.expires_at
      if expired then pure none
      else if handshake.room_token = "" then pure none
      else
        match ← roomRepository.getRoomByAccessToken env handshake.room_token with
        | none => pure none
        | some room =>
          if room.id = session.room_id ∧ room.status = .active then pure (some (session, room))
          else pure none

/-- `_send_state`. -/
def sendState (ws : ℕ) (session : SessionRecord) (room : Room) : Op Unit := do
  let files ← fileRepository.listConfirmedFiles room.id
  let sessions ← sessionRepository.getActiveSessions room.id
  let messages ← messageService.listMessages env room.id
  let now ← utcnow
  let remaining := (room.expires_at - now) / 1000000
  -- Only the sessions that are connected are members: a stale row is not.
  let sids ← issue (.connectedAmong (wsChannel room) (sessions.map (·.id)))
  let connected := sessions.filter fun s => s.id ∈ sids
  sendJson ws (.roomState {
    room := roomView room
    remaining_seconds := remaining
    role := session.role
    me := (session.id, session.display_name)
    members := connected.map fun s => ⟨s.id, s.display_name, s.role⟩
    files := files.map (fileView · none)
    messages := messages.map messageView })
  if remaining < env.room_expiring_threshold_seconds then sendJson ws (.roomExpiring remaining)

/-- `_send_error`. -/
def sendError (ws : ℕ) (code detail : String) : Op Unit :=
  (sendJson ws (.error code detail)).tryCatch fun _ => pure ()

/-- `except errors.DropRoomError`: what went wrong is sent to the socket, and nothing is left to
do. -/
def orSendError {α : Type} (ws : ℕ) (body : Op α) : Op (Option α) :=
  (some <$> body).tryCatch fun
    | .dropRoom cls detail => do
      sendError ws cls.code detail
      pure none
    | e => .raise e

/-- `payload.get(key, default)`, where only a `dict` has a `get`. -/
def payloadGet (payload : Json) (key : String) (default : Json) : Op Json :=
  match payload with
  | .obj fields => pure ((Json.member fields key).getD default)
  | _ => .raise .exception

/-- Whether the limiter admits a chat message. If not, the sender is told. -/
def chatAllowed (ws : ℕ) (session : SessionRecord) (room : Room) : Op Bool :=
  (do
    limiterCheck env s!"chat:{room.id}" s!"s{session.id}" env.chat_limit
    pure true : Op Bool).tryCatch fun
  | .dropRoom .rateLimited _ => do
    sendError ws "CHAT_RATE_LIMITED" "Too many messages; slow down"
    pure false
  | e => .raise e

/-- The message that `CHAT_SEND` stores. -/
def chatStore (session : SessionRecord) (room : Room) (payload : Json) : Op Message := do
  let body ← payloadGet payload "body" (.str "")
  let msg ← messageService.sendMessage env room session (env.strOf body)
  commit
  let _ ← roomRepository.createAuditEvent (some room.id) "MESSAGE_SENT"
  commit
  pure msg

/-- `CHAT_SEND`. -/
def chatSend (ws : ℕ) (channel : Channel) (session : SessionRecord) (room : Room)
    (payload : Json) : Op Unit := do
  if ← chatAllowed env ws session room then
    match ← orSendError ws (chatStore env session room payload) with
    | some msg => broadcast channel (.chatMessageSent (messageView msg)) []
    | none => pure ()

/-- `CHAT_DELETE`. -/
def chatDelete (ws : ℕ) (channel : Channel) (session : SessionRecord) (room : Room)
    (payload : Json) : Op Unit := do
  let deleted ← orSendError ws do
    let value ← payloadGet payload "messageId" (.int 0)
    match env.intOf value with
    | some message_id =>
      let ok ← messageService.deleteMessage room session message_id
      commit
      pure (message_id, ok)
    | none => .raise .exception
  match deleted with
  | some (message_id, true) => broadcast channel (.chatMessageDeleted message_id.toNat) []
  | _ => pure ()

/-- `_handle_message`, for an object with the type `type`. -/
def handleMessage (ws : ℕ) (channel : Channel) (session : SessionRecord) (room : Room)
    (type payload : Json) : Op Unit :=
  let payload := if payload.falsy then .obj [] else payload
  match type with
  | .str "PING" => sendJson ws .pong
  | .str "CHAT_SEND" => chatSend env ws channel session room payload
  | .str "CHAT_DELETE" => chatDelete env ws channel session room payload
  | .str type => sendError ws "UNKNOWN_MESSAGE_TYPE" type
  | type => sendError ws "UNKNOWN_MESSAGE_TYPE" (if type.falsy then "" else env.strOf type)

/-- `receive_json`. -/
def receiveJson : Frame → Op Json
  | .json data => do
    Prog.require (data.loads env.json_depth = true) .exception
    pure data
  | .malformed => .raise .exception

/-- One turn of the loop of `room_ws`. What is not an object with a type is skipped. -/
def receive (ws : ℕ) (channel : Channel) (session : SessionRecord) (room : Room) (frame : Frame) :
    Op Unit := do
  match ← receiveJson env frame with
  | .obj fields => match Json.member fields "type" with
    | some type =>
      handleMessage env ws channel session room type ((Json.member fields "payload").getD .null)
    | none => pure ()
  | _ => pure ()

/-- `room_ws` from the connection to the first message. -/
def greet (ws : ℕ) (session : SessionRecord) (room : Room) : Op Unit := do
  let channel := wsChannel room
  issue (.accept ws)
  issue (.register channel session.id ws)
  sendState env ws session room
  broadcast channel (.userJoined session.id session.display_name session.role) [session.id]

/-- The `except` clauses of `room_ws`. -/
def swallow (ws : ℕ) : Err → Op Unit
  | .webSocketDisconnect => pure ()
  | _ => (issue (.closeSocket ws 1011)).tryCatch fun _ => pure ()

/-- `room_ws` up to the authentication. -/
def authenticate (ws : ℕ) (handshake : Handshake) : Op (Option (SessionRecord × Room)) :=
  (do
    match ← wsAuth env handshake with
    | some auth => pure (some auth)
    | none =>
      issue (.closeSocket ws 4401)
      pure none : Op (Option (SessionRecord × Room))).tryCatch fun e => do
    swallow ws e
    pure none

/-- The `finally` block of `room_ws`: when the session has no socket left, its slot is freed. -/
def leave (ws : ℕ) (session : SessionRecord) (room : Room) : Op Unit := do
  let channel := wsChannel room
  let connected ← issue (.unregister channel session.id ws)
  if connected then pure ()
  else do
    broadcast channel (.userLeft session.id session.display_name) [session.id]
    let _ ← roomRepository.decrementUserCount room.id
    let _ ← sessionRepository.expireSession session.id
    commit

/-- `room_ws` once the socket is authenticated, for the messages that it sends. -/
def serve (ws : ℕ) (session : SessionRecord) (room : Room) (frames : List Frame) : Op Unit := do
  (do
    greet env ws session room
    frames.forM (receive env ws (wsChannel room) session room)
    .raise .webSocketDisconnect : Op Unit).tryCatch (swallow ws)
  leave ws session room

/-- `room_ws`. -/
def roomWs (ws : ℕ) (handshake : Handshake) (frames : List Frame) : Op Unit := withSession do
  match ← authenticate env ws handshake with
  | some (session, room) => serve env ws session room frames
  | none => pure ()

end websocket

end DropRoom
