import Mathlib.Order.Lattice
import Mathlib.Data.Int.Order.Basic

/-!
# The page of a room

What `RoomClient` keeps of a room and how `handleWsEvent` follows the messages of the socket. The
names are those of `types.ts` and `client.tsx`; a `setState` whose updater returns `prev` while there
is no state is `RoomClient.setState`.
-/

namespace DropRoom.Frontend

/-! ## Types -/

/-- The `room` of a `RoomState`. -/
structure Room where
  roomCode : String
  name : Option String
  guestUploadEnabled : Bool
  guestDownloadEnabled : Bool
  userCount : ℤ
  maxUsers : ℤ
  storageUsedBytes : ℤ
  fileCount : ℤ
  expiresAt : String
  remainingSeconds : ℤ
  deriving DecidableEq

/-- `RoomView`. -/
structure RoomView where
  roomCode : String
  name : Option String
  status : String
  guestUploadEnabled : Bool
  guestDownloadEnabled : Bool
  userCount : ℤ
  maxUsers : ℤ
  storageUsedBytes : ℤ
  fileCount : ℤ
  createdAt : String
  expiresAt : String
  passwordRequired : Option Bool
  remainingSeconds : Option ℤ
  canJoin : Option Bool
  deriving DecidableEq

/-- `FileView`. -/
structure FileView where
  id : ℕ
  originalFilename : String
  contentType : Option String
  sizeBytes : ℤ
  status : String
  downloadCount : ℤ
  uploadedByName : Option String
  createdAt : String
  deriving DecidableEq

/-- `MessageView`. -/
structure MessageView where
  id : ℕ
  displayName : Option String
  body : String
  createdAt : String
  deriving DecidableEq

/-- `RoomMember`. -/
structure RoomMember where
  sessionId : String
  displayName : Option String
  role : String
  deriving DecidableEq

/-- `RoomState`. -/
structure RoomState where
  room : Room
  role : String
  me : String × Option String
  members : List RoomMember
  files : List FileView
  messages : List MessageView
  deriving DecidableEq

/-- `WsEvent`. -/
inductive WsEvent
  | roomState (payload : RoomState)
  | roomExpiring (remainingSeconds : ℤ)
  | roomExpired
  | userJoined (sessionId : String) (displayName : Option String) (role : String)
  | userLeft (sessionId : String) (displayName : Option String)
  | fileUploadCompleted (file : FileView)
  | fileUploadProgress (fileId : ℕ) (receivedBytes totalSizeBytes : ℤ) (filename : String)
  | fileDeleted (fileId : ℕ)
  | fileDownloaded (fileId : ℕ) (downloadCount : ℤ)
  | roomSettingsChanged (room : RoomView)
  | chatMessageSent (message : MessageView)
  | chatMessageDeleted (messageId : ℕ)
  | pong
  | error (code detail : String)
  deriving DecidableEq

/-- `Phase`. -/
inductive Phase
  | loading | gate | room | expired | notfound
  deriving DecidableEq

/-- `UploadProgress`. -/
structure UploadProgress where
  filename : String
  receivedBytes : ℤ
  totalSizeBytes : ℤ
  deriving DecidableEq

/-- The state of the page, as far as the socket and the permissions touch it. -/
structure RoomClient where
  phase : Phase
  view : Option RoomView
  actionError : Option String
  state : Option RoomState
  secondsLeft : ℤ
  secondsRef : ℤ
  uploadProgress : Option UploadProgress
  updatingPermissions : Bool
  deriving DecidableEq

/-! ## The handler of the socket -/

/-- `{ ...v, ...r }`: a key that `r` lacks is kept. -/
def RoomView.spread (v r : RoomView) : RoomView :=
  { r with
    passwordRequired := r.passwordRequired <|> v.passwordRequired
    remainingSeconds := r.remainingSeconds <|> v.remainingSeconds
    canJoin := r.canJoin <|> v.canJoin }

namespace RoomClient

/-- `setState((prev) => (prev ? update(prev) : prev))`. -/
def setState (c : RoomClient) (update : RoomState → RoomState) : RoomClient :=
  { c with state := c.state.map update }

/-- `handleWsEvent`. -/
def handleWsEvent (c : RoomClient) : WsEvent → RoomClient
  | .roomState payload =>
    { c with
      state := some payload
      secondsRef := payload.room.remainingSeconds
      secondsLeft := payload.room.remainingSeconds }
  | .roomExpiring remainingSeconds =>
    { c with secondsRef := remainingSeconds, secondsLeft := remainingSeconds }
  | .roomExpired => { c with phase := .expired }
  | .userJoined sessionId displayName role =>
    c.setState fun prev =>
      if prev.members.any (·.sessionId == sessionId) then prev
      else
        { prev with
          room := { prev.room with userCount := prev.room.userCount + 1 }
          members := prev.members ++ [⟨sessionId, displayName, if role = "" then "GUEST" else role⟩] }
  | .userLeft sessionId _ =>
    c.setState fun prev =>
      { prev with
        room := { prev.room with userCount := max 0 (prev.room.userCount - 1) }
        members := prev.members.filter (·.sessionId != sessionId) }
  | .fileUploadCompleted f =>
    { c with
      uploadProgress := c.uploadProgress.filter (·.filename != f.originalFilename) }.setState
        fun prev =>
      { prev with
        room :=
          { prev.room with
            -- the count is taken from the list, the bytes are added to what was there
            fileCount := prev.files.length + if prev.files.any (·.id == f.id) then 0 else 1
            storageUsedBytes :=
              if prev.files.any (·.id == f.id) then prev.room.storageUsedBytes
              else prev.room.storageUsedBytes + max 0 f.sizeBytes }
        files := if prev.files.any (·.id == f.id) then prev.files else prev.files ++ [f] }
  | .fileUploadProgress _ receivedBytes totalSizeBytes filename =>
    { c with uploadProgress := some { filename, receivedBytes, totalSizeBytes } }
  | .fileDeleted fileId =>
    c.setState fun prev =>
      { prev with
        room :=
          { prev.room with
            fileCount := max 0 (prev.room.fileCount - 1)
            storageUsedBytes := max 0 (prev.room.storageUsedBytes -
              ((prev.files.find? (·.id == fileId)).map (·.sizeBytes)).getD 0) }
        files := prev.files.filter (·.id != fileId) }
  | .fileDownloaded fileId downloadCount =>
    c.setState fun prev =>
      { prev with
        files := prev.files.map fun f => if f.id = fileId then { f with downloadCount } else f }
  | .roomSettingsChanged r =>
    { c with view := c.view.map (RoomView.spread · r) }.setState fun prev =>
      { prev with
        room :=
          { prev.room with
            name := r.name
            guestUploadEnabled := r.guestUploadEnabled
            guestDownloadEnabled := r.guestDownloadEnabled } }
  | .chatMessageSent message =>
    c.setState fun prev =>
      if prev.messages.any (·.id == message.id) then prev
      else { prev with messages := prev.messages ++ [message] }
  | .chatMessageDeleted messageId =>
    c.setState fun prev => { prev with messages := prev.messages.filter (·.id != messageId) }
  | .error _ detail => { c with actionError := some detail }
  | .pong => c

/-- The messages of the socket, one after the other. -/
def handleWsEvents (c : RoomClient) (events : List WsEvent) : RoomClient :=
  events.foldl handleWsEvent c

/-! ## The permissions of the guests -/

/-- `updatePermissions`, where `events` arrive while the answer of `patchRoom` is awaited. An error of
the request is known by its message. -/
def updatePermissions (c : RoomClient) (guestUploadEnabled guestDownloadEnabled : Bool)
    (events : List WsEvent) (patchRoom : Except (Option String) Unit) : RoomClient :=
  let previous := c.state.map (·.room)
  let sent := { c with actionError := none, updatingPermissions := true }.setState fun current =>
    { current with room := { current.room with guestUploadEnabled, guestDownloadEnabled } }
  let answered := sent.handleWsEvents events
  match patchRoom with
  | .ok _ => { answered with updatingPermissions := false }
  | .error message =>
    let restored := match previous with
      | some room => answered.setState fun current => { current with room }
      | none => answered
    { restored with
      actionError := some (message.getD "Could not update guest permissions")
      updatingPermissions := false }

end RoomClient

end DropRoom.Frontend
