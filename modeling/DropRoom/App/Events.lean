import DropRoom.App.Models

/-!
# Events as messages

What `send_json` is given for each event: the dict that the code which sends it builds, with the
payload that pydantic or a literal gives. `model_dump(mode="json")` and `isoformat` turn a time into a
text, `model_dump()` leaves it a `datetime`, at which `json.dumps` raises.
-/

namespace DropRoom

/-- A value of a message. -/
inductive Value
  | null
  | bool (b : Bool)
  | int (n : ℤ)
  | str (s : String)
  /-- The text of a time. -/
  | isoformat (time : Time)
  /-- A `datetime` object. -/
  | datetime (time : Time)
  | list (values : List Value)
  | dict (fields : List (String × Value))

namespace Value

mutual

/-- The value consists of what `json.dumps` can render. -/
def isJson : Value → Bool
  | null | bool _ | int _ | str _ | isoformat _ => true
  | datetime _ => false
  | list values => allJson values
  | dict fields => fieldsJson fields

/-- Every element of a list is JSON. -/
def allJson : List Value → Bool
  | [] => true
  | value :: values => value.isJson && allJson values

/-- Every field of an object is JSON. -/
def fieldsJson : List (String × Value) → Bool
  | [] => true
  | (_, value) :: fields => value.isJson && fieldsJson fields

end

/-- A text, or `None`. -/
def optStr : Option String → Value
  | some s => str s
  | none => null

/-- A text, or `None`, is JSON. -/
theorem isJson_optStr (s : Option String) : (optStr s).isJson = true := by
  cases s <;> rfl

/-- A list of JSON is JSON. -/
theorem allJson_of_forall {values : List Value} (h : ∀ value ∈ values, value.isJson = true) :
    allJson values = true := by
  induction values with
  | nil => rfl
  | cons value values ih =>
    rw [allJson, h value List.mem_cons_self, ih fun v hv => h v (List.mem_cons_of_mem _ hv)]
    rfl

end Value

/-! ## The values of the enumerations -/

/-- The text of a room status. -/
def RoomStatus.value : RoomStatus → String
  | .active => "ACTIVE"
  | .expired => "EXPIRED"
  | .deleting => "DELETING"
  | .deleted => "DELETED"

/-- The text of a file status. -/
def FileStatus.value : FileStatus → String
  | .pending => "PENDING"
  | .confirmed => "CONFIRMED"
  | .deleted => "DELETED"

/-- The text of a role. -/
def Role.value : Role → String
  | .owner => "OWNER"
  | .guest => "GUEST"

/-! ## Payloads -/

open Value

/-- `model_dump(mode="json", by_alias=True)` of a file. -/
def FileView.dump (file : FileView) : Value := dict [
  ("id", int file.id),
  ("originalFilename", str file.original_filename),
  ("contentType", optStr file.content_type),
  ("sizeBytes", int file.size_bytes),
  ("status", str file.status.value),
  ("downloadCount", int file.download_count),
  ("uploadedByName", optStr file.uploaded_by_name),
  ("createdAt", isoformat file.created_at)]

/-- `model_dump(mode="json", by_alias=True)` of a message. -/
def MessageView.dump (message : MessageView) : Value := dict [
  ("id", int message.id),
  ("displayName", optStr message.display_name),
  ("body", str message.body),
  ("createdAt", isoformat message.created_at)]

/-- `model_dump(by_alias=True)` of a room, which `broadcast_settings` calls without a mode. -/
def RoomView.dump (room : RoomView) : Value := dict [
  ("roomCode", str room.room_code),
  ("name", optStr room.name),
  ("status", str room.status.value),
  ("guestUploadEnabled", bool room.guest_upload_enabled),
  ("guestDownloadEnabled", bool room.guest_download_enabled),
  ("userCount", int room.user_count),
  ("maxUsers", int room.max_users),
  ("storageUsedBytes", int room.storage_used_bytes),
  ("fileCount", int room.file_count),
  ("createdAt", datetime room.created_at),
  ("expiresAt", datetime room.expires_at)]

/-- The payload of `ROOM_STATE`, whose room is built by hand. -/
def RoomState.payload (state : RoomState) : Value := dict [
  ("room", dict [
    ("roomCode", str state.room.room_code),
    ("name", optStr state.room.name),
    ("guestUploadEnabled", bool state.room.guest_upload_enabled),
    ("guestDownloadEnabled", bool state.room.guest_download_enabled),
    ("userCount", int state.room.user_count),
    ("maxUsers", int state.room.max_users),
    ("storageUsedBytes", int state.room.storage_used_bytes),
    ("fileCount", int state.room.file_count),
    ("expiresAt", isoformat state.room.expires_at),
    ("remainingSeconds", int state.remaining_seconds)]),
  ("role", str state.role.value),
  ("me", dict [("id", int state.me.1), ("displayName", optStr state.me.2)]),
  ("members", list (state.members.map fun m => dict [
    ("sessionId", int m.session_id),
    ("displayName", optStr m.display_name),
    ("role", str m.role.value)])),
  ("files", list (state.files.map FileView.dump)),
  ("messages", list (state.messages.map MessageView.dump))]

namespace Event

/-- The `type` and the `payload` of an event; a pong has no payload. -/
def message : Event → Value
  | roomState state => typed "ROOM_STATE" state.payload
  | roomExpiring remainingSeconds =>
    typed "ROOM_EXPIRING" (dict [("remainingSeconds", int remainingSeconds)])
  | roomSettingsChanged room => typed "ROOM_SETTINGS_CHANGED" (dict [("room", room.dump)])
  | roomExpired => typed "ROOM_EXPIRED" (dict [])
  | userJoined sessionId displayName role => typed "USER_JOINED" (dict [
    ("sessionId", int sessionId),
    ("displayName", optStr displayName),
    ("role", str role.value)])
  | userLeft sessionId displayName => typed "USER_LEFT" (dict [
    ("sessionId", int sessionId),
    ("displayName", optStr displayName)])
  | fileUploadProgress fileId receivedBytes totalSizeBytes filename =>
    typed "FILE_UPLOAD_PROGRESS" (dict [
      ("fileId", int fileId),
      ("receivedBytes", int receivedBytes),
      ("totalSizeBytes", int totalSizeBytes),
      ("filename", str filename)])
  | fileUploadCompleted file => typed "FILE_UPLOAD_COMPLETED" (dict [("file", file.dump)])
  | fileDeleted fileId => typed "FILE_DELETED" (dict [("fileId", int fileId)])
  | fileDownloaded fileId downloadCount => typed "FILE_DOWNLOADED" (dict [
    ("fileId", int fileId),
    ("downloadCount", int downloadCount)])
  | chatMessageSent message =>
    typed "CHAT_MESSAGE_SENT" (dict [("message", message.dump)])
  | chatMessageDeleted messageId =>
    typed "CHAT_MESSAGE_DELETED" (dict [("messageId", int messageId)])
  | pong => dict [("type", str "PONG")]
  | error code detail => typed "ERROR" (dict [("code", str code), ("detail", str detail)])
where
  typed (type : String) (payload : Value) : Value :=
    dict [("type", str type), ("payload", payload)]

/-- The event that `broadcast_settings` sends. -/
def ChangesSettings : Event → Prop
  | roomSettingsChanged _ => True
  | _ => False

/-- All events but `ROOM_SETTINGS_CHANGED` are JSON, whatever they tell of. -/
theorem isJson_message_iff (event : Event) :
    event.message.isJson = true ↔ ¬event.ChangesSettings := by
  have hfile : ∀ file : FileView, file.dump.isJson = true := fun file => by
    simp [FileView.dump, isJson, fieldsJson, isJson_optStr]
  have hmessage : ∀ message : MessageView, message.dump.isJson = true := fun message => by
    simp [MessageView.dump, isJson, fieldsJson, isJson_optStr]
  cases event with
  | roomState state =>
    have hmembers : ∀ member : Member, (dict [
        ("sessionId", int member.session_id),
        ("displayName", optStr member.display_name),
        ("role", str member.role.value)]).isJson = true := fun member => by
      simp [isJson, fieldsJson, isJson_optStr]
    have hlists : state.payload.isJson = true := by
      simp only [RoomState.payload, isJson, fieldsJson, isJson_optStr, Bool.and_true, Bool.true_and,
        Bool.and_eq_true]
      refine ⟨allJson_of_forall ?_, allJson_of_forall ?_, allJson_of_forall ?_⟩
      · exact List.forall_mem_map.2 fun member _ => hmembers member
      · exact List.forall_mem_map.2 fun file _ => hfile file
      · exact List.forall_mem_map.2 fun message _ => hmessage message
    simp [message, message.typed, isJson, fieldsJson, hlists, ChangesSettings]
  | roomSettingsChanged room =>
    simp [message, message.typed, RoomView.dump, isJson, fieldsJson, ChangesSettings]
  | _ =>
    simp [message, message.typed, isJson, fieldsJson, isJson_optStr, hfile, hmessage,
      ChangesSettings]

end Event

end DropRoom
