import Mathlib.Data.List.AList
import Mathlib.Data.List.Sort
import Mathlib.Data.List.Lex
import Mathlib.Data.Char
import Mathlib.Tactic.Common
import DropRoom.Store.Sql

/-!
# Rows, settings, errors and events

The data of `app/models`, `app/core/config.py`, `app/core/errors.py` and `app/schemas`. Columns and
settings keep their names. A row does not hold its own number: a table is a list, and an object
loaded from it (`Room`, `SessionRecord`, `FileRecord`, `Message`) is the row with its `id`. The
column `updated_at` and the metadata of audit events are left out, since nothing reads them.

Times are in microseconds, the resolution of `datetime`. The functions of `app/core/security.py`
that rest on cryptography are parameters (`Env`), as are the settings and `str.upper`.
-/

namespace DropRoom

open Store

/-! ## Values -/

/-- A number of microseconds. -/
abbrev Time : Type := ℕ

/-- `timedelta(seconds=n)`. -/
def seconds (n : ℕ) : Time := n * 1000000

/-- A `str` of Python: code points, of which a text from JSON may have lone surrogates. -/
structure PyStr where
  points : List ℕ
  deriving DecidableEq

namespace PyStr

/-- A Unicode text. -/
def of (s : String) : PyStr := ⟨s.toList.map Char.toNat⟩

/-- The text that `encode` encodes in UTF-8. It raises at a surrogate. -/
def encode (s : PyStr) : Option String :=
  if s.points.all fun c => decide c.isValidChar then some (String.ofList (s.points.map Char.ofNat))
  else none

/-- A text that is absent or empty counts as absent. -/
def truthy : Option PyStr → Option PyStr
  | some s => if s.points = [] then none else some s
  | none => none

end PyStr

/-- A token of `generate_token`. -/
abbrev Token : Type := String

/-- The hash of a token, as the database keeps it. -/
abbrev TokenHash : Type := String

/-- The bytes of a body or an object. -/
abbrev Bytes : Type := List UInt8

/-- The key of an object in storage. -/
abbrev Key : Type := List Char

/-- The characters that `str.strip` removes. -/
def isSpace (c : Char) : Bool :=
  c.toNat ∈ [0x20, 0x85, 0xA0, 0x1680, 0x2028, 0x2029, 0x202F, 0x205F, 0x3000] ||
    (0x09 ≤ c.toNat && c.toNat ≤ 0x0D) || (0x1C ≤ c.toNat && c.toNat ≤ 0x1F) ||
    (0x2000 ≤ c.toNat && c.toNat ≤ 0x200A)

/-- `str.strip`. -/
def strip (s : String) : String :=
  String.ofList ((s.toList.dropWhile isSpace).reverse.dropWhile isSpace).reverse

/-- The text of a `uuid4`. Only its lack of a dot matters here. -/
structure Uuid where
  text : List Char
  noDot : '.' ∉ text
  deriving DecidableEq

/-! ## Rows -/

/-- `RoomStatus`. -/
inductive RoomStatus
  | active | expired | deleting | deleted
  deriving DecidableEq

/-- `FileStatus`. -/
inductive FileStatus
  | pending | confirmed | deleted
  deriving DecidableEq

/-- `Role`. -/
inductive Role
  | owner | guest
  deriving DecidableEq

/-- A row of `rooms`, without its number. -/
structure RoomRow where
  room_code : String
  access_token_hash : TokenHash
  access_token_signed : Option String
  owner_token_hash : TokenHash
  password_hash : Option String
  name : Option String
  status : RoomStatus
  guest_upload_enabled : Bool
  guest_download_enabled : Bool
  max_users : ℤ
  user_count : ℤ
  storage_used_bytes : ℤ
  file_count : ℤ
  created_at : Time
  expires_at : Time
  deriving DecidableEq

/-- A row of `sessions`, without its number. -/
structure SessionRow where
  room_id : ℕ
  session_token_hash : TokenHash
  display_name : Option String
  role : Role
  connected_at : Time
  last_seen_at : Time
  expires_at : Time
  deriving DecidableEq

/-- A row of `files`, without its number. -/
structure FileRow where
  room_id : ℕ
  original_filename : String
  storage_key : Uuid
  content_type : Option String
  size_bytes : ℕ
  total_size_bytes : Option ℕ
  status : FileStatus
  uploaded_by : Option ℕ
  download_count : ℕ
  created_at : Time
  expires_at : Option Time
  deriving DecidableEq

/-- A row of `messages`, without its number. -/
structure MessageRow where
  room_id : ℕ
  sender_session_id : Option ℕ
  display_name : Option String
  body : String
  created_at : Time
  deriving DecidableEq

/-- A row of `audit_events`, without its number. -/
structure AuditEventRow where
  room_id : Option ℕ
  event_type : String
  deriving DecidableEq

/-- A room as loaded: its row with its `id`. -/
structure Room extends RoomRow where
  id : ℕ
  deriving DecidableEq

/-- A session that was loaded, with its number. -/
structure SessionRecord extends SessionRow where
  id : ℕ
  deriving DecidableEq

/-- A file record that was loaded, with its number. -/
structure FileRecord extends FileRow where
  id : ℕ
  deriving DecidableEq

/-- A message that was loaded, with its number. -/
structure Message extends MessageRow where
  id : ℕ
  deriving DecidableEq

/-- The tables. -/
inductive Table
  | rooms | sessions | files | messages | auditEvents
  deriving DecidableEq

/-- The rows of each table. -/
abbrev Row : Table → Type
  | .rooms => RoomRow
  | .sessions => SessionRow
  | .files => FileRow
  | .messages => MessageRow
  | .auditEvents => AuditEventRow

/-- The database. -/
abbrev Db : Type := Tables Table Row

/-- A row of `rooms` as it is loaded. -/
def toRoom (r : ℕ × RoomRow) : Room := { r.2 with id := r.1 }

/-- A row of `sessions` as it is loaded. -/
def toSession (r : ℕ × SessionRow) : SessionRecord := { r.2 with id := r.1 }

/-- A row of `files` as it is loaded. -/
def toFile (r : ℕ × FileRow) : FileRecord := { r.2 with id := r.1 }

/-- A row of `messages` as it is loaded. -/
def toMessage (r : ℕ × MessageRow) : Message := { r.2 with id := r.1 }

/-- What flushing an object writes: the attributes that differ from the loaded ones. -/
def FileRow.flush (loaded new row : FileRow) : FileRow where
  room_id := row.room_id
  original_filename := row.original_filename
  storage_key := row.storage_key
  content_type :=
    if new.content_type = loaded.content_type then row.content_type else new.content_type
  size_bytes := if new.size_bytes = loaded.size_bytes then row.size_bytes else new.size_bytes
  total_size_bytes :=
    if new.total_size_bytes = loaded.total_size_bytes then row.total_size_bytes
    else new.total_size_bytes
  status := if new.status = loaded.status then row.status else new.status
  uploaded_by := row.uploaded_by
  download_count := row.download_count
  created_at := row.created_at
  expires_at := row.expires_at

/-- Flushing over the row that was loaded gives the new object, as far as flushing writes it. -/
theorem FileRow.flush_self (loaded new : FileRow) :
    FileRow.flush loaded new loaded =
      { loaded with
        content_type := new.content_type
        size_bytes := new.size_bytes
        total_size_bytes := new.total_size_bytes
        status := new.status } := by
  unfold FileRow.flush
  congr 1 <;> exact ite_eq_right_iff.2 Eq.symm

/-- What flushing an object writes: the attributes that differ from the loaded ones. -/
def SessionRow.flush (loaded new row : SessionRow) : SessionRow where
  room_id := row.room_id
  session_token_hash := row.session_token_hash
  display_name := row.display_name
  role := row.role
  connected_at := row.connected_at
  last_seen_at :=
    if new.last_seen_at = loaded.last_seen_at then row.last_seen_at else new.last_seen_at
  expires_at := if new.expires_at = loaded.expires_at then row.expires_at else new.expires_at

/-! ## Statements -/

/-- The updates of a room. -/
inductive RoomUpdate
  | incrementUserCount
  | decrementUserCount
  | claimQuota (size_bytes : ℕ) (max_files max_storage : ℤ)
  | addStorageAndFiles (size_delta file_delta : ℤ)
  | markExpired
  | markDeleting
  | markDeleted
  | fields (name : Option (Option String)) (guest_upload_enabled guest_download_enabled : Option Bool)
      (password_hash : Option (Option String))
  deriving DecidableEq

/-- The condition of each update, besides the number of the room. -/
def RoomUpdate.applies : RoomUpdate → RoomRow → Bool
  | incrementUserCount, r => decide (r.user_count < r.max_users)
  | decrementUserCount, r => decide (0 < r.user_count)
  | claimQuota size_bytes max_files max_storage, r =>
    r.status == .active && decide (r.file_count < max_files) &&
      decide (r.storage_used_bytes + size_bytes ≤ max_storage)
  | addStorageAndFiles _ _, _ => true
  | markExpired, r => r.status == .active
  | markDeleting, r => r.status == .expired
  | markDeleted, r => r.status == .deleting
  | fields .., _ => true

/-- What each update sets. -/
def RoomUpdate.set : RoomUpdate → RoomRow → RoomRow
  | incrementUserCount, r => { r with user_count := r.user_count + 1 }
  | decrementUserCount, r => { r with user_count := r.user_count - 1 }
  | claimQuota size_bytes _ _, r => { r with
      storage_used_bytes := r.storage_used_bytes + size_bytes
      file_count := r.file_count + 1 }
  | addStorageAndFiles size_delta file_delta, r => { r with
      storage_used_bytes := r.storage_used_bytes + size_delta
      file_count := r.file_count + file_delta }
  | markExpired, r => { r with status := .expired }
  | markDeleting, r => { r with status := .deleting }
  | markDeleted, r => { r with status := .deleted }
  | fields name guest_upload_enabled guest_download_enabled password_hash, r => { r with
      name := name.getD r.name
      guest_upload_enabled := guest_upload_enabled.getD r.guest_upload_enabled
      guest_download_enabled := guest_download_enabled.getD r.guest_download_enabled
      password_hash := password_hash.getD r.password_hash }

/-- The updates of a session. -/
inductive SessionUpdate
  | expire (expires_at last_seen_at : Time)
  | flush (loaded new : SessionRow)
  deriving DecidableEq

/-- The row after the `UPDATE`. -/
def SessionUpdate.set : SessionUpdate → SessionRow → SessionRow
  | expire expires_at last_seen_at, r => { r with expires_at, last_seen_at }
  | flush loaded new, r => SessionRow.flush loaded new r

/-- The updates of a file record. -/
inductive FileUpdate
  | markDeleted
  | incrementDownload
  | flush (loaded new : FileRow)
  deriving DecidableEq

/-- The row after the `UPDATE`. -/
def FileUpdate.set : FileUpdate → FileRow → FileRow
  | markDeleted, r => { r with status := .deleted }
  | incrementDownload, r => { r with download_count := r.download_count + 1 }
  | flush loaded new, r => FileRow.flush loaded new r

/-- The updates that are issued on each table. -/
abbrev Upd : Table → Type
  | .rooms => RoomUpdate
  | .sessions => SessionUpdate
  | .files => FileUpdate
  | .messages => Empty
  | .auditEvents => Empty

/-- The rows that a `DELETE` of file records matches. -/
inductive FileDelete
  | byId (file_id : ℕ)
  | byRoom (room_id : ℕ)
  deriving DecidableEq

/-- The rows that a `DELETE` of messages matches. -/
inductive MessageDelete
  | byId (message_id : ℤ) (room_id : ℕ)
  | byRoom (room_id : ℕ)
  deriving DecidableEq

/-- The deletes that are issued on each table: sessions and audit events are deleted by their
room. -/
abbrev Del : Table → Type
  | .rooms => Empty
  | .sessions => ℕ
  | .files => FileDelete
  | .messages => MessageDelete
  | .auditEvents => ℕ

/-- The statements of the server on its tables. -/
def dialect : Dialect Table Row Upd Del where
  applies {t} := match t with
    | .rooms => RoomUpdate.applies
    | .sessions | .files => fun _ _ => true
    | .messages | .auditEvents => fun u _ => u.elim
  set {t} := match t with
    | .rooms => RoomUpdate.set
    | .sessions => SessionUpdate.set
    | .files => FileUpdate.set
    | .messages | .auditEvents => fun u _ => u.elim
  deletes {t} := match t with
    | .rooms => fun d _ _ => d.elim
    | .sessions => fun room_id _ r => r.room_id == room_id
    | .files => fun d i r => match d with
      | .byId file_id => i == file_id
      | .byRoom room_id => r.room_id == room_id
    | .messages => fun d i r => match d with
      | .byId message_id room_id => (i : ℤ) == message_id && r.room_id == room_id
      | .byRoom room_id => r.room_id == room_id
    | .auditEvents => fun room_id _ r => r.room_id == some room_id

/-- The room that a row belongs to. -/
def roomOf : (t : Table) → Row t → Option ℕ
  | .rooms, _ => none
  | .sessions, r => some r.room_id
  | .files, r => some r.room_id
  | .messages, r => some r.room_id
  | .auditEvents, r => r.room_id

/-- An update leaves a row in its room. -/
theorem roomOf_set {t : Table} (u : Upd t) (r : Row t) :
    roomOf t (dialect.set u r) = roomOf t r := by
  cases t with
  | rooms => rfl
  | sessions => cases u <;> rfl
  | files => cases u <;> rfl
  | messages => exact u.elim
  | auditEvents => exact u.elim

/-! ## Messages of a client -/

/-- A JSON value, as it is written. A float is given by its text. -/
inductive Json
  | null
  | bool (b : Bool)
  | int (n : ℤ)
  | float (text : String)
  | str (s : String)
  | arr (values : List Json)
  | obj (fields : List (String × Json))

namespace Json

/-- A value that counts as absent in `value or default`. -/
def falsy : Json → Bool
  | null => true
  | bool b => !b
  | int n => n == 0
  | float text => text == "0.0" || text == "-0.0"
  | str s => s == ""
  | arr values => values.isEmpty
  | obj fields => fields.isEmpty

/-- The member of an object with a key. Of those with the same key a `dict` has the last one. -/
def member (fields : List (String × Json)) (key : String) : Option Json := fields.reverse.lookup key

/-! ### What `json.loads` accepts -/

mutual

/-- `json.loads` accepts the value: it nests at most `depth` deep, else there is a `RecursionError`, and
no integer has more than 4300 digits, else there is a `ValueError`. -/
def loads : ℕ → Json → Bool
  | _, int n => (Nat.toDigits 10 n.natAbs).length ≤ 4300
  | 0, arr _ | 0, obj _ => false
  | depth + 1, arr values => loadsAll depth values
  | depth + 1, obj fields => loadsFields depth fields
  | _, null | _, bool _ | _, float _ | _, str _ => true

/-- `loads` for the values of an array. -/
def loadsAll : ℕ → List Json → Bool
  | _, [] => true
  | depth, value :: values => loads depth value && loadsAll depth values

/-- `loads` for the members of an object. -/
def loadsFields : ℕ → List (String × Json) → Bool
  | _, [] => true
  | depth, field :: fields => loads depth field.2 && loadsFields depth fields

end

end Json

/-- What arrives at a socket: a text that is a JSON value, or another message. -/
inductive Frame
  | json (data : Json)
  | malformed

/-! ## Settings and parameters -/

/-- The settings that the modelled functions read, with their defaults. -/
structure Settings where
  session_ttl_seconds : ℕ := 60 * 60 * 12
  max_room_lifetime_seconds : ℕ := 24 * 60 * 60
  room_lifetime_options_seconds : List ℕ := [1800, 3600, 21600, 43200, 86400]
  default_room_lifetime_seconds : ℕ := 3600
  room_expiring_threshold_seconds : ℕ := 300
  max_users_per_room : ℤ := 10
  max_file_size_bytes : ℕ := 1024 * 1024 * 1024
  max_room_storage_bytes : ℤ := 2 * 1024 * 1024 * 1024
  max_files_per_room : ℤ := 100
  max_message_length : ℕ := 1000
  chat_scrollback : ℕ := 200
  upload_chunk_size_bytes : ℕ := 8 * 1024 * 1024
  job_max_attempts : ℕ := 3
  job_orphan_sweep_limit : ℕ := 200
  rate_limit_enabled : Bool := true
  rate_limit_window_seconds : ℕ := 60
  create_room_limit : ℕ := 5
  generic_limit : ℕ := 120
  join_by_code_limit : ℕ := 6
  chat_limit : ℕ := 20
  upload_limit : ℕ := 30

/-- The settings, the functions of `security.py` that rest on cryptography, and the conversions of
Python that the code applies to what clients send: `str.upper`, `str` and `int` of a JSON value, where
`int` may raise, and how deep `json.loads` follows a value before the recursion limit. -/
structure Env extends Settings where
  hash_token : Token → TokenHash
  hash_password : String → String
  verify_password : String → String → Bool
  verify_csrf_token : String → Bool
  sign_access_token : Token → String
  unsign_access_token : String → Option Token
  upper : String → String
  strOf : Json → String
  intOf : Json → Option ℤ
  json_depth : ℕ

/-! ## Errors -/

/-- The subclasses of `DropRoomError` that are raised somewhere, and the class itself. -/
inductive ErrorClass
  | dropRoomError | roomNotFound | roomExpired | roomFull | wrongPassword | joinFailed
  | invalidOwnerToken | permissionDenied | notAuthenticated | csrfValidationFailed | rateLimited
  | fileTooLarge | roomStorageQuotaExceeded | fileNotFound
  deriving DecidableEq

namespace ErrorClass

/-- `code`. -/
def code : ErrorClass → String
  | dropRoomError => "ERROR"
  | roomNotFound => "ROOM_NOT_FOUND"
  | roomExpired => "ROOM_EXPIRED"
  | roomFull => "ROOM_FULL"
  | wrongPassword => "WRONG_PASSWORD"
  | joinFailed => "JOIN_FAILED"
  | invalidOwnerToken => "INVALID_OWNER_TOKEN"
  | permissionDenied => "PERMISSION_DENIED"
  | notAuthenticated => "NOT_AUTHENTICATED"
  | csrfValidationFailed => "CSRF_FAILED"
  | rateLimited => "RATE_LIMITED"
  | fileTooLarge => "FILE_TOO_LARGE"
  | roomStorageQuotaExceeded => "ROOM_STORAGE_QUOTA_EXCEEDED"
  | fileNotFound => "FILE_NOT_FOUND"

/-- `self.__class__.__name__`. -/
def className : ErrorClass → String
  | dropRoomError => "DropRoomError"
  | roomNotFound => "RoomNotFound"
  | roomExpired => "RoomExpired"
  | roomFull => "RoomFull"
  | wrongPassword => "WrongPassword"
  | joinFailed => "JoinFailed"
  | invalidOwnerToken => "InvalidOwnerToken"
  | permissionDenied => "PermissionDenied"
  | notAuthenticated => "NotAuthenticated"
  | csrfValidationFailed => "CSRFValidationFailed"
  | rateLimited => "RateLimited"
  | fileTooLarge => "FileTooLarge"
  | roomStorageQuotaExceeded => "RoomStorageQuotaExceeded"
  | fileNotFound => "FileNotFound"

end ErrorClass

/-- An exception: a `DropRoomError`, the end of a socket, or anything else. -/
inductive Err
  | dropRoom (cls : ErrorClass) (detail : String)
  | webSocketDisconnect
  | exception
  deriving DecidableEq

/-- `cls(detail)`: without a detail, the name of the class stands in. -/
def error (cls : ErrorClass) (detail : String) : Err :=
  .dropRoom cls (if detail = "" then cls.className else detail)

/-! ## Events -/

/-- `FileView`. -/
structure FileView where
  id : ℕ
  original_filename : String
  content_type : Option String
  size_bytes : ℕ
  status : FileStatus
  download_count : ℕ
  uploaded_by_name : Option String
  created_at : Time
  deriving DecidableEq

/-- `MessageView`. -/
structure MessageView where
  id : ℕ
  display_name : Option String
  body : String
  created_at : Time
  deriving DecidableEq

/-- `RoomView`. -/
structure RoomView where
  room_code : String
  name : Option String
  status : RoomStatus
  guest_upload_enabled : Bool
  guest_download_enabled : Bool
  user_count : ℤ
  max_users : ℤ
  storage_used_bytes : ℤ
  file_count : ℤ
  created_at : Time
  expires_at : Time
  deriving DecidableEq

/-- An entry of `members` in `ROOM_STATE`. -/
structure Member where
  session_id : ℕ
  display_name : Option String
  role : Role
  deriving DecidableEq

/-- The payload of `ROOM_STATE`. -/
structure RoomState where
  room : RoomView
  remaining_seconds : ℕ
  role : Role
  me : ℕ × Option String
  members : List Member
  files : List FileView
  messages : List MessageView
  deriving DecidableEq

/-- A message to a socket: its `type` with its `payload`. -/
inductive Event
  | roomState (state : RoomState)
  | roomExpiring (remainingSeconds : ℕ)
  | roomSettingsChanged (room : RoomView)
  | roomExpired
  | userJoined (sessionId : ℕ) (displayName : Option String) (role : Role)
  | userLeft (sessionId : ℕ) (displayName : Option String)
  | fileUploadProgress (fileId receivedBytes totalSizeBytes : ℕ) (filename : String)
  | fileUploadCompleted (file : FileView)
  | fileDeleted (fileId : ℕ)
  | fileDownloaded (fileId downloadCount : ℕ)
  | chatMessageSent (message : MessageView)
  | chatMessageDeleted (messageId : ℕ)
  | pong
  | error (code detail : String)
  deriving DecidableEq

/-- The channel `room:<id>` of `ws_channel`. -/
inductive Channel
  | room (id : ℕ)
  deriving DecidableEq

/-- A job of the queue with its payload. -/
inductive Job
  | roomCleanup (room_id : Option ℕ)
  | deleteFileObject (storage_key : Option Key)
  | expireUploadSession (file_id : Option ℕ)
  | sendRoomExpirationEvent (room_id : Option ℕ)
  | cleanupOrphanedObject (storage_key : Option Key)
  | generateAuditEvent (room_id : Option ℕ) (event_type : String)
  deriving DecidableEq

end DropRoom
