import DropRoom.App.Websocket
import DropRoom.App.Jobs

/-!
# The tasks of the server

Everything that the server runs: requests, sockets, the workers of the job queue and the scans of
the scheduler. A state of the server is a configuration whose processes are tasks, and its runs are
the interleavings of their commands.
-/

namespace DropRoom

open Effect Store

/-- What a process of the server runs. -/
inductive Task
  | request (route : Route) (request : Request)
  | socket (ws : ℕ) (handshake : Handshake) (frames : List Frame)
  | worker (jobs : ℕ)
  | scan
  | idle

/-- The program of a task. -/
def Task.program (env : Env) : Task → Op Unit
  | .request route req => route.handle env req
  | .socket ws handshake frames => websocket.roomWs env ws handshake frames
  | .worker jobs => jobQueue.worker env jobs
  | .scan => scheduler.scanOnce env
  | .idle => pure ()

/-! ## A concrete server -/

/-- The default settings, with functions of `security.py` that hide nothing. -/
def Env.plain : Env where
  hash_token := id
  hash_password := id
  verify_password password hash := password == hash
  verify_csrf_token _ := true
  sign_access_token := id
  unsign_access_token := some
  upper := id
  strOf
    | .str s => s
    | _ => ""
  intOf
    | .int n => some n
    | _ => none
  json_depth := 900

/-- A server that was just started, with empty tables and an empty storage. -/
def World.initial : World where
  db _ := []
  storage := ∅
  now := seconds 1000
  monotonic := 0
  manager := ⟨∅, 0⟩
  outbox := []
  queue := []
  buckets := ∅
  uuids n := ⟨List.replicate (n + 1) 'u', by simp [List.mem_replicate]⟩
  uuidsUsed := 0
  tokens n := String.ofList (List.replicate (n + 1) 't')
  tokensUsed := 0
  codes n := String.ofList (List.replicate (n + 1) 'c')
  codesUsed := 0

/-- A room with the access token `a` and the owner token `o`. -/
def RoomRow.plain : RoomRow where
  room_code := "C"
  access_token_hash := "a"
  access_token_signed := some "a"
  owner_token_hash := "o"
  password_hash := none
  name := none
  status := .active
  guest_upload_enabled := true
  guest_download_enabled := true
  max_users := 10
  user_count := 0
  storage_used_bytes := 0
  file_count := 0
  created_at := seconds 1000
  expires_at := seconds 4600

/-- A confirmed file of five bytes. -/
def FileRow.plain : FileRow where
  room_id := 0
  original_filename := "f"
  storage_key := ⟨['k'], by decide⟩
  content_type := none
  size_bytes := 5
  total_size_bytes := none
  status := .confirmed
  uploaded_by := none
  download_count := 0
  created_at := seconds 1000
  expires_at := none

/-- A session of the owner. -/
def SessionRow.owner : SessionRow where
  room_id := 0
  session_token_hash := "s"
  display_name := none
  role := .owner
  connected_at := seconds 1000
  last_seen_at := seconds 1000
  expires_at := seconds 5000
/-- A request of the owner of `RoomRow.plain`. -/
def Request.owner : Request := ⟨some "s", some "x", some "x", none, none⟩

/-- A table of committed rows that nobody has locked. -/
def committedRows {α : Type} (rows : List α) : List (Cell α) := rows.map fun r => ⟨some r, none⟩

/-- Committed rows are not locked. -/
theorem free_of_committedRows {db : Db} (h : ∀ t, ∃ rows, db t = committedRows rows) :
    Tables.Free db := by
  intro t i
  obtain ⟨rows, hrows⟩ := h t
  rw [Tables.cell, hrows, committedRows, List.getElem?_map]
  cases rows[i]? <;> rfl

/-- A server that holds some committed rooms, sessions and files. -/
def World.holding (rooms : List RoomRow) (sessions : List SessionRow) (files : List FileRow) :
    World :=
  { World.initial with
    db := fun
      | .rooms => committedRows rooms
      | .sessions => committedRows sessions
      | .files => committedRows files
      | _ => [] }

section

variable {rooms : List RoomRow} {sessions : List SessionRow} {files : List FileRow}

/-- No row of it is locked. -/
theorem World.holding_free : (World.holding rooms sessions files).db.Free := by
  refine free_of_committedRows fun t => ?_
  cases t with
  | rooms => exact ⟨rooms, rfl⟩
  | sessions => exact ⟨sessions, rfl⟩
  | files => exact ⟨files, rfl⟩
  | _ => exact ⟨[], rfl⟩

/-- The rows of a table of committed rows. -/
theorem committed_of_committedRows {db : Db} {t : Table} {rows : List (Row t)}
    (h : db t = committedRows rows) (i : ℕ) : db.committed t i = rows[i]? := by
  rw [Tables.committed, Tables.cell, h, committedRows, List.getElem?_map]
  cases rows[i]? <;> rfl

end

/-- A server with one room and its owner. -/
def World.owned : World := .holding [.plain] [.owner] []

/-- A server with one room, its owner, and a file. -/
def World.furnished : World := .holding [.plain] [.owner] [.plain]

end DropRoom
