import DropRoom.App.Events
import DropRoom.Effect.Machine

/-!
# The world of the server

What the programs of the server share: the database, the object storage, the clocks, the sockets
registered in `ws/manager.py`, the job queue, and the buckets of the rate limiter. `Cmd` lists what
a program can do to it, one command for each point at which another task may run: a database
statement, a storage call, a message to a socket. A few commands do not suspend (reading a clock,
drawing a `uuid4`, the synchronous methods of the connection manager); each of these is one step.

The storage is `LocalStorageBackend`: a key that is missing reads as an empty stream, `put` shows
its object only when it is complete, and `delete` of a missing key does nothing.
-/

namespace DropRoom

open Store Effect

/-- A set of sockets of one session, and which set object it is: a session that leaves and comes
back gets a new one. -/
structure SocketSet where
  ident : ℕ
  members : List ℕ
  deriving DecidableEq

/-- `ConnectionManager`: for each channel and session its connected sockets. -/
structure ConnectionManager where
  rooms : AList fun _ : Channel => AList fun _ : ℕ => SocketSet
  created : ℕ

namespace ConnectionManager

/-- `self._rooms[channel]` of the `defaultdict`: a missing channel is created. -/
def touch (m : ConnectionManager) (ch : Channel) :
    (AList fun _ : ℕ => SocketSet) × ConnectionManager :=
  match m.rooms.lookup ch with
  | some sessions => (sessions, m)
  | none => (∅, { m with rooms := m.rooms.insert ch ∅ })

/-- `self._rooms[channel][session_id].add(ws)`. -/
def add (m : ConnectionManager) (ch : Channel) (sid ws : ℕ) : ConnectionManager :=
  let (sessions, m) := m.touch ch
  match sessions.lookup sid with
  | some set =>
    let members := if ws ∈ set.members then set.members else set.members ++ [ws]
    { m with rooms := m.rooms.insert ch (sessions.insert sid { set with members }) }
  | none =>
    { rooms := m.rooms.insert ch (sessions.insert sid ⟨m.created, [ws]⟩)
      created := m.created + 1 }

/-- `disconnect`: an empty set, and then an empty channel, is removed. -/
def disconnect (m : ConnectionManager) (ch : Channel) (sid ws : ℕ) : ConnectionManager :=
  let (sessions, m) := m.touch ch
  let sessions := match sessions.lookup sid with
    | some set =>
      let members := set.members.filter (· ≠ ws)
      if members = [] then sessions.erase sid else sessions.insert sid { set with members }
    | none => sessions
  { m with rooms :=
      if sessions.keys = [] then m.rooms.erase ch else m.rooms.insert ch sessions }

/-- `is_session_connected`. -/
def isSessionConnected (m : ConnectionManager) (ch : Channel) (sid : ℕ) :
    Bool × ConnectionManager :=
  let (sessions, m) := m.touch ch
  match sessions.lookup sid with
  | some set => (!set.members.isEmpty, m)
  | none => (false, m)

/-- The sessions of a list that are connected. -/
def connectedAmong (m : ConnectionManager) (ch : Channel) :
    List ℕ → List ℕ × ConnectionManager
  | [] => ([], m)
  | sid :: sids =>
    let (connected, m) := m.isSessionConnected ch sid
    let (rest, m) := m.connectedAmong ch sids
    (if connected then sid :: rest else rest, m)

/-- `list(self._rooms[channel].items())`: the sessions with their set objects. -/
def items (m : ConnectionManager) (ch : Channel) : List (ℕ × ℕ) × ConnectionManager :=
  let (sessions, m) := m.touch ch
  (sessions.entries.map fun e => (e.1, e.2.ident), m)

/-- `list(sockets)` for a set object found earlier: a set that has been removed is empty. -/
def socketsOf (m : ConnectionManager) (ch : Channel) (sid ident : ℕ) : List ℕ :=
  match (m.rooms.lookup ch).bind (AList.lookup sid) with
  | some set => if set.ident = ident then set.members else []
  | none => []

end ConnectionManager

/-- `InMemoryRateLimiter._buckets`: for each scope and key the start of the window and the count. -/
abbrev Buckets : Type := AList fun _ : String × String => Time × ℕ

/-- `InMemoryRateLimiter.check`. -/
def Buckets.check (b : Buckets) (scope key : String) (limit : ℕ) (window now : Time) :
    Bool × Buckets :=
  let (start, count) := (b.lookup (scope, key)).getD (0, 0)
  if window ≤ now - start then (true, b.insert (scope, key) (now, 1))
  else if limit ≤ count then (false, b)
  else (true, b.insert (scope, key) (start, count + 1))

/-- The object storage. -/
abbrev Storage : Type := AList fun _ : Key => Bytes

/-- `list_keys`: the keys with a prefix, in order. -/
def Storage.listKeys (s : Storage) (pre : Key) : List Key :=
  (s.keys.filter fun k => pre.isPrefixOf k).insertionSort (· ≤ ·)

/-- Everything that the programs of the server share. The values that `secrets` and `uuid` draw
are given in advance, with how many of them are used up. -/
structure World where
  db : Db
  storage : Storage
  now : Time
  monotonic : Time
  manager : ConnectionManager
  outbox : List (ℕ × Event)
  queue : List Job
  buckets : Buckets
  uuids : ℕ → Uuid
  uuidsUsed : ℕ
  tokens : ℕ → Token
  tokensUsed : ℕ
  codes : ℕ → String
  codesUsed : ℕ

/-- What a program can do. -/
inductive Cmd
  | sql (q : Sql Table Row Upd Del)
  /-- `storage.put`, with the data that its source yields or the exception that it raises. -/
  | put (key : Key) (data : Except Err Bytes)
  | getStream (key : Key)
  | deleteObject (key : Key)
  | objectExists (key : Key)
  | listKeys (pre : Key)
  | utcnow
  | uuid4
  | generateToken
  | generateRoomCode
  | checkRate (scope key : String) (limit window : ℕ)
  | enqueue (job : Job)
  /-- `queue.get`, which waits for a job. -/
  | dequeue
  | accept (ws : ℕ)
  /-- The synchronous end of `manager.connect`. -/
  | register (ch : Channel) (sid ws : ℕ)
  /-- `manager.disconnect` with the check for other sockets that follows it. -/
  | unregister (ch : Channel) (sid ws : ℕ)
  /-- `[s for s in sessions if manager.is_session_connected(channel, s.id)]`. -/
  | connectedAmong (ch : Channel) (sids : List ℕ)
  | items (ch : Channel)
  | socketsOf (ch : Channel) (sid ident : ℕ)
  | sendJson (ws : ℕ) (event : Event)
  | closeSocket (ws code : ℕ)

/-- What each command answers. -/
abbrev Resp : Cmd → Type
  | .sql q => q.Answer
  | .put .. => ℕ
  | .getStream _ => Bytes
  | .deleteObject _ => Unit
  | .objectExists _ => Bool
  | .listKeys _ => List Key
  | .utcnow => Time
  | .uuid4 => Uuid
  | .generateToken => Token
  | .generateRoomCode => String
  | .checkRate .. => Bool
  | .enqueue _ => Unit
  | .dequeue => Job
  | .accept _ => Unit
  | .register .. => Unit
  | .unregister .. => Bool
  | .connectedAmong .. => List ℕ
  | .items _ => List (ℕ × ℕ)
  | .socketsOf .. => List ℕ
  | .sendJson .. => Unit
  | .closeSocket .. => Unit

/-- The answer to a command of process `p` and the world after it, or `none` while it waits for a
row lock or for a job. -/
def exec (p : ℕ) : (c : Cmd) → World → Option (Except Err (Resp c) × World)
  | .sql q, w => (q.exec dialect p w.db).map fun (a, db) => (.ok a, { w with db })
  | .put key (.ok data), w =>
    some (.ok data.length, { w with storage := w.storage.insert key data })
  | .put _ (.error e), w => some (.error e, w)
  | .getStream key, w => some (.ok ((w.storage.lookup key).getD []), w)
  | .deleteObject key, w => some (.ok (), { w with storage := w.storage.erase key })
  | .objectExists key, w => some (.ok (w.storage.lookup key).isSome, w)
  | .listKeys pre, w => some (.ok (w.storage.listKeys pre), w)
  | .utcnow, w => some (.ok w.now, w)
  | .uuid4, w => some (.ok (w.uuids w.uuidsUsed), { w with uuidsUsed := w.uuidsUsed + 1 })
  | .generateToken, w =>
    some (.ok (w.tokens w.tokensUsed), { w with tokensUsed := w.tokensUsed + 1 })
  | .generateRoomCode, w =>
    some (.ok (w.codes w.codesUsed), { w with codesUsed := w.codesUsed + 1 })
  | .checkRate scope key limit window, w =>
    let checked := w.buckets.check scope key limit (seconds window) w.monotonic
    some (.ok checked.1, { w with buckets := checked.2 })
  | .enqueue job, w => some (.ok (), { w with queue := w.queue ++ [job] })
  | .dequeue, w => match w.queue with
    | job :: queue => some (.ok job, { w with queue })
    | [] => none
  | .accept _, w => some (.ok (), w)
  | .register ch sid ws, w => some (.ok (), { w with manager := w.manager.add ch sid ws })
  | .unregister ch sid ws, w =>
    let (connected, manager) := (w.manager.disconnect ch sid ws).isSessionConnected ch sid
    some (.ok connected, { w with manager })
  | .connectedAmong ch sids, w =>
    let (connected, manager) := w.manager.connectedAmong ch sids
    some (.ok connected, { w with manager })
  | .items ch, w =>
    let (items, manager) := w.manager.items ch
    some (.ok items, { w with manager })
  | .socketsOf ch sid ident, w => some (.ok (w.manager.socketsOf ch sid ident), w)
  | .sendJson ws event, w =>
    -- `json.dumps` raises at a value that is not JSON, before anything is sent.
    let rendered := event.message.isJson
    some (if rendered then .ok () else .error .exception,
      { w with outbox := if rendered then w.outbox ++ [(ws, event)] else w.outbox })
  | .closeSocket _ _, w => some (.ok (), w)

/-- The exceptions that a command may raise instead of being executed: those that leave the
process may fail, and a socket may be gone. A rollback also happens when the connection is lost. -/
def Cmd.Raises : Cmd → Err → Prop
  | .sql .rollback, _ => False
  | .sql _, e | .put .., e | .getStream _, e | .deleteObject _, e | .objectExists _, e
  | .listKeys _, e => e = .exception
  | .accept _, e | .sendJson .., e | .closeSocket .., e =>
    e = .exception ∨ e = .webSocketDisconnect
  | _, _ => False

/-- Time passes. -/
def World.Tick (w w' : World) : Prop :=
  ∃ d d', w' = { w with now := w.now + d, monotonic := w.monotonic + d' }

/-- The server, in which any command that leaves the process may fail, and time passes. -/
def server : Machine Cmd Resp Err World where
  exec := exec
  fault := Cmd.Raises
  env := World.Tick

/-- The server while nothing fails and the clock stands still. -/
def calm : Machine Cmd Resp Err World where
  exec := exec
  fault _ _ := False
  env _ _ := False

/-- The server while nothing fails. -/
def reliable : Machine Cmd Resp Err World where
  exec := exec
  fault _ _ := False
  env := World.Tick

/-- A program of the server. -/
abbrev Op (α : Type) : Type := Prog Cmd Resp Err α

/-! ## Commands as programs -/

/-- The program of one command. -/
def issue (c : Cmd) : Op (Resp c) := Prog.perform c

/-- `SELECT`. -/
def select (t : Table) (where_ : ℕ → Row t → Bool) : Op (List (ℕ × Row t)) :=
  issue (.sql (.select t where_))

/-- `UPDATE` of one row by its number. -/
def updateAt (t : Table) (i : ℕ) (u : Upd t) : Op Bool := issue (.sql (.updateAt t i u))

/-- `DELETE`. -/
def deleteWhere (t : Table) (d : Del t) : Op ℕ := issue (.sql (.deleteWhere t d))

/-- `INSERT`. -/
def insert (t : Table) (r : Row t) : Op ℕ := issue (.sql (.insert t r))

/-- `db.commit()`. -/
def commit : Op Unit := issue (.sql .commit)

/-- The end of `async with get_session_factory()() as db`: what is not committed is lost. -/
def closeDb : Op Unit := issue (.sql .rollback)

namespace storage

/-- `storage.put`. -/
def put (key : Key) (data : Except Err Bytes) : Op ℕ := issue (.put key data)
/-- `storage.get_stream`. -/
def getStream (key : Key) : Op Bytes := issue (.getStream key)
/-- `storage.delete`. -/
def delete (key : Key) : Op Unit := issue (.deleteObject key)
/-- `storage.exists`. -/
def exists_ (key : Key) : Op Bool := issue (.objectExists key)
/-- `storage.list_keys`. -/
def listKeys (pre : Key) : Op (List Key) := issue (.listKeys pre)

end storage

/-- `utcnow()`. -/
def utcnow : Op Time := issue .utcnow
/-- `uuid.uuid4()`. -/
def uuid4 : Op Uuid := issue .uuid4
/-- `generate_token()`. -/
def generateToken : Op Token := issue .generateToken
/-- `generate_room_code()`. -/
def generateRoomCode : Op String := issue .generateRoomCode
/-- `queue.put`. -/
def enqueue (job : Job) : Op Unit := issue (.enqueue job)
/-- `queue.get`. -/
def dequeue : Op Job := issue .dequeue
/-- `ws.send_json`. -/
def sendJson (ws : ℕ) (event : Event) : Op Unit := issue (.sendJson ws event)

/-- `scalar_one_or_none`. -/
def scalarOneOrNone {α : Type} : List α → Op (Option α)
  | [] => pure none
  | [a] => pure (some a)
  | _ => .raise .exception

/-- A request with its own database session, which is closed in the end in any case. -/
def withSession {α : Type} (body : Op α) : Op α := do
  let a ← body.tryCatch fun e => do
    closeDb
    .raise e
  closeDb
  pure a

end DropRoom
