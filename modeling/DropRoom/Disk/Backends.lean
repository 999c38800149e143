import DropRoom.App.World
import DropRoom.Disk.Files

/-!
# The storage backends

`LocalStorageBackend` and `S3StorageBackend` on the system calls that they make. The rest of the
development knows the storage as a map from keys to bytes; here it is what the files under the root, or
the objects of the bucket, make of that.

A key is a path relative to the root, and a temp file of `LocalStorageBackend` has one too: it is
created beside the file that it will replace. The names that `mkstemp` chooses are parameters of the
programs; a name that is in use is never chosen.
-/

namespace DropRoom

open Effect Store

/-- An exception: a `FileNotFoundError`, another `OSError`, another `Exception`, or one that is no
`Exception`, such as `CancelledError`. -/
inductive Exn
  | fileNotFound | osError | exception | cancelled
  deriving DecidableEq

/-- `except OSError`. -/
def Exn.isOSError : Exn → Bool
  | fileNotFound | osError => true
  | exception | cancelled => false

/-- `except Exception`. -/
def Exn.isException : Exn → Bool
  | fileNotFound | osError | exception => true
  | cancelled => false

/-- Where a file is: under the root of the local storage, or in the directory for temp files. -/
inductive Path
  | root (key : Key)
  | temp (name : Key)
  deriving DecidableEq

/-- What a backend asks of the system, of the S3 client or of the stream of data. -/
inductive Sys
  /-- `self.root.mkdir(parents=True, exist_ok=True)`. -/
  | mkdirRoot
  /-- `dest.parent.mkdir(parents=True, exist_ok=True)`. -/
  | mkdirParent (key : Key)
  | mkstemp (path : Path)
  | fdopen (fd : ℕ)
  /-- The `i`-th `__anext__` of the data. -/
  | anext (i : ℕ)
  | write (fd i : ℕ) (chunk : Bytes)
  | close (fd : ℕ)
  | replace (src dst : Path)
  | unlink (path : Path)
  | createBucket
  | uploadFileobj (src : Path) (key : Key)
  /-- The executor is done, and the task goes on unless it was cancelled. -/
  | resume
  | deleteObject (key : Key)
  | exists_ (path : Path)
  | openRead (path : Path)
  /-- `read(CHUNK_SIZE)` at an offset. -/
  | read (fd offset : ℕ)
  /-- The files under the root whose relative path has a prefix. -/
  | listKeys (pre : Key)
  deriving DecidableEq

namespace Sys

/-- The answer to a request. -/
abbrev Answer : Sys → Type
  | mkstemp _ | openRead _ => ℕ
  | exists_ _ => Bool
  | read .. => Bytes
  | listKeys _ => List Key
  | mkdirRoot | mkdirParent _ | fdopen _ | anext _ | write .. | close _ | replace .. | unlink _
  | createBucket | uploadFileobj .. | resume | deleteObject _ => Unit

/-- The exceptions that a request may end with. The data, and a task that waits, may raise anything. -/
def Raises : Sys → Exn → Prop
  | anext _, _ | createBucket, _ | resume, _ => True
  | uploadFileobj .., e | deleteObject _, e => e.isException = true
  | mkdirRoot, e | mkdirParent _, e | mkstemp _, e | fdopen _, e | write .., e | close _, e
  | replace .., e | unlink _, e | exists_ _, e | openRead _, e | read .., e | listKeys _, e =>
    e = .osError

end Sys

/-- What has been done to the storage so far, and what it has answered. -/
inductive Entry
  | stored (key : Key) (object : Bytes)
  | deleted (key : Key)
  | listed (pre : Key) (keys : List Key)
  | probed (key : Key) (found : Bool)
  deriving DecidableEq

/-- The files, the bucket, and what has been done so far, the last entry first. -/
structure Host where
  files : Files Path UInt8
  bucket : Storage
  log : List Entry

/-- `CHUNK_SIZE`. -/
def CHUNK_SIZE : ℕ := 1024 * 256

namespace Host

/-- The objects of a local storage. -/
def object (w : Host) (key : Key) : Option Bytes := w.files.content (.root key)

/-- The relative paths of the files under the root, in order. -/
def keys (w : Host) : List Key :=
  (w.files.names.filterMap fun
    | .root key => some key
    | .temp _ => none).insertionSort (· ≤ ·)

/-- The host after `mkstemp`. -/
def created (w : Host) (path : Path) : Host := { w with files := w.files.create path }

/-- The host after more was written to a file. -/
def append (w : Host) (fd : ℕ) (bs : Bytes) : Host := { w with files := w.files.append fd bs }

/-- The host after a file was moved. -/
def replaced (w : Host) (src dst : Path) (object : Bytes) : Host :=
  { w with
    files := w.files.rename src dst
    log := match dst with
      | .root key => .stored key object :: w.log
      | .temp _ => w.log }

/-- The host after an object was uploaded. -/
def uploaded (w : Host) (key : Key) (object : Bytes) : Host :=
  { w with bucket := w.bucket.insert key object }

/-- The host after a name was taken away. -/
def unlinked (w : Host) (path : Path) : Host :=
  { w with
    files := w.files.unlink path
    log := match path with
      | .root key => .deleted key :: w.log
      | .temp _ => w.log }

/-- The answer to a request and the host after it. A name that is in use cannot be chosen by
`mkstemp`. A key is the name of a file in the root: there are no directories below it, as keys with a
slash would make. -/
def exec : (c : Sys) → Host → Option (Except Exn c.Answer × Host)
  | .mkdirRoot, w | .mkdirParent _, w | .fdopen _, w | .anext _, w | .close _, w | .createBucket, w
  | .resume, w =>
    some (.ok (), w)
  | .mkstemp path, w =>
    if (w.files.number path).isSome then none
    else some (.ok w.files.count, w.created path)
  | .write fd _ chunk, w => some (.ok (), w.append fd chunk)
  | .replace src dst, w =>
    match w.files.content src with
    | none => some (.error .fileNotFound, w)
    | some object => some (.ok (), w.replaced src dst object)
  | .unlink path, w =>
    match w.files.number path with
    | none => some (.error .fileNotFound, w)
    | some _ => some (.ok (), w.unlinked path)
  | .uploadFileobj src key, w =>
    match w.files.content src with
    | none => some (.error .fileNotFound, w)
    | some object => some (.ok (), w.uploaded key object)
  | .deleteObject key, w => some (.ok (), { w with bucket := w.bucket.erase key })
  | .exists_ path, w =>
    let found := (w.files.number path).isSome
    some (.ok found, { w with
      log := match path with
        | .root key => .probed key found :: w.log
        | .temp _ => w.log })
  | .openRead path, w =>
    match w.files.number path with
    | none => some (.error .fileNotFound, w)
    | some fd => some (.ok fd, w)
  | .read fd offset, w => some (.ok (((w.files.data fd).drop offset).take CHUNK_SIZE), w)
  | .listKeys pre, w =>
    let found := w.keys.filter fun key => pre.isPrefixOf key
    some (.ok found, { w with log := .listed pre found :: w.log })

end Host

namespace Host

variable {w : Host}

/-- A fresh temporary file. -/
theorem exec_mkstemp {path : Path} (h : w.files.number path = none) :
    exec (.mkstemp path) w = some (.ok w.files.count, w.created path) := by
  simp only [exec, h]
  rfl

/-- `mkstemp` does not give out a name that is in use. -/
theorem exec_mkstemp_of_used {path : Path} {i : ℕ} (h : w.files.number path = some i) :
    exec (.mkstemp path) w = none := by
  simp only [exec, h]
  rfl

/-- `os.replace` puts the file under the other name. -/
theorem exec_replace {src dst : Path} {object : Bytes} (h : w.files.content src = some object) :
    exec (.replace src dst) w = some (.ok (), w.replaced src dst object) := by
  simp only [exec, h]

/-- `unlink` takes the name away. -/
theorem exec_unlink {path : Path} {i : ℕ} (h : w.files.number path = some i) :
    exec (.unlink path) w = some (.ok (), w.unlinked path) := by
  simp only [exec, h]

/-- The upload puts the whole file into the bucket. -/
theorem exec_uploadFileobj {src : Path} {key : Key} {object : Bytes}
    (h : w.files.content src = some object) : exec (.uploadFileobj src key) w =
      some (.ok (), w.uploaded key object) := by
  simp only [exec, h]

end Host

/-- The host, where any request may fail. -/
def host : Machine Sys Sys.Answer Exn Host where
  exec _ := Host.exec
  fault := Sys.Raises
  env _ _ := False

/-! ## The programs -/

/-- A program that works on the files and the bucket. -/
abbrev Io (α : Type) : Type := Prog Sys Sys.Answer Exn α

/-- One request. -/
def ask (c : Sys) : Io c.Answer := .perform c

/-- `try: body except <some exceptions>: pass`. -/
def suppress (which : Exn → Bool) (body : Io Unit) : Io Unit :=
  body.tryCatch fun e => if which e then pure () else .raise e

/-- The precondition of a suppressed body: what is suppressed counts as a return. -/
theorem wp_suppress {S : Type} {τ : Prog.Transformer Sys Sys.Answer Exn S} (hτ : τ.Monotone)
    {which : Exn → Bool} {body : Io Unit} {Q : Except Exn Unit → S → Prop} {s : S}
    (h : body.wp τ (fun x s' => (x = .ok () → Q (.ok ()) s') ∧
      ∀ e, x = .error e → if which e = true then Q (.ok ()) s' else Q (.error e) s') s) :
    (suppress which body).wp τ Q s := by
  unfold suppress
  rw [Prog.wp_tryCatch]
  refine Prog.wp_mono hτ (fun x s' hx => ?_) h
  cases x with
  | ok a => exact hx.1 rfl
  | error e =>
    have he := hx.2 e rfl
    dsimp only
    split
    · next hwhich => rwa [if_pos hwhich] at he
    · next hwhich => rwa [if_neg hwhich] at he

/-- The `finally` of a body that has ended. -/
def lastly {α : Type} (last : Io Unit) : Except Exn α → Io α
  | .ok a => do last; pure a
  | .error e => do last; .raise e

/-- `try: body finally: last`. -/
def withFinally {α : Type} (body : Io α) (last : Io Unit) : Io α := body.andThen (lastly last)

/-- `async for chunk in data: fh.write(chunk); total += len(chunk)`, from the `i`-th chunk on. -/
def writeAll (fd : ℕ) : ℕ → List Bytes → ℕ → Io ℕ
  | i, [], total => do
    ask (.anext i)
    pure total
  | i, chunk :: data, total => do
    ask (.anext i)
    ask (.write fd i chunk)
    writeAll fd (i + 1) data (total + chunk.length)

/-- `with os.fdopen(fd, "wb") as fh`. -/
def withFile {α : Type} (fd : ℕ) (body : Io α) : Io α := do
  ask (.fdopen fd)
  withFinally body (ask (.close fd))

namespace LocalStorageBackend

/-- `LocalStorageBackend.put`, with the path that `mkstemp` chooses. -/
def put (tmp key : Key) (data : List Bytes) : Io ℕ := do
  ask .mkdirRoot
  ask (.mkdirParent key)
  let fd ← ask (.mkstemp (.root tmp))
  Prog.tryCatch
    (do
      let total ← withFile fd (writeAll fd 0 data 0)
      ask (.replace (.root tmp) (.root key))
      pure total)
    fun e => do
      suppress Exn.isOSError (ask (.unlink (.root tmp)))
      .raise e

/-- The reads of `get_stream`: at most `n` chunks are asked for. The flag says that the end was
reached. -/
def readAll (fd : ℕ) : ℕ → ℕ → Io (List Bytes × Bool)
  | 0, _ => pure ([], false)
  | n + 1, offset => do
    let chunk ← ask (.read fd offset)
    if chunk = [] then pure ([], true)
    else do
      let rest ← readAll fd n (offset + chunk.length)
      pure (chunk :: rest.1, rest.2)

/-- `LocalStorageBackend.get_stream`, whose consumer asks for `n` chunks. -/
def getStream (key : Key) (n : ℕ) : Io (List Bytes × Bool) := do
  if ← ask (.exists_ (.root key)) then
    let fd ← ask (.openRead (.root key))
    readAll fd n 0
  else pure ([], true)

/-- `LocalStorageBackend.delete`. -/
def delete (key : Key) : Io Unit :=
  suppress (· == .fileNotFound) (ask (.unlink (.root key)))

/-- `LocalStorageBackend.exists`. -/
def exists_ (key : Key) : Io Bool := ask (.exists_ (.root key))

/-- `LocalStorageBackend.list_keys`. -/
def listKeys (pre : Key) : Io (List Key) := ask (.listKeys pre)

end LocalStorageBackend

/-- `S3StorageBackend.put`, with the name that `mkstemp` chooses. -/
def S3StorageBackend.put (tmp key : Key) (data : List Bytes) : Io ℕ := do
  ask .createBucket
  let fd ← ask (.mkstemp (.temp tmp))
  withFinally
    (Prog.tryCatch
      (do
        let total ← withFile fd (writeAll fd 0 data 0)
        ask (.uploadFileobj (.temp tmp) key)
        ask .resume
        pure total)
      fun e => do
        suppress Exn.isException (ask (.deleteObject key))
        .raise e)
    (suppress Exn.isOSError (ask (.unlink (.temp tmp))))

/-- What the scheduler and the workers do to keys of no record: list, and delete the first of them. -/
def sweepOrphans (known : List Key) (limit : ℕ) : Io Unit := do
  let keys ← LocalStorageBackend.listKeys []
  ((keys.filter fun key => !known.contains key).take limit).forM LocalStorageBackend.delete

end DropRoom
