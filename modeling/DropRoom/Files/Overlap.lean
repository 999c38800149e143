import DropRoom.App.Footprint
import DropRoom.Effect.Tally
import DropRoom.Files.Chunks

/-!
# Overlapping requests for one upload

`store_chunk` adds the length of its chunk to the size that it has loaded, and writes the sum back
without looking at the record again, and `complete_upload_session` writes the length of the object
that it has put together. Of two requests that have loaded the same record, the second to write
undoes what the first has written.

The monitor follows one request with the record that it has loaded. `Inv` says what the record and
the object are, and holds as long as every write is `fresh`: the record is written only while it is
still as the request has loaded it, and the object only while nothing rests on it.
-/

namespace DropRoom

open Effect Store uploadService

namespace overlap

/-- The upload that the requests are for: the number of its record, and its storage key. -/
structure Target where
  file : ℕ
  key : Uuid

/-- The rows that `_pending_session` reads. -/
def byId (file_id : ℤ) : ℕ → FileRow → Bool := fun i _ => (i : ℤ) == file_id

/-! ## The requests -/

/-- A request that stores a chunk of the upload, or one that completes it. -/
inductive Call
  | storeChunk (room_token : Token) (index : ℤ) (body : Except Err Bytes) (request : Request)
  | complete (room_token : Token) (body : uploads.UploadSessionComplete) (request : Request)

/-- The length of the body of a chunk that was received. -/
def received : Except Err Bytes → ℕ
  | .ok chunk => chunk.length
  | .error _ => 0

/-- The program of a request. It answers the length of the chunk that it has stored. -/
def Call.program (env : Env) (t : Target) : Call → Op ℕ
  | storeChunk room_token index body request =>
    (fun _ => received body) <$> uploads.uploadChunk env room_token t.file index body request
  | complete room_token body request =>
    (fun _ => 0) <$> uploads.completeUploadSession env room_token t.file body request

/-- The length of the chunk that a request has stored, if it has ended and was answered so. -/
def accepted (prog : Op ℕ) : ℕ :=
  match prog.outcome with
  | some (.ok k) => k
  | _ => 0

/-! ## The protocol of a request -/

/-- How far a request has come: it has not yet read the record, it has found it PENDING, it has put
the object of `total` bytes together, it has written the record, or its transaction has ended and
`k` bytes were added. The stage `broken` is entered when a command is answered as it cannot be. -/
inductive Stage
  | out
  | loaded (r : FileRow)
  | assembled (r : FileRow) (total : ℕ)
  | flushed (r r' : FileRow)
  | finished (k : ℕ)
  | broken
  deriving DecidableEq

/-- The bytes that a request has added. -/
def Stage.gained : Stage → ℕ
  | .finished k => k
  | _ => 0

/-- The record as the request has loaded it. -/
def Stage.row : Stage → Option FileRow
  | .loaded r | .assembled r _ | .flushed r _ => some r
  | _ => none

/-- The request is under way and relies on the object that it has put together. -/
def Stage.relies : Stage → Bool
  | .assembled .. => true
  | .flushed _ r' => r'.status == .confirmed
  | _ => false

/-- The request has written the record, and holds its lock. -/
def Stage.locks : Stage → Bool
  | .flushed .. => true
  | _ => false

/-- The bytes that writing a PENDING record adds. -/
def gain (r r' : FileRow) : ℕ := if r'.status = .pending then r'.size_bytes - r.size_bytes else 0

/-- The stage after the record was read. -/
def found (t : Target) : List (ℕ × FileRow) → Stage
  | [(i, r)] =>
    if i = t.file ∧ r.storage_key = t.key then
      if r.status = .pending then .loaded r else .finished 0
    else .broken
  | _ => .broken

/-- The commands of a request, by its stage. -/
inductive Allowed (env : Env) (t : Target) : Stage → Cmd → Prop
  | load : Allowed env t .out (.sql (.select .files (byId t.file)))
  | check {c : Cmd} (hc : Issued env [.close] c)
      (hload : ∀ where_, c ≠ .sql (.select .files where_)) : Allowed env t .out c
  | list (r : FileRow) : Allowed env t (.loaded r) (.listKeys (partPrefix t.key))
  | readPart (r : FileRow) (key : Key) : Allowed env t (.loaded r) (.getStream key)
  | put (r : FileRow) (key : Key) (data : Except Err Bytes) : Allowed env t (.loaded r) (.put key data)
  | discard (r : FileRow) (key : Key) : Allowed env t (.loaded r) (.deleteObject key)
  | add (r : FileRow) (n : ℕ) : Allowed env t (.loaded r)
      (.sql (.updateAt .files t.file (.flush r { r with size_bytes := r.size_bytes + n })))
  | abandon (r : FileRow) : Allowed env t (.loaded r) (.sql .rollback)
  | readBack (r : FileRow) (total : ℕ) (key : Key) : Allowed env t (.assembled r total) (.getStream key)
  | erase (r : FileRow) (total : ℕ) (key : Key) :
      Allowed env t (.assembled r total) (.deleteObject key)
  | claim (r : FileRow) (total i : ℕ) (u : RoomUpdate) :
      Allowed env t (.assembled r total) (.sql (.updateAt .rooms i u))
  | confirm (r : FileRow) (total : ℕ) (content_type : Option String) : Allowed env t
      (.assembled r total) (.sql (.updateAt .files t.file
        (.flush r { r with content_type, size_bytes := total, status := .confirmed })))
  | giveUp (r : FileRow) (total : ℕ) : Allowed env t (.assembled r total) (.sql .rollback)
  | audit (r r' : FileRow) (event : AuditEventRow) :
      Allowed env t (.flushed r r') (.sql (.insert .auditEvents event))
  | deletePart (r r' : FileRow) {key : Key} (hkey : key ≠ t.key.text) :
      Allowed env t (.flushed r r') (.deleteObject key)
  | commit (r r' : FileRow) : Allowed env t (.flushed r r') (.sql .commit)
  | rollback (r r' : FileRow) : Allowed env t (.flushed r r') (.sql .rollback)
  | finished {k : ℕ} {c : Cmd} (hc : Issued env [.close] c) : Allowed env t (.finished k) c
  | broken (c : Cmd) : Allowed env t .broken c

/-- The stage after a command was answered. -/
def next (t : Target) : Stage → (c : Cmd) → Except Err (Resp c) → Stage
  | .out, .sql (.select .files _), .ok rows => found t rows
  | .loaded r, .listKeys _, .ok keys =>
    if keys.all ((partPrefix t.key).isPrefixOf ·) then .loaded r else .broken
  | .loaded r, .put key _, .ok total => if key = t.key.text then .assembled r total else .loaded r
  | .loaded _, .sql (.updateAt .files _ (.flush r r')), .ok true => .flushed r r'
  | .loaded _, .sql .rollback, .ok _ => .finished 0
  | .assembled r total, .deleteObject key, .ok _ =>
    if key = t.key.text then .loaded r else .assembled r total
  | .assembled .., .sql (.updateAt .files _ (.flush r r')), .ok true => .flushed r r'
  | .assembled .., .sql .rollback, .ok _ => .finished 0
  | .flushed r r', .sql .commit, .ok _ => .finished (gain r r')
  | .flushed .., .sql .rollback, .ok _ => .finished 0
  | .finished _, .items _, .error _ => .broken
  | .finished _, .socketsOf .., .error _ => .broken
  | .finished _, .sql .rollback, .error _ => .broken
  | st, _, _ => st

/-- The protocol of the requests for an upload. -/
def monitor (env : Env) (t : Target) : Monitor Cmd Resp Err Stage := ⟨Allowed env t, next t⟩

/-- The command writes the record. -/
def writes (t : Target) : Cmd → Bool
  | .sql (.updateAt .files i _) => i == t.file
  | _ => false

/-- The command writes or deletes the object. -/
def touches (t : Target) : Cmd → Bool
  | .put key _ => key == t.key.text
  | .deleteObject key => key == t.key.text
  | _ => false

/-- A request writes the record only while it is committed as the request has loaded it, and writes
or deletes the object only while the record is committed as PENDING and no other request relies on
the object that it has put together. -/
def fresh (t : Target) (n : ℕ) : Guard Cmd World Stage := fun p c w φ =>
  (writes t c = true → (φ p).row = w.db.committed .files t.file) ∧
    (touches t c = true → (w.db.committed .files t.file).map FileRow.status = some .pending ∧
      ∀ q < n, q ≠ p → (φ q).relies = false)

/-- Whether a request works on what it has just loaded is decided. -/
instance (t : Target) (n p : ℕ) (c : Cmd) (w : World) (φ : ℕ → Stage) :
    Decidable (fresh t n p c w φ) :=
  inferInstanceAs (Decidable (_ ∧ _))

/-! ## What holds at each stage -/

/-- The object of the upload has `n` bytes. -/
def Object (t : Target) (s : Storage) (n : ℕ) : Prop :=
  ∃ data : Bytes, s.lookup t.key.text = some data ∧ data.length = n

/-- What is true of the world while request `p` is in a stage. -/
def Holds (t : Target) (w : World) (p : ℕ) : Stage → Prop
  | .loaded r => r.status = .pending ∧ r.storage_key = t.key
  | .assembled r total =>
    r.status = .pending ∧ r.storage_key = t.key ∧ Object t w.storage total
  | .flushed r r' => r.status = .pending ∧ r'.storage_key = t.key ∧
      w.db.cell .files t.file = ⟨some r, some (p, some r')⟩ ∧
      (r'.status = .pending ∧ r.size_bytes ≤ r'.size_bytes ∨
        r'.status = .confirmed ∧ Object t w.storage r'.size_bytes)
  | .broken => False
  | _ => True

/-- The record agrees with the bytes that were added, and with its object. -/
structure Agrees (t : Target) (bytes : ℕ) (s : Storage) (r : FileRow) : Prop where
  key : r.storage_key = t.key
  pending : r.status = .pending → r.size_bytes = bytes
  confirmed : r.status = .confirmed → Object t s r.size_bytes

/-- The invariant of `n` requests for an upload of which `base` bytes were there before. -/
structure Inv (t : Target) (base n : ℕ) (w : World) (φ : ℕ → Stage) : Prop where
  row : ∃ r, w.db.committed .files t.file = some r ∧
    Agrees t (base + total n φ Stage.gained) w.storage r
  stage : ∀ q, Holds t w q (φ q)
  lock : ∀ q v, (w.db.cell .files t.file).lock = some (q, v) → (φ q).locks = true
  single : ∀ q q', (φ q).relies = true → (φ q').relies = true → q = q'
  bound : ∀ q, n ≤ q → φ q = .finished 0

variable {env : Env} {t : Target} {base n p q : ℕ} {w w' : World} {φ : ℕ → Stage} {st : Stage}
  {c : Cmd} {x : Except Err (Resp c)}

/-- What a stage needs of the world is the row, and the object if the request relies on it. -/
theorem Holds.congr (h : Holds t w q st)
    (hcell : w'.db.cell .files t.file = w.db.cell .files t.file)
    (hobj : st.relies = true → w'.storage.lookup t.key.text = w.storage.lookup t.key.text) :
    Holds t w' q st := by
  cases st with
  | assembled r total =>
    obtain ⟨hr, hk, data, hdata, hlen⟩ := h
    exact ⟨hr, hk, data, (hobj rfl).trans hdata, hlen⟩
  | flushed r r' =>
    obtain ⟨hr, hk, hlock, hsize⟩ := h
    refine ⟨hr, hk, hcell.trans hlock, hsize.imp_right ?_⟩
    rintro ⟨hs, data, hdata, hlen⟩
    exact ⟨hs, data, (hobj (beq_iff_eq.2 hs)).trans hdata, hlen⟩
  | _ => exact h

/-- A request that has not written the record sees it as committed. -/
theorem Inv.free (I : Inv t base n w φ) (h : (φ p).locks = false) (v) :
    (w.db.cell .files t.file).lock ≠ some (p, v) := by
  intro hv
  rw [I.lock p v hv] at h
  cases h

/-- A request that adds bytes is one of the first `n`. -/
theorem Inv.lt_of_ne (I : Inv t base n w φ) (h : φ p ≠ .finished 0) : p < n := by
  by_contra hn
  exact h (I.bound p (Nat.le_of_not_lt hn))

/-- A step to another stage keeps the invariant. -/
theorem Inv.update (I : Inv t base n w φ)
    (hrow : ∃ r, w'.db.committed .files t.file = some r ∧
      Agrees t (base + total n (Function.update φ p st) Stage.gained) w'.storage r)
    (hst : Holds t w' p st) (hother : ∀ q, q ≠ p → Holds t w' q (φ q))
    (hlock : ∀ q v, (w'.db.cell .files t.file).lock = some (q, v) →
      (q = p ∧ st.locks = true) ∨
        (q ≠ p ∧ (w.db.cell .files t.file).lock = some (q, v)))
    (hsingle : st.relies = true → ∀ q, q ≠ p → (φ q).relies = false)
    (hp : φ p ≠ .finished 0 ∨ st = .finished 0) : Inv t base n w' (Function.update φ p st) where
  row := hrow
  stage := (Function.forall_update_iff φ fun q st => Holds t w' q st).2 ⟨hst, hother⟩
  lock q v hv := by
    rcases hlock q v hv with ⟨rfl, hlocks⟩ | ⟨hq, hv⟩
    · rw [Function.update_self]
      exact hlocks
    · rw [Function.update_of_ne hq]
      exact I.lock q v hv
  -- If the process has begun to rely on the object, nobody else does.
  single q q' hq hq' := by
    by_cases hqp : q = p
    · by_cases hqp' : q' = p
      · rw [hqp, hqp']
      · rw [hqp, Function.update_self] at hq
        rw [Function.update_of_ne hqp', hsingle hq q' hqp'] at hq'
        cases hq'
    · by_cases hqp' : q' = p
      · rw [hqp', Function.update_self] at hq'
        rw [Function.update_of_ne hqp, hsingle hq' q hqp] at hq
        cases hq
      · rw [Function.update_of_ne hqp] at hq
        rw [Function.update_of_ne hqp'] at hq'
        exact I.single q q' hq hq'
  bound q hq := by
    by_cases hqp : q = p
    · subst hqp
      rw [Function.update_self]
      exact hp.resolve_left fun h => h (I.bound q hq)
    · rw [Function.update_of_ne hqp]
      exact I.bound q hq

/-- What leaves the record and the object alone keeps the invariant. -/
theorem Inv.congr (I : Inv t base n w φ)
    (hcell : w'.db.cell .files t.file = w.db.cell .files t.file)
    (hobj : w'.storage.lookup t.key.text = w.storage.lookup t.key.text) : Inv t base n w' φ where
  row := by
    obtain ⟨r, hr, h⟩ := I.row
    refine ⟨r, (congrArg Cell.committed hcell).trans hr, h.key, h.pending, fun hs => ?_⟩
    obtain ⟨data, hdata, hlen⟩ := h.confirmed hs
    exact ⟨data, hobj.trans hdata, hlen⟩
  stage q := (I.stage q).congr hcell fun _ => hobj
  lock q v hv := I.lock q v (hcell ▸ hv)
  single := I.single
  bound := I.bound

/-- A step of a request that has not written the record, to another such stage. -/
theorem Inv.move (I : Inv t base n w φ) (h : (φ p).locks = false)
    (hst : Holds t w p st) (hgain : st.gained = (φ p).gained)
    (hrelies : st.relies = true → (φ p).relies = true) (hp : φ p ≠ .finished 0 ∨ st = .finished 0) :
    Inv t base n w (Function.update φ p st) := by
  obtain ⟨r, hr, hrow⟩ := I.row
  refine I.update ⟨r, hr, ?_⟩ hst (fun q _ => I.stage q) (fun q v hv => ?_) (fun hs q hq => ?_) hp
  · rw [total_update_of_eq _ hgain]
    exact hrow
  · refine .inr ⟨fun hqp => ?_, hv⟩
    subst hqp
    exact I.free h v hv
  · by_contra hn
    exact hq (I.single q p (Bool.not_eq_false _ |>.mp hn) (hrelies hs))

/-- Writing or deleting the object while nothing rests on it keeps the invariant. -/
theorem Inv.touch (I : Inv t base n w φ) (h : (φ p).locks = false)
    (hpending : (w.db.committed .files t.file).map FileRow.status = some .pending)
    (halone : ∀ q < n, q ≠ p → (φ q).relies = false)
    (hcell : w'.db.cell .files t.file = w.db.cell .files t.file) (hst : Holds t w' p st)
    (hgain : st.gained = (φ p).gained) (hp : φ p ≠ .finished 0 ∨ st = .finished 0) :
    Inv t base n w' (Function.update φ p st) := by
  have hothers : ∀ q, q ≠ p → (φ q).relies = false := by
    intro q hq
    by_cases hn : q < n
    · exact halone q hn hq
    · rw [I.bound q (Nat.le_of_not_lt hn)]
      rfl
  obtain ⟨r, hr, hrow⟩ := I.row
  have hs : r.status = .pending := by
    rw [hr] at hpending
    exact Option.some.inj hpending
  refine I.update ⟨r, (congrArg Cell.committed hcell).trans hr, hrow.key, fun hs => ?_, fun hc => ?_⟩
    hst (fun q hq => (I.stage q).congr hcell fun hr => ?_) (fun q v hv => ?_) (fun _ => hothers) hp
  · rw [total_update_of_eq _ hgain]
    exact hrow.pending hs
  · rw [hs] at hc
    cases hc
  · rw [hothers q hq] at hr
    cases hr
  · rw [hcell] at hv
    refine .inr ⟨fun hqp => ?_, hv⟩
    subst hqp
    exact I.free h v hv

/-- Writing the record while it is as it was loaded keeps the invariant. -/
theorem Inv.write (I : Inv t base n w φ) {r r' : FileRow} (h : (φ p).row = some r)
    (hnot : (φ p).locks = false) (hcommitted : w.db.committed .files t.file = some r)
    (hfree : (w.db.cell .files t.file).heldByOther p = false)
    (hcell : w'.db.cell .files t.file = (w.db.cell .files t.file).write p (some r'))
    (hstorage : w'.storage = w.storage) (hpending : r.status = .pending)
    (hkey : r'.storage_key = t.key)
    (hsize : r'.status = .pending ∧ r.size_bytes ≤ r'.size_bytes ∨
      r'.status = .confirmed ∧ (φ p).relies = true ∧ Object t w.storage r'.size_bytes) :
    Inv t base n w' (Function.update φ p (.flushed r r')) := by
  -- The record is free, so no other request has flushed it.
  have hlock : (w.db.cell .files t.file).lock = none := by
    refine (Cell.heldByOther_eq_false.1 hfree).resolve_right ?_
    rintro ⟨v, hv⟩
    exact I.free hnot v hv
  -- The stage gains nothing yet: it is the commit that counts.
  have hgain : Stage.gained (.flushed r r') = (φ p).gained := by
    cases hφ : φ p <;> rw [hφ] at h <;> first | rfl | cases h
  obtain ⟨r₀, hr₀, hrow⟩ := I.row
  refine I.update ⟨r₀, ?_, ?_⟩ ⟨hpending, hkey, ?_, ?_⟩ (fun q hq => ?_) (fun q v hv => ?_)
    (fun hs q hq => ?_) (.inl fun hfinished => ?_)
  · rw [Tables.committed, hcell]
    exact hr₀
  · rw [total_update_of_eq _ hgain, hstorage]
    exact hrow
  · rw [hcell, ← hcommitted]
    rfl
  · rw [hstorage]
    exact hsize.imp_right fun h => ⟨h.1, h.2.2⟩
  · have hh := I.stage q
    cases hφ : φ q with
    | flushed r₁ r₁' =>
      rw [hφ] at hh
      rw [hh.2.2.1] at hlock
      cases hlock
    | assembled r₁ total =>
      rw [hφ] at hh
      exact ⟨hh.1, hh.2.1, hstorage ▸ hh.2.2⟩
    | _ =>
      rw [hφ] at hh
      exact hh
  · rw [hcell] at hv
    cases hv
    exact .inl ⟨rfl, rfl⟩
  · rcases hsize with ⟨hs', -⟩ | ⟨-, hrelies, -⟩
    · have hc : r'.status = .confirmed := beq_iff_eq.1 hs
      rw [hs'] at hc
      cases hc
    · by_contra hn
      exact hq (I.single q p (Bool.not_eq_false _ |>.mp hn) hrelies)
  · rw [hfinished] at h
    cases h

/-- While a request has written the record, no other one has. -/
theorem Inv.flushed_eq (I : Inv t base n w φ) {r r' r₁ r₁' : FileRow} (h : φ p = .flushed r r')
    (hq : φ q = .flushed r₁ r₁') : q = p := by
  have hp := I.stage p
  have hq' := I.stage q
  rw [h] at hp
  rw [hq] at hq'
  have hcell := hp.2.2.1.symm.trans hq'.2.2.1
  cases hcell
  rfl

/-- A step that ends the transaction of a request which has written the record: another request has
not written it, so what its stage needs is as before. -/
theorem Inv.other (I : Inv t base n w φ) {r r' : FileRow} (h : φ p = .flushed r r')
    (hstorage : w'.storage = w.storage) (hq : q ≠ p) : Holds t w' q (φ q) := by
  have hh := I.stage q
  cases hφ : φ q with
  | flushed r₁ r₁' => exact absurd (I.flushed_eq h hφ) hq
  | assembled r₁ total =>
    rw [hφ] at hh
    exact ⟨hh.1, hh.2.1, hstorage ▸ hh.2.2⟩
  | _ =>
    rw [hφ] at hh
    exact hh

/-- A commit adds what was written. -/
theorem Inv.commit (I : Inv t base n w φ) {r r' : FileRow} (h : φ p = .flushed r r')
    (hcell : w'.db.cell .files t.file = (w.db.cell .files t.file).commit p)
    (hstorage : w'.storage = w.storage) :
    Inv t base n w' (Function.update φ p (.finished (gain r r'))) := by
  have hp := I.stage p
  rw [h] at hp
  obtain ⟨hpending, hkey, hlock, hsize⟩ := hp
  have hnew : w'.db.cell .files t.file = ⟨some r', none⟩ := by
    rw [hcell, hlock]
    exact Cell.commit_of_lock rfl
  have hlt : p < n := I.lt_of_ne (by rw [h]; exact Stage.noConfusion)
  have htotal := total_update (l := .finished (gain r r')) (φ := φ) Stage.gained hlt
  rw [h] at htotal
  obtain ⟨r₀, hr₀, hrow⟩ := I.row
  rw [Tables.committed, hlock] at hr₀
  obtain rfl : r = r₀ := Option.some.inj hr₀
  refine I.update ⟨r', by rw [Tables.committed, hnew], hkey, fun hs => ?_, fun hs => ?_⟩ trivial
    (fun q hq => I.other h hstorage hq) (fun q v hv => ?_) (fun hs => by cases hs)
    (.inl (by rw [h]; exact Stage.noConfusion))
  · have hold := hrow.pending hpending
    rcases hsize with ⟨-, hle⟩ | ⟨hc, -⟩
    · have hgain : gain r r' = r'.size_bytes - r.size_bytes := if_pos hs
      simp only [Stage.gained] at htotal
      omega
    · rw [hc] at hs
      cases hs
  · rcases hsize with ⟨hc, -⟩ | ⟨-, hobj⟩
    · rw [hc] at hs
      cases hs
    · rw [hstorage]
      exact hobj
  · rw [hnew] at hv
    cases hv

/-- A rollback adds nothing. -/
theorem Inv.rollback (I : Inv t base n w φ) {r r' : FileRow} (h : φ p = .flushed r r')
    (hcell : w'.db.cell .files t.file = (w.db.cell .files t.file).rollback p)
    (hstorage : w'.storage = w.storage) : Inv t base n w' (Function.update φ p (.finished 0)) := by
  have hp := I.stage p
  rw [h] at hp
  obtain ⟨hpending, -, hlock, -⟩ := hp
  have hnew : w'.db.cell .files t.file = ⟨some r, none⟩ := by
    rw [hcell, hlock]
    exact Cell.rollback_of_lock rfl
  obtain ⟨r₀, hr₀, hrow⟩ := I.row
  rw [Tables.committed, hlock] at hr₀
  obtain rfl : r = r₀ := Option.some.inj hr₀
  refine I.update ⟨r, by rw [Tables.committed, hnew], ?_⟩ trivial
    (fun q hq => I.other h hstorage hq) (fun q v hv => ?_) (fun hs => by cases hs) (.inr rfl)
  · rw [total_update_of_eq _ (by rw [h]; rfl), hstorage]
    exact hrow
  · rw [hnew] at hv
    cases hv

/-- Reading the record by its number returns it. -/
theorem Inv.select_eq (I : Inv t base n w φ) (h : (φ p).locks = false) {r : FileRow}
    (hr : w.db.committed .files t.file = some r) :
    w.db.select p .files (byId t.file) = [(t.file, r)] := by
  refine Tables.select_eq_singleton ?_ (by simp [byId]) fun i r' _ hw => ?_
  · exact (Cell.view_of_ne (I.free h)).trans hr
  · exact Int.ofNat_inj.1 (eq_of_beq hw)

/-- The stage after the record was found. -/
theorem found_cases {r : FileRow} (hkey : r.storage_key = t.key) :
    r.status = .pending ∧ found t [(t.file, r)] = .loaded r ∨
      found t [(t.file, r)] = .finished 0 := by
  have hf : found t [(t.file, r)] = if r.status = .pending then .loaded r else .finished 0 :=
    if_pos ⟨rfl, hkey⟩
  by_cases hs : r.status = .pending
  · exact .inl ⟨hs, hf.trans (if_pos hs)⟩
  · exact .inr (hf.trans (if_neg hs))

/-- Before the record is read, only its load leads on. -/
theorem next_out (hc : Issued env [.close] c)
    (hload : ∀ where_, c ≠ .sql (.select .files where_)) : next t .out c x = .out := by
  cases hc with
  | select table where_ =>
    cases table with
    | files => exact absurd rfl (hload where_)
    | _ => rfl
  | _ => rfl

/-- After the transaction, a command of the server leads nowhere. -/
theorem next_finished {k : ℕ} (hc : Issued env [.close] c) (hx : server.Answer p c w x w') :
    next t (.finished k) c x = .finished k := by
  cases hx with
  | fault h => cases hc <;> first | rfl | exact h.elim
  | exec h =>
    cases hc with
    | close _ =>
      obtain ⟨rfl, -⟩ := server_faithful.rollback (.exec h)
      rfl
    | items _ =>
      cases h
      rfl
    | socketsOf _ _ _ =>
      cases h
      rfl
    | _ => rfl

/-- Flushing the record, or failing to. -/
theorem Inv.flush (I : Inv t base n w φ) {r r' : FileRow} {y}
    (hy : server.Answer p (.sql (.updateAt .files t.file (.flush r r'))) w y w')
    (hset : r.flush r' r = r') (h : (φ p).row = some r)
    (hnot : (φ p).locks = false) (hfresh : (φ p).row = w.db.committed .files t.file)
    (hpending : r.status = .pending) (hkey : r'.storage_key = t.key)
    (hsize : r'.status = .pending ∧ r.size_bytes ≤ r'.size_bytes ∨
      r'.status = .confirmed ∧ (φ p).relies = true ∧ Object t w.storage r'.size_bytes) :
    (y = .ok true ∧ Inv t base n w' (Function.update φ p (.flushed r r'))) ∨
      (y ≠ .ok true ∧ w' = w) := by
  have hcommitted : w.db.committed .files t.file = some r := hfresh.symm.trans h
  rcases server_faithful.updateAt hy with
    ⟨rfl, r₁, hr₁, -, hl, rfl⟩ | ⟨rfl, -, rfl⟩ | ⟨e, rfl, rfl⟩
  · obtain rfl : r = r₁ :=
      Option.some.inj (hcommitted.symm.trans ((Cell.view_of_ne (I.free hnot)).symm.trans hr₁))
    refine .inl ⟨rfl, I.write h hnot hcommitted hl ?_ rfl hpending hkey hsize⟩
    rw [Tables.cell_setCell_self (Tables.lt_length_of_get hr₁)]
    exact congrArg (fun r => (w.db.cell .files t.file).write p (some r)) hset
  · exact .inr ⟨(fun h => by cases h), rfl⟩
  · exact .inr ⟨(fun h => by cases h), rfl⟩

/-- Ending a transaction that has written nothing. -/
theorem Inv.close (I : Inv t base n w φ) (hnot : (φ p).locks = false) (hgain : (φ p).gained = 0)
    {y} (hy : server.Answer p (.sql .rollback) w y w') :
    y = .ok () ∧ Inv t base n w' (Function.update φ p (.finished 0)) := by
  obtain ⟨rfl, rfl⟩ := server_faithful.rollback hy
  have hcell := (Tables.cell_rollback Table.files t.file).trans (Cell.rollback_of_ne (I.free hnot))
  exact ⟨rfl, Inv.move (I.congr hcell rfl) hnot trivial hgain.symm (fun h => by cases h) (.inr rfl)⟩

/-- A request that stays in its stage, and leaves the record and the object alone. -/
theorem Inv.stay (I : Inv t base n w φ)
    (hcell : w'.db.cell .files t.file = w.db.cell .files t.file)
    (hobj : w'.storage.lookup t.key.text = w.storage.lookup t.key.text)
    (hst : st = φ p) : Inv t base n w' (Function.update φ p st) := by
  rw [hst, Function.update_eq_self]
  exact I.congr hcell hobj

/-- Reading, and closing the session, with no lock on the record. -/
theorem Inv.quiet (I : Inv t base n w φ) (hnot : (φ p).locks = false) (hc : Issued env [.close] c)
    (hx : server.Answer p c w x w') (hst : st = φ p) :
    Inv t base n w' (Function.update φ p st) := by
  obtain ⟨hs, hcell⟩ := hc.frame server_faithful hx
  exact I.stay (hcell _ _ (I.free hnot)) (by rw [hs]) hst

/-- Reading the record. -/
theorem Inv.load (I : Inv t base n w φ) (hp : φ p = .out)
    {x : Except Err (Resp (.sql (.select .files (byId t.file))))}
    (hx : server.Answer p (.sql (.select .files (byId t.file))) w x w') :
    Inv t base n w' (Function.update φ p (next t (φ p) _ x)) := by
  obtain ⟨rfl, hrows⟩ := server_faithful.select hx
  have hnot : (φ p).locks = false := by rw [hp]; rfl
  cases x with
  | error e => exact I.stay rfl rfl (by rw [hp]; rfl)
  | ok rows =>
    obtain ⟨r, hr, hrow⟩ := I.row
    obtain rfl := (hrows rows rfl).trans (I.select_eq hnot hr)
    have hn : next t (φ p) (.sql (.select .files (byId t.file))) (.ok [(t.file, r)]) =
        found t [(t.file, r)] := by rw [hp]; rfl
    have hne : φ p ≠ .finished 0 := by rw [hp]; exact Stage.noConfusion
    rcases found_cases hrow.key with ⟨hs, hf⟩ | hf
    · rw [hn, hf]
      exact I.move hnot ⟨hs, hrow.key⟩ (by rw [hp]; rfl) (fun h => by cases h) (.inl hne)
    · rw [hn, hf]
      exact I.move hnot trivial (by rw [hp]; rfl) (fun h => by cases h) (.inl hne)

section

variable {r r' : FileRow} {total : ℕ}

/-- Storing a part, or the object. -/
theorem Inv.put (I : Inv t base n w φ) (hp : φ p = .loaded r) {key : Key} {data : Except Err Bytes}
    {x : Except Err (Resp (.put key data))} (hok : fresh t n p (.put key data) w φ)
    (hx : server.Answer p (.put key data) w x w') :
    Inv t base n w' (Function.update φ p (next t (φ p) _ x)) := by
  have hhere := I.stage p
  rcases server_faithful.put hx with ⟨bytes, rfl, rfl⟩ | ⟨e, rfl, rfl⟩
  · by_cases hkey : key = t.key.text
    · subst hkey
      obtain ⟨hpending, halone⟩ := hok.2 (beq_self_eq_true _)
      have hn : next t (φ p) (.put t.key.text data) (.ok bytes.length) =
          .assembled r bytes.length := by
        rw [hp]
        exact if_pos rfl
      rw [hn]
      rw [hp] at hhere
      refine I.touch (by rw [hp]; rfl) hpending halone rfl
        ⟨hhere.1, hhere.2, bytes, AList.lookup_insert _, rfl⟩ (by rw [hp]; rfl) (.inl ?_)
      rw [hp]
      exact Stage.noConfusion
    · refine I.stay rfl (AList.lookup_insert_ne fun h => hkey h.symm) ?_
      rw [hp]
      exact if_neg hkey
  · exact I.stay rfl rfl (by rw [hp]; rfl)

/-- Deleting an object before the object of the upload is put together. -/
theorem Inv.discard (I : Inv t base n w φ) (hp : φ p = .loaded r) {key : Key}
    {x : Except Err (Resp (.deleteObject key))} (hok : fresh t n p (.deleteObject key) w φ)
    (hx : server.Answer p (.deleteObject key) w x w') :
    Inv t base n w' (Function.update φ p (next t (φ p) _ x)) := by
  have hhere := I.stage p
  have hn : next t (φ p) (.deleteObject key) x = φ p := by rw [hp]; rfl
  rcases server_faithful.deleteObject hx with ⟨rfl, rfl⟩ | ⟨e, rfl, rfl⟩
  · by_cases hkey : key = t.key.text
    · subst hkey
      obtain ⟨hpending, halone⟩ := hok.2 (beq_self_eq_true _)
      rw [hn]
      refine I.touch (by rw [hp]; rfl) hpending halone rfl ?_ rfl (.inl ?_)
      · rw [hp] at hhere ⊢
        exact hhere
      · rw [hp]
        exact Stage.noConfusion
    · exact I.stay rfl (AList.lookup_erase_ne fun h => hkey h.symm) hn
  · exact I.stay rfl rfl hn

/-- Deleting an object after the object of the upload is put together. -/
theorem Inv.erase (I : Inv t base n w φ) (hp : φ p = .assembled r total) {key : Key}
    {x : Except Err (Resp (.deleteObject key))} (hok : fresh t n p (.deleteObject key) w φ)
    (hx : server.Answer p (.deleteObject key) w x w') :
    Inv t base n w' (Function.update φ p (next t (φ p) _ x)) := by
  have hhere := I.stage p
  rcases server_faithful.deleteObject hx with ⟨rfl, rfl⟩ | ⟨e, rfl, rfl⟩
  · by_cases hkey : key = t.key.text
    · subst hkey
      obtain ⟨hpending, halone⟩ := hok.2 (beq_self_eq_true _)
      have hn : next t (φ p) (.deleteObject t.key.text) (.ok ()) = .loaded r := by
        rw [hp]
        exact if_pos rfl
      rw [hn]
      rw [hp] at hhere
      refine I.touch (by rw [hp]; rfl) hpending halone rfl ⟨hhere.1, hhere.2.1⟩
        (by rw [hp]; rfl) (.inl ?_)
      rw [hp]
      exact Stage.noConfusion
    · refine I.stay rfl (AList.lookup_erase_ne fun h => hkey h.symm) ?_
      rw [hp]
      exact if_neg hkey
  · exact I.stay rfl rfl (by rw [hp]; rfl)

/-- The stage after a flush of the record. -/
theorem Inv.flush_next (I : Inv t base n w φ)
    {x : Except Err (Resp (.sql (.updateAt .files t.file (.flush r r'))))}
    (h : (x = .ok true ∧ Inv t base n w' (Function.update φ p (.flushed r r'))) ∨
      (x ≠ .ok true ∧ w' = w))
    (hflushed : next t (φ p) (.sql (.updateAt .files t.file (.flush r r'))) (.ok true) =
      .flushed r r')
    (hstays : x ≠ .ok true →
      next t (φ p) (.sql (.updateAt .files t.file (.flush r r'))) x = φ p) :
    Inv t base n w' (Function.update φ p (next t (φ p) _ x)) := by
  rcases h with ⟨rfl, h⟩ | ⟨hne, rfl⟩
  · rw [hflushed]
    exact h
  · exact I.stay rfl rfl (hstays hne)

/-- A flush that does not write the record leads nowhere. -/
theorem next_flush_of_ne (hst : st = .loaded r ∨ ∃ total, st = .assembled r total) {i : ℕ}
    {u : FileUpdate} {x : Except Err (Resp (.sql (.updateAt .files i u)))} (hx : x ≠ .ok true) :
    next t st (.sql (.updateAt .files i u)) x = st := by
  rcases hst with rfl | ⟨total, rfl⟩
  all_goals
    rcases x with e | b
    · cases u <;> rfl
    · cases b with
      | false => cases u <;> rfl
      | true => exact absurd rfl hx

/-- A request that has found the record PENDING. -/
theorem Inv.step_loaded (I : Inv t base n w φ) (hp : φ p = .loaded r)
    (ha : Allowed env t (.loaded r) c) (hok : fresh t n p c w φ) (hx : server.Answer p c w x w') :
    Inv t base n w' (Function.update φ p (next t (φ p) c x)) := by
  have hm := server_faithful
  cases ha with
  | list =>
    obtain ⟨rfl, hkeys⟩ := hm.listKeys hx
    refine I.stay rfl rfl ?_
    rw [hp]
    cases x with
    | error e => rfl
    | ok keys =>
      obtain rfl := hkeys keys rfl
      refine if_pos (List.all_eq_true.2 fun key hkey => ?_)
      exact List.isPrefixOf_iff_prefix.2 (mem_listKeys.1 hkey).2
  | readPart _ key =>
    exact I.stay (hm.cell_of_spares hx trivial) (by rw [hm.storage_eq hx id]) (by rw [hp]; rfl)
  | put => exact I.put hp hok hx
  | discard => exact I.discard hp hok hx
  | add _ k =>
    -- The chunk was stored; its length is added to the size that the request has loaded.
    have hrow := I.stage p
    rw [hp] at hrow
    refine I.flush_next (I.flush hx (FileRow.flush_self _ _) (by rw [hp]; rfl) (by rw [hp]; rfl)
      (hok.1 (beq_self_eq_true _)) hrow.1 hrow.2 (.inl ⟨hrow.1, Nat.le_add_right _ _⟩))
      (by rw [hp]; rfl) fun hne => ?_
    rw [hp]
    exact next_flush_of_ne (.inl rfl) hne
  | abandon =>
    obtain ⟨rfl, h⟩ := I.close (by rw [hp]; rfl) (by rw [hp]; rfl) hx
    have hn : next t (φ p) (.sql .rollback) (.ok ()) = .finished 0 := by rw [hp]; rfl
    rw [hn]
    exact h

/-- A request that has put the object together. -/
theorem Inv.step_assembled (I : Inv t base n w φ) (hp : φ p = .assembled r total)
    (ha : Allowed env t (.assembled r total) c) (hok : fresh t n p c w φ)
    (hx : server.Answer p c w x w') :
    Inv t base n w' (Function.update φ p (next t (φ p) c x)) := by
  have hm := server_faithful
  cases ha with
  | readBack _ _ key =>
    exact I.stay (hm.cell_of_spares hx trivial) (by rw [hm.storage_eq hx id]) (by rw [hp]; rfl)
  | erase => exact I.erase hp hok hx
  | claim =>
    exact I.stay (hm.cell_of_spares hx fun h => Table.noConfusion h.1)
      (by rw [hm.storage_eq hx id]) (by rw [hp]; rfl)
  | confirm _ _ content_type =>
    -- The record takes the size of the object, on which the request relies from here on.
    have hrow := I.stage p
    rw [hp] at hrow
    obtain ⟨hpending, hkey, hobj⟩ := hrow
    refine I.flush_next (I.flush hx (FileRow.flush_self _ _) (by rw [hp]; rfl) (by rw [hp]; rfl)
      (hok.1 (beq_self_eq_true _)) hpending hkey (.inr ⟨rfl, by rw [hp]; rfl, hobj⟩))
      (by rw [hp]; rfl) fun hne => ?_
    rw [hp]
    exact next_flush_of_ne (.inr ⟨_, rfl⟩) hne
  | giveUp =>
    obtain ⟨rfl, h⟩ := I.close (by rw [hp]; rfl) (by rw [hp]; rfl) hx
    have hn : next t (φ p) (.sql .rollback) (.ok ()) = .finished 0 := by rw [hp]; rfl
    rw [hn]
    exact h

/-- A request that has written the record. -/
theorem Inv.step_flushed (I : Inv t base n w φ) (hp : φ p = .flushed r r')
    (ha : Allowed env t (.flushed r r') c) (hx : server.Answer p c w x w') :
    Inv t base n w' (Function.update φ p (next t (φ p) c x)) := by
  have hm := server_faithful
  cases ha with
  | audit _ _ event =>
    exact I.stay (hm.cell_of_spares hx (by decide : Table.auditEvents ≠ .files))
      (by rw [hm.storage_eq hx id]) (by rw [hp]; rfl)
  | deletePart _ _ hkey =>
    rcases hm.deleteObject hx with ⟨rfl, rfl⟩ | ⟨e, rfl, rfl⟩
    · exact I.stay rfl (AList.lookup_erase_ne hkey.symm) (by rw [hp]; rfl)
    · exact I.stay rfl rfl (by rw [hp]; rfl)
  | commit =>
    rcases hm.commit hx with ⟨rfl, rfl⟩ | ⟨e, rfl, rfl⟩
    · have hn : next t (φ p) (.sql .commit) (.ok ()) = .finished (gain r r') := by rw [hp]; rfl
      rw [hn]
      exact I.commit hp (Tables.cell_commit _ _) rfl
    · exact I.stay rfl rfl (by rw [hp]; rfl)
  | rollback =>
    obtain ⟨rfl, rfl⟩ := hm.rollback hx
    have hn : next t (φ p) (.sql .rollback) (.ok ()) = .finished 0 := by rw [hp]; rfl
    rw [hn]
    exact I.rollback hp (Tables.cell_rollback _ _) rfl

end

/-- A fresh step of a request keeps the invariant. -/
theorem Inv.step (I : Inv t base n w φ) (ha : Allowed env t (φ p) c) (hok : fresh t n p c w φ)
    (hx : server.Answer p c w x w') :
    Inv t base n w' (Function.update φ p (next t (φ p) c x)) := by
  obtain ⟨s, hp⟩ : ∃ s, φ p = s := ⟨_, rfl⟩
  have hnot : s = .out ∨ (∃ k, s = .finished k) → (φ p).locks = false := by
    rintro (rfl | ⟨k, rfl⟩) <;> rw [hp] <;> rfl
  rw [hp] at ha
  cases s with
  | out =>
    cases ha with
    | load => exact I.load hp hx
    | check hc hload =>
      exact I.quiet (hnot (.inl rfl)) hc hx (by rw [hp]; exact next_out hc hload)
  | loaded r => exact I.step_loaded hp ha hok hx
  | assembled r total => exact I.step_assembled hp ha hok hx
  | flushed r r' => exact I.step_flushed hp ha hx
  | finished k =>
    cases ha with
    | finished hc =>
      exact I.quiet (hnot (.inr ⟨k, rfl⟩)) hc hx (by rw [hp]; exact next_finished hc hx)
  | broken =>
    have hhere := I.stage p
    rw [hp] at hhere
    exact hhere.elim

/-! ## The requests keep to the protocol -/

section

variable {α β : Type} {Q : Except Err α → Stage → Prop} {r r' : FileRow} {k : ℕ}

/-- What has left the order of the stages stays out of it. -/
theorem sink : (monitor env t).Sink .broken := ⟨.broken, fun _ _ => rfl⟩

/-- The commands of the checks before the record is read. -/
def Checks (env : Env) (c : Cmd) : Prop :=
  Issued env [.close] c ∧ ∀ where_, c ≠ .sql (.select .files where_)

/-- `require_member` only reads. -/
theorem only_requireMember (room_token : Token) (request : Request) :
    (requireMember env room_token request).Only (Checks env) := by
  have hread : ∀ (table : Table) (where_ : ℕ → Row table → Bool), table ≠ .files →
      (select table where_).Only (Checks env) := by
    intro table where_ htable
    refine (only_issue _).2 ⟨.select table where_, fun w h => htable ?_⟩
    cases h
    rfl
  have hnow : utcnow.Only (Checks env) := (only_issue _).2 ⟨.utcnow, fun w h => by cases h⟩
  have hsession : (requireSession env request).Only (Checks env) := by
    unfold requireSession
    split
    · refine Prog.only_bind (Prog.only_bind hnow fun now => Prog.only_bind
        (hread .sessions _ Table.noConfusion) fun rows => only_scalarOneOrNone _) fun found => ?_
      split
      · exact Prog.only_bind (Prog.only_bind hnow fun now => only_pure _) fun expired =>
          Prog.only_bind (Prog.only_require _ _) fun _ => only_pure _
      · exact Prog.only_raise _
    · exact Prog.only_raise _
  have hroom : (getRoomByToken env room_token).Only (Checks env) := by
    unfold getRoomByToken roomRepository.getRoomByAccessToken
    refine Prog.only_bind (Prog.only_bind (hread .rooms _ Table.noConfusion) fun rows =>
      only_scalarOneOrNone _) fun found => ?_
    split
    · exact only_pure _
    · exact Prog.only_raise _
  exact Prog.only_bind hsession fun session => Prog.only_bind hroom fun room =>
    Prog.only_bind (Prog.only_require _ _) fun _ => only_pure _

/-- The limiter only counts. -/
theorem only_limiterCheck (scope key : String) (limit : ℕ) :
    (limiterCheck env scope key limit).Only (Checks env) := by
  unfold limiterCheck
  split
  · exact Prog.only_bind ((only_issue _).2 ⟨.checkRate .., fun w h => by cases h⟩) fun ok =>
      Prog.only_require _ _
  · exact only_pure _

/-- `validate_csrf` only compares. -/
theorem only_validateCsrf (method : Method) (request : Request) :
    (validateCsrf env method request).Only (Checks env) := by
  unfold validateCsrf
  split
  · exact only_pure _
  · split
    · exact Prog.only_bind (Prog.only_require _ _) fun _ => Prog.only_require _ _
    · exact Prog.only_raise _

/-- A check, and what follows it. -/
theorem checks_wp {check : Op β} (h : check.Only (Checks env)) {f : β → Op α}
    (hf : ∀ b, (f b).wp (monitor env t).trans (Monitor.orSink .broken Q) .out)
    (herr : ∀ e, Q (.error e) .out) :
    (check >>= f).wp (monitor env t).trans (Monitor.orSink .broken Q) .out := by
  refine sink.bind (P := fun _ s => s = .out) ?_ ?_ ?_
  · refine Prog.wp_mono (monitor env t).trans_monotone (fun _ _ hs => .inr hs) (h.wp
      (M := monitor env t) (I := fun s => s = .out) (fun c s hc hs => ?_) rfl)
    subst hs
    exact ⟨.check hc.1 hc.2, fun x => next_out hc.1 hc.2⟩
  · rintro b s rfl
    exact hf b
  · rintro e s rfl
    exact .inr (herr e)

/-- The stage after the record was read, if it was found. -/
theorem of_found {rows : List (ℕ × FileRow)} (h : found t rows ≠ .broken) :
    ∃ r : FileRow, rows = [(t.file, r)] ∧ r.storage_key = t.key ∧
      (r.status = .pending ∧ found t rows = .loaded r ∨
        r.status ≠ .pending ∧ found t rows = .finished 0) := by
  unfold found at h ⊢
  split at h
  · next i r =>
    by_cases hr : i = t.file ∧ r.storage_key = t.key
    · obtain ⟨rfl, hkey⟩ := hr
      refine ⟨r, rfl, hkey, ?_⟩
      by_cases hs : r.status = .pending
      · exact .inl ⟨hs, by rw [if_pos ⟨rfl, hkey⟩, if_pos hs]⟩
      · exact .inr ⟨hs, by rw [if_pos ⟨rfl, hkey⟩, if_neg hs]⟩
    · exact absurd (if_neg hr) h
  · exact absurd rfl h

/-- `_pending_session`, and what follows it. -/
theorem pendingSession_wp {room : Room} {f : FileRecord → Op α}
    (hf : ∀ r : FileRow, r.status = .pending → r.storage_key = t.key →
      (f (toFile (t.file, r))).wp (monitor env t).trans (Monitor.orSink .broken Q) (.loaded r))
    (hfinished : ∀ r : FileRow, r.status ≠ .pending →
      (f (toFile (t.file, r))).wp (monitor env t).trans (Monitor.orSink .broken Q) (.finished 0))
    (herr : ∀ e s, s.gained = 0 → Q (.error e) s) :
    (uploads.pendingSession room t.file >>= f).wp (monitor env t).trans
      (Monitor.orSink .broken Q) .out := by
  -- What is left once the record is found: its room is checked.
  have hroom : ∀ (r : FileRow) (s : Stage), s.gained = 0 →
      (f (toFile (t.file, r))).wp (monitor env t).trans (Monitor.orSink .broken Q) s →
      ((do
        Prog.require ((toFile (t.file, r)).room_id = room.id) (error .fileNotFound "")
        pure (toFile (t.file, r)) : Op FileRecord) >>= f).wp (monitor env t).trans
          (Monitor.orSink .broken Q) s := by
    intro r s hs hr
    rw [bind_assoc]
    simp only [pure_bind]
    exact (Prog.wp_require_bind _ _ _ _ _).2 ⟨fun _ => hr, fun _ => .inr (herr _ _ hs)⟩
  unfold uploads.pendingSession fileRepository.getFileById
  simp only [bind_assoc]
  refine wp_then sink .load (fun rows => ?_) fun e => .inr (herr e _ rfl)
  by_cases hb : found t rows = .broken
  · exact .inl hb
  · obtain ⟨r, rfl, hkey, ⟨hs, hn⟩ | ⟨hs, hn⟩⟩ := of_found hb
    · have hnext : (monitor env t).next .out (.sql (.select .files (byId t.file)))
          (.ok [(t.file, r)]) = .loaded r := hn
      have hrest := hroom r (.loaded r) rfl (hf r hs hkey)
      rw [← hnext] at hrest
      exact .inr hrest
    · have hnext : (monitor env t).next .out (.sql (.select .files (byId t.file)))
          (.ok [(t.file, r)]) = .finished 0 := hn
      have hrest := hroom r (.finished 0) rfl (hfinished r hs)
      rw [← hnext] at hrest
      exact .inr hrest

/-- A loop that returns, and changes nothing. -/
theorem forM_wp {ι : Type} {f : ι → Op PUnit} {st : Stage} {l : List ι}
    (h : ∀ i, (f i).wp (monitor env t).trans
      (Monitor.orSink .broken fun x s => s = st ∧ x = .ok ()) st) :
    (l.forM f).wp (monitor env t).trans
      (Monitor.orSink .broken fun x s => s = st ∧ x = .ok ()) st := by
  induction l with
  | nil => exact .inr ⟨rfl, rfl⟩
  | cons i l ih =>
    refine sink.bind (h i) ?_ ?_
    · rintro u s ⟨rfl, -⟩
      exact ih
    · rintro e s ⟨-, he⟩
      cases he

/-- Telling the sockets of a room after the transaction returns. -/
theorem broadcast_wp (ch : Channel) (event : Event) (hevent : ¬event.ChangesSettings)
    (exclude : List ℕ) :
    (broadcast ch event exclude).wp (monitor env t).trans
      (Monitor.orSink .broken fun x s => s = .finished k ∧ x = .ok ()) (.finished k) := by
  refine wp_then sink (.finished (.items ch)) (fun items => .inr (forM_wp fun item => ?_))
    fun e => .inl rfl
  split
  · exact .inr ⟨rfl, rfl⟩
  · refine wp_then sink (.finished (.socketsOf ch _ _)) (fun sockets => .inr (forM_wp fun ws => ?_))
      fun e => .inl rfl
    refine sink.tryCatch (P := fun _ s => s = .finished k) ?_ ?_ ?_
    · refine (wp_issue (monitor env t).trans_monotone _ _ _).2 ⟨?_, ?_⟩
      · exact .finished (.sendJson ws event fun h => absurd h hevent)
      · rintro (e | u) <;> exact .inr rfl
    · rintro u s rfl
      exact .inr ⟨rfl, rfl⟩
    · rintro e s rfl
      exact .inr ⟨rfl, rfl⟩

/-- What a program leaves when it returns, and when it fails. -/
def Leaves (ok err : Stage → Prop) : Except Err α → Stage → Prop
  | .ok _, s => ok s
  | .error _, s => err s

/-- `flush` of a record that was changed. -/
theorem flush_wp {st : Stage} {loaded new : FileRecord} (hne : new.toFileRow ≠ loaded.toFileRow)
    (ha : Allowed env t st (.sql (.updateAt .files loaded.id
      (.flush loaded.toFileRow new.toFileRow))))
    (hn : next t st (.sql (.updateAt .files loaded.id
      (.flush loaded.toFileRow new.toFileRow))) (.ok true) =
        .flushed loaded.toFileRow new.toFileRow)
    (hstay : ∀ y, y ≠ .ok true → next t st (.sql (.updateAt .files loaded.id
      (.flush loaded.toFileRow new.toFileRow))) y = st) :
    (fileRepository.flush loaded new).wp (monitor env t).trans
      (Monitor.orSink .broken
        (Leaves (· = .flushed loaded.toFileRow new.toFileRow) (· = st))) st := by
  unfold fileRepository.flush
  rw [if_neg hne]
  refine wp_then sink ha (fun updated => .inr ?_) fun e => .inr (hstay _ fun h => by cases h)
  cases updated with
  | true => exact .inr hn
  | false => exact .inr (hstay _ fun h => by cases h)

/-- `store_chunk` writes the record with the length of the chunk added. -/
theorem storeChunk_wp (r : FileRow) (i : ℕ) (chunk : Bytes) :
    (uploadService.storeChunk env (toFile (t.file, r)) i chunk).wp (monitor env t).trans
      (Monitor.orSink .broken
        (Leaves (· = .flushed r { r with size_bytes := r.size_bytes + chunk.length })
          (·.gained = 0))) (.loaded r) := by
  refine (Prog.wp_require_bind _ _ _ _ _).2 ⟨fun _ => ?_, fun _ => .inr rfl⟩
  refine (Prog.wp_require_bind _ _ _ _ _).2 ⟨fun hchunk => ?_, fun _ => .inr rfl⟩
  refine (Prog.wp_require_bind _ _ _ _ _).2 ⟨fun _ => ?_, fun _ => .inr rfl⟩
  refine wp_then sink (.put _ _ _) (fun stored => .inr ?_) fun e => .inr rfl
  have hn : (monitor env t).next (.loaded r) (.put (partKey (toFile (t.file, r)).storage_key i)
      (.ok chunk)) (.ok stored) = .loaded r := if_neg (text_ne_partKey _ _ _).symm
  rw [hn]
  refine sink.bind (flush_wp ?_ (.add r chunk.length) rfl fun y hy => ?_) ?_ ?_
  · intro h
    have hsize : r.size_bytes + chunk.length = r.size_bytes := congrArg FileRow.size_bytes h
    have hlen := List.length_pos_iff.2 hchunk
    omega
  · rcases y with e | b
    · rfl
    · cases b with
      | false => rfl
      | true => exact absurd rfl hy
  · rintro u s rfl
    exact .inr rfl
  · rintro e s rfl
    exact .inr rfl

/-- What a request leaves when its transaction has ended with `k` bytes added, or failed. -/
def Ended (k : ℕ) : Except Err α → Stage → Prop := Leaves (· = .finished k) (·.gained = 0)

/-- A request that stores a chunk, once it has found the record PENDING. -/
theorem uploadChunk_wp {room : Room} {index : ℤ} (chunk : Bytes) (r : FileRow)
    (hs : r.status = .pending) :
    (do
      Prog.require (chunk ≠ []) (error .dropRoomError "Empty chunk")
      Prog.require (0 ≤ index ∧ index < 1000000)
        (error .dropRoomError "Chunk index out of bounds")
      let stored ← uploadService.storeChunk env (toFile (t.file, r)) index.toNat chunk
      let _ ← roomRepository.createAuditEvent (some room.id) "UPLOAD_CHUNK"
      commit
      uploads.broadcastProgress room stored
      pure stored : Op FileRecord).wp (monitor env t).trans
        (Monitor.orSink .broken (Ended chunk.length)) (.loaded r) := by
  refine (Prog.wp_require_bind _ _ _ _ _).2 ⟨fun _ => ?_, fun _ => .inr rfl⟩
  refine (Prog.wp_require_bind _ _ _ _ _).2 ⟨fun _ => ?_, fun _ => .inr rfl⟩
  refine sink.bind (storeChunk_wp r _ _) ?_ fun e s hs => .inr hs
  rintro stored s rfl
  refine wp_then sink (.audit _ _ _) (fun _ => .inr ?_) fun e => .inr rfl
  refine wp_then sink (.commit _ _) (fun _ => .inr ?_) fun e => .inr rfl
  have hgain : gain r { r with size_bytes := r.size_bytes + chunk.length } = chunk.length :=
    (if_pos hs).trans (Nat.add_sub_cancel_left _ _)
  have htell : (uploads.broadcastProgress room stored).wp (monitor env t).trans
      (Monitor.orSink .broken fun x s => s = .finished chunk.length ∧ x = .ok ())
      (.finished chunk.length) := by
    unfold uploads.broadcastProgress
    dsimp only
    split
    · exact broadcast_wp _ (.fileUploadProgress ..) id _
    · exact .inr ⟨rfl, rfl⟩
  have hn : (monitor env t).next (.flushed r { r with size_bytes := r.size_bytes + chunk.length })
      (.sql .commit) (.ok ()) = .finished chunk.length := congrArg Stage.finished hgain
  rw [← hn] at htell
  refine sink.bind htell ?_ ?_
  · rintro u s ⟨rfl, -⟩
    exact .inr hn
  · rintro e s ⟨-, he⟩
    cases he

/-- Reading the parts writes nothing. -/
theorem merged_wp (keys : List Key) :
    (merged keys).wp (monitor env t).trans
      (Monitor.orSink .broken fun _ s => s = .loaded r) (.loaded r) := by
  induction keys with
  | nil => exact .inr rfl
  | cons key keys ih =>
    refine wp_then sink (.readPart _ _) (fun part => .inr ?_) fun e => .inr rfl
    exact sink.bind ih (fun rest s hs => .inr hs) fun e s hs => .inr hs

/-- The stages of a request that puts the object together. -/
def Assembling (r : FileRow) (s : Stage) : Prop :=
  s = .loaded r ∨ ∃ size, s = .assembled r size

/-- While the object is put together nothing is gained. -/
theorem Assembling.gained {s : Stage} (h : Assembling r s) : s.gained = 0 := by
  rcases h with rfl | ⟨size, rfl⟩
  · rfl
  · rfl

/-- What `assemble` leaves: the object, with its size, or nothing that is needed. -/
def Assembled (r : FileRow) : Except Err (ℕ × Bytes) → Stage → Prop
  | .ok (size, _), s => s = .assembled r size
  | .error _, s => Assembling r s

/-- Putting the object together. -/
theorem assemble_wp (hkey : r.storage_key = t.key) (keys : List Key) :
    (assemble r.storage_key keys).wp (monitor env t).trans
      (Monitor.orSink .broken (Assembled r)) (.loaded r) := by
  refine sink.bind (merged_wp keys) ?_ fun e s hs => .inr (.inl hs)
  rintro data s rfl
  refine wp_then sink (.put _ _ _) (fun size => .inr ?_) fun e => .inr (.inl rfl)
  have hn : (monitor env t).next (.loaded r) (.put r.storage_key.text (.ok data)) (.ok size) =
      .assembled r size := if_pos (congrArg Uuid.text hkey)
  rw [hn]
  exact wp_then sink (.readBack _ _ _) (fun stream => .inr (.inr rfl)) fun e => .inr (.inr ⟨size, rfl⟩)

/-- Deleting an object and giving up. -/
theorem giveUp_wp {s : Stage} (h : Assembling r s) (key : Key) (e : Err)
    (hQ : ∀ e s, Assembling r s → Q (.error e) s) :
    (do storage.delete key; .raise e : Op α).wp (monitor env t).trans
      (Monitor.orSink .broken Q) s := by
  rcases h with rfl | ⟨size, rfl⟩
  · exact wp_then sink (.discard _ _) (fun _ => .inr (.inr (hQ _ _ (.inl rfl)))) fun e =>
      .inr (hQ _ _ (.inl rfl))
  · refine wp_then sink (.erase _ _ _) (fun _ => .inr (.inr (hQ _ _ ?_))) fun e =>
      .inr (hQ _ _ (.inr ⟨size, rfl⟩))
    by_cases hkey : key = t.key.text
    · exact .inl (if_pos hkey)
    · exact .inr ⟨size, if_neg hkey⟩

/-- Deleting objects in a stage that allows it, and keeps. -/
theorem deleteAll_wp {st : Stage} {keys : List Key}
    (ha : ∀ key ∈ keys, Allowed env t st (.deleteObject key))
    (hn : ∀ key ∈ keys, ∀ y, next t st (.deleteObject key) y = st) :
    (keys.forM storage.delete).wp (monitor env t).trans
      (Monitor.orSink .broken fun _ s => s = st) st := by
  induction keys with
  | nil => exact .inr rfl
  | cons key keys ih =>
    have hhere := hn key List.mem_cons_self
    refine wp_then sink (ha key List.mem_cons_self) (fun _ => .inr ?_) fun e => .inr (hhere _)
    have hrest := ih (fun key hk => ha key (List.mem_cons_of_mem _ hk))
      fun key hk => hn key (List.mem_cons_of_mem _ hk)
    rw [← hhere (.ok ())] at hrest
    refine Prog.wp_mono (monitor env t).trans_monotone (fun _ s hs => ?_) hrest
    rw [← hhere (.ok ())]
    exact hs

/-- A completion has written the record as CONFIRMED. -/
def Confirming (r : FileRow) (s : Stage) : Prop :=
  ∃ r' : FileRow, s = .flushed r r' ∧ r'.status = .confirmed

/-- The end of a completion, from its claim of the quota on. -/
theorem confirmUpload_wp {room : Room} (hs : r.status = .pending) (hkey : r.storage_key = t.key)
    (size : ℕ) (first : Bytes) {keys : List Key} (hkeys : ∀ key ∈ keys, key ≠ t.key.text) :
    (confirmUpload env room (toFile (t.file, r)) keys size first).wp (monitor env t).trans
      (Monitor.orSink .broken (Leaves (Confirming r) (·.gained = 0))) (.assembled r size) := by
  unfold confirmUpload
  refine wp_then sink (.claim _ _ _ _) (fun claimed => .inr ?_) fun e => .inr rfl
  cases claimed with
  -- The quota is claimed, the record confirmed, and then the parts go.
  | true =>
    rw [if_pos rfl]
    refine sink.bind (flush_wp ?_ (.confirm r size _) rfl fun y hy => ?_) ?_ ?_
    · intro h
      have hstatus : FileStatus.confirmed = r.status := congrArg FileRow.status h
      rw [hs] at hstatus
      cases hstatus
    · rcases y with e | b
      · rfl
      · cases b with
        -- There is no room for it: the object goes, and the parts with it.
        | false => rfl
        | true => exact absurd rfl hy
    · rintro u s rfl
      refine wp_then sink (.audit _ _ _) (fun _ => .inr ?_) fun e => .inr rfl
      refine sink.bind (deleteAll_wp (fun key hk => .deletePart _ _ (hkeys key hk))
        fun key _ y => rfl) ?_ ?_
      · rintro u s rfl
        exact .inr ⟨_, rfl, rfl⟩
      · rintro e s rfl
        exact .inr rfl
    · rintro e s rfl
      exact .inr rfl
  | false =>
    rw [if_neg Bool.false_ne_true]
    refine wp_then sink (.erase _ _ _) (fun _ => .inr ?_) fun e => .inr rfl
    have hn : (monitor env t).next (.assembled r size)
        (.deleteObject (toFile (t.file, r)).storage_key.text) (.ok ()) = .loaded r :=
      if_pos (congrArg Uuid.text hkey)
    refine sink.bind (P := fun _ s => s = .loaded r) ?_ ?_ ?_
    · have hdelete : ∀ s, s = .loaded r → (keys.forM storage.delete).wp (monitor env t).trans
          (Monitor.orSink .broken fun _ s => s = .loaded r) s := by
        rintro s rfl
        exact deleteAll_wp (fun key _ => .discard _ _) fun key _ y => rfl
      exact hdelete _ hn
    · rintro u s rfl
      exact .inr rfl
    · rintro e s rfl
      exact .inr rfl

/-- A completion, from the listing of the parts on. -/
theorem assembleUpload_wp {room : Room} (hs : r.status = .pending) (hkey : r.storage_key = t.key)
    {keys : List Key} (hkeys : ∀ key ∈ keys, key ≠ t.key.text) :
    (assembleUpload env room (toFile (t.file, r)) keys).wp (monitor env t).trans
      (Monitor.orSink .broken (Leaves (Confirming r) (·.gained = 0))) (.loaded r) := by
  have hzero : ∀ (e : Err) (s : Stage), Assembling r s →
      Leaves (Confirming r) (·.gained = 0) (.error e : Except Err FileRecord) s :=
    fun e s h => h.gained
  refine sink.bind (P := Assembled r) (sink.tryCatch (assemble_wp hkey keys) ?_ ?_) ?_ ?_
  · exact fun a s h => .inr h
  · exact fun e s h => giveUp_wp h _ e fun e s h => h
  · rintro ⟨size, first⟩ s rfl
    dsimp only
    split
    · exact giveUp_wp (.inr ⟨size, rfl⟩) _ _ hzero
    · split
      · exact giveUp_wp (.inr ⟨size, rfl⟩) _ _ hzero
      · exact confirmUpload_wp hs hkey size first hkeys
  · exact fun e s h => .inr (hzero e s h)

/-- A request that completes the upload, once it has found the record PENDING. -/
theorem completeUploadSession_wp {room : Room} {actor : SessionRecord} {m : ℕ}
    (hs : r.status = .pending) (hkey : r.storage_key = t.key) :
    (uploadService.completeUploadSession env room actor (toFile (t.file, r)) m).wp
      (monitor env t).trans (Monitor.orSink .broken (Leaves (Confirming r) (·.gained = 0)))
      (.loaded r) := by
  refine (Prog.wp_require_bind _ _ _ _ _).2 ⟨fun _ => ?_, fun _ => .inr rfl⟩
  unfold authorizeChunkedUpload
  rw [bind_assoc]
  refine (Prog.wp_require_bind _ _ _ _ _).2 ⟨fun _ => ?_, fun _ => .inr rfl⟩
  refine (Prog.wp_require_bind _ _ _ _ _).2 ⟨fun _ => ?_, fun _ => .inr rfl⟩
  refine (Prog.wp_require_bind _ _ _ _ _).2 ⟨fun _ => ?_, fun _ => .inr rfl⟩
  refine wp_then sink (hkey ▸ .list r) (fun keys => ?_) fun e => .inr rfl
  by_cases hall : keys.all ((partPrefix t.key).isPrefixOf ·) = true
  · have hn : (monitor env t).next (.loaded r) (.listKeys (partPrefix (toFile (t.file, r)).storage_key))
        (.ok keys) = .loaded r := if_pos hall
    rw [hn]
    refine .inr ((Prog.wp_require_bind _ _ _ _ _).2 ⟨fun _ => ?_, fun _ => .inr rfl⟩)
    refine assembleUpload_wp hs hkey fun key hk htext => ?_
    have hpre := List.all_eq_true.1 hall key (mem_of_mem_parts hk)
    rw [htext] at hpre
    exact not_partPrefix_isPrefix _ _ (List.isPrefixOf_iff_prefix.1 hpre)
  · exact .inl (if_neg hall)

/-- What a completion does with a record that it has not found PENDING: it raises. -/
theorem completeUploadSession_finished_wp {room : Room} {actor : SessionRecord} {m : ℕ}
    (hs : r.status ≠ .pending) :
    (uploadService.completeUploadSession env room actor (toFile (t.file, r)) m).wp
      (monitor env t).trans (Monitor.orSink .broken (Leaves (fun _ => False) (·.gained = 0)))
      (.finished 0) := by
  refine (Prog.wp_require_bind _ _ _ _ _).2 ⟨fun _ => ?_, fun _ => .inr rfl⟩
  unfold authorizeChunkedUpload
  rw [bind_assoc]
  refine (Prog.wp_require_bind _ _ _ _ _).2 ⟨fun _ => ?_, fun _ => .inr rfl⟩
  refine (Prog.wp_require_bind _ _ _ _ _).2 ⟨fun _ => ?_, fun _ => .inr rfl⟩
  exact (Prog.wp_require_bind _ _ _ _ _).2 ⟨fun h => absurd h hs, fun _ => .inr rfl⟩

/-- A completion from reading the record on. -/
theorem completeAs_wp {room : Room} {actor : SessionRecord}
    {body : uploads.UploadSessionComplete} :
    (uploads.completeAs env actor room t.file body).wp (monitor env t).trans
      (Monitor.orSink .broken (Ended 0)) .out := by
  refine pendingSession_wp (fun r hs hkey => ?_) (fun r hs => ?_) fun e s hs => hs
  · refine sink.bind (completeUploadSession_wp hs hkey) ?_ fun e s hs => .inr hs
    rintro confirmed s ⟨r', rfl, hr'⟩
    refine wp_then sink (.commit _ _) (fun u => .inr ?_) fun e => .inr rfl
    have hgain : gain r r' = 0 := if_neg (by rw [hr']; exact FileStatus.noConfusion)
    have htell : ∀ s, s = .finished 0 → (broadcast (wsChannel room) (.fileUploadCompleted
        (fileView confirmed actor.display_name)) []).wp (monitor env t).trans
        (Monitor.orSink .broken fun x s => s = .finished 0 ∧ x = .ok ()) s := by
      rintro s rfl
      exact broadcast_wp _ (.fileUploadCompleted _) id _
    refine sink.bind (htell _ (congrArg Stage.finished hgain)) ?_ ?_
    · rintro u s ⟨rfl, -⟩
      exact .inr rfl
    · rintro e s ⟨-, he⟩
      cases he
  · exact sink.bind (completeUploadSession_finished_wp hs) (fun a s h => h.elim) fun e s h => .inr h

/-- A record that a request has not found PENDING takes no chunk. -/
theorem uploadChunk_finished_wp {room : Room} {index : ℤ} (chunk : Bytes) (hs : r.status ≠ .pending) :
    (do
      Prog.require (chunk ≠ []) (error .dropRoomError "Empty chunk")
      Prog.require (0 ≤ index ∧ index < 1000000)
        (error .dropRoomError "Chunk index out of bounds")
      let stored ← uploadService.storeChunk env (toFile (t.file, r)) index.toNat chunk
      let _ ← roomRepository.createAuditEvent (some room.id) "UPLOAD_CHUNK"
      commit
      uploads.broadcastProgress room stored
      pure stored : Op FileRecord).wp (monitor env t).trans
        (Monitor.orSink .broken (Ended chunk.length)) (.finished 0) := by
  refine (Prog.wp_require_bind _ _ _ _ _).2 ⟨fun _ => ?_, fun _ => .inr rfl⟩
  refine (Prog.wp_require_bind _ _ _ _ _).2 ⟨fun _ => ?_, fun _ => .inr rfl⟩
  refine sink.bind (P := fun x s => s = .finished 0 ∧ ∃ e, x = .error e) ?_ ?_ ?_
  · exact (Prog.wp_require_bind _ _ _ _ _).2 ⟨fun h => absurd h hs, fun _ => .inr ⟨rfl, _, rfl⟩⟩
  · rintro stored s ⟨-, e, he⟩
    cases he
  · rintro e s ⟨rfl, -⟩
    exact .inr rfl

/-- The bytes that an answer tells of. -/
def answered : Except Err ℕ → ℕ
  | .ok k => k
  | .error _ => 0

/-- A request with its database session. -/
theorem withSession_wp {body : Op α}
    (h : body.wp (monitor env t).trans (Monitor.orSink .broken (Ended k)) .out) :
    ((fun _ => k) <$> withSession body).wp (monitor env t).trans
      (Monitor.orSink .broken fun x s => s.gained = answered x) .out := by
  have hrollback : ∀ s : Stage, Allowed env t s (.sql .rollback) := by
    intro s
    cases s with
    | out => exact .check (.close (by decide)) fun where_ h => by cases h
    | loaded r => exact .abandon r
    | assembled r total => exact .giveUp r total
    | flushed r r' => exact .rollback r r'
    | finished k => exact .finished (.close (by decide))
    | broken => exact .broken _
  refine (Prog.wp_map _ _ _ _).2 (wp_withSession (monitor env t).trans_monotone ?_)
  refine Prog.wp_mono (monitor env t).trans_monotone ?_ h
  rintro (e | a) s (rfl | hs)
  · exact ⟨.broken _, by rintro (e | u) <;> exact .inl rfl⟩
  · refine ⟨hrollback s, ?_⟩
    rintro (e' | u)
    · cases s with
      | finished k => exact .inl rfl
      | broken => exact .inl rfl
      | _ => exact .inr hs
    · cases s with
      | broken => exact .inl rfl
      | _ => exact .inr hs
  · exact ⟨.broken _, by rintro (e | u) <;> exact .inl rfl⟩
  · obtain rfl : s = .finished k := hs
    refine ⟨hrollback (.finished k), ?_⟩
    rintro (e' | u)
    · exact .inl rfl
    · exact .inr rfl

/-- Every request keeps to the protocol. -/
theorem call_wp (call : Call) :
    (call.program env t).wp (monitor env t).trans
      (Monitor.orSink .broken fun x s => s.gained = answered x) .out := by
  cases call with
  | storeChunk room_token index body request =>
    refine withSession_wp (checks_wp (only_requireMember _ _) (fun auth => ?_) fun e => rfl)
    refine checks_wp (only_limiterCheck _ _ _) (fun _ => ?_) fun e => rfl
    refine pendingSession_wp (fun r hs hkey => ?_) (fun r hs => ?_) fun e s hs => hs
    · cases body with
      | error e => exact .inr rfl
      | ok chunk => exact uploadChunk_wp chunk r hs
    · cases body with
      | error e => exact .inr rfl
      | ok chunk => exact uploadChunk_finished_wp chunk hs
  | complete room_token body request =>
    refine withSession_wp (checks_wp (only_requireMember _ _) (fun auth => ?_) fun e => rfl)
    exact checks_wp (only_validateCsrf _ _) (fun _ => completeAs_wp) fun e => rfl

end

/-! ## Runs -/

/-- `n` requests for the upload, and nobody else. -/
def start (env : Env) (t : Target) (call : ℕ → Call) (n : ℕ) (w : World) :
    Conf Cmd Resp Err ℕ World Stage where
  world := w
  phase p := if p < n then .out else .finished 0
  proc p := if p < n then (call p).program env t else pure 0

variable {call : ℕ → Call} {r₀ : FileRow}

/-- Every process keeps to the protocol. -/
theorem start_conforms : (start env t call n w).Conforms (monitor env t)
    (Monitor.orSink .broken fun x s => s.gained = answered x) := by
  intro p
  dsimp only [start]
  by_cases hp : p < n
  · rw [if_pos hp, if_pos hp]
    exact call_wp (call p)
  · rw [if_neg hp, if_neg hp]
    exact .inr rfl

/-- The invariant holds before the requests. -/
theorem Inv.init (hrow : w.db.cell .files t.file = ⟨some r₀, none⟩) (hkey : r₀.storage_key = t.key)
    (hpending : r₀.status = .pending) :
    Inv t r₀.size_bytes n w (start env t call n w).phase where
  row := by
    refine ⟨r₀, by rw [Tables.committed, hrow], hkey, fun _ => ?_, fun hs => ?_⟩
    · rw [total_eq_zero fun p hp => congrArg Stage.gained (if_pos hp)]
      rfl
    · rw [hpending] at hs
      cases hs
  stage q := by
    dsimp only [start]
    split <;> trivial
  lock q v hv := by
    rw [hrow] at hv
    cases hv
  single q q' hq := by
    dsimp only [start] at hq
    split at hq <;> cases hq
  bound q hq := if_neg (Nat.not_lt.2 hq)

/-- The lengths of the chunks that the requests were answered to be stored. -/
def acceptedBytes (n : ℕ) (proc : ℕ → Op ℕ) : ℕ := total n proc accepted

/-- The size of the record is what was staged before and the lengths of the accepted chunks while it
is PENDING, and the length of its object once it is CONFIRMED. -/
def SizeKept (t : Target) (r₀ : FileRow) (n : ℕ) (s : Conf Cmd Resp Err ℕ World Stage) : Prop :=
  ∃ r, s.world.db.committed .files t.file = some r ∧
    (r.status = .pending → r.size_bytes = r₀.size_bytes + acceptedBytes n s.proc) ∧
    (r.status = .confirmed → ∃ data : Bytes,
      s.world.storage.lookup r.storage_key.text = some data ∧ data.length = r.size_bytes)

/-- What a request has added is what it was answered to have stored. -/
theorem accepted_eq {prog : Op ℕ} {s : Stage} (hend : prog.outcome.isSome = true)
    (hwp : prog.wp (monitor env t).trans (Monitor.orSink .broken fun x s => s.gained = answered x) s)
    (hs : s ≠ .broken) : accepted prog = s.gained := by
  obtain ⟨x, hx⟩ := Option.isSome_iff_exists.1 hend
  have hgained := (Prog.wp_outcome hx hwp).resolve_left hs
  rw [hgained, accepted, hx]
  cases x <;> rfl

end overlap

open overlap

/-- For every interleaving of `n` requests that store chunks of one PENDING upload or complete it,
in which the record is written only while it is as the request has loaded it, and the object only
while the record is PENDING and no other request relies on the object: once all requests have ended,
a PENDING record has the size of the accepted chunks, and a CONFIRMED one that of its object. -/
theorem size_kept_fresh (env : Env) (t : Target) (n : ℕ) (call : ℕ → Call) (w : World)
    (r₀ : FileRow) (hrow : w.db.cell .files t.file = ⟨some r₀, none⟩)
    (hkey : r₀.storage_key = t.key) (hpending : r₀.status = .pending)
    (s : Conf Cmd Resp Err ℕ World Stage)
    (h : server.Reaches (monitor env t) (fresh t n) (start env t call n w) s)
    (hend : ∀ p < n, (s.proc p).outcome.isSome = true) : SizeKept t r₀ n s := by
  obtain ⟨hI, hC⟩ := Machine.invariant (I := Inv t r₀.size_bytes n)
    (fun w φ p c x w' I ha hok hx => I.step ha hok hx)
    (fun w φ w' I ht => by
      obtain ⟨d, d', rfl⟩ := ht
      exact I.congr rfl rfl) h (Inv.init hrow hkey hpending) start_conforms
  obtain ⟨r, hr, hagrees⟩ := hI.row
  refine ⟨r, hr, fun hs => ?_, fun hs => ?_⟩
  · have htotal : acceptedBytes n s.proc = total n s.phase Stage.gained := by
      refine total_congr fun p hp => accepted_eq (hend p hp) (hC p) fun hb => ?_
      have hstage := hI.stage p
      rw [hb] at hstage
      exact hstage
    rw [htotal]
    exact hagrees.pending hs
  · rw [hagrees.key]
    exact hagrees.confirmed hs

/-- An upload of two bytes that has just been created, with the owner of its room. -/
def overlap.created : FileRow :=
  { FileRow.plain with status := .pending, size_bytes := 0, total_size_bytes := some 2 }

/-- A room with an upload of two bytes. -/
def overlap.twoBytes : World := .holding [.plain] [.owner] [created]

/-- The two chunks of the upload, one byte each. -/
def overlap.oneByte (p : ℕ) : Call := .storeChunk "a" p (.ok [65]) .owner

/-- The record of `overlap.twoBytes`. -/
def overlap.upload : Target := ⟨0, created.storage_key⟩

/-- One chunk after the other. -/
theorem size_kept_fresh_twoBytes : ∃ s : Conf Cmd Resp Err ℕ World Stage,
    acceptedBytes 2 s.proc = 2 ∧ (s.world.db.committed .files 0).map FileRow.size_bytes = some 2 ∧
      SizeKept upload created 2 s := by
  have hrun : ((server.play (monitor .plain upload) (fresh upload 2)
      (List.replicate 12 0 ++ List.replicate 12 1)
      (start .plain upload overlap.oneByte 2 twoBytes)).map fun s =>
      ((List.range 2).all fun p => (s.proc p).outcome.isSome,
        accepted (s.proc 0) + accepted (s.proc 1),
        (s.world.db.committed .files 0).map FileRow.size_bytes)) = some (true, 2, some 2) := by
    decide
  obtain ⟨s, hs, hd⟩ := Option.map_eq_some_iff.1 hrun
  obtain ⟨hend, hd⟩ := Prod.mk.inj hd
  obtain ⟨hbytes, hsize⟩ := Prod.mk.inj hd
  exact ⟨s, hbytes, hsize, size_kept_fresh .plain upload 2 overlap.oneByte twoBytes created rfl rfl
    rfl s (Machine.play_reaches hs) fun p hp => List.all_eq_true.1 hend p (List.mem_range.2 hp)⟩

/-- Of two requests that have loaded the record before either of them writes it, both store their
chunk, and the record has the size of one. -/
theorem size_lost : ∃ s : Conf Cmd Resp Err ℕ World Stage,
    server.Reaches (monitor .plain upload) Guard.all
      (start .plain upload overlap.oneByte 2 twoBytes) s ∧
      (∀ p < 2, (s.proc p).outcome.isSome = true) ∧ acceptedBytes 2 s.proc = 2 ∧
      ¬SizeKept upload created 2 s := by
  have hrun : ((server.play (monitor .plain upload) Guard.all
      (List.replicate 6 0 ++ List.replicate 12 1 ++ List.replicate 6 0)
      (start .plain upload overlap.oneByte 2 twoBytes)).map fun s =>
      ((List.range 2).all fun p => (s.proc p).outcome.isSome,
        accepted (s.proc 0) + accepted (s.proc 1),
        (s.world.db.committed .files 0).map fun r => (r.status, r.size_bytes))) =
          some (true, 2, some (.pending, 1)) := by
    decide
  obtain ⟨s, hs, hd⟩ := Option.map_eq_some_iff.1 hrun
  obtain ⟨hend, hd⟩ := Prod.mk.inj hd
  obtain ⟨hbytes, hrow⟩ := Prod.mk.inj hd
  refine ⟨s, Machine.play_reaches hs, fun p hp =>
    List.all_eq_true.1 hend p (List.mem_range.2 hp), hbytes, ?_⟩
  rintro ⟨r, hr, hpending, -⟩
  have hr' : s.world.db.committed .files 0 = some r := hr
  rw [hr'] at hrow
  obtain ⟨hs, hsize⟩ := Prod.mk.inj (Option.some.inj hrow)
  have hkept := hpending hs
  have hbytes' : acceptedBytes 2 s.proc = 2 := hbytes
  rw [hbytes', hsize] at hkept
  exact absurd hkept (by decide)

end DropRoom
