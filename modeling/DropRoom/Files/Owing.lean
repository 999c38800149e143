import DropRoom.App.Footprint
import DropRoom.App.References

/-!
# Who owes an object

The protocol that the uploads to a room and its teardowns keep to, on a database with foreign keys. An
upload writes its object long before its record is committed, so a teardown of the room can neither
see the record nor find the key. What saves the storage is the row of the room: `_claim_quota` and
`cleanup_room` both lock it, the claim applies to an ACTIVE room only, and a request whose claim fails
deletes its object itself.

The monitor follows the transaction of each process. `Inv` says who holds the row of the room, what
each transaction has locked among the file records, and that somebody *owes* every object: a
process that has written it, or a record that the teardown has yet to list and delete. Every command
keeps it (`Inv.step`), also where the foreign keys matter (`Inv.done`), and so does an abort of any
process but one that has an object and no claim yet (`Inv.abort`).
-/

namespace DropRoom

open Effect Store uploadService

/-- The record belongs to room `ρ` and has a storage key. -/
def FileRow.Of (ρ : ℕ) (key : Uuid) (row : FileRow) : Prop := row.room_id = ρ ∧ row.storage_key = key

/-- The command is the `UPDATE` of `_claim_quota`. -/
def Cmd.Claims : Cmd → Prop
  | .sql (.updateAt .rooms _ (.claimQuota ..)) => True
  | _ => False

namespace latecomer

/-- The record that an upload works on, which it has inserted itself or has read. -/
structure Rec where
  id : ℕ
  key : Uuid
  own : Bool

/-- How far a process has come. It is in no transaction that matters; or it is ready to write its
object, has written it, has claimed the quota, has confirmed the record, or has given up, with the
record that it has inserted; or it has marked the room as EXPIRED or DELETING, has listed the keys and
has some left to delete, has deleted the records, or has marked the room as DELETED. The stage
`broken` is entered when a command is answered as it cannot be. -/
inductive Stage
  | idle
  | ready (r : Rec) | wrote (r : Rec) | claimed (r : Rec) | confirmed (r : Rec)
  | refused (own : Option ℕ)
  | expired | deleting | listed (todo : List Uuid) | wiped | marked
  | broken

/-- The status that a process has written to the row of the room, if it holds its lock. -/
def Stage.drafts : Stage → Option RoomStatus
  | .claimed _ | .confirmed _ => some .active
  | .expired => some .expired
  | .deleting | .listed _ | .wiped => some .deleting
  | .marked => some .deleted
  | _ => none

/-- The process is to commit the record of key `k`, or to delete the object. -/
def Stage.owes (k : Key) : Stage → Prop
  | .wrote r | .claimed r | .confirmed r => r.key.text = k
  | _ => False

/-- The teardown has listed the keys, and does not delete key `k` any more. -/
def Stage.past (k : Key) : Stage → Prop
  | .listed todo => ∀ key ∈ todo, key.text ≠ k
  | .wiped | .marked => True
  | _ => False

/-! ## The protocol -/

/-- The commands of a process, by its stage. -/
inductive Allowed (env : Env) (ρ : ℕ) : Stage → Cmd → Prop
  | look {c : Cmd} (hc : Issued env [.close, .commit, .tellSettings] c) : Allowed env ρ .idle c
  | newFile {row : FileRow} (hrow : row.room_id = ρ) :
      Allowed env ρ .idle (.sql (.insert .files row))
  | markExpired : Allowed env ρ .idle (.sql (.updateAt .rooms ρ .markExpired))
  | markDeleting : Allowed env ρ .idle (.sql (.updateAt .rooms ρ .markDeleting))
  | listParts (r : Rec) (pre : Key) : Allowed env ρ (.ready r) (.listKeys pre)
  | readPart (r : Rec) (key : Key) : Allowed env ρ (.ready r) (.getStream key)
  | write (r : Rec) (data : Except Err Bytes) : Allowed env ρ (.ready r) (.put r.key.text data)
  | giveUp {r : Rec} (hown : r.own = true) : Allowed env ρ (.ready r) (.deleteObject r.key.text)
  | leave (r : Rec) : Allowed env ρ (.ready r) (.sql .rollback)
  | readBack (r : Rec) (key : Key) : Allowed env ρ (.wrote r) (.getStream key)
  | undo (r : Rec) : Allowed env ρ (.wrote r) (.deleteObject r.key.text)
  | claim (r : Rec) (n : ℕ) : Allowed env ρ (.wrote r) (.sql (.updateAt .rooms ρ
      (.claimQuota n env.max_files_per_room env.max_room_storage_bytes)))
  | confirm (r : Rec) (loaded new : FileRow) :
      Allowed env ρ (.claimed r) (.sql (.updateAt .files r.id (.flush loaded new)))
  | audit (r : Rec) {event : AuditEventRow} (hevent : event.room_id = some ρ) :
      Allowed env ρ (.confirmed r) (.sql (.insert .auditEvents event))
  | deletePart (r : Rec) (key : Key) : Allowed env ρ (.confirmed r) (.deleteObject key)
  | publish (r : Rec) : Allowed env ρ (.confirmed r) (.sql .commit)
  | deleteRest (own : Option ℕ) (key : Key) : Allowed env ρ (.refused own) (.deleteObject key)
  | dropRecord (id : ℕ) : Allowed env ρ (.refused (some id)) (.sql (.deleteWhere .files (.byId id)))
  | refuse (own : Option ℕ) : Allowed env ρ (.refused own) (.sql .rollback)
  | goOn : Allowed env ρ .expired (.sql (.updateAt .rooms ρ .markDeleting))
  | list : Allowed env ρ .deleting (.sql (.select .files fun _ r => r.room_id == ρ))
  | deleteListed (key : Uuid) (todo : List Uuid) :
      Allowed env ρ (.listed (key :: todo)) (.deleteObject key.text)
  | dropRecords : Allowed env ρ (.listed []) (.sql (.deleteWhere .files (.byRoom ρ)))
  | dropRows {t : Table} (d : Del t) (ht : t ≠ .files) :
      Allowed env ρ .wiped (.sql (.deleteWhere t d))
  | markDeleted : Allowed env ρ .wiped (.sql (.updateAt .rooms ρ .markDeleted))
  | tearDown : Allowed env ρ .marked (.sql .commit)
  | broken (c : Cmd) : Allowed env ρ .broken c

/-- The record that `_pending_session` finds. -/
def found (ρ : ℕ) : List (ℕ × FileRow) → Stage
  | [(i, row)] => if row.room_id = ρ then .ready ⟨i, row.storage_key, false⟩ else .idle
  | _ => .idle

/-- The stage after a command was executed. -/
def after (ρ : ℕ) : Stage → (c : Cmd) → Resp c → Stage
  | .idle, .sql (.select .files _), rows => found ρ rows
  | .idle, .sql (.insert .files row), i => .ready ⟨i, row.storage_key, true⟩
  | .idle, .sql (.updateAt .rooms _ u), ok =>
    if ok then (if u = .markExpired then .expired else .deleting) else .idle
  | .idle, _, _ => .idle
  | .ready r, .listKeys _, _ => .ready r
  | .ready r, .getStream _, _ => .ready r
  | .ready r, .put _ (.ok _), _ => .wrote r
  | .ready r, .deleteObject _, _ => .refused (some r.id)
  | .ready _, .sql .rollback, _ => .idle
  | .wrote r, .getStream _, _ => .wrote r
  | .wrote r, .deleteObject _, _ => .refused (if r.own then some r.id else none)
  | .wrote r, .sql (.updateAt .rooms _ _), ok => if ok then .claimed r else .wrote r
  | .claimed r, .sql (.updateAt .files _ _), true => .confirmed r
  | .confirmed r, .sql (.insert .auditEvents _), _ => .confirmed r
  | .confirmed r, .deleteObject _, _ => .confirmed r
  | .confirmed _, .sql .commit, _ => .idle
  | .refused own, .deleteObject _, _ => .refused own
  | .refused own, .sql (.deleteWhere .files _), _ => .refused own
  | .refused _, .sql .rollback, _ => .idle
  | .expired, .sql (.updateAt .rooms _ _), true => .deleting
  | .deleting, .sql (.select .files _), rows => .listed (rows.map fun r => r.2.storage_key)
  | .listed (_ :: todo), .deleteObject _, _ => .listed todo
  | .listed _, .sql (.deleteWhere .files _), _ => .wiped
  | .wiped, .sql (.deleteWhere _ _), _ => .wiped
  | .wiped, .sql (.updateAt .rooms _ _), true => .marked
  | .marked, .sql .commit, _ => .idle
  | _, _, _ => .broken

/-- The stage after a command has failed. A transaction that was aborted has done nothing. -/
def failed : Stage → Cmd → Stage
  | .idle, _ => .idle
  | .ready r, .put _ (.error _) => .ready r
  | .ready _, .sql _ | .refused _, .sql _ | .expired, .sql _ | .deleting, .sql _ | .listed _, .sql _
  | .wiped, .sql _ | .marked, .sql _ => .idle
  | _, _ => .broken

/-- The stage after a command was answered. -/
def next (ρ : ℕ) (st : Stage) (c : Cmd) : Except Err (Resp c) → Stage
  | .ok a => after ρ st c a
  | .error _ => failed st c

/-- The protocol of the uploads to room `ρ` and of its teardowns. -/
def monitor (env : Env) (ρ : ℕ) : Monitor Cmd Resp Err Stage := ⟨Allowed env ρ, next ρ⟩

/-! ## What holds at each stage -/

/-- A process that holds the row of the room has written its status, and the committed status
admits that. -/
structure Holder (q : ℕ) (st : RoomStatus) (R : Cell RoomRow) : Prop where
  lock : ∃ r, R.lock = some (q, some r) ∧ r.status = st
  committed : ∃ r₀, R.committed = some r₀ ∧ r₀.status ≠ .deleted ∧
    (st = .active → r₀.status = .active)

/-- The record of a process is there: it has inserted it, or it is committed while the room is not
DELETED. -/
def Rec.Kept (ρ q : ℕ) (R : Cell RoomRow) (F : ℕ → Cell FileRow) (r : Rec) : Prop :=
  if r.own then ∃ row : FileRow, F r.id = ⟨none, some (q, some row)⟩ ∧ row.Of ρ r.key
  else ∀ r₀, R.committed = some r₀ → r₀.status ≠ .deleted →
    ∃ row : FileRow, (F r.id).committed = some row ∧ row.Of ρ r.key

/-- What the stage of a process says about its record, or about all records of the room. -/
def Recorded (ρ q : ℕ) (R : Cell RoomRow) (F : ℕ → Cell FileRow) : Stage → Prop
  | .ready r | .wrote r | .claimed r => r.Kept ρ q R F
  | .confirmed r => (∃ row : FileRow, (F r.id).lock = some (q, some row) ∧ row.Of ρ r.key) ∧
      ∀ row : FileRow, (F r.id).committed = some row → row.Of ρ r.key
  | .wiped | .marked => ∀ i (row : FileRow), (F i).committed = some row → row.room_id = ρ →
      (F i).lock = some (q, none)
  | .refused own => ∀ id ∈ own, ∃ v, F id = ⟨none, some (q, v)⟩
  | .broken => False
  | _ => True

/-- The file records that a process has locked, by its stage. A teardown has written no record of
the room. -/
def Locks (ρ i : ℕ) (v : Option FileRow) : Stage → Prop
  | .ready r | .wrote r | .claimed r => r.own = true ∧ i = r.id
  | .confirmed r => i = r.id
  | .refused own => own = some i
  | .wiped | .marked => ∀ row ∈ v, row.room_id ≠ ρ
  | _ => False

/-- Somebody is to take care of the object of key `k`. -/
def Owed (ρ : ℕ) (k : Key) (F : ℕ → Cell FileRow) (φ : ℕ → Stage) : Prop :=
  (∃ q, (φ q).owes k) ∨
    (∃ i key, key.text = k ∧ ∃ row : FileRow, (F i).committed = some row ∧ row.Of ρ key) ∧
      ∀ q, ¬(φ q).past k

/-- The invariant of the row of the room, the file records, and the stages of all processes, where
`has` says that there is an object of key `k`. -/
structure Inv (ρ : ℕ) (k : Key) (R : Cell RoomRow) (F : ℕ → Cell FileRow) (has : Prop)
    (φ : ℕ → Stage) : Prop where
  holder : ∀ q, ∀ st ∈ (φ q).drafts, Holder q st R
  recorded : ∀ q, Recorded ρ q R F (φ q)
  room : ∀ q v, R.lock = some (q, v) → (φ q).drafts ≠ none
  files : ∀ i q v, (F i).lock = some (q, v) → Locks ρ i v (φ q)
  deleted : ∀ r, R.committed = some r → r.status = .deleted →
    ∀ i (row : FileRow), (F i).committed = some row → row.room_id ≠ ρ
  stored : has → Owed ρ k F φ

/-! ## Steps that publish nothing -/

section

variable {α : Type} {p q : ℕ} {cl cl' : Cell α}

/-- A step of process `p` on a row that publishes nothing: the committed version and the locks of the
other processes stay. -/
structure Moves (p : ℕ) (cl cl' : Cell α) : Prop where
  committed : cl'.committed = cl.committed
  others : ∀ q ≠ p, ∀ v, cl'.lock = some (q, v) ↔ cl.lock = some (q, v)

/-- A step that leaves the row alone. -/
theorem Moves.refl (p : ℕ) (cl : Cell α) : Moves p cl cl := ⟨rfl, fun _ _ _ => Iff.rfl⟩

/-- Writing a row that nobody else holds. -/
theorem Moves.write (h : cl.heldByOther p = false) (v : Option α) : Moves p cl (cl.write p v) where
  committed := rfl
  others q hq v' := by
    constructor
    · intro h'
      cases h'
      exact absurd rfl hq
    · intro h'
      rcases Cell.heldByOther_eq_false.1 h with hl | ⟨v'', hl⟩
      · rw [hl] at h'
        cases h'
      · rw [hl] at h'
        cases h'
        exact absurd rfl hq

/-- Dropping what `p` has written. -/
theorem Moves.rollback (p : ℕ) (cl : Cell α) : Moves p cl (cl.rollback p) where
  committed := Cell.committed_rollback cl
  others q hq v := by
    by_cases hl : ∃ v', cl.lock = some (p, v')
    · obtain ⟨v', hl⟩ := hl
      rw [Cell.rollback_of_lock hl, hl]
      constructor
      · rintro ⟨⟩
      · rintro ⟨⟩
        exact absurd rfl hq
    · rw [Cell.rollback_of_ne fun v' hv => hl ⟨v', hv⟩]

/-- Only one process holds a lock. -/
theorem eq_of_lock {v v' : Option α} (h : cl.lock = some (p, v)) (h' : cl.lock = some (q, v')) :
    p = q := by
  rw [h] at h'
  cases h'
  rfl

end

section

variable {env : Env} {ρ p q : ℕ} {k : Key} {R R' : Cell RoomRow} {F F' : ℕ → Cell FileRow}
  {has has' : Prop} {φ : ℕ → Stage} {st t : Stage}

/-- What another process knows of the row of the room stays true. -/
theorem Holder.frame {s : RoomStatus} (h : Holder q s R) (hR : Moves p R R') (hq : q ≠ p) :
    Holder q s R' := by
  obtain ⟨r, hl, hr⟩ := h.lock
  exact ⟨⟨r, (hR.others q hq _).2 hl, hr⟩, by rw [hR.committed]; exact h.committed⟩

/-- The record of another process stays there. -/
theorem Rec.Kept.frame {r : Rec} (h : r.Kept ρ q R F) (hR : Moves p R R')
    (hF : ∀ i, Moves p (F i) (F' i)) (hq : q ≠ p) : r.Kept ρ q R' F' := by
  unfold Rec.Kept at h ⊢
  split_ifs at h ⊢ with hown
  · obtain ⟨row, hcell, hof⟩ := h
    have hc : (F' r.id).committed = none := by rw [(hF r.id).committed, hcell]
    have hl : (F' r.id).lock = some (q, some row) := ((hF r.id).others q hq _).2 (by rw [hcell])
    exact ⟨row, congrArg₂ Cell.mk hc hl, hof⟩
  · rw [hR.committed, (hF r.id).committed]
    exact h

/-- What another process knows of the records stays true. -/
theorem Recorded.frame (h : Recorded ρ q R F st) (hR : Moves p R R')
    (hF : ∀ i, Moves p (F i) (F' i)) (hq : q ≠ p) : Recorded ρ q R' F' st := by
  have hall : (∀ i (row : FileRow), (F i).committed = some row → row.room_id = ρ →
        (F i).lock = some (q, none)) →
      ∀ i (row : FileRow), (F' i).committed = some row → row.room_id = ρ →
        (F' i).lock = some (q, none) := by
    intro h i row hc hρ
    rw [(hF i).committed] at hc
    exact ((hF i).others q hq _).2 (h i row hc hρ)
  cases st with
  | ready r => exact Rec.Kept.frame h hR hF hq
  | wrote r => exact Rec.Kept.frame h hR hF hq
  | claimed r => exact Rec.Kept.frame h hR hF hq
  | confirmed r =>
    obtain ⟨⟨row, hl, hof⟩, hc⟩ := h
    refine ⟨⟨row, ((hF r.id).others q hq _).2 hl, hof⟩, ?_⟩
    rw [(hF r.id).committed]
    exact hc
  | refused own =>
    rintro id hid
    obtain ⟨v, hcell⟩ := h id hid
    have hc : (F' id).committed = none := by rw [(hF id).committed, hcell]
    exact ⟨v, congrArg₂ Cell.mk hc (((hF id).others q hq _).2 (by rw [hcell]))⟩
  | wiped => exact hall h
  | marked => exact hall h
  | broken => exact h.elim
  | _ => trivial

/-- A process goes from stage `st` to `t` without leaving the object of key `k` behind. -/
structure HandsOn (ρ : ℕ) (k : Key) (F : ℕ → Cell FileRow) (st t : Stage) : Prop where
  owes : st.owes k → t.owes k
  past : t.past k → st.past k ∨
    ∀ i key (row : FileRow), key.text = k → (F i).committed = some row → ¬row.Of ρ key

/-- A step of process `p` that publishes nothing keeps the invariant, if what the new stage says
holds of `p`. -/
theorem Inv.move (I : Inv ρ k R F has φ) (hR : Moves p R R') (hF : ∀ i, Moves p (F i) (F' i))
    (hholder : ∀ s ∈ t.drafts, Holder p s R') (hrec : Recorded ρ p R' F' t)
    (hroom : ∀ v, R'.lock = some (p, v) → t.drafts ≠ none)
    (hfiles : ∀ i v, (F' i).lock = some (p, v) → Locks ρ i v t)
    (hstored : has' → t.owes k ∨ has ∧ HandsOn ρ k F (φ p) t) :
    Inv ρ k R' F' has' (Function.update φ p t) where
  holder q s hs := by
    by_cases hq : q = p
    · subst hq
      rw [Function.update_self] at hs
      exact hholder s hs
    · rw [Function.update_of_ne hq] at hs
      exact (I.holder q s hs).frame hR hq
  -- The others see their cells as before: the move was by `p`.
  recorded q := by
    by_cases hq : q = p
    · subst hq
      rw [Function.update_self]
      exact hrec
    · rw [Function.update_of_ne hq]
      exact (I.recorded q).frame hR hF hq
  room q v hl := by
    by_cases hq : q = p
    · subst hq
      rw [Function.update_self]
      exact hroom v hl
    · rw [Function.update_of_ne hq]
      exact I.room q v ((hR.others q hq v).1 hl)
  files i q v hl := by
    by_cases hq : q = p
    · subst hq
      rw [Function.update_self]
      exact hfiles i v hl
    · rw [Function.update_of_ne hq]
      exact I.files i q v (((hF i).others q hq v).1 hl)
  -- Nothing is committed by the move.
  deleted r hr hs i row hrow := by
    rw [hR.committed] at hr
    rw [(hF i).committed] at hrow
    exact I.deleted r hr hs i row hrow
  -- Whoever owed the object owes it still, or has handed it on to a record that is committed.
  stored hh := by
    rcases hstored hh with howe | ⟨hhas, hon⟩
    · exact .inl ⟨p, by rwa [Function.update_self]⟩
    · rcases I.stored hhas with ⟨q, hq⟩ | ⟨⟨i, key, hkey, row, hrow, hof⟩, hpast⟩
      · refine .inl ⟨q, ?_⟩
        by_cases hqp : q = p
        · subst hqp
          rw [Function.update_self]
          exact hon.owes hq
        · rwa [Function.update_of_ne hqp]
      · refine .inr ⟨⟨i, key, hkey, row, by rwa [(hF i).committed], hof⟩, fun q hq => ?_⟩
        by_cases hqp : q = p
        · subst hqp
          rw [Function.update_self] at hq
          rcases hon.past hq with hp | hnone
          · exact hpast q hp
          · exact hnone i key row hkey hrow hof
        · rw [Function.update_of_ne hqp] at hq
          exact hpast q hq

/-- A step that touches no row. -/
theorem Inv.stay (I : Inv ρ k R F has φ) (hdrafts : t.drafts = (φ p).drafts)
    (hrec : Recorded ρ p R F (φ p) → Recorded ρ p R F t)
    (hlocks : ∀ i v, Locks ρ i v (φ p) → Locks ρ i v t)
    (hstored : has' → t.owes k ∨ has ∧ HandsOn ρ k F (φ p) t) :
    Inv ρ k R F has' (Function.update φ p t) := by
  refine I.move (.refl p R) (fun i => .refl p (F i)) ?_ (hrec (I.recorded p)) ?_
    (fun i v hl => hlocks i v (I.files i p v hl)) hstored
  · rw [hdrafts]
    exact I.holder p
  · rw [hdrafts]
    exact I.room p

/-- Processes that hold the row of the room are one. -/
theorem Inv.holder_unique (I : Inv ρ k R F has φ) (hp : (φ p).drafts ≠ none)
    (hq : (φ q).drafts ≠ none) : q = p := by
  obtain ⟨s, hs⟩ := Option.ne_none_iff_exists'.1 hp
  obtain ⟨s', hs'⟩ := Option.ne_none_iff_exists'.1 hq
  obtain ⟨r, hl, -⟩ := (I.holder p s hs).lock
  obtain ⟨r', hl', -⟩ := (I.holder q s' hs').lock
  exact eq_of_lock hl' hl

/-- Whoever has listed the keys holds the row of the room. -/
theorem Stage.drafts_of_past (h : st.past k) : st.drafts ≠ none := by
  cases st with
  | listed todo => rintro ⟨⟩
  | wiped => rintro ⟨⟩
  | marked => rintro ⟨⟩
  | _ => exact h.elim

/-! ## Steps that publish -/

/-- A commit of `p` leaves the locks of the other processes, and none of its own. -/
theorem lock_commit_iff {α : Type} {cl : Cell α} {v : Option α} :
    (cl.commit p).lock = some (q, v) ↔ q ≠ p ∧ cl.lock = some (q, v) := by
  by_cases hl : ∃ v', cl.lock = some (p, v')
  · obtain ⟨v', hl⟩ := hl
    rw [Cell.commit_of_lock hl, hl]
    constructor
    · rintro ⟨⟩
    · rintro ⟨hq, ⟨⟩⟩
      exact absurd rfl hq
  · rw [Cell.commit_of_ne fun v' hv => hl ⟨v', hv⟩]
    exact ⟨fun h => ⟨by rintro rfl; exact hl ⟨v, h⟩, h⟩, And.right⟩

/-- What the commit of a process that holds the row of the room leaves to be shown: what it makes of
the rows that other processes have read, of the rows of a DELETED room, and of what is owed. -/
theorem Inv.commit (I : Inv ρ k R F has φ) (hp : (φ p).drafts ≠ none)
    (hread : ∀ i key, (∀ r₀, R.committed = some r₀ → r₀.status ≠ .deleted →
        ∃ row : FileRow, (F i).committed = some row ∧ row.Of ρ key) →
      ∀ r₀, (R.commit p).committed = some r₀ → r₀.status ≠ .deleted →
        ∃ row : FileRow, ((F i).commit p).committed = some row ∧ row.Of ρ key)
    (hdeleted : ∀ r, (R.commit p).committed = some r → r.status = .deleted →
      ∀ i (row : FileRow), ((F i).commit p).committed = some row → row.room_id ≠ ρ)
    (hstored : Owed ρ k F φ → Owed ρ k (fun i => (F i).commit p) (Function.update φ p .idle)) :
    Inv ρ k (R.commit p) (fun i => (F i).commit p) has (Function.update φ p .idle) where
  -- The committer is done, and no other process has drafted the room.
  holder q s hs := by
    by_cases hq : q = p
    · rw [hq, Function.update_self] at hs
      cases hs
    · rw [Function.update_of_ne hq] at hs
      have hq' : (φ q).drafts ≠ none := fun h => by rw [h] at hs; cases hs
      exact absurd (I.holder_unique hp hq') hq
  recorded q := by
    by_cases hq : q = p
    · rw [hq, Function.update_self]
      trivial
    · rw [Function.update_of_ne hq]
      -- Another process has not drafted the room, so it is at a stage before the claim.
      have hnone : (φ q).drafts = none := by
        by_contra h
        exact hq (I.holder_unique hp h)
      have hrec := I.recorded q
      -- Its own record it has locked itself; one that it has read may be gone with the room.
      have hcell : ∀ r : Rec, r.Kept ρ q R F →
          r.Kept ρ q (R.commit p) fun i => (F i).commit p := by
        intro r h
        unfold Rec.Kept at h ⊢
        split_ifs at h ⊢ with hown
        · obtain ⟨row, hc, hof⟩ := h
          have hne : ∀ v, (F r.id).lock ≠ some (p, v) := by
            rw [hc]
            rintro v ⟨⟩
            exact hq rfl
          exact ⟨row, (Cell.commit_of_ne hne).trans hc, hof⟩
        · exact hread r.id r.key h
      cases hst : φ q with
      | ready r => rw [hst] at hrec; exact hcell r hrec
      | wrote r => rw [hst] at hrec; exact hcell r hrec
      | broken => rw [hst] at hrec; exact hrec.elim
      | idle => trivial
      | refused own =>
        rw [hst] at hrec
        rintro id hid
        obtain ⟨v, hc⟩ := hrec id hid
        exact ⟨v, (Cell.commit_of_ne (by rw [hc]; rintro v ⟨⟩; exact hq rfl)).trans hc⟩
      | _ => rw [hst] at hnone; cases hnone
  room q v hl := by
    obtain ⟨hq, hl⟩ := lock_commit_iff.1 hl
    exact absurd (I.holder_unique hp (I.room q v hl)) hq
  files i q v hl := by
    obtain ⟨hq, hl⟩ := lock_commit_iff.1 hl
    rw [Function.update_of_ne hq]
    exact I.files i q v hl
  deleted := hdeleted
  stored hh := hstored (I.stored hh)

/-- The commit of an upload publishes its record, which from then on stands for the object. -/
theorem Inv.publish (I : Inv ρ k R F has φ) {r : Rec} (hst : φ p = .confirmed r) :
    Inv ρ k (R.commit p) (fun i => (F i).commit p) has (Function.update φ p .idle) := by
  have hp : (φ p).drafts ≠ none := by rw [hst]; rintro ⟨⟩
  have hholder : Holder p .active R := I.holder p .active (by rw [hst]; rfl)
  obtain ⟨r₁, hlock, hactive⟩ := hholder.lock
  obtain ⟨r₀, hr₀, hlive, -⟩ := hholder.committed
  have hrec := I.recorded p
  rw [hst] at hrec
  obtain ⟨⟨row₁, hrow₁, hof₁⟩, hold⟩ := hrec
  -- Whatever row of the room was committed still is, with the same key.
  have hkeep : ∀ i key, (∃ row : FileRow, (F i).committed = some row ∧ row.Of ρ key) →
      ∃ row : FileRow, ((F i).commit p).committed = some row ∧ row.Of ρ key := by
    rintro i key ⟨row, hrow, hof⟩
    rw [Cell.committed_commit]
    by_cases hl : ∃ v, (F i).lock = some (p, v)
    · obtain ⟨v, hl⟩ := hl
      have hi : i = r.id := by
        have := I.files i p v hl
        rwa [hst] at this
      subst hi
      have hkey : key = r.key := hof.2.symm.trans (hold row hrow).2
      exact ⟨row₁, Cell.view_of_lock hrow₁, hkey ▸ hof₁⟩
    · exact ⟨row, (Cell.view_of_ne fun v hv => hl ⟨v, hv⟩).trans hrow, hof⟩
  refine I.commit hp (fun i key h _ _ _ => hkeep i key (h r₀ hr₀ hlive)) ?_ ?_
  · intro r' hr' hs
    rw [Cell.committed_commit, Cell.view_of_lock hlock] at hr'
    cases hr'
    rw [hactive] at hs
    cases hs
  · have hpast : ∀ q, ¬(Function.update φ p Stage.idle q).past k := by
      intro q hq
      by_cases hqp : q = p
      · rw [hqp, Function.update_self] at hq
        exact hq
      · rw [Function.update_of_ne hqp] at hq
        exact hqp (I.holder_unique hp (Stage.drafts_of_past hq))
    rintro (⟨q, hq⟩ | ⟨⟨i, key, hkey, hrow⟩, -⟩)
    · by_cases hqp : q = p
      · rw [hqp, hst] at hq
        refine .inr ⟨⟨r.id, r.key, hq, row₁, ?_, hof₁⟩, hpast⟩
        rw [Cell.committed_commit]
        exact Cell.view_of_lock hrow₁
      · exact .inl ⟨q, by rwa [Function.update_of_ne hqp]⟩
    · exact .inr ⟨⟨i, key, hkey, hkeep i key hrow⟩, hpast⟩

/-- The commit of a teardown leaves no record of the room. -/
theorem Inv.tearDown (I : Inv ρ k R F has φ) (hst : φ p = .marked) :
    Inv ρ k (R.commit p) (fun i => (F i).commit p) has (Function.update φ p .idle) := by
  have hp : (φ p).drafts ≠ none := by rw [hst]; rintro ⟨⟩
  obtain ⟨r₁, hlock, hdel⟩ := (I.holder p .deleted (by rw [hst]; rfl)).lock
  have hrec := I.recorded p
  rw [hst] at hrec
  refine I.commit hp ?_ ?_ ?_
  · intro i key _ r₀ hr₀ hlive
    rw [Cell.committed_commit, Cell.view_of_lock hlock] at hr₀
    cases hr₀
    exact absurd hdel hlive
  · intro r₀ _ _ i row hrow hρ
    rw [Cell.committed_commit] at hrow
    by_cases hl : ∃ v, (F i).lock = some (p, v)
    · obtain ⟨v, hl⟩ := hl
      have hv := I.files i p v hl
      rw [hst] at hv
      rw [Cell.view_of_lock hl] at hrow
      exact hv row hrow hρ
    · rw [Cell.view_of_ne fun v hv => hl ⟨v, hv⟩] at hrow
      exact hl ⟨none, hrec i row hrow hρ⟩
  · rintro (⟨q, hq⟩ | ⟨-, hpast⟩)
    · refine .inl ⟨q, ?_⟩
      by_cases hqp : q = p
      · rw [hqp, hst] at hq
        exact hq.elim
      · rwa [Function.update_of_ne hqp]
    · exact absurd (by rw [hst]; trivial) (hpast p)

/-! ## Every command keeps the invariant -/

/-- The invariant of a world. -/
abbrev WorldInv (ρ : ℕ) (k : Key) (w : World) (φ : ℕ → Stage) : Prop :=
  Inv ρ k (w.db.cell .rooms ρ) (w.db.cell .files) (k ∈ w.storage) φ

variable {w w' : World} {c : Cmd} {x : Except Err (Resp c)}

/-- A stage in which the process owes what it owed, and has listed no keys. -/
theorem HandsOn.of_owes (howes : st.owes k → t.owes k) (hpast : ¬t.past k) :
    HandsOn ρ k F st t := ⟨howes, fun h => absurd h hpast⟩

/-- A process that is in no transaction has locked nothing. -/
theorem Inv.unlocked (I : Inv ρ k R F has φ) (hd : (φ p).drafts = none)
    (hl : ∀ i v, ¬Locks ρ i v (φ p)) :
    (∀ v, R.lock ≠ some (p, v)) ∧ ∀ i v, (F i).lock ≠ some (p, v) :=
  ⟨fun v h => I.room p v h hd, fun i v h => hl i v (I.files i p v h)⟩

/-- A process that commits or rolls back where it has locked nothing. -/
theorem Inv.end_unlocked (I : WorldInv ρ k w φ) (hst : φ p = .idle)
    (hx : reliable.Answer p c w x w') (hc : c = .sql .commit ∨ c = .sql .rollback) :
    WorldInv ρ k w' (Function.update φ p .idle) := by
  have hstay : ∀ w' : World, w'.db.cell .rooms ρ = w.db.cell .rooms ρ →
      (∀ i, w'.db.cell .files i = w.db.cell .files i) → (k ∈ w'.storage → k ∈ w.storage) →
      WorldInv ρ k w' (Function.update φ p .idle) := by
    intro w' hr hf hh
    unfold WorldInv
    rw [hr, funext hf]
    refine I.stay (by rw [hst]) (fun _ => trivial) (fun i v h => ?_) fun h =>
      .inr ⟨hh h, .of_owes (fun h => ?_) id⟩
    · rw [hst] at h
      exact h
    · rw [hst] at h
      exact h
  have hfree := I.unlocked (p := p) (by rw [hst]; rfl) (fun i v h => by rw [hst] at h; exact h)
  rcases hc with rfl | rfl
  · rcases reliable_faithful.commit hx with ⟨-, rfl⟩ | ⟨e, -, rfl⟩
    · refine hstay _ ?_ (fun i => ?_) id
      · exact (Tables.cell_commit _ _).trans (Cell.commit_of_ne hfree.1)
      · exact (Tables.cell_commit _ _).trans (Cell.commit_of_ne (hfree.2 i))
    · exact hstay _ rfl (fun _ => rfl) id
  · obtain ⟨-, rfl⟩ := reliable_faithful.rollback hx
    refine hstay _ ?_ (fun i => ?_) id
    · exact (Tables.cell_rollback _ _).trans (Cell.rollback_of_ne hfree.1)
    · exact (Tables.cell_rollback _ _).trans (Cell.rollback_of_ne (hfree.2 i))

/-- A rollback of a process that owes nothing. -/
theorem Inv.rollback (I : WorldInv ρ k w φ)
    (howes : ¬(φ p).owes k) {y} (hx : reliable.Answer p (.sql .rollback) w y w') :
    WorldInv ρ k w' (Function.update φ p .idle) := by
  obtain ⟨-, rfl⟩ := reliable_faithful.rollback hx
  have hno : ∀ {α : Type} {cl : Cell α} {v : Option α}, (cl.rollback p).lock ≠ some (p, v) := by
    intro α cl v h
    by_cases hl : ∃ v', cl.lock = some (p, v')
    · obtain ⟨v', hl⟩ := hl
      rw [Cell.rollback_of_lock hl] at h
      cases h
    · rw [Cell.rollback_of_ne fun v' hv => hl ⟨v', hv⟩] at h
      exact hl ⟨v, h⟩
  refine I.move (p := p) ?_ (fun i => ?_) ?_ trivial (fun v h => ?_) (fun i v h => ?_)
    fun h => .inr ⟨h, .of_owes (fun h => absurd h howes) id⟩
  · rw [Tables.cell_rollback]
    exact .rollback _ _
  · rw [Tables.cell_rollback]
    exact .rollback _ _
  · rintro s ⟨⟩
  · rw [Tables.cell_rollback] at h
    exact absurd h hno
  · rw [Tables.cell_rollback] at h
    exact absurd h hno

/-- A write to the row of the room that its holder or nobody has locked. -/
theorem Inv.mark (I : WorldInv ρ k w φ) {u : RoomUpdate} {db : Db}
    (hu : w.db.updateAt p .rooms ρ u.applies u.set = some (true, db)) {s : RoomStatus}
    (hs : t.drafts = some s)
    (hstatus : ∀ r : RoomRow, u.applies r = true → (u.set r).status = s)
    (hlive : ∀ r : RoomRow, u.applies r = true → (φ p).drafts = none → r.status ≠ .deleted ∧
      (s = .active → r.status = .active))
    (hactive : (φ p).drafts ≠ none → s ≠ .active)
    (hrec : ∀ R', (R'.committed = (w.db.cell .rooms ρ).committed) →
      Recorded ρ p (w.db.cell .rooms ρ) (w.db.cell .files) (φ p) →
      Recorded ρ p R' (w.db.cell .files) t)
    (hlocks : ∀ i v, Locks ρ i v (φ p) → Locks ρ i v t)
    (hon : HandsOn ρ k (w.db.cell .files) (φ p) t) :
    WorldInv ρ k { w with db } (Function.update φ p t) := by
  rcases Tables.updateAt_cases hu with ⟨hb, -, -⟩ | ⟨-, r, hr, happ, hl, rfl⟩
  · cases hb
  have hroom : (w.db.setCell .rooms ρ ((w.db.cell .rooms ρ).write p (some (u.set r)))).cell
      .rooms ρ = (w.db.cell .rooms ρ).write p (some (u.set r)) :=
    Tables.cell_setCell_self (Tables.lt_length_of_get hr)
  have hfiles : ∀ i, (w.db.setCell .rooms ρ ((w.db.cell .rooms ρ).write p (some (u.set r)))).cell
      .files i = w.db.cell .files i := fun i => Tables.cell_setCell_of_table (by decide)
  unfold WorldInv
  dsimp only
  rw [hroom, funext hfiles]
  -- The process sees the committed room, unless it has drafted it already.
  have hcommitted : ∃ r₀, (w.db.cell .rooms ρ).committed = some r₀ ∧ r₀.status ≠ .deleted ∧
      (s = .active → r₀.status = .active) := by
    by_cases hd : (φ p).drafts = none
    · have hfree : ∀ v, (w.db.cell .rooms ρ).lock ≠ some (p, v) := fun v h => I.room p v h hd
      exact ⟨r, (Cell.view_of_ne hfree).symm.trans hr, hlive r happ hd⟩
    · obtain ⟨s₀, hs₀⟩ := Option.ne_none_iff_exists'.1 hd
      obtain ⟨r₀, hr₀, hne, -⟩ := (I.holder p s₀ hs₀).committed
      exact ⟨r₀, hr₀, hne, fun h => absurd h (hactive hd)⟩
  refine I.move (.write hl _) (fun i => .refl p _) ?_ (hrec _ rfl (I.recorded p)) ?_
    (fun i v h => hlocks i v (I.files i p v h)) fun h => .inr ⟨h, hon⟩
  · rw [hs]
    rintro s' ⟨⟩
    exact ⟨⟨_, rfl, hstatus r happ⟩, hcommitted⟩
  · intro v _
    rw [hs]
    rintro ⟨⟩

/-- The holder of the row of the room can go on to the next status. -/
theorem Inv.mark_applies (I : WorldInv ρ k w φ) {s : RoomStatus} (hs : (φ p).drafts = some s)
    {u : RoomUpdate} (hu : ∀ r : RoomRow, r.status = s → u.applies r = true) {b : Bool} {db : Db}
    (h : w.db.updateAt p .rooms ρ u.applies u.set = some (b, db)) : b = true := by
  obtain ⟨r, hl, hr⟩ := (I.holder p s hs).lock
  have hget : w.db.get p .rooms ρ = some r := Cell.view_of_lock hl
  rcases Tables.updateAt_cases h with ⟨-, -, hno⟩ | ⟨hb, -⟩
  · exact absurd ((hno r hget).symm.trans (hu r hr)) Bool.false_ne_true
  · exact hb

/-- A record that `_pending_session` finds is committed. -/
theorem Inv.find (I : WorldInv ρ k w φ) (hst : φ p = .idle) (where_ : ℕ → FileRow → Bool) :
    WorldInv ρ k w (Function.update φ p (found ρ (w.db.select p .files where_))) := by
  have hfree := (I.unlocked (p := p) (by rw [hst]; rfl)
    fun i v h => by rw [hst] at h; exact h).2
  have hidle : WorldInv ρ k w (Function.update φ p .idle) := by
    refine I.stay (by rw [hst]) (fun _ => trivial) (fun i v h => by rw [hst] at h; exact h)
      fun h => .inr ⟨h, .of_owes (fun h => by rw [hst] at h; exact h) id⟩
  unfold found
  split
  · next i row hrows =>
    split
    · next hρ =>
      have hmem : (i, row) ∈ w.db.select p .files where_ := hrows ▸ List.mem_cons_self
      have hrow := (Tables.mem_select.1 hmem).1
      refine I.stay (by rw [hst]; rfl) (fun _ r₀ _ _ => ⟨row, ?_, hρ, rfl⟩)
        (fun i v h => by rw [hst] at h; exact h.elim) fun h =>
        .inr ⟨h, .of_owes (fun h => by rw [hst] at h; exact h.elim) id⟩
      exact (Cell.view_of_ne (hfree i)).symm.trans hrow
    · exact hidle
  · exact hidle

/-- Inserting a record. -/
theorem Inv.insert (I : WorldInv ρ k w φ) (hst : φ p = .idle) {row : FileRow}
    (hrow : row.room_id = ρ) :
    WorldInv ρ k { w with db := (w.db.insert p .files row).2 }
      (Function.update φ p (.ready ⟨(w.db .files).length, row.storage_key, true⟩)) := by
  have hfree := I.unlocked (p := p) (by rw [hst]; rfl) fun i v h => by rw [hst] at h; exact h
  have hroom : (w.db.insert p .files row).2.cell .rooms ρ = w.db.cell .rooms ρ :=
    Tables.cell_insert_of_table (p := p) row (by decide : Table.rooms ≠ .files)
  have hnew : (w.db.insert p .files row).2.cell .files (w.db .files).length =
      ⟨none, some (p, some row)⟩ :=
    Tables.cell_insert_self (s := w.db) (p := p) (t := .files) row
  have hold : ∀ i, i ≠ (w.db .files).length →
      (w.db.insert p .files row).2.cell .files i = w.db.cell .files i := fun i hi =>
    Tables.cell_insert_of_ne (s := w.db) (p := p) (t := .files) row hi
  unfold WorldInv
  dsimp only
  rw [hroom]
  refine I.move (.refl p _) (fun i => ?_) (by rintro s ⟨⟩) ⟨row, hnew, hrow, rfl⟩
    (fun v h => absurd h (hfree.1 v)) (fun i v h => ⟨rfl, ?_⟩) fun h =>
    .inr ⟨h, .of_owes (fun h => ?_) fun h => h⟩
  · by_cases hi : i = (w.db .files).length
    · rw [hi, hnew, Tables.cell_length]
      exact .write rfl _
    · rw [hold i hi]
      exact .refl p _
  · by_contra hi
    rw [hold i hi] at h
    exact hfree.2 i v h
  · rw [hst] at h
    exact h.elim

/-- Confirming the record finds it as the stage says, since no other transaction has its row. -/
theorem Inv.confirm (I : WorldInv ρ k w φ) {r : Rec} (hst : φ p = .claimed r)
    {u : FileUpdate} (hset : ∀ row : FileRow, row.Of ρ r.key → (u.set row).Of ρ r.key) {b : Bool}
    {db : Db} (h : w.db.updateAt p .files r.id (fun _ => true) u.set = some (b, db)) :
    b = true ∧ WorldInv ρ k { w with db } (Function.update φ p (.confirmed r)) := by
  have hholder : Holder p .active (w.db.cell .rooms ρ) := I.holder p .active (by rw [hst]; rfl)
  have hrec := I.recorded p
  rw [hst] at hrec
  -- The record is there for the request, and every committed version has its key.
  have hrow : (∃ row, w.db.get p .files r.id = some row ∧ row.Of ρ r.key) ∧
      ∀ row, (w.db.cell .files r.id).committed = some row → row.Of ρ r.key := by
    obtain ⟨r₀, hr₀, hlive, -⟩ := hholder.committed
    change r.Kept _ _ _ _ at hrec
    unfold Rec.Kept at hrec
    split_ifs at hrec with hown
    · obtain ⟨row, hc, hof⟩ := hrec
      refine ⟨⟨row, Cell.view_of_lock (by rw [hc]), hof⟩, ?_⟩
      rw [hc]
      rintro row' ⟨⟩
    · obtain ⟨row, hc, hof⟩ := hrec r₀ hr₀ hlive
      refine ⟨⟨row, ?_, hof⟩, fun row' h => ?_⟩
      · refine (Cell.view_of_ne fun v hv => ?_).trans hc
        have hl := I.files r.id p v hv
        rw [hst] at hl
        exact hown hl.1
      · rw [hc] at h
        cases h
        exact hof
  obtain ⟨⟨row, hget, hof⟩, hcommitted⟩ := hrow
  rcases Tables.updateAt_cases h with ⟨-, -, hno⟩ | ⟨rfl, row', hget', -, hl, rfl⟩
  · exact absurd (hno row hget) Bool.true_eq_false.mp
  obtain rfl : row' = row := Option.some.inj (hget'.symm.trans hget)
  refine ⟨rfl, ?_⟩
  have hroom : (w.db.setCell .files r.id
      ((w.db.cell .files r.id).write p (some (u.set row')))).cell .rooms ρ =
      w.db.cell .rooms ρ := Tables.cell_setCell_of_table (by decide)
  have hnew := Tables.cell_setCell_self (c := (w.db.cell .files r.id).write p (some (u.set row')))
    (Tables.lt_length_of_get hget)
  have hold : ∀ i, i ≠ r.id → (w.db.setCell .files r.id
      ((w.db.cell .files r.id).write p (some (u.set row')))).cell .files i =
      w.db.cell .files i := fun i hi => Tables.cell_setCell_of_ne hi
  unfold WorldInv
  dsimp only
  rw [hroom]
  refine I.move (.refl p _) (fun i => ?_) ?_ ⟨⟨u.set row', ?_, hset row' hof⟩, ?_⟩
    (fun v _ h => nomatch h) (fun i v h => ?_) fun h => .inr ⟨h, .of_owes (fun h => ?_) id⟩
  · by_cases hi : i = r.id
    · rw [hi, hnew]
      exact .write hl _
    · rw [hold i hi]
      exact .refl p _
  · rintro s ⟨⟩
    exact hholder
  · rw [hnew]
    rfl
  · rw [hnew]
    exact hcommitted
  · by_contra hi
    rw [hold i hi] at h
    have hlock := I.files i p v h
    rw [hst] at hlock
    exact hi hlock.2
  · rw [hst] at h
    exact h

/-- A request that gives up deletes the record that it has inserted. -/
theorem Inv.drop (I : WorldInv ρ k w φ) {id n : ℕ} (hst : φ p = .refused (some id))
    {db : Db}
    (h : w.db.deleteWhere p .files (dialect.deletes (t := .files) (.byId id)) = some (n, db)) :
    WorldInv ρ k { w with db } (Function.update φ p (.refused (some id))) := by
  have hroom : db.cell .rooms ρ = w.db.cell .rooms ρ :=
    Sql.deleteWhere_cell_of_table h (by decide : Table.rooms ≠ .files)
  -- The one record that is deleted is the record of the process itself.
  have hcell : ∀ i, db.cell .files i = w.db.cell .files i ∨ i = id ∧
      (w.db.cell .files i).heldByOther p = false ∧
      db.cell .files i = (w.db.cell .files i).write p none := by
    intro i
    rcases Sql.deleteWhere_cell h i with ⟨hc, -⟩ | ⟨r, -, hw, hl, hc⟩
    · exact .inl hc
    · exact .inr ⟨eq_of_beq hw, hl, hc⟩
  have hrec := I.recorded p
  rw [hst] at hrec
  obtain ⟨v₀, hown⟩ := hrec id rfl
  unfold WorldInv
  dsimp only
  rw [hroom]
  refine I.move (.refl p _) (fun i => ?_) (by rintro s ⟨⟩) ?_ (fun v h => ?_)
    (fun i v h => ?_) fun h => .inr ⟨h, .of_owes (fun h => ?_) fun h => h⟩
  · rcases hcell i with hc | ⟨-, hl, hc⟩
    · rw [hc]
      exact .refl p _
    · rw [hc]
      exact .write hl _
  · rintro _ ⟨⟩
    rcases hcell id with hc | ⟨-, -, hc⟩
    · exact ⟨v₀, hc.trans hown⟩
    · exact ⟨none, by rw [hc, hown]; rfl⟩
  · exact absurd (I.room p v h) (by rw [hst]; exact fun h => h rfl)
  · rcases hcell i with hc | ⟨rfl, -, -⟩
    · rw [hc] at h
      have hlock := I.files i p v h
      rwa [hst] at hlock
    · rfl
  · rw [hst] at h
    exact h

/-- The keys that a teardown lists are those of all records of the room. -/
theorem Inv.list (I : WorldInv ρ k w φ) (hst : φ p = .deleting) :
    WorldInv ρ k w (Function.update φ p (.listed
      ((w.db.select p .files fun _ r => r.room_id == ρ).map fun r => r.2.storage_key))) := by
  refine I.stay (by rw [hst]; rfl) (fun _ => trivial) (fun i v h => by rw [hst] at h; exact h)
    fun h => .inr ⟨h, fun h => by rw [hst] at h; exact h, fun hpast => .inr ?_⟩
  intro i key row hkey hrow hof
  have hget : w.db.get p .files i = some row := by
    refine (Cell.view_of_ne fun v hv => ?_).trans hrow
    have hl := I.files i p v hv
    rw [hst] at hl
    exact hl
  have hmem : (i, row) ∈ w.db.select p .files fun _ r => r.room_id == ρ :=
    Tables.mem_select.2 ⟨hget, beq_iff_eq.2 hof.1⟩
  refine hpast row.storage_key (List.mem_map.2 ⟨(i, row), hmem, rfl⟩) ?_
  rw [hof.2]
  exact hkey

/-- The teardown deletes all records of the room that are committed. -/
theorem Inv.wipe (I : WorldInv ρ k w φ) (hst : φ p = .listed []) {n : ℕ} {db : Db}
    (h : w.db.deleteWhere p .files (dialect.deletes (t := .files) (.byRoom ρ)) = some (n, db)) :
    WorldInv ρ k { w with db } (Function.update φ p .wiped) := by
  have hroom : db.cell .rooms ρ = w.db.cell .rooms ρ :=
    Sql.deleteWhere_cell_of_table h (by decide : Table.rooms ≠ .files)
  -- The process has written no record before, so it sees the committed ones.
  have hfree : ∀ i v, (w.db.cell .files i).lock ≠ some (p, v) := by
    intro i v hv
    have hl := I.files i p v hv
    rw [hst] at hl
    exact hl
  -- Those of the room are gone now, as far as it is concerned.
  have hcell := Sql.deleteWhere_cell h
  unfold WorldInv
  dsimp only
  rw [hroom]
  refine I.move (.refl p _) (fun i => ?_) ?_ (fun i row hrow hρ => ?_)
    (fun v _ h => nomatch h) (fun i v h => ?_) fun h =>
    .inr ⟨h, fun h => by rw [hst] at h; exact h, fun _ => .inl ?_⟩
  · rcases hcell i with ⟨hc, -⟩ | ⟨r, -, -, hl, hc⟩
    · rw [hc]
      exact .refl p _
    · rw [hc]
      exact .write hl _
  · have hholder := I.holder p .deleting (by rw [hst]; rfl)
    rintro s ⟨⟩
    exact hholder
  · rcases hcell i with ⟨hc, hkept⟩ | ⟨r, -, -, -, hc⟩
    · rw [hc] at hrow
      have hno := hkept row ((Cell.view_of_ne (hfree i)).trans hrow)
      exact absurd (beq_iff_eq.2 hρ) (Bool.eq_false_iff.1 hno)
    · rw [hc]
      rfl
  · rcases hcell i with ⟨hc, -⟩ | ⟨r, -, -, -, hc⟩
    · rw [hc] at h
      exact absurd h (hfree i v)
    · rw [hc] at h
      cases h
      rintro row ⟨⟩
  · rw [hst]
    intro key hkey
    cases hkey

/-- A command that touches no row, stores nothing and leaves the stage. -/
theorem Inv.same (I : WorldInv ρ k w φ) (hst : t = φ p)
    (hr : w'.db.cell .rooms ρ = w.db.cell .rooms ρ)
    (hf : ∀ i, w'.db.cell .files i = w.db.cell .files i) (hh : k ∈ w'.storage → k ∈ w.storage) :
    WorldInv ρ k w' (Function.update φ p t) := by
  rw [hst, Function.update_eq_self]
  unfold WorldInv
  rw [hr, funext hf]
  exact ⟨I.holder, I.recorded, I.room, I.files, I.deleted, fun h => I.stored (hh h)⟩

/-- A command that reads, or writes no row that matters, and leaves the stage. -/
theorem Inv.quiet (I : WorldInv ρ k w φ) (hx : reliable.Answer p c w x w') (hst : t = φ p)
    (hs : ∀ i, c.Spares .rooms ρ ∧ c.Spares .files i) (hstores : ¬c.Stores) :
    WorldInv ρ k w' (Function.update φ p t) :=
  I.same hst (reliable_faithful.cell_of_spares hx (hs 0).1)
    (fun i => reliable_faithful.cell_of_spares hx (hs i).2) fun h => by
      rwa [reliable_faithful.storage_eq hx hstores] at h

/-- Deleting an object leaves the others, and not that one. -/
theorem mem_of_delete {key : Key} (h : k ∈ w.storage.erase key) : key ≠ k ∧ k ∈ w.storage :=
  have hk := AList.mem_erase.1 h
  ⟨hk.1.symm, hk.2⟩

/-- The stage after a command that leads to it in any case. -/
theorem next_eq (hok : ∀ a, after ρ st c a = t) (herr : failed st c = t) : next ρ st c x = t := by
  cases x with
  | error e => exact herr
  | ok a => exact hok a

/-- A process in no transaction reads, draws a key, finds a record, or ends its session. -/
theorem Inv.step_look (I : WorldInv ρ k w φ) (hst : φ p = .idle)
    (hc : Issued env [.close, .commit, .tellSettings] c) (hx : reliable.Answer p c w x w') :
    WorldInv ρ k w' (Function.update φ p (next ρ .idle c x)) := by
  cases hc with
  | select t where_ =>
    obtain ⟨rows, db, hq, rfl, rfl⟩ := reliable_sql hx
    cases hq
    cases t with
    | files => exact I.find hst where_
    | _ => exact I.same hst.symm rfl (fun _ => rfl) fun h => h
  | close =>
    rw [next_eq (t := .idle) (fun _ => rfl) rfl]
    exact I.end_unlocked hst hx (.inr rfl)
  | commit =>
    rw [next_eq (t := .idle) (fun _ => rfl) rfl]
    exact I.end_unlocked hst hx (.inl rfl)
  | _ =>
    first
    | exact I.quiet hx ((next_eq (fun _ => rfl) rfl).trans hst.symm)
        (fun _ => ⟨trivial, trivial⟩) fun h => h
    | exact absurd ‹_ ∈ [Kind.close, Kind.commit, Kind.tellSettings]› (by decide)

/-- The first `UPDATE` of a teardown: it marks the room, or nothing happens. -/
theorem Inv.step_begin (I : WorldInv ρ k w φ) (hst : φ p = .idle) {u : RoomUpdate}
    (hu : u = .markExpired ∨ u = .markDeleting)
    {x : Except Err (Resp (.sql (.updateAt .rooms ρ u)))}
    (hx : reliable.Answer p (.sql (.updateAt .rooms ρ u)) w x w') :
    WorldInv ρ k w' (Function.update φ p (next ρ .idle (.sql (.updateAt .rooms ρ u)) x)) := by
  have hon : ∀ t, ¬Stage.past k t → HandsOn ρ k (w.db.cell .files) (φ p) t := fun t ht =>
    .of_owes (fun h => by rw [hst] at h; exact h.elim) ht
  obtain ⟨b, db, hq, rfl, rfl⟩ := reliable_sql hx
  cases b with
  | false =>
    rcases Tables.updateAt_cases hq with ⟨-, rfl, -⟩ | ⟨hb, -⟩
    · exact I.same hst.symm rfl (fun _ => rfl) fun h => h
    · cases hb
  | true =>
    rcases hu with rfl | rfl
    · refine I.mark (u := .markExpired) hq (s := .expired) rfl (fun _ _ => rfl) (fun r hr _ => ?_)
        (fun h => absurd (by rw [hst]; rfl) h) (fun _ _ _ => trivial)
        (fun i v h => by rw [hst] at h; exact h) (hon _ fun h => h)
      have hs : r.status = .active := eq_of_beq hr
      exact ⟨by rw [hs]; decide, fun h => absurd h (by decide)⟩
    · refine I.mark (u := .markDeleting) hq (s := .deleting) rfl (fun _ _ => rfl) (fun r hr _ => ?_)
        (fun h => absurd (by rw [hst]; rfl) h) (fun _ _ _ => trivial)
        (fun i v h => by rw [hst] at h; exact h) (hon _ fun h => h)
      have hs : r.status = .expired := eq_of_beq hr
      exact ⟨by rw [hs]; decide, fun h => absurd h (by decide)⟩

/-- A process in no transaction that matters. -/
theorem Inv.step_idle (I : WorldInv ρ k w φ) (hst : φ p = .idle) (ha : Allowed env ρ .idle c)
    (hx : reliable.Answer p c w x w') :
    WorldInv ρ k w' (Function.update φ p (next ρ .idle c x)) := by
  cases ha with
  | look hc => exact I.step_look hst hc hx
  | newFile hrow =>
    obtain ⟨i, db, hq, rfl, rfl⟩ := reliable_sql hx
    cases hq
    exact I.insert hst hrow
  | markExpired => exact I.step_begin hst (.inl rfl) hx
  | markDeleting => exact I.step_begin hst (.inr rfl) hx

/-- A process that has its record and no object yet. -/
theorem Inv.step_ready (I : WorldInv ρ k w φ) {r : Rec} (hst : φ p = .ready r)
    (ha : Allowed env ρ (.ready r) c) (hx : reliable.Answer p c w x w') :
    WorldInv ρ k w' (Function.update φ p (next ρ (.ready r) c x)) := by
  have hnone : ¬(φ p).owes k := fun h => by rw [hst] at h; exact h
  cases ha with
  | listParts =>
    cases reliable_exec hx
    exact I.same hst.symm rfl (fun _ => rfl) fun h => h
  | readPart =>
    cases reliable_exec hx
    exact I.same hst.symm rfl (fun _ => rfl) fun h => h
  | write _ data =>
    cases data with
    | error e =>
      cases reliable_exec hx
      exact I.same hst.symm rfl (fun _ => rfl) fun h => h
    | ok data =>
      cases reliable_exec hx
      refine I.stay (t := .wrote r) (by rw [hst]; rfl) (fun h => by rw [hst] at h; exact h)
        (fun i v h => by rw [hst] at h; exact h) fun h => ?_
      -- Either the object is the one that was written, or it was there before.
      rcases AList.mem_insert _ |>.1 h with hk | hk
      · exact .inl hk.symm
      · exact .inr ⟨hk, .of_owes (fun h => absurd h hnone) fun h => h⟩
  | giveUp hown =>
    cases reliable_exec hx
    refine I.stay (t := .refused (some r.id)) (by rw [hst]; rfl) (fun h => ?_) (fun i v h => ?_)
      fun h => .inr ⟨(mem_of_delete h).2, .of_owes (fun h => absurd h hnone) fun h => h⟩
    · rw [hst] at h
      obtain ⟨row, hc, -⟩ := (if_pos hown).mp h
      rintro _ ⟨⟩
      exact ⟨some row, hc⟩
    · rw [hst] at h
      exact congrArg some h.2.symm
  | leave =>
    rw [next_eq (t := .idle) (fun _ => rfl) rfl]
    exact I.rollback hnone hx

/-- A process that has written its object claims the quota, or deletes the object. -/
theorem Inv.step_wrote (I : WorldInv ρ k w φ) {r : Rec} (hst : φ p = .wrote r)
    (ha : Allowed env ρ (.wrote r) c) (hx : reliable.Answer p c w x w') :
    WorldInv ρ k w' (Function.update φ p (next ρ (.wrote r) c x)) := by
  cases ha with
  | readBack =>
    cases reliable_exec hx
    exact I.same hst.symm rfl (fun _ => rfl) fun h => h
  -- The object is deleted: nothing is owed.
  | undo =>
    cases reliable_exec hx
    refine I.stay (t := .refused (if r.own then some r.id else none)) (by rw [hst]; rfl)
      (fun h => ?_) (fun i v h => ?_) fun h => .inr ⟨(mem_of_delete h).2, .of_owes
        (fun ho => by rw [hst] at ho; exact absurd ho (mem_of_delete h).1) fun h => h⟩
    · rw [hst] at h
      change r.Kept _ _ _ _ at h
      intro id hid
      unfold Rec.Kept at h
      split_ifs at h hid with hown
      · cases hid
        obtain ⟨row, hc, -⟩ := h
        exact ⟨some row, hc⟩
      · cases hid
    · rw [hst] at h
      change (if r.own then some r.id else none) = some i
      rw [if_pos h.1, h.2]
  -- The claim applies to an active room only, which it holds from now on.
  | claim _ n =>
    obtain ⟨b, db, hq, rfl, rfl⟩ := reliable_sql hx
    cases b with
    | false =>
      rcases Tables.updateAt_cases hq with ⟨-, rfl, -⟩ | ⟨hb, -⟩
      · exact I.same hst.symm rfl (fun _ => rfl) fun h => h
      · cases hb
    | true =>
      have hactive : ∀ r : RoomRow, (RoomUpdate.claimQuota n env.max_files_per_room
          env.max_room_storage_bytes).applies r = true → r.status = .active := by
        intro r hr
        simp only [RoomUpdate.applies, Bool.and_eq_true] at hr
        exact eq_of_beq hr.1.1
      refine I.mark (u := .claimQuota n env.max_files_per_room env.max_room_storage_bytes) hq
        (s := .active) rfl (fun r hr => hactive r hr) (fun r hr _ => ?_)
        (fun h => absurd (by rw [hst]; rfl) h) (fun R' hR' h => ?_)
        (fun i v h => by rw [hst] at h; exact h)
        (.of_owes (fun h => by rw [hst] at h; exact h) fun h => h)
      · rw [hactive r hr]
        exact ⟨by decide, fun _ => rfl⟩
      · rw [hst] at h
        change r.Kept _ _ _ _ at h
        change r.Kept _ _ _ _
        unfold Rec.Kept at h ⊢
        rwa [hR']

/-- A process that has claimed the quota confirms its record. -/
theorem Inv.step_claimed (I : WorldInv ρ k w φ) {r : Rec} (hst : φ p = .claimed r)
    (ha : Allowed env ρ (.claimed r) c) (hx : reliable.Answer p c w x w') :
    WorldInv ρ k w' (Function.update φ p (next ρ (.claimed r) c x)) := by
  cases ha with
  | confirm _ loaded new =>
    obtain ⟨b, db, hq, rfl, rfl⟩ := reliable_sql hx
    obtain ⟨rfl, hI⟩ := I.confirm hst (u := .flush loaded new) (fun row hof => hof) hq
    exact hI

/-- A process that has confirmed its record publishes it. -/
theorem Inv.step_confirmed (I : WorldInv ρ k w φ) {r : Rec} (hst : φ p = .confirmed r)
    (ha : Allowed env ρ (.confirmed r) c) (hx : reliable.Answer p c w x w') :
    WorldInv ρ k w' (Function.update φ p (next ρ (.confirmed r) c x)) := by
  cases ha with
  | audit hevent =>
    obtain ⟨i, db, hq, rfl, rfl⟩ := reliable_sql hx
    exact I.quiet hx hst.symm (fun _ => ⟨Table.noConfusion, Table.noConfusion⟩) fun h => h
  | deletePart =>
    cases reliable_exec hx
    exact I.same hst.symm rfl (fun _ => rfl) fun h => (mem_of_delete h).2
  | publish =>
    obtain ⟨u, db, hq, rfl, rfl⟩ := reliable_sql hx
    cases hq
    have hI := I.publish hst
    unfold WorldInv
    dsimp only
    rw [Tables.cell_commit, funext (Tables.cell_commit (s := w.db) (p := p) .files)]
    exact hI

/-- A process that has given up deletes what it has written. -/
theorem Inv.step_refused (I : WorldInv ρ k w φ) {own : Option ℕ} (hst : φ p = .refused own)
    (ha : Allowed env ρ (.refused own) c) (hx : reliable.Answer p c w x w') :
    WorldInv ρ k w' (Function.update φ p (next ρ (.refused own) c x)) := by
  cases ha with
  | deleteRest =>
    cases reliable_exec hx
    exact I.same hst.symm rfl (fun _ => rfl) fun h => (mem_of_delete h).2
  | dropRecord id =>
    obtain ⟨n, db, hq, rfl, rfl⟩ := reliable_sql hx
    exact I.drop hst hq
  | refuse =>
    rw [next_eq (t := .idle) (fun _ => rfl) rfl]
    exact I.rollback (fun h => by rw [hst] at h; exact h) hx

/-- A teardown that has marked the room as EXPIRED marks it as DELETING. -/
theorem Inv.step_expired (I : WorldInv ρ k w φ) (hst : φ p = .expired)
    (ha : Allowed env ρ .expired c) (hx : reliable.Answer p c w x w') :
    WorldInv ρ k w' (Function.update φ p (next ρ .expired c x)) := by
  cases ha with
  | goOn =>
    obtain ⟨b, db, hq, rfl, rfl⟩ := reliable_sql hx
    obtain rfl := I.mark_applies (s := .expired) (by rw [hst]; rfl)
      (u := .markDeleting) (fun r hr => beq_iff_eq.2 hr) hq
    exact I.mark (u := .markDeleting) hq (s := .deleting) rfl (fun _ _ => rfl)
      (fun r hr h => by rw [hst] at h; cases h) (fun _ => by decide) (fun _ _ _ => trivial)
      (fun i v h => by rw [hst] at h; exact h)
      (.of_owes (fun h => by rw [hst] at h; exact h) fun h => h)

/-- A teardown that has marked the room as DELETING lists the keys. -/
theorem Inv.step_deleting (I : WorldInv ρ k w φ) (hst : φ p = .deleting)
    (ha : Allowed env ρ .deleting c) (hx : reliable.Answer p c w x w') :
    WorldInv ρ k w' (Function.update φ p (next ρ .deleting c x)) := by
  cases ha with
  | list =>
    obtain ⟨rows, db, hq, rfl, rfl⟩ := reliable_sql hx
    cases hq
    exact I.list hst

/-- A teardown that has listed the keys deletes the objects, and then the records. -/
theorem Inv.step_listed (I : WorldInv ρ k w φ) {todo : List Uuid} (hst : φ p = .listed todo)
    (ha : Allowed env ρ (.listed todo) c) (hx : reliable.Answer p c w x w') :
    WorldInv ρ k w' (Function.update φ p (next ρ (.listed todo) c x)) := by
  cases ha with
  | deleteListed key todo =>
    cases reliable_exec hx
    refine I.stay (t := .listed todo) (by rw [hst]; rfl) (fun _ => trivial)
      (fun i v h => by rw [hst] at h; exact h) fun h => .inr ⟨(mem_of_delete h).2, ?_⟩
    rw [hst]
    refine ⟨fun h => h, fun hpast => .inl fun key' hkey => ?_⟩
    rcases List.mem_cons.1 hkey with rfl | hkey
    · exact (mem_of_delete h).1
    · exact hpast key' hkey
  | dropRecords =>
    obtain ⟨n, db, hq, rfl, rfl⟩ := reliable_sql hx
    exact I.wipe hst hq

/-- A teardown that has deleted the records deletes the other rows, and marks the room as DELETED. -/
theorem Inv.step_wiped (I : WorldInv ρ k w φ) (hst : φ p = .wiped) (ha : Allowed env ρ .wiped c)
    (hx : reliable.Answer p c w x w') :
    WorldInv ρ k w' (Function.update φ p (next ρ .wiped c x)) := by
  cases ha with
  | @dropRows t d ht =>
    obtain ⟨n, db, hq, rfl, rfl⟩ := reliable_sql hx
    have hrooms : t ≠ .rooms := by
      rintro rfl
      exact d.elim
    exact I.quiet hx hst.symm (fun _ => ⟨hrooms, ht⟩) fun h => h
  | markDeleted =>
    obtain ⟨b, db, hq, rfl, rfl⟩ := reliable_sql hx
    obtain rfl := I.mark_applies (s := .deleting) (by rw [hst]; rfl)
      (u := .markDeleted) (fun r hr => beq_iff_eq.2 hr) hq
    refine I.mark (u := .markDeleted) hq (s := .deleted) rfl (fun _ _ => rfl)
      (fun r hr h => by rw [hst] at h; cases h) (fun _ => by decide)
      (fun _ _ h => by rw [hst] at h; exact h) (fun i v h => by rw [hst] at h; exact h) ?_
    rw [hst]
    exact ⟨fun h => h, fun _ => .inl trivial⟩

/-- A teardown that has marked the room as DELETED commits. -/
theorem Inv.step_marked (I : WorldInv ρ k w φ) (hst : φ p = .marked) (ha : Allowed env ρ .marked c)
    (hx : reliable.Answer p c w x w') :
    WorldInv ρ k w' (Function.update φ p (next ρ .marked c x)) := by
  cases ha with
  | tearDown =>
    obtain ⟨u, db, hq, rfl, rfl⟩ := reliable_sql hx
    cases hq
    have hI := I.tearDown hst
    unfold WorldInv
    dsimp only
    rw [Tables.cell_commit, funext (Tables.cell_commit (s := w.db) (p := p) .files)]
    exact hI

/-- Every command keeps the invariant. -/
theorem Inv.step (I : WorldInv ρ k w φ) (ha : Allowed env ρ (φ p) c)
    (hx : reliable.Answer p c w x w') :
    WorldInv ρ k w' (Function.update φ p (next ρ (φ p) c x)) := by
  cases hst : φ p with
  | idle => rw [hst] at ha; exact I.step_idle hst ha hx
  | ready r => rw [hst] at ha; exact I.step_ready hst ha hx
  | wrote r => rw [hst] at ha; exact I.step_wrote hst ha hx
  | claimed r => rw [hst] at ha; exact I.step_claimed hst ha hx
  | confirmed r => rw [hst] at ha; exact I.step_confirmed hst ha hx
  | refused own => rw [hst] at ha; exact I.step_refused hst ha hx
  | expired => rw [hst] at ha; exact I.step_expired hst ha hx
  | deleting => rw [hst] at ha; exact I.step_deleting hst ha hx
  | listed todo => rw [hst] at ha; exact I.step_listed hst ha hx
  | wiped => rw [hst] at ha; exact I.step_wiped hst ha hx
  | marked => rw [hst] at ha; exact I.step_marked hst ha hx
  | broken =>
    have hrec := I.recorded p
    rw [hst] at hrec
    exact hrec.elim

/-! ## Foreign keys and deadlocks -/

/-- A record that is refused is not there; the room of an audit event is. -/
theorem Inv.refuse (I : WorldInv ρ k w φ) {t : Table} {r : Row t}
    (ha : Allowed env ρ (φ p) (.sql (.insert t r))) {y : Table × ℕ}
    (hy : y ∈ references.targets r) (hnone : w.db.get p y.1 y.2 = none) :
    WorldInv ρ k w (Function.update φ p (failed (φ p) (.sql (.insert t r)))) := by
  cases hst : φ p with
  | idle => exact I.same hst.symm rfl (fun _ => rfl) fun h => h
  | confirmed r =>
    rw [hst] at ha
    cases ha with
    | @audit _ event hevent =>
      have hroom : y ∈ event.room_id.toList.map fun i => (Table.rooms, i) := hy
      rw [hevent] at hroom
      obtain rfl := List.mem_singleton.1 hroom
      obtain ⟨row, hl, -⟩ := (I.holder p .active (by rw [hst]; rfl)).lock
      exact absurd ((Cell.view_of_lock hl).symm.trans hnone) (Option.some_ne_none _)
  | broken =>
    have hrec := I.recorded p
    rw [hst] at hrec
    exact hrec.elim
  | _ => rw [hst] at ha; cases ha

/-- Only a teardown that has deleted the records deletes sessions. -/
theorem wiped_of_deleteSessions {d : Del .sessions}
    (ha : Allowed env ρ st (.sql (.deleteWhere .sessions d))) : st = .wiped ∨ st = .broken := by
  cases ha with
  | look hc =>
    cases hc with
    | dropSessions hd => exact absurd hd (by decide)
  | dropRows => exact .inl rfl
  | broken => exact .inr rfl

/-- The references to the sessions that a teardown deletes are those of records of other rooms, since
it has deleted the records of its own. -/
theorem Inv.unlink (I : WorldInv ρ k w φ) (hst : φ p = .wiped) {hit : Table → ℕ → Bool} {db : Db}
    (hs : references.nullify p hit (references.referring .sessions) w.db = some db) :
    WorldInv ρ k { w with db } φ := by
  have hrec := I.recorded p
  rw [hst] at hrec
  have hroom : db.cell .rooms ρ = w.db.cell .rooms ρ := by
    rcases nullify_cases hs .rooms ρ with hsame | ⟨ht, -⟩
    · exact hsame
    · exact absurd ht (by decide)
  -- The files that the process still sees are those of other rooms.
  have hother : ∀ i (r : FileRow), w.db.get p .files i = some r → r.room_id ≠ ρ := by
    intro i r hr hρ
    by_cases hl : ∃ v, (w.db.cell .files i).lock = some (p, v)
    · obtain ⟨v, hl⟩ := hl
      have hlock := I.files i p v hl
      rw [hst] at hlock
      exact hlock r ((Cell.view_of_lock hl).symm.trans hr) hρ
    · have hc := (Cell.view_of_ne fun v hv => hl ⟨v, hv⟩).symm.trans hr
      exact hl ⟨none, hrec i r hc hρ⟩
  -- The statement sets their `uploaded_by`, and keeps the room.
  have hcell := nullify_cases hs .files
  rw [← Function.update_eq_self p φ, hst]
  unfold WorldInv
  dsimp only
  rw [hroom]
  refine I.move (.refl p _) (fun i => ?_) ?_ (fun i row hrow hρ => ?_) (fun v _ h => nomatch h)
    (fun i v h => ?_) fun h => .inr ⟨h, ?_⟩
  · rcases hcell i with hsame | ⟨-, r, r', -, -, hl, hc⟩
    · rw [hsame]
      exact .refl p _
    · rw [hc]
      exact .write hl _
  · have hholder := I.holder p .deleting (by rw [hst]; rfl)
    rintro s ⟨⟩
    exact hholder
  · rcases hcell i with hsame | ⟨-, r, r', hr, -, -, hc⟩
    · rw [hsame] at hrow ⊢
      exact hrec i row hrow hρ
    · rw [hc] at hrow
      have hnone := Cell.view_of_lock (hrec i row hrow hρ)
      exact absurd (hr.symm.trans hnone) (Option.some_ne_none _)
  · rcases hcell i with hsame | ⟨-, r, r', hr, hkept, -, hc⟩
    · rw [hsame] at h
      have hlock := I.files i p v h
      rwa [hst] at hlock
    · rw [hc] at h
      cases h
      rintro _ ⟨⟩ hρ
      exact hother i r hr (Option.some.inj (hkept.symm.trans (congrArg some hρ)))
  · rw [hst]
    exact ⟨fun h => h, fun _ => .inl trivial⟩

/-- Every command keeps the invariant, where the database has its foreign keys. -/
theorem Inv.done (I : WorldInv ρ k w φ) (ha : Allowed env ρ (φ p) c) (hx : Done p w c x w') :
    WorldInv ρ k w' (Function.update φ p (next ρ (φ p) c x)) := by
  cases hx with
  | plain h => exact I.step ha h
  | refused hy hnone => exact I.refuse ha hy hnone
  | @released t d n w₁ db hit h hs =>
    have hI := I.step ha h
    by_cases ht : t = .sessions
    · subst ht
      have hst : φ p = .wiped := by
        rcases wiped_of_deleteSessions ha with hst | hst
        · exact hst
        · have hrec := I.recorded p
          rw [hst] at hrec
          exact hrec.elim
      refine hI.unlink (p := p) ?_ hs
      rw [Function.update_self, hst]
      rfl
    · have hnone : references.referring t = [] := by
        cases t with
        | sessions => exact absurd rfl ht
        | _ => rfl
      rw [hnone] at hs
      cases hs
      exact hI

/-- No other transaction has locked the record of a request that has claimed the quota. -/
theorem Inv.unheld (I : Inv ρ k R F has φ) {r : Rec} (hst : φ p = .claimed r) :
    (F r.id).heldByOther p = false := by
  have hp : (φ p).drafts ≠ none := by rw [hst]; rintro ⟨⟩
  have hrec := I.recorded p
  rw [hst] at hrec
  obtain ⟨r₀, hr₀, hlive, -⟩ := (I.holder p .active (by rw [hst]; rfl)).committed
  rw [Cell.heldByOther_eq_false]
  cases hl : (F r.id).lock with
  | none => exact .inl rfl
  | some a =>
    obtain ⟨q, v⟩ := a
    refine .inr ⟨v, ?_⟩
    have hlock := I.files r.id q v hl
    have hq := I.recorded q
    -- Whoever has inserted the record is the request itself, and whoever holds the room is, too.
    have hmine : (F r.id).committed = none → q = p := by
      intro hnone
      change r.Kept _ _ _ _ at hrec
      unfold Rec.Kept at hrec
      split_ifs at hrec with hown
      · obtain ⟨row, hc, -⟩ := hrec
        rw [hc] at hl
        cases hl
        rfl
      · obtain ⟨row, hc, -⟩ := hrec r₀ hr₀ hlive
        exact absurd (hc.symm.trans hnone) (Option.some_ne_none _)
    have hkept : ∀ r' : Rec, r'.Kept ρ q R F → r'.own = true ∧ r.id = r'.id → q = p := by
      rintro r' hkept ⟨hown, hid⟩
      obtain ⟨row, hc, -⟩ := (if_pos hown).mp hkept
      exact hmine (by rw [hid, hc])
    have hqp : q = p := by
      cases hstage : φ q with
      | ready r' => rw [hstage] at hlock hq; exact hkept r' hq hlock
      | wrote r' => rw [hstage] at hlock hq; exact hkept r' hq hlock
      | claimed r' => rw [hstage] at hlock hq; exact hkept r' hq hlock
      | refused own =>
        rw [hstage] at hlock hq
        obtain ⟨v', hc⟩ := hq r.id hlock
        exact hmine (by rw [hc])
      | confirmed r' => exact I.holder_unique hp (by rw [hstage]; rintro ⟨⟩)
      | wiped => exact I.holder_unique hp (by rw [hstage]; rintro ⟨⟩)
      | marked => exact I.holder_unique hp (by rw [hstage]; rintro ⟨⟩)
      | _ => rw [hstage] at hlock; exact hlock.elim
    rw [hqp]

/-- An abort keeps the invariant, unless the process has an object and is about to claim the quota: a
process that has claimed it waits for nothing any more, and the others owe no object. -/
theorem Inv.abort {w : KeyedWorld} (I : WorldInv ρ k w.world φ) (ha : Allowed env ρ (φ p) c)
    (hc : ¬c.Claims) (hw : keyed.exec p c w = none) :
    WorldInv ρ k (deadlocks.abort p w).world (Function.update φ p (failed (φ p) c)) := by
  -- An attempt that owes no object can be rolled back at any point.
  have hroll : ¬(φ p).owes k →
      WorldInv ρ k (deadlocks.abort p w).world (Function.update φ p .idle) := fun h =>
    I.rollback h (reliable_of_exec (q := .rollback) rfl)
  cases hst : φ p with
  | idle => exact hroll (by rw [hst]; exact fun h => h)
  -- Only the claim waits, and that is excluded.
  | wrote r =>
    rw [hst] at ha
    cases ha with
    | readBack => exact absurd hw (Option.some_ne_none _)
    | undo => exact absurd hw (Option.some_ne_none _)
    | claim => exact absurd trivial hc
  -- The record is its own, or nobody holds it: the statement does not wait.
  | claimed r =>
    rw [hst] at ha
    cases ha with
    | confirm =>
      rcases keyed_waits hw with h | ⟨q, h, hq⟩
      · cases h
      · cases h
        exact absurd (Keyed.heldByOther_of_exec_updateAt hq)
          (Bool.eq_false_iff.1 (I.unheld hst))
  | confirmed r =>
    rw [hst] at ha
    cases ha with
    -- The event refers to the room, which the process has locked itself.
    | @audit _ event hevent =>
      rcases keyed_waits hw with h | ⟨q, h, hq⟩
      · cases h
      · cases h
        obtain ⟨y, hy, hleaving⟩ := Keyed.leaving_of_exec_insert hq
        have hroom : y ∈ event.room_id.toList.map fun i => (Table.rooms, i) := hy
        rw [hevent] at hroom
        obtain rfl := List.mem_singleton.1 hroom
        obtain ⟨row, hl, -⟩ := (I.holder p .active (by rw [hst]; rfl)).lock
        simp [Cell.leaving, hl] at hleaving
    | deletePart => exact absurd hw (Option.some_ne_none _)
    | publish => exact absurd hw (Option.some_ne_none _)
  | broken =>
    have hrec := I.recorded p
    rw [hst] at hrec
    exact hrec.elim
  | _ =>
    rcases keyed_waits hw with rfl | ⟨q, rfl, -⟩
    · rw [hst] at ha
      cases ha
    · exact hroll (by rw [hst]; exact fun h => h)

end

end latecomer

end DropRoom
