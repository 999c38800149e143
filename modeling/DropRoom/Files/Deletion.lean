import DropRoom.App.Footprint
import DropRoom.Effect.Tally
import Mathlib.Tactic.Ring

/-!
# Concurrent deletions of one file

`delete_file` reads the status of a file in one statement, and marks it deleted and lowers the
counters of its room by later statements that look at no status. So every request that has read the
file as CONFIRMED lowers the counters, and the counters have fallen by as many files as such
requests.

The monitor follows one request. The invariant counts the requests that are committed, and says who
holds the rows of the file and of its room. A run lowers the counters exactly once if and only if
it is `careful`: each request reads the file only while no other request that has read it as
CONFIRMED is still under way.
-/

namespace DropRoom

open Effect Store

namespace deletion

/-- A confirmed file with the row of its room. -/
structure Target where
  file : ℕ
  row : FileRow
  roomRow : RoomRow
  confirmed : row.status = .confirmed

namespace Target

variable (t : Target)

/-- The file once it is marked deleted. -/
def deletedRow : FileRow := { t.row with status := .deleted }

/-- The room once its counters were lowered `k` times. -/
def after (k : ℕ) : RoomRow := { t.roomRow with
  storage_used_bytes := t.roomRow.storage_used_bytes - k * t.row.size_bytes
  file_count := t.roomRow.file_count - k }

/-- The update that lowers the counters. -/
def release : RoomUpdate := .addStorageAndFiles (-t.row.size_bytes) (-1)

/-- The deleted record differs from the confirmed one. -/
theorem deletedRow_ne : t.deletedRow ≠ t.row := by
  intro h
  have hs := congrArg FileRow.status h
  rw [t.confirmed] at hs
  cases hs

/-- Each release takes the file off once more. -/
theorem set_release (k : ℕ) : t.release.set (t.after k) = t.after (k + 1) := by
  simp only [release, after, RoomUpdate.set, RoomRow.mk.injEq, true_and, and_true]
  push_cast
  constructor
  · ring
  · ring

end Target

/-! ## The protocol of a request -/

/-- How far a request has come: it is about to read the file, it has found it CONFIRMED, has marked
it, has lowered the counters, is committed, or has found it deleted. A request of another room is
a `stranger`, and one that has nothing to do is `idle`. The stage `broken` is entered when a
command is answered as it cannot be. -/
inductive Stage
  | idle | stranger | fresh | found | marked | released | won | missed | broken
  deriving DecidableEq

/-- The request has found the file CONFIRMED and is under way. -/
def Stage.pending : Stage → Bool
  | .found | .marked | .released => true
  | _ => false

/-- The request has found the file CONFIRMED. -/
def Stage.active : Stage → Bool
  | .won => true
  | s => s.pending

/-- A request is active while it is under way and after it has won. -/
theorem Stage.active_iff {s : Stage} : s.active = true ↔ s.pending = true ∨ s = .won := by
  cases s <;> decide

/-- The stages in which a request has nothing more to do. -/
def Stage.over (s : Stage) : Prop := s = .idle ∨ s = .won ∨ s = .missed

/-- The rows that `get_file` reads. -/
def byId (file_id : ℤ) : ℕ → FileRow → Bool := fun i _ => (i : ℤ) == file_id

/-- The commands of a request, by its stage. -/
inductive Allowed (env : Env) (t : Target) : Stage → Cmd → Prop
  | find : Allowed env t .fresh (.sql (.select .files (byId t.file)))
  | findElsewhere : Allowed env t .stranger (.sql (.select .files (byId t.file)))
  | mark : Allowed env t .found (.sql (.updateAt .files t.file .markDeleted))
  | release : Allowed env t .marked (.sql (.updateAt .rooms t.row.room_id t.release))
  | audit (event : AuditEventRow) : Allowed env t .released (.sql (.insert .auditEvents event))
  | deleteObject (key : Key) : Allowed env t .released (.deleteObject key)
  | commit : Allowed env t .released (.sql .commit)
  | ended {s : Stage} {c : Cmd} (hs : s.over) (hc : Issued env [.close] c) : Allowed env t s c
  | broken (c : Cmd) : Allowed env t .broken c

/-- The stage after a command was answered. -/
def next (t : Target) : Stage → (c : Cmd) → Except Err (Resp c) → Stage
  | .stranger, .sql (.select .files _), .ok rows =>
    if rows = [(t.file, t.row)] ∨ rows = [(t.file, t.deletedRow)] then .idle else .broken
  | .fresh, .sql (.select .files _), .ok rows =>
    if rows = [(t.file, t.row)] then .found
    else if rows = [(t.file, t.deletedRow)] then .missed else .broken
  | .found, .sql (.updateAt .files _ _), .ok true => .marked
  | .marked, .sql (.updateAt .rooms _ _), .ok true => .released
  | .released, .sql (.insert .auditEvents _), .ok _ => .released
  | .released, .deleteObject _, .ok _ => .released
  | .released, .sql .commit, .ok _ => .won
  | .idle, _, _ => .idle
  | .won, _, _ => .won
  | .missed, _, _ => .missed
  | _, _, _ => .broken

/-- The protocol of the requests that delete a file. -/
def monitor (env : Env) (t : Target) : Monitor Cmd Resp Err Stage := ⟨Allowed env t, next t⟩

/-- The number of requests that are committed. -/
abbrev wins (n : ℕ) (φ : ℕ → Stage) : ℕ := tally n φ (· = .won)

/-- What a request may do in one step, when `k` requests are committed. -/
inductive Moves (k : ℕ) : Stage → Stage → Prop
  | stay (s) : Moves k s s
  | refused : Moves k .stranger .idle
  | found (h : k = 0) : Moves k .fresh .found
  | missed (h : 0 < k) : Moves k .fresh .missed
  | marked : Moves k .found .marked
  | released : Moves k .marked .released
  | won : Moves k .released .won

/-- The invariant of `n` requests for a file, of which those in `E` may delete it. -/
structure Inv (n : ℕ) (E : ℕ → Prop) (t : Target) (db : Db) (φ : ℕ → Stage) : Prop where
  room : db.committed .rooms t.row.room_id = some (t.after (wins n φ))
  file : db.committed .files t.file = some (if wins n φ = 0 then t.row else t.deletedRow)
  roomLock : ∀ q v, (db.cell .rooms t.row.room_id).lock = some (q, v) →
    φ q = .released ∧ v = some (t.after (wins n φ + 1))
  fileLock : ∀ q v, (db.cell .files t.file).lock = some (q, v) →
    (φ q = .marked ∨ φ q = .released) ∧ v = some t.deletedRow
  holdsRoom : ∀ q, φ q = .released → ∃ v, (db.cell .rooms t.row.room_id).lock = some (q, v)
  holdsFile : ∀ q, φ q = .marked ∨ φ q = .released →
    ∃ v, (db.cell .files t.file).lock = some (q, v)
  missed : ∀ q, φ q = .missed → 0 < wins n φ
  whole : ∀ q, φ q ≠ .broken
  idle : ∀ q, φ q = .idle ∨ φ q = .stranger ↔ ¬E q
  bound : ∀ q, E q → q < n

variable {env : Env} {n p : ℕ} {E : ℕ → Prop} {t : Target} {db db' : Db} {φ : ℕ → Stage}

/-- A request that is not under way sees the file as committed. -/
theorem Inv.get_file (I : Inv n E t db φ) (h : (φ p).pending = false ∨ φ p = .found) :
    db.get p .files t.file = some (if wins n φ = 0 then t.row else t.deletedRow) := by
  rw [← I.file]
  refine Cell.view_of_ne fun v hv => ?_
  rcases (I.fileLock p v hv).1 with hs | hs <;> rw [hs] at h <;> rcases h with h | h <;> cases h

/-- A request that has not lowered the counters sees the room as committed. -/
theorem Inv.get_room (I : Inv n E t db φ) (h : φ p ≠ .released) :
    db.get p .rooms t.row.room_id = some (t.after (wins n φ)) := by
  rw [← I.room]
  exact Cell.view_of_ne fun v hv => h (I.roomLock p v hv).1

/-- Nobody has lowered the counters while another request holds the file. -/
theorem Inv.room_free (I : Inv n E t db φ) (h : φ p = .marked) :
    (db.cell .rooms t.row.room_id).lock = none := by
  cases hl : (db.cell .rooms t.row.room_id).lock with
  | none => rfl
  | some qv =>
    obtain ⟨q, v⟩ := qv
    have hq := (I.roomLock q v hl).1
    obtain ⟨v₁, h₁⟩ := I.holdsFile p (.inl h)
    obtain ⟨v₂, h₂⟩ := I.holdsFile q (.inr hq)
    rw [h₁] at h₂
    cases h₂
    rw [h] at hq
    cases hq

/-- What leaves the file and the room alone keeps the invariant. -/
theorem Inv.keep (I : Inv n E t db φ)
    (hf : db'.cell .files t.file = db.cell .files t.file)
    (hr : db'.cell .rooms t.row.room_id = db.cell .rooms t.row.room_id) : Inv n E t db' φ where
  room := by rw [Tables.committed, hr]; exact I.room
  file := by rw [Tables.committed, hf]; exact I.file
  roomLock q v h := I.roomLock q v (hr ▸ h)
  fileLock q v h := I.fileLock q v (hf ▸ h)
  holdsRoom q h := by rw [hr]; exact I.holdsRoom q h
  holdsFile q h := by rw [hf]; exact I.holdsFile q h
  missed := I.missed
  whole := I.whole
  idle := I.idle
  bound := I.bound

/-- Reading the file keeps the invariant. -/
theorem Inv.look (I : Inv n E t db φ) (hp : φ p = .fresh) {s : Stage}
    (hs : s = .found ∨ s = .missed ∧ 0 < wins n φ) :
    Inv n E t db (Function.update φ p s) := by
  have hne : s ≠ .won ∧ s ≠ .released ∧ s ≠ .marked ∧ s ≠ .broken ∧ s ≠ .idle ∧ s ≠ .stranger := by
    rcases hs with rfl | ⟨rfl, -⟩ <;> decide
  obtain ⟨h₁, h₂, h₃, h₄, h₅, h₆⟩ := hne
  have hwins : wins n (Function.update φ p s) = wins n φ := tally_update_of_iff (by simp [hp, h₁])
  -- Whoever holds a row is another request than this one.
  have hold : ∀ {q}, φ q = .marked ∨ φ q = .released → Function.update φ p s q = φ q := by
    intro q hq
    refine Function.update_of_ne (fun hqp => ?_) _ _
    rw [hqp, hp] at hq
    rcases hq with hq | hq <;> cases hq
  constructor <;> try simp only [hwins]
  case room => exact I.room
  case file => exact I.file
  case roomLock =>
    intro q v h
    obtain ⟨hq, hv⟩ := I.roomLock q v h
    exact ⟨(hold (.inr hq)).trans hq, hv⟩
  case fileLock =>
    intro q v h
    obtain ⟨hq, hv⟩ := I.fileLock q v h
    rw [hold hq]
    exact ⟨hq, hv⟩
  case holdsRoom =>
    exact (Function.forall_update_iff φ fun q s => s = .released → _).2
      ⟨fun h => absurd h h₂, fun q _ => I.holdsRoom q⟩
  case holdsFile =>
    exact (Function.forall_update_iff φ fun q s => s = .marked ∨ s = .released → _).2
      ⟨fun h => (h.elim h₃ h₂).elim, fun q _ => I.holdsFile q⟩
  case missed =>
    refine (Function.forall_update_iff φ fun q s => s = .missed → _).2 ⟨fun h => ?_, ?_⟩
    · exact (hs.resolve_left (by rw [h]; decide)).2
    · exact fun q _ => I.missed q
  case whole =>
    exact (Function.forall_update_iff φ fun q s => s ≠ .broken).2 ⟨h₄, fun q _ => I.whole q⟩
  case idle =>
    refine (Function.forall_update_iff φ fun q s => s = .idle ∨ s = .stranger ↔ ¬E q).2
      ⟨iff_of_false (fun h => h.elim h₅ h₆) (fun h => ?_), fun q _ => I.idle q⟩
    have := (I.idle p).2 h
    rw [hp] at this
    rcases this with h | h <;> cases h
  case bound => exact I.bound

/-- Being in another room keeps the invariant. -/
theorem Inv.refuse (I : Inv n E t db φ) (hp : φ p = .stranger) :
    Inv n E t db (Function.update φ p .idle) := by
  have hwins : wins n (Function.update φ p .idle) = wins n φ := tally_update_of_iff (by simp [hp])
  have hold : ∀ {q}, φ q = .marked ∨ φ q = .released → Function.update φ p .idle q = φ q := by
    intro q hq
    refine Function.update_of_ne (fun hqp => ?_) _ _
    rw [hqp, hp] at hq
    rcases hq with hq | hq <;> cases hq
  constructor <;> try simp only [hwins]
  case room => exact I.room
  case file => exact I.file
  case roomLock =>
    intro q v h
    obtain ⟨hq, hv⟩ := I.roomLock q v h
    exact ⟨(hold (.inr hq)).trans hq, hv⟩
  case fileLock =>
    intro q v h
    obtain ⟨hq, hv⟩ := I.fileLock q v h
    rw [hold hq]
    exact ⟨hq, hv⟩
  case holdsRoom =>
    exact (Function.forall_update_iff φ fun q s => s = .released → _).2
      ⟨fun h => absurd h (by decide), fun q _ => I.holdsRoom q⟩
  case holdsFile =>
    exact (Function.forall_update_iff φ fun q s => s = .marked ∨ s = .released → _).2
      ⟨fun h => absurd h (by decide), fun q _ => I.holdsFile q⟩
  case missed =>
    exact (Function.forall_update_iff φ fun q s => s = .missed → _).2
      ⟨fun h => absurd h (by decide), fun q _ => I.missed q⟩
  case whole =>
    exact (Function.forall_update_iff φ fun q s => s ≠ .broken).2 ⟨by decide, fun q _ => I.whole q⟩
  case idle =>
    exact (Function.forall_update_iff φ fun q s => s = .idle ∨ s = .stranger ↔ ¬E q).2
      ⟨iff_of_true (.inl rfl) ((I.idle p).1 (.inr hp)), fun q _ => I.idle q⟩
  case bound => exact I.bound

/-- A request that is under way is one that may delete the file. -/
theorem Inv.mem_of_active (I : Inv n E t db φ) (h : (φ p).active = true) : E p := by
  by_contra hE
  rcases (I.idle p).2 hE with hp | hp <;> rw [hp] at h <;> cases h

/-- Marking the file keeps the invariant. -/
theorem Inv.mark (I : Inv n E t db φ) (hp : φ p = .found)
    (hl : (db.cell .files t.file).heldByOther p = false)
    (hr : db'.cell .rooms t.row.room_id = db.cell .rooms t.row.room_id)
    (hf : db'.cell .files t.file = (db.cell .files t.file).write p (some t.deletedRow)) :
    Inv n E t db' (Function.update φ p .marked) := by
  have hwins : wins n (Function.update φ p .marked) = wins n φ :=
    tally_update_of_iff (by simp [hp])
  -- Nobody holds the record, so nobody is past the mark.
  have hfree : ∀ q v, (db.cell .files t.file).lock ≠ some (q, v) := by
    intro q v hv
    rcases Cell.heldByOther_eq_false.1 hl with h | ⟨v', h⟩
    · rw [h] at hv
      cases hv
    · rcases (I.fileLock p v' h).1 with hs | hs <;> rw [hp] at hs <;> cases hs
  constructor <;> try simp only [hwins]
  case room => rw [Tables.committed, hr]; exact I.room
  case file => rw [Tables.committed, hf]; exact I.file
  case roomLock =>
    intro q v h
    rw [hr] at h
    obtain ⟨hq, hv⟩ := I.roomLock q v h
    obtain ⟨v', hv'⟩ := I.holdsFile q (.inr hq)
    exact absurd hv' (hfree q v')
  case fileLock =>
    intro q v h
    rw [hf] at h
    cases h
    exact ⟨.inl (Function.update_self ..), rfl⟩
  case holdsRoom =>
    rw [hr]
    exact (Function.forall_update_iff φ fun q s => s = .released → _).2
      ⟨fun h => absurd h (by decide), fun q _ => I.holdsRoom q⟩
  case holdsFile =>
    refine (Function.forall_update_iff φ fun q s => s = .marked ∨ s = .released → _).2
      ⟨fun _ => ⟨_, by rw [hf]; rfl⟩, fun q _ hq => ?_⟩
    obtain ⟨v, hv⟩ := I.holdsFile q hq
    exact absurd hv (hfree q v)
  case missed =>
    exact (Function.forall_update_iff φ fun q s => s = .missed → _).2
      ⟨fun h => absurd h (by decide), fun q _ => I.missed q⟩
  case whole =>
    exact (Function.forall_update_iff φ fun q s => s ≠ .broken).2 ⟨by decide, fun q _ => I.whole q⟩
  case idle =>
    refine (Function.forall_update_iff φ fun q s => s = .idle ∨ s = .stranger ↔ ¬E q).2
      ⟨iff_of_false (by decide) (fun h => h (I.mem_of_active (by rw [hp]; rfl))), fun q _ => I.idle q⟩
  case bound => exact I.bound

/-- Lowering the counters keeps the invariant. -/
theorem Inv.release (I : Inv n E t db φ) (hp : φ p = .marked)
    (hf : db'.cell .files t.file = db.cell .files t.file)
    (hr : db'.cell .rooms t.row.room_id =
      (db.cell .rooms t.row.room_id).write p (some (t.after (wins n φ + 1)))) :
    Inv n E t db' (Function.update φ p .released) := by
  have hwins : wins n (Function.update φ p .released) = wins n φ :=
    tally_update_of_iff (by simp [hp])
  constructor <;> try simp only [hwins]
  case room => rw [Tables.committed, hr]; exact I.room
  case file => rw [Tables.committed, hf]; exact I.file
  case roomLock =>
    intro q v h
    rw [hr] at h
    cases h
    exact ⟨Function.update_self .., rfl⟩
  case fileLock =>
    intro q v h
    rw [hf] at h
    obtain ⟨hq, hv⟩ := I.fileLock q v h
    obtain ⟨v', hv'⟩ := I.holdsFile p (.inl hp)
    rw [hv'] at h
    cases h
    exact ⟨.inr (Function.update_self ..), hv⟩
  case holdsRoom =>
    refine (Function.forall_update_iff φ fun q s => s = .released → _).2
      ⟨fun _ => ⟨_, by rw [hr]; rfl⟩, fun q _ hq => ?_⟩
    obtain ⟨v, hv⟩ := I.holdsRoom q hq
    rw [I.room_free hp] at hv
    cases hv
  case holdsFile =>
    rw [hf]
    exact (Function.forall_update_iff φ fun q s => s = .marked ∨ s = .released → _).2
      ⟨fun _ => I.holdsFile p (.inl hp), fun q _ => I.holdsFile q⟩
  case missed =>
    exact (Function.forall_update_iff φ fun q s => s = .missed → _).2
      ⟨fun h => absurd h (by decide), fun q _ => I.missed q⟩
  case whole =>
    exact (Function.forall_update_iff φ fun q s => s ≠ .broken).2 ⟨by decide, fun q _ => I.whole q⟩
  case idle =>
    refine (Function.forall_update_iff φ fun q s => s = .idle ∨ s = .stranger ↔ ¬E q).2
      ⟨iff_of_false (by decide) (fun h => h (I.mem_of_active (by rw [hp]; rfl))), fun q _ => I.idle q⟩
  case bound => exact I.bound

/-- Committing keeps the invariant, with one more request counted. -/
theorem Inv.win (I : Inv n E t db φ) (hp : φ p = .released)
    (hf : db'.cell .files t.file = (db.cell .files t.file).commit p)
    (hr : db'.cell .rooms t.row.room_id = (db.cell .rooms t.row.room_id).commit p) :
    Inv n E t db' (Function.update φ p .won) := by
  have hE : E p := I.mem_of_active (by rw [hp]; rfl)
  -- The request is one more that has won.
  have hwins : wins n (Function.update φ p .won) = wins n φ + 1 :=
    tally_update_succ (I.bound p hE) (by rw [hp]; decide) rfl
  -- It holds both rows, so what is committed is its own.
  obtain ⟨v, hroom⟩ := I.holdsRoom p hp
  obtain ⟨-, rfl⟩ := I.roomLock p v hroom
  obtain ⟨v, hfile⟩ := I.holdsFile p (.inr hp)
  obtain ⟨-, rfl⟩ := I.fileLock p v hfile
  rw [Cell.commit_of_lock hroom] at hr
  rw [Cell.commit_of_lock hfile] at hf
  constructor <;> try simp only [hwins]
  case room => rw [Tables.committed, hr]
  case file => rw [Tables.committed, hf, if_neg (Nat.succ_ne_zero _)]
  case roomLock =>
    intro q v h
    rw [hr] at h
    cases h
  case fileLock =>
    intro q v h
    rw [hf] at h
    cases h
  case holdsRoom =>
    refine (Function.forall_update_iff φ fun q s => s = .released → _).2
      ⟨fun h => absurd h (by decide), fun q hqp hq => ?_⟩
    obtain ⟨v, hv⟩ := I.holdsRoom q hq
    rw [hroom] at hv
    cases hv
    exact absurd rfl hqp
  case holdsFile =>
    refine (Function.forall_update_iff φ fun q s => s = .marked ∨ s = .released → _).2
      ⟨fun h => absurd h (by decide), fun q hqp hq => ?_⟩
    obtain ⟨v, hv⟩ := I.holdsFile q hq
    rw [hfile] at hv
    cases hv
    exact absurd rfl hqp
  case missed => exact fun _ _ => Nat.succ_pos _
  case whole =>
    exact (Function.forall_update_iff φ fun q s => s ≠ .broken).2 ⟨by decide, fun q _ => I.whole q⟩
  case idle =>
    exact (Function.forall_update_iff φ fun q s => s = .idle ∨ s = .stranger ↔ ¬E q).2
      ⟨iff_of_false (by decide) (fun h => h hE), fun q _ => I.idle q⟩
  case bound => exact I.bound

/-- A request that holds nothing keeps the invariant by reading and by its rollback. -/
theorem Inv.quiet {w w' : World} (I : Inv n E t w.db φ) (hp : (φ p).pending = false) {c : Cmd} {x}
    (hc : Issued env [.close] c) (h : reliable.Answer p c w x w') : Inv n E t w'.db φ := by
  rcases hc.quiet with rfl | hs
  · obtain ⟨-, rfl⟩ := reliable_faithful.rollback h
    refine I.keep ?_ ?_
    · rw [Tables.cell_rollback]
      refine Cell.rollback_of_ne fun v hv => ?_
      rcases (I.fileLock p v hv).1 with hs | hs <;> rw [hs] at hp <;> cases hp
    · rw [Tables.cell_rollback]
      refine Cell.rollback_of_ne fun v hv => ?_
      rw [(I.roomLock p v hv).1] at hp
      cases hp
  · exact I.keep (reliable_faithful.cell_of_spares h (hs _ _))
      (reliable_faithful.cell_of_spares h (hs _ _))

/-- Reading the file by its number returns it. -/
theorem Inv.select_eq (I : Inv n E t db φ) (h : (φ p).pending = false) :
    db.select p .files (byId t.file) =
      [(t.file, if wins n φ = 0 then t.row else t.deletedRow)] := by
  refine Tables.select_eq_singleton (I.get_file (.inl h)) (by simp [byId]) fun i r _ hw => ?_
  simpa [byId] using hw

/-- What a command of a request does: the invariant is kept, and the request makes one move. -/
def Steps (n : ℕ) (E : ℕ → Prop) (t : Target) (φ : ℕ → Stage) (p : ℕ) (db : Db) (s : Stage) : Prop :=
  Inv n E t db (Function.update φ p s) ∧ Moves (wins n φ) (φ p) s

section

variable {w w' : World} {c : Cmd} {x : Except Err (Resp c)}

/-- A stage that is left as it is. -/
theorem Inv.stays (I : Inv n E t db φ) {s : Stage} (hs : s = φ p) : Steps n E t φ p db s := by
  subst hs
  refine ⟨?_, .stay _⟩
  rwa [Function.update_eq_self]

/-- What spares the file and its room, and leaves the stage, keeps the invariant. -/
theorem Inv.spare (I : Inv n E t w.db φ) (h : reliable.Answer p c w x w')
    (hf : ∀ i, c.Spares .files i) (hr : ∀ i, c.Spares .rooms i)
    (hn : next t (φ p) c x = φ p) : Steps n E t φ p w'.db (next t (φ p) c x) :=
  (I.keep (reliable_faithful.cell_of_spares h (hf _))
    (reliable_faithful.cell_of_spares h (hr _))).stays hn

/-- A request that reads the file. -/
theorem Inv.step_fresh (I : Inv n E t w.db φ) (hp : φ p = .fresh) (ha : Allowed env t .fresh c)
    (h : reliable.Answer p c w x w') : Steps n E t φ p w'.db (next t (φ p) c x) := by
  cases ha with
  | find =>
    obtain ⟨rows, db, hq, rfl, rfl⟩ := reliable_sql h
    cases hq
    have hrows := I.select_eq (p := p) (by rw [hp]; rfl)
    by_cases hk : wins n φ = 0
    · have hn : next t (φ p) (.sql (.select .files (byId t.file)))
          (.ok (w.db.select p .files (byId t.file))) = .found := by
        rw [hp, hrows, if_pos hk]
        exact if_pos rfl
      rw [hn, Steps, hp]
      exact ⟨I.look hp (.inl rfl), .found hk⟩
    · have hn : next t (φ p) (.sql (.select .files (byId t.file)))
          (.ok (w.db.select p .files (byId t.file))) = .missed := by
        rw [hp, hrows, if_neg hk]
        refine (if_neg fun he => t.deletedRow_ne ?_).trans (if_pos rfl)
        simpa using he
      rw [hn, Steps, hp]
      exact ⟨I.look hp (.inr ⟨rfl, Nat.pos_of_ne_zero hk⟩), .missed (Nat.pos_of_ne_zero hk)⟩
  | ended hs => rcases hs with hs | hs | hs <;> cases hs

/-- A request of another room that reads the file. -/
theorem Inv.step_stranger (I : Inv n E t w.db φ) (hp : φ p = .stranger)
    (ha : Allowed env t .stranger c) (h : reliable.Answer p c w x w') :
    Steps n E t φ p w'.db (next t (φ p) c x) := by
  cases ha with
  | findElsewhere =>
    obtain ⟨rows, db, hq, rfl, rfl⟩ := reliable_sql h
    cases hq
    have hn : next t (φ p) (.sql (.select .files (byId t.file)))
        (.ok (w.db.select p .files (byId t.file))) = .idle := by
      rw [hp, I.select_eq (by rw [hp]; rfl)]
      refine if_pos ?_
      split
      · exact .inl rfl
      · exact .inr rfl
    rw [hn, Steps, hp]
    exact ⟨I.refuse hp, .refused⟩
  | ended hs => rcases hs with hs | hs | hs <;> cases hs

/-- A request that has found the file marks it. -/
theorem Inv.step_found (I : Inv n E t w.db φ) (hp : φ p = .found) (ha : Allowed env t .found c)
    (h : reliable.Answer p c w x w') : Steps n E t φ p w'.db (next t (φ p) c x) := by
  cases ha with
  | mark =>
    obtain ⟨b, db, hq, rfl, rfl⟩ := reliable_sql h
    have hget := I.get_file (.inr hp)
    rcases Tables.updateAt_cases hq with ⟨rfl, rfl, hr⟩ | ⟨rfl, r, hr, -, hl, rfl⟩
    · exact absurd (hr _ hget) Bool.true_eq_false_eq_False
    · rw [Steps, hp]
      refine ⟨I.mark hp hl (Tables.cell_setCell_of_table (by decide)) ?_, .marked⟩
      rw [Tables.cell_setCell_self (Tables.lt_length_of_get hget)]
      obtain rfl := Option.some.inj (hr.symm.trans hget)
      split <;> rfl
  | ended hs => rcases hs with hs | hs | hs <;> cases hs

/-- A request that has marked the file lowers the counters. -/
theorem Inv.step_marked (I : Inv n E t w.db φ) (hp : φ p = .marked) (ha : Allowed env t .marked c)
    (h : reliable.Answer p c w x w') : Steps n E t φ p w'.db (next t (φ p) c x) := by
  cases ha with
  | release =>
    obtain ⟨b, db, hq, rfl, rfl⟩ := reliable_sql h
    have hget := I.get_room (p := p) (by rw [hp]; decide)
    rcases Tables.updateAt_cases hq with ⟨rfl, rfl, hr⟩ | ⟨rfl, r, hr, -, hl, rfl⟩
    · exact absurd (hr _ hget) Bool.true_eq_false_eq_False
    · rw [Steps, hp]
      refine ⟨I.release hp (Tables.cell_setCell_of_table (by decide)) ?_, .released⟩
      rw [Tables.cell_setCell_self (Tables.lt_length_of_get hget)]
      obtain rfl := Option.some.inj (hr.symm.trans hget)
      exact congrArg (fun r => (w.db.cell .rooms t.row.room_id).write p (some r))
        (t.set_release _)
  | ended hs => rcases hs with hs | hs | hs <;> cases hs

/-- A request that has lowered the counters is committed. -/
theorem Inv.step_released (I : Inv n E t w.db φ) (hp : φ p = .released)
    (ha : Allowed env t .released c) (h : reliable.Answer p c w x w') :
    Steps n E t φ p w'.db (next t (φ p) c x) := by
  cases ha with
  | audit event =>
    refine I.spare h (fun _ => ?_) (fun _ => ?_) ?_
    · exact (by decide : Table.auditEvents ≠ .files)
    · exact (by decide : Table.auditEvents ≠ .rooms)
    · obtain ⟨i, db, hq, rfl, rfl⟩ := reliable_sql h
      rw [hp]
      rfl
  | deleteObject key =>
    cases reliable_exec h
    exact I.spare h (fun _ => trivial) (fun _ => trivial) (by rw [hp]; rfl)
  | commit =>
    obtain ⟨u, db, hq, rfl, rfl⟩ := reliable_sql h
    cases hq
    rw [Steps, hp]
    exact ⟨I.win hp (Tables.cell_commit _ _) (Tables.cell_commit _ _), .won⟩
  | ended hs => rcases hs with hs | hs | hs <;> cases hs

/-- A request that has nothing more to do stays where it is. -/
theorem Inv.step_over (I : Inv n E t w.db φ) (hp : (φ p).over) (ha : Allowed env t (φ p) c)
    (h : reliable.Answer p c w x w') : Steps n E t φ p w'.db (next t (φ p) c x) := by
  obtain ⟨s, hs⟩ : ∃ s, φ p = s := ⟨_, rfl⟩
  rw [hs] at hp ha
  have hc : Issued env [.close] c := by
    rcases hp with rfl | rfl | rfl <;> cases ha with | ended _ hc => exact hc
  refine (I.quiet ?_ hc h).stays ?_
  · rcases hp with rfl | rfl | rfl <;> rw [hs] <;> rfl
  · rcases hp with rfl | rfl | rfl <;> rw [hs] <;> rfl

/-- Every command of a request keeps the invariant, and makes one move. -/
theorem Inv.step (I : Inv n E t w.db φ) (ha : Allowed env t (φ p) c)
    (h : reliable.Answer p c w x w') :
    Inv n E t w'.db (Function.update φ p (next t (φ p) c x)) ∧
      Moves (wins n φ) (φ p) (next t (φ p) c x) := by
  obtain ⟨s, hs⟩ : ∃ s, φ p = s := ⟨_, rfl⟩
  cases s with
  | idle => exact I.step_over (.inl hs) ha h
  | stranger => exact I.step_stranger hs (hs ▸ ha) h
  | fresh => exact I.step_fresh hs (hs ▸ ha) h
  | found => exact I.step_found hs (hs ▸ ha) h
  | marked => exact I.step_marked hs (hs ▸ ha) h
  | released => exact I.step_released hs (hs ▸ ha) h
  | won => exact I.step_over (.inr (.inl hs)) ha h
  | missed => exact I.step_over (.inr (.inr hs)) ha h
  | broken => exact absurd hs (I.whole p)

end

/-! ## The requests keep to the protocol -/

section

variable {room : Room} {actor : SessionRecord} {s : Stage}

/-- A request that may delete the file: the owner's, in the file's room. -/
def Effective (t : Target) (room : Room) (actor : SessionRecord) : Prop :=
  actor.role = .owner ∧ room.id = t.row.room_id

/-- Whether a request deletes the file is decided. -/
instance : Decidable (Effective t room actor) := inferInstanceAs (Decidable (_ ∧ _))

/-- What has left the order of the stages stays out of it. -/
theorem sink : (monitor env t).Sink .broken := ⟨.broken, fun _ _ => rfl⟩

/-- Reading, and closing the database session, keep a stage in which there is nothing more to
do. -/
theorem over_wp {α : Type} {prog : Op α} (h : prog.Only (Issued env [.close])) (hs : s.over) :
    prog.wp (monitor env t).trans (fun _ s' => s' = s) s := by
  refine h.wp (M := monitor env t) (I := fun s' => s' = s) (fun c s' hc hs' => ?_) rfl
  subst hs'
  refine ⟨.ended hs hc, fun _ => ?_⟩
  rcases hs with rfl | rfl | rfl <;> rfl

/-- `get_file` of a request that may delete the file finds it, or fails. -/
theorem getFile_wp (hroom : room.id = t.row.room_id) :
    (fileService.getFile room t.file).wp (monitor env t).trans
      (Monitor.orSink .broken fun x s =>
        s = .found ∧ x = .ok (toFile (t.file, t.row)) ∨ s = .missed ∧ ∃ e, x = .error e)
      .fresh := by
  have hread : (fileRepository.getFileById t.file).wp (monitor env t).trans
      (Monitor.orSink .broken fun x s =>
        s = .found ∧ x = .ok (some (toFile (t.file, t.row))) ∨
          s = .missed ∧ x = .ok (some (toFile (t.file, t.deletedRow)))) .fresh := by
    refine wp_then sink .find (fun rows => ?_) fun e => .inl rfl
    by_cases hf : rows = [(t.file, t.row)]
    · subst hf
      exact .inr (.inr (.inl ⟨if_pos rfl, rfl⟩))
    · by_cases hd : rows = [(t.file, t.deletedRow)]
      · subst hd
        exact .inr (.inr (.inr ⟨(if_neg hf).trans (if_pos rfl), rfl⟩))
      · exact .inl ((if_neg hf).trans (if_neg hd))
  refine sink.bind hread ?_ ?_
  · rintro rec_ s (⟨rfl, h⟩ | ⟨rfl, h⟩)
    · cases h
      dsimp only
      rw [Prog.require_pos ⟨hroom.symm, t.confirmed⟩]
      exact .inr (.inl ⟨rfl, rfl⟩)
    · cases h
      dsimp only
      rw [Prog.require_neg (by simp [toFile, Target.deletedRow])]
      exact .inr (.inr ⟨rfl, _, rfl⟩)
  · rintro e s (⟨-, h⟩ | ⟨-, h⟩) <;> cases h

/-- `get_file` in another room fails. -/
theorem getFile_stranger_wp (hroom : room.id ≠ t.row.room_id) :
    (fileService.getFile room t.file).wp (monitor env t).trans
      (Monitor.orSink .broken fun x s => s = .idle ∧ ∃ e, x = .error e) .stranger := by
  have hread : (fileRepository.getFileById t.file).wp (monitor env t).trans
      (Monitor.orSink .broken fun x s => s = .idle ∧ ∃ rec_ : FileRecord,
        x = .ok (some rec_) ∧ rec_.room_id = t.row.room_id) .stranger := by
    refine wp_then sink .findElsewhere (fun rows => ?_) fun e => .inl rfl
    by_cases h : rows = [(t.file, t.row)] ∨ rows = [(t.file, t.deletedRow)]
    · rcases h with rfl | rfl
      · exact .inr (.inr ⟨if_pos (.inl rfl), _, rfl, rfl⟩)
      · exact .inr (.inr ⟨if_pos (.inr rfl), _, rfl, rfl⟩)
    · exact .inl (if_neg h)
  refine sink.bind hread ?_ ?_
  · rintro found s ⟨rfl, rec_, h, hid⟩
    cases h
    dsimp only
    rw [Prog.require_neg fun h => hroom (h.1.symm.trans hid)]
    exact .inr ⟨rfl, _, rfl⟩
  · rintro e s ⟨-, rec_, h, -⟩
    cases h

/-- A deletion ends committed, or has found the file deleted. -/
theorem deleteAs_wp (h : Effective t room actor) :
    (files.deleteAs actor room t.file).wp (monitor env t).trans
      (Monitor.orSink .broken fun _ s => s = .won ∨ s = .missed) .fresh := by
  have hdelete : (fileService.deleteFile room actor t.file).wp (monitor env t).trans
      (Monitor.orSink .broken fun x s => match x with
        | .ok _ => s = .released
        | .error _ => s = .missed) .fresh := by
    unfold fileService.deleteFile
    rw [Prog.require_pos h.1, Prog.ret_bind]
    refine sink.bind (getFile_wp h.2) ?_ ?_
    · rintro rec_ s (⟨rfl, hr⟩ | ⟨-, e, hr⟩)
      · cases hr
        refine wp_then sink .mark (fun b => ?_) fun e => .inl rfl
        cases b with
        | false => exact .inl rfl
        | true =>
          refine .inr (wp_then sink (h.2 ▸ .release) (fun b => ?_) fun e => .inl rfl)
          cases b with
          | false => exact .inl rfl
          | true =>
            refine .inr (wp_then sink (.audit _) (fun _ => .inr ?_) fun e => .inl rfl)
            refine wp_then sink (.deleteObject _) (fun _ => .inr ?_) fun e => .inl rfl
            exact .inr rfl
      · cases hr
    · rintro e s (⟨-, hr⟩ | ⟨rfl, -⟩)
      · cases hr
      · exact .inr rfl
  refine sink.bind hdelete ?_ fun e s hs => .inr (.inr hs)
  rintro rec_ s rfl
  refine wp_then sink .commit (fun _ => .inr ?_) fun e => .inl rfl
  -- The deletion is committed; the sockets of the room are told.
  have hrest : (do
      broadcast (wsChannel room) (.fileDeleted rec_.id) []
      pure (fileView rec_ actor.display_name) : Op FileView).Only (Issued env [.close]) :=
    Prog.only_bind (only_broadcast _ _ _ fun h => h.elim) fun _ => only_pure _
  exact Prog.wp_mono (monitor env t).trans_monotone (fun _ _ hs => .inr (.inl hs))
    (over_wp hrest (.inr (.inl rfl)))

/-- A request that may not delete the file does nothing. -/
theorem deleteAs_ineffective_wp (h : ¬Effective t room actor)
    (hs : if actor.role = .owner then s = .stranger else s = .idle) :
    (files.deleteAs actor room t.file).wp (monitor env t).trans
      (Monitor.orSink .broken fun _ s => s = .idle) s := by
  unfold files.deleteAs fileService.deleteFile
  by_cases ho : actor.role = .owner
  · rw [if_pos ho] at hs
    subst hs
    rw [Prog.require_pos ho, Prog.ret_bind]
    refine sink.bind (P := fun x s => s = .idle ∧ ∃ e, x = .error e) ?_ ?_ ?_
    · refine sink.bind (getFile_stranger_wp fun hr => h ⟨ho, hr⟩) ?_ ?_
      · rintro rec_ s ⟨-, e, he⟩
        cases he
      · exact fun e s he => .inr he
    · rintro rec_ s ⟨-, e, he⟩
      cases he
    · exact fun e s he => .inr he.1
  · rw [if_neg ho] at hs
    subst hs
    rw [Prog.require_neg ho]
    exact .inr rfl

/-- A request with its database session. -/
theorem request_wp {P : Stage → Prop} (hP : ∀ s, P s → s.over)
    (h : (files.deleteAs actor room t.file).wp (monitor env t).trans
      (Monitor.orSink .broken fun _ s => P s) s) :
    (discard (withSession (files.deleteAs actor room t.file))).wp (monitor env t).trans
      (Monitor.orSink .broken fun _ s => P s) s := by
  refine (Prog.wp_map _ _ _ _).2 (wp_withSession (monitor env t).trans_monotone ?_)
  refine Prog.wp_mono (monitor env t).trans_monotone ?_ h
  rintro r s (rfl | hs)
  · exact ⟨.broken _, by rintro (e | u) <;> exact .inl rfl⟩
  · refine ⟨.ended (hP s hs) (.close (by decide)), ?_⟩
    rcases hP s hs with rfl | rfl | rfl <;> rintro (e | u) <;> exact .inr hs

end

/-! ## Runs -/

/-- The number of requests that have found the file CONFIRMED. -/
abbrev actives (n : ℕ) (φ : ℕ → Stage) : ℕ := tally n φ (·.active = true)

/-- A request reads the file only while no other request that has found it CONFIRMED is still under
way. -/
def careful (n : ℕ) : Guard Cmd World Stage :=
  fun p _ _ φ => φ p = .fresh → ∀ q < n, (φ q).pending = false

/-- Whether a request loads the record carefully is decided. -/
instance (n p : ℕ) (c : Cmd) (w : World) (φ : ℕ → Stage) : Decidable (careful n p c w φ) :=
  inferInstanceAs (Decidable (_ → _))

/-- A move makes a request active only by finding the file CONFIRMED, before any was committed. -/
theorem Moves.active {k : ℕ} {s s' : Stage} (h : Moves k s s') :
    s.active = s'.active ∨ s = .fresh ∧ s' = .found ∧ k = 0 := by
  cases h with
  | found h => exact .inr ⟨rfl, rfl, h⟩
  | _ => exact .inl rfl

/-- Finding the file CONFIRMED makes a request active. -/
theorem actives_found (hp : p < n) (h : φ p = .fresh) :
    actives n (Function.update φ p .found) = actives n φ + 1 :=
  tally_update_succ hp (by rw [h]; decide) rfl

/-- No move lowers the number of active requests. -/
theorem Moves.actives_le {s : Stage} (h : Moves (wins n φ) (φ p) s) :
    actives n φ ≤ actives n (Function.update φ p s) := by
  rcases h.active with ha | ⟨ha, rfl, -⟩
  · exact (tally_update_of_iff (by rw [ha])).ge
  · by_cases hp : p < n
    · exact (Nat.le_succ _).trans_eq (actives_found hp ha).symm
    · refine Finset.card_le_card fun q hq => ?_
      obtain ⟨hq, hs⟩ := Finset.mem_filter.1 hq
      have hqp : q ≠ p := fun h => hp (h ▸ Finset.mem_range.1 hq)
      exact Finset.mem_filter.2 ⟨hq, by rwa [Function.update_of_ne hqp]⟩

/-- A careful move leaves at most one request active. -/
theorem Moves.careful_actives (I : Inv n E t db φ) {s : Stage}
    (h : Moves (wins n φ) (φ p) s) (hc : φ p = .fresh → ∀ q < n, (φ q).pending = false)
    (hle : actives n φ ≤ 1) : actives n (Function.update φ p s) ≤ 1 := by
  rcases h.active with ha | ⟨ha, rfl, hk⟩
  · exact (tally_update_of_iff (by rw [ha])).trans_le hle
  · have hE : E p := by
      by_contra hE
      rcases (I.idle p).2 hE with hs | hs <;> rw [hs] at ha <;> cases ha
    have hzero : actives n φ = 0 := by
      refine tally_eq_zero fun q hq hact => ?_
      rcases Stage.active_iff.1 hact with hpend | hwon
      · rw [hc ha q hq] at hpend
        cases hpend
      · have hpos : 0 < wins n φ := tally_pos hq hwon
        omega
    rw [actives_found (I.bound p hE) ha, hzero]

/-- Reading the file is the end of being fresh. -/
theorem next_ne_fresh {s : Stage} {c : Cmd} {x} : next t s c x ≠ .fresh := by
  unfold next
  split <;> try split_ifs
  all_goals exact nofun

/-- A move of a request that reads the file while another is under way makes two of them active. -/
theorem Moves.two_le_actives (I : Inv n E t db φ) {s : Stage} (h : Moves (wins n φ) (φ p) s)
    (hs : s ≠ .fresh) (hp : φ p = .fresh) {q : ℕ} (hq : q < n) (hpend : (φ q).pending = true) :
    2 ≤ actives n (Function.update φ p s) := by
  have hact : (φ q).active = true := Stage.active_iff.2 (.inl hpend)
  have hle := h.actives_le
  rw [hp] at h
  cases h with
  | stay => exact absurd rfl hs
  | found hk =>
    have hE : E p := by
      by_contra hE
      rcases (I.idle p).2 hE with hs | hs <;> rw [hs] at hp <;> cases hp
    have hsucc := actives_found (I.bound p hE) hp
    have hpos : 0 < actives n φ := tally_pos hq hact
    omega
  | missed hk =>
    obtain ⟨q', hq', hwon⟩ := exists_of_tally_pos hk
    refine (two_le_tally hq hq' ?_ hact (by rw [hwon]; rfl)).trans hle
    rintro rfl
    rw [hwon] at hpend
    cases hpend

variable {room : ℕ → Room} {actor : ℕ → SessionRecord} {w : World}

/-- `n` requests for the file, and nobody else. -/
def start (t : Target) (room : ℕ → Room) (actor : ℕ → SessionRecord) (n : ℕ) (w : World) :
    Conf Cmd Resp Err Unit World Stage where
  world := w
  phase p :=
    if p < n ∧ (actor p).role = .owner then
      if (room p).id = t.row.room_id then .fresh else .stranger
    else .idle
  proc p := if p < n then discard (withSession (files.deleteAs (actor p) (room p) t.file)) else pure ()

/-- The requests that may delete the file. -/
def Entitled (t : Target) (room : ℕ → Room) (actor : ℕ → SessionRecord) (n p : ℕ) : Prop :=
  p < n ∧ Effective t (room p) (actor p)

/-- Every process keeps to the protocol. -/
theorem start_conforms : (start t room actor n w).Conforms (monitor env t)
    (Monitor.orSink .broken fun _ s => s.over) := by
  intro p
  dsimp only [start]
  by_cases hp : p < n
  · rw [if_pos hp]
    by_cases hE : Effective t (room p) (actor p)
    · rw [if_pos ⟨hp, hE.1⟩, if_pos hE.2]
      refine Prog.wp_mono (monitor env t).trans_monotone ?_ (request_wp ?_ (deleteAs_wp hE))
      · exact fun _ _ h => h.imp_right .inr
      · exact fun _ h => .inr h
    · refine Prog.wp_mono (monitor env t).trans_monotone ?_
        (request_wp (P := fun s => s = .idle) ?_ (deleteAs_ineffective_wp hE ?_))
      · exact fun _ _ h => h.imp_right .inl
      · exact fun _ h => .inl h
      · by_cases ho : (actor p).role = .owner
        · rw [if_pos ho, if_pos ⟨hp, ho⟩, if_neg fun hr => hE ⟨ho, hr⟩]
        · rw [if_neg ho, if_neg fun h => ho h.2]
  · rw [if_neg hp, if_neg fun h => hp h.1]
    exact .inr (.inl rfl)

/-- The invariant holds before the requests. -/
theorem Inv.init (hroom : w.db.cell .rooms t.row.room_id = ⟨some t.roomRow, none⟩)
    (hfile : w.db.cell .files t.file = ⟨some t.row, none⟩) :
    Inv n (Entitled t room actor n) t w.db (start t room actor n w).phase := by
  have hstage : ∀ q, (start t room actor n w).phase q = .fresh ∧ Entitled t room actor n q ∨
      ((start t room actor n w).phase q = .idle ∨ (start t room actor n w).phase q = .stranger) ∧
        ¬Entitled t room actor n q := by
    intro q
    dsimp only [start]
    split
    · next h =>
      split
      · next hr => exact .inl ⟨rfl, h.1, h.2, hr⟩
      · next hr => exact .inr ⟨.inr rfl, fun hE => hr hE.2.2⟩
    · next h => exact .inr ⟨.inl rfl, fun hE => h ⟨hE.1, hE.2.1⟩⟩
  have hnot : ∀ {q s}, (start t room actor n w).phase q = s →
      s = .fresh ∨ s = .idle ∨ s = .stranger := by
    rintro q s rfl
    rcases hstage q with ⟨h, -⟩ | ⟨h | h, -⟩ <;> rw [h] <;> decide
  have hwins : wins n (start t room actor n w).phase = 0 :=
    tally_eq_zero fun q _ h => by rcases hnot h with h | h | h <;> cases h
  constructor
  case room =>
    rw [Tables.committed, hroom, hwins]
    simp [Target.after]
  case file => rw [Tables.committed, hfile, hwins, if_pos rfl]
  case roomLock => exact fun q v h => by rw [hroom] at h; cases h
  case fileLock => exact fun q v h => by rw [hfile] at h; cases h
  case holdsRoom => exact fun q h => by rcases hnot h with h | h | h <;> cases h
  case holdsFile =>
    rintro q (h | h) <;> rcases hnot h with h | h | h <;> cases h
  case missed => exact fun q h => by rcases hnot h with h | h | h <;> cases h
  case whole => exact fun q h => by rcases hnot h with h | h | h <;> cases h
  case idle =>
    intro q
    rcases hstage q with ⟨h, hE⟩ | ⟨h, hE⟩
    · rw [h]
      exact iff_of_false (by decide) (not_not.2 hE)
    · exact iff_of_true h hE
  case bound => exact fun q h => h.1

section

variable (hroom : w.db.cell .rooms t.row.room_id = ⟨some t.roomRow, none⟩)
  (hfile : w.db.cell .files t.file = ⟨some t.row, none⟩)
  {s : Conf Cmd Resp Err Unit World Stage}

include hroom hfile

/-- The invariant holds in every run. -/
theorem invariant {ok : Guard Cmd World Stage}
    (h : reliable.Reaches (monitor env t) ok (start t room actor n w) s) :
    Inv n (Entitled t room actor n) t s.world.db s.phase ∧
      s.Conforms (monitor env t) (Monitor.orSink .broken fun _ s => s.over) := by
  refine Machine.invariant (I := fun w φ => Inv n (Entitled t room actor n) t w.db φ) ?_ ?_ h
    (Inv.init hroom hfile) start_conforms
  · intro w φ p c x w' I ha _ hx
    exact (I.step ha hx).1
  · intro w φ w' I ht
    rw [World.Tick.db_eq ht]
    exact I

/-- In a careful run at most one request is active. -/
theorem actives_of_careful
    (h : reliable.Reaches (monitor env t) (careful n) (start t room actor n w) s) :
    actives n s.phase ≤ 1 := by
  refine (Machine.invariant (I := fun w φ => Inv n (Entitled t room actor n) t w.db φ ∧
    actives n φ ≤ 1) ?_ ?_ h ⟨Inv.init hroom hfile, ?_⟩ start_conforms).1.2
  · intro w φ p c x w' I ha hc hx
    obtain ⟨I', hm⟩ := I.1.step ha hx
    exact ⟨I', hm.careful_actives I.1 hc I.2⟩
  · intro w φ w' I ht
    rw [World.Tick.db_eq ht]
    exact I
  · refine (tally_eq_zero fun q _ h => ?_).trans_le (Nat.zero_le 1)
    dsimp only [start] at h
    split_ifs at h <;> cases h

/-- A run that ends with at most one active request was careful. -/
theorem careful_of_actives
    (h : reliable.Reaches (monitor env t) Guard.all (start t room actor n w) s)
    (hle : actives n s.phase ≤ 1) :
    reliable.Reaches (monitor env t) (careful n) (start t room actor n w) s := by
  induction h with
  | refl => exact .refl
  | tail hab hbc ih =>
    obtain ⟨I, hC⟩ := invariant hroom hfile hab
    cases hbc with
    | env he => exact (ih hle).tail (.env he)
    | @call p c k x w' hp hok ha =>
      have hc := hC p
      rw [hp] at hc
      obtain ⟨-, hm⟩ := I.step hc.1 ha
      refine (ih (hm.actives_le.trans hle)).tail (.call hp (fun hfresh q hq => ?_) ha)
      by_contra hpend
      have htwo := hm.two_le_actives I next_ne_fresh hfresh hq (by simpa using hpend)
      exact absurd (htwo.trans hle) (by decide)

end

/-- The counters of the room were lowered by exactly one file. -/
def LoweredOnce (t : Target) (db : Db) : Prop :=
  ∃ r, db.committed .rooms t.row.room_id = some r ∧
    r.storage_used_bytes = t.roomRow.storage_used_bytes - t.row.size_bytes ∧
    r.file_count = t.roomRow.file_count - 1

/-- The counters were lowered once for each request that is committed. -/
theorem Inv.loweredOnce_iff (I : Inv n E t db φ) : LoweredOnce t db ↔ wins n φ = 1 := by
  constructor
  · rintro ⟨r, hr, -, hcount⟩
    rw [I.room] at hr
    cases hr
    have hc : t.roomRow.file_count - (wins n φ : ℤ) = t.roomRow.file_count - 1 := hcount
    omega
  · intro h
    refine ⟨_, I.room, ?_, ?_⟩
    · simp [Target.after, h]
    · simp [Target.after, h]

/-- When all requests are over, those that are active are committed. -/
theorem wins_eq_actives {s : Conf Cmd Resp Err Unit World Stage}
    (I : Inv n E t s.world.db s.phase)
    (hC : s.Conforms (monitor env t) (Monitor.orSink .broken fun _ s => s.over))
    (hend : ∀ p < n, (s.proc p).outcome.isSome = true) :
    wins n s.phase = actives n s.phase ∧ ∀ p, E p → s.phase p = .won ∨ s.phase p = .missed := by
  have hover : ∀ p < n, (s.phase p).over := by
    intro p hp
    obtain ⟨x, hx⟩ := Option.isSome_iff_exists.1 (hend p hp)
    exact (Prog.wp_outcome hx (hC p)).resolve_left (I.whole p)
  refine ⟨tally_congr fun p hp => ?_, fun p hE => ?_⟩
  · rcases hover p hp with h | h | h <;> rw [h] <;> decide
  · rcases hover p (I.bound p hE) with h | h | h
    · exact absurd hE ((I.idle p).1 (.inl h))
    · exact .inl h
    · exact .inr h

end deletion

open deletion

/-- For every run of `n` concurrent requests that delete one CONFIRMED file, at least one of them
entitled to: when all are over, the counters of the room have fallen by exactly that file if and
only if no request has read the file while another one that had found it CONFIRMED was still under
way. -/
theorem deletion_lowers_once_iff (env : Env) (t : Target) (n : ℕ) (room : ℕ → Room)
    (actor : ℕ → SessionRecord) (w : World)
    (hroom : w.db.cell .rooms t.row.room_id = ⟨some t.roomRow, none⟩)
    (hfile : w.db.cell .files t.file = ⟨some t.row, none⟩)
    (hsome : ∃ p < n, Effective t (room p) (actor p))
    (s : Conf Cmd Resp Err Unit World Stage)
    (h : reliable.Reaches (monitor env t) Guard.all (start t room actor n w) s)
    (hend : ∀ p < n, (s.proc p).outcome.isSome = true) :
    LoweredOnce t s.world.db ↔
      reliable.Reaches (monitor env t) (careful n) (start t room actor n w) s := by
  obtain ⟨I, hC⟩ := invariant hroom hfile h
  obtain ⟨hwins, hover⟩ := wins_eq_actives I hC hend
  rw [I.loweredOnce_iff, hwins]
  constructor
  · intro hone
    exact careful_of_actives hroom hfile h hone.le
  · intro hcareful
    have hle := actives_of_careful hroom hfile hcareful
    -- The entitled request was committed, or it has found the file deleted by one that was.
    have hpos : 0 < wins n s.phase := by
      obtain ⟨p, hp, hE⟩ := hsome
      rcases hover p ⟨hp, hE⟩ with hs | hs
      · exact tally_pos hp hs
      · exact I.missed p hs
    omega

/-- The room of `FileRow.plain`, which holds another file of the same size. -/
def RoomRow.twoFiles : RoomRow := { RoomRow.plain with storage_used_bytes := 10, file_count := 2 }

/-- A server with one room and one of its files. -/
def World.oneFile : World := .holding [.twoFiles] [] [.plain]

/-- `FileRow.plain` as a target. -/
def deletion.Target.plain : Target := ⟨0, .plain, .twoFiles, rfl⟩

/-- Two requests of the owner, both of which read the file before either is committed, lower the
counters twice. -/
theorem deletion_lowers_twice :
    ∃ s : Conf Cmd Resp Err Unit World Stage,
      reliable.Reaches (monitor .plain .plain) Guard.all (start .plain
        (fun _ => toRoom (0, .twoFiles)) (fun _ => toSession (0, .owner)) 2 .oneFile) s ∧
      (∀ p < 2, (s.proc p).outcome.isSome = true) ∧ ¬LoweredOnce .plain s.world.db := by
  have hrun : ((reliable.play (monitor .plain .plain) Guard.all
      [0, 1, 0, 0, 0, 0, 0, 0, 0, 1, 1, 1, 1, 1, 1, 1]
      (start .plain (fun _ => toRoom (0, .twoFiles)) (fun _ => toSession (0, .owner)) 2
        .oneFile)).map fun s =>
      ((List.range 2).all fun p => (s.proc p).outcome.isSome,
        (s.world.db.committed .rooms 0).map RoomRow.file_count)) = some (true, some 0) := by
    decide
  obtain ⟨s, hs, hd⟩ := Option.map_eq_some_iff.1 hrun
  obtain ⟨hend, hcount⟩ := Prod.mk.inj hd
  refine ⟨s, Machine.play_reaches hs, fun p hp =>
    List.all_eq_true.1 hend p (List.mem_range.2 hp), ?_⟩
  rintro ⟨r, hr, -, h⟩
  change s.world.db.committed .rooms 0 = some r at hr
  rw [hr] at hcount
  rw [Option.some.inj hcount] at h
  revert h
  decide

/-- One request after the other lowers the counters once. -/
theorem deletion_lowers_once_iff_oneFile :
    ∃ s : Conf Cmd Resp Err Unit World Stage,
      reliable.Reaches (monitor .plain .plain) Guard.all (start .plain
        (fun _ => toRoom (0, .twoFiles)) (fun _ => toSession (0, .owner)) 2 .oneFile) s ∧
      LoweredOnce .plain s.world.db := by
  have hrun : ((reliable.play (monitor .plain .plain) (careful 2)
      [0, 0, 0, 0, 0, 0, 0, 0, 1, 1]
      (start .plain (fun _ => toRoom (0, .twoFiles)) (fun _ => toSession (0, .owner)) 2
        .oneFile)).map fun s => (List.range 2).all fun p => (s.proc p).outcome.isSome) =
      some true := by
    decide
  obtain ⟨s, hs, hend⟩ := Option.map_eq_some_iff.1 hrun
  have hcareful := Machine.play_reaches hs
  have hall : reliable.Reaches (monitor .plain .plain) Guard.all _ s :=
    Machine.reaches_mono (fun _ _ _ _ _ => trivial) hcareful
  exact ⟨s, hall, (deletion_lowers_once_iff .plain .plain 2 _ _ .oneFile rfl rfl
    ⟨0, by decide, rfl, rfl⟩ s hall fun p hp =>
      List.all_eq_true.1 hend p (List.mem_range.2 hp)).2 hcareful⟩

end DropRoom
