import Mathlib.Data.List.Nodup
import Mathlib.Logic.Function.Basic
import Mathlib.Tactic.Common

/-!
# Tables of versioned rows

A store is a family of tables, indexed by `T`, whose rows are numbered in the order of their
insertion. Each row is a cell: its committed version, and the version that a transaction which
holds the row's lock has written but not committed. Every statement of a transaction sees the
latest committed rows and its own writes, so this is the isolation level READ COMMITTED. A
statement that would write a row held by another transaction is not executed (`none`): it waits,
and reads the row again once the lock is released. A condition that the visible version does not
satisfy is false without waiting.

A cell has at most one lock holder by its type. A row that a transaction inserts has no committed
version, so it is visible to that transaction alone until it commits.
-/

namespace DropRoom.Store

/-- A row's committed version, and the transaction that holds its lock with the version that it
would commit. An absent version is a row that does not exist. -/
structure Cell (α : Type) where
  committed : Option α
  lock : Option (ℕ × Option α)
  deriving DecidableEq

namespace Cell

variable {α : Type} {p q : ℕ}

/-- The cell of a row that was never inserted. -/
def empty : Cell α := ⟨none, none⟩

/-- The version that transaction `p` sees. -/
def view (p : ℕ) (c : Cell α) : Option α :=
  match c.lock with
  | some (q, v) => if q = p then v else c.committed
  | none => c.committed

/-- Another transaction than `p` holds the lock. -/
def heldByOther (p : ℕ) (c : Cell α) : Bool :=
  match c.lock with
  | some (q, _) => q != p
  | none => false

/-- Transaction `p` locks the row and writes a version. -/
def write (p : ℕ) (v : Option α) (c : Cell α) : Cell α := ⟨c.committed, some (p, v)⟩

/-- The version of `p`, if it holds the lock, becomes the committed one. -/
def commit (p : ℕ) (c : Cell α) : Cell α :=
  match c.lock with
  | some (q, v) => if q = p then ⟨v, none⟩ else c
  | none => c

/-- The version of `p`, if it holds the lock, is dropped. -/
def rollback (p : ℕ) (c : Cell α) : Cell α :=
  match c.lock with
  | some (q, _) => if q = p then ⟨c.committed, none⟩ else c
  | none => c

/-- A write commits nothing. -/
@[simp] theorem view_empty : (empty : Cell α).view p = none := rfl
@[simp] theorem committed_empty : (empty : Cell α).committed = none := rfl
@[simp] theorem lock_empty : (empty : Cell α).lock = none := rfl
@[simp] theorem commit_empty : (empty : Cell α).commit p = empty := rfl
@[simp] theorem rollback_empty : (empty : Cell α).rollback p = empty := rfl
@[simp] theorem committed_write (v : Option α) (c : Cell α) :
    (c.write p v).committed = c.committed := rfl
/-- A write locks the cell. -/
@[simp] theorem lock_write (v : Option α) (c : Cell α) : (c.write p v).lock = some (p, v) := rfl

/-- The transaction that holds the lock sees its own version. -/
theorem view_of_lock {c : Cell α} {v : Option α} (h : c.lock = some (p, v)) : c.view p = v := by
  simp [view, h]

/-- A transaction that does not hold the lock sees the committed version. -/
theorem view_of_ne {c : Cell α} (h : ∀ v, c.lock ≠ some (p, v)) : c.view p = c.committed := by
  unfold view
  split
  · next q v hl =>
    have hq : q ≠ p := fun e => h v (e ▸ hl)
    simp [hq]
  · rfl

/-- A free row is seen as committed. -/
theorem view_of_free {c : Cell α} (h : c.lock = none) : c.view p = c.committed := by
  simp [view, h]

/-- The process sees its own write. -/
@[simp] theorem view_write (v : Option α) (c : Cell α) : (c.write p v).view p = v := by
  simp [view, write]

/-- A write is invisible to the other transactions, unless it takes a row of theirs. -/
theorem view_write_of_ne {c : Cell α} (v : Option α) (hq : q ≠ p) (h : c.heldByOther p = false) :
    (c.write p v).view q = c.view q := by
  rw [view_of_ne (c := c)]
  · simp [view, write, hq.symm]
  · intro v' hv
    simp [heldByOther, hv, hq] at h

/-- A row that no other transaction holds is free, or held by `p` itself. -/
theorem heldByOther_eq_false {c : Cell α} :
    c.heldByOther p = false ↔ c.lock = none ∨ ∃ v, c.lock = some (p, v) := by
  unfold heldByOther
  split
  · next q v hl =>
    constructor
    · intro h
      have hq : q = p := by simpa using h
      exact .inr ⟨v, hq ▸ hl⟩
    · rintro (h | ⟨v', h⟩)
      · simp [h] at hl
      · simp [h] at hl
        simp [hl.1]
  · next hl => simp [hl]

/-- After a commit the cell is free, or another process has it. -/
@[simp] theorem lock_commit (c : Cell α) :
    (c.commit p).lock = none ∨ (∃ q v, q ≠ p ∧ c.lock = some (q, v) ∧ c.commit p = c) := by
  unfold commit
  split
  · next q v hl =>
    by_cases hq : q = p
    · simp [hq]
    · exact .inr ⟨q, v, hq, hl, by simp [hq]⟩
  · next hl => exact .inl hl

/-- A commit leaves the rows of the other transactions alone. -/
theorem commit_of_ne {c : Cell α} (h : ∀ v, c.lock ≠ some (p, v)) : c.commit p = c := by
  unfold commit
  split
  · next q v hl =>
    have hq : q ≠ p := fun e => h v (e ▸ hl)
    simp [hq]
  · rfl

/-- A commit publishes the version of the lock holder and frees the row. -/
theorem commit_of_lock {c : Cell α} {v : Option α} (h : c.lock = some (p, v)) :
    c.commit p = ⟨v, none⟩ := by
  simp [commit, h]

/-- A rollback leaves the rows of the other transactions alone. -/
theorem rollback_of_ne {c : Cell α} (h : ∀ v, c.lock ≠ some (p, v)) : c.rollback p = c := by
  unfold rollback
  split
  · next q v hl =>
    have hq : q ≠ p := fun e => h v (e ▸ hl)
    simp [hq]
  · rfl

/-- A rollback drops the version of the lock holder and frees the row. -/
theorem rollback_of_lock {c : Cell α} {v : Option α} (h : c.lock = some (p, v)) :
    c.rollback p = ⟨c.committed, none⟩ := by
  simp [rollback, h]

/-- What `p` commits is what `p` saw. -/
theorem committed_commit (c : Cell α) : (c.commit p).committed = c.view p := by
  unfold commit view
  split
  · next q v hl => by_cases hq : q = p <;> simp [hq]
  · rfl

/-- A rollback changes no committed version. -/
@[simp] theorem committed_rollback (c : Cell α) : (c.rollback p).committed = c.committed := by
  unfold rollback
  split
  · next q v hl => by_cases hq : q = p <;> simp [hq]
  · rfl

end Cell

/-- A family of tables of versioned rows. -/
abbrev Tables (T : Type) (Row : T → Type) : Type := (t : T) → List (Cell (Row t))

namespace Tables

variable {T : Type} {Row : T → Type} (s : Tables T Row) (p : ℕ)

/-- The cell of a row number. -/
def cell (t : T) (i : ℕ) : Cell (Row t) := (s t)[i]?.getD Cell.empty

/-- The version of a row that transaction `p` sees. -/
def get (t : T) (i : ℕ) : Option (Row t) := (s.cell t i).view p

/-- The committed version of a row. -/
def committed (t : T) (i : ℕ) : Option (Row t) := (s.cell t i).committed

/-- `SELECT * FROM t WHERE ..`, in the order of insertion, with the row numbers. -/
def select (t : T) (where_ : ℕ → Row t → Bool) : List (ℕ × Row t) :=
  (List.range (s t).length).filterMap fun i =>
    (s.get p t i).bind fun r => if where_ i r then some (i, r) else none

/-- The row is one that a `DELETE .. WHERE` of transaction `p` deletes. -/
def deletes {α : Type} (where_ : ℕ → α → Bool) (i : ℕ) (c : Cell α) : Bool :=
  match c.view p with
  | some r => where_ i r
  | none => false

/-- `COMMIT`. -/
def commit : Tables T Row := fun t => (s t).map (Cell.commit p)

/-- `ROLLBACK`. -/
def rollback : Tables T Row := fun t => (s t).map (Cell.rollback p)

section

variable {s p} {t : T} {i : ℕ}

/-- A row that is seen was inserted. -/
theorem lt_length_of_get {r : Row t} (h : s.get p t i = some r) : i < (s t).length := by
  by_contra hn
  rw [get, cell, List.getElem?_eq_none (Nat.le_of_not_lt hn)] at h
  simp at h

/-- A row that is committed was inserted. -/
theorem lt_length_of_committed {r : Row t} (h : s.committed t i = some r) :
    i < (s t).length := by
  by_contra hn
  rw [committed, cell, List.getElem?_eq_none (Nat.le_of_not_lt hn)] at h
  simp at h

/-- A row number that is not yet in use has an empty cell. -/
theorem cell_length : s.cell t (s t).length = Cell.empty := by
  simp [cell]

/-- A commit goes through all cells. -/
@[simp] theorem cell_commit (t : T) (i : ℕ) : (s.commit p).cell t i = (s.cell t i).commit p := by
  simp only [cell, commit, List.getElem?_map]
  cases (s t)[i]? <;> simp

/-- A rollback goes through all cells. -/
@[simp] theorem cell_rollback (t : T) (i : ℕ) :
    (s.rollback p).cell t i = (s.cell t i).rollback p := by
  simp only [cell, rollback, List.getElem?_map]
  cases (s t)[i]? <;> simp

/-- A commit publishes what the transaction sees. -/
theorem committed_commit (t : T) (i : ℕ) : (s.commit p).committed t i = s.get p t i := by
  rw [committed, cell_commit, Cell.committed_commit]
  rfl

/-- The rows that a `SELECT` returns. -/
theorem mem_select {where_ : ℕ → Row t → Bool} {r : Row t} :
    (i, r) ∈ s.select p t where_ ↔ s.get p t i = some r ∧ where_ i r = true := by
  simp only [select, List.mem_filterMap, List.mem_range, Option.bind_eq_some_iff]
  constructor
  · rintro ⟨j, -, r', hr, h⟩
    split_ifs at h with hw
    cases h
    exact ⟨hr, hw⟩
  · rintro ⟨hr, hw⟩
    exact ⟨i, lt_length_of_get hr, r, hr, by simp [hw]⟩

/-- No row is returned twice. -/
theorem nodup_select (where_ : ℕ → Row t → Bool) : (s.select p t where_).Nodup := by
  refine List.Nodup.filterMap (fun i j x hi hj => ?_) List.nodup_range
  simp only [Option.mem_def, Option.bind_eq_some_iff] at hi hj
  obtain ⟨r, -, hr⟩ := hi
  obtain ⟨r', -, hr'⟩ := hj
  split_ifs at hr hr'
  cases hr
  cases hr'
  rfl

/-- A `SELECT` that a single row satisfies returns it. -/
theorem select_eq_singleton {where_ : ℕ → Row t → Bool} {r : Row t}
    (hr : s.get p t i = some r) (hw : where_ i r = true)
    (huniq : ∀ j r', s.get p t j = some r' → where_ j r' = true → j = i) :
    s.select p t where_ = [(i, r)] := by
  have hmem : ∀ x ∈ s.select p t where_, x = (i, r) := by
    rintro ⟨j, r'⟩ hx
    obtain ⟨hr', hw'⟩ := mem_select.1 hx
    obtain rfl := huniq j r' hr' hw'
    rw [hr] at hr'
    rw [Option.some.inj hr']
  have hin : (i, r) ∈ s.select p t where_ := mem_select.2 ⟨hr, hw⟩
  cases hl : s.select p t where_ with
  | nil => rw [hl] at hin; cases hin
  | cons x l =>
    have hnd := nodup_select (s := s) (p := p) where_
    rw [hl] at hmem hnd
    obtain rfl := hmem x List.mem_cons_self
    cases l with
    | nil => rfl
    | cons y l =>
      obtain rfl := hmem y (List.mem_cons_of_mem _ List.mem_cons_self)
      simp at hnd

/-! ## One transaction alone -/

variable (s p) in
/-- No row is locked. -/
def Free : Prop := ∀ t i, (s.cell t i).lock = none

variable (s p) in
/-- No row is locked by another transaction than `p`. -/
def Alone : Prop := ∀ t i, (s.cell t i).heldByOther p = false

/-- A store without locks has a single transaction, whichever it is. -/
theorem Free.alone (h : s.Free) (p : ℕ) : s.Alone p :=
  fun t i => Cell.heldByOther_eq_false.2 (.inl (h t i))

/-- Without locks every transaction sees the committed rows. -/
theorem Free.get_eq (h : s.Free) (t : T) (i : ℕ) : s.get p t i = s.committed t i :=
  Cell.view_of_free (h t i)

/-- A single transaction that commits leaves no lock. -/
theorem Alone.free_commit (h : s.Alone p) : (s.commit p).Free := by
  intro t i
  rw [cell_commit]
  rcases Cell.heldByOther_eq_false.1 (h t i) with hl | ⟨v, hl⟩
  · rw [Cell.commit_of_ne (by simp [hl])]
    exact hl
  · rw [Cell.commit_of_lock hl]

/-- A single transaction that rolls back leaves no lock. -/
theorem Alone.free_rollback (h : s.Alone p) : (s.rollback p).Free := by
  intro t i
  rw [cell_rollback]
  rcases Cell.heldByOther_eq_false.1 (h t i) with hl | ⟨v, hl⟩
  · rw [Cell.rollback_of_ne (by simp [hl])]
    exact hl
  · rw [Cell.rollback_of_lock hl]

end

variable [DecidableEq T]

/-- Replace the cell of a row that exists. -/
def setCell (t : T) (i : ℕ) (c : Cell (Row t)) : Tables T Row :=
  Function.update s t ((s t).set i c)

/-- `UPDATE t SET .. WHERE id = i AND ..`, with whether the row was updated. -/
def updateAt (t : T) (i : ℕ) (cond : Row t → Bool) (set : Row t → Row t) :
    Option (Bool × Tables T Row) :=
  match s.get p t i with
  | some r =>
    if cond r then
      if (s.cell t i).heldByOther p then none
      else some (true, s.setCell t i ((s.cell t i).write p (some (set r))))
    else some (false, s)
  | none => some (false, s)

/-- `DELETE FROM t WHERE ..`, with the number of rows deleted. -/
def deleteWhere (t : T) (where_ : ℕ → Row t → Bool) : Option (ℕ × Tables T Row) :=
  if (s t).zipIdx.any fun ci => deletes p where_ ci.2 ci.1 && ci.1.heldByOther p then none
  else some ((s.select p t where_).length, Function.update s t
    ((s t).mapIdx fun i c => if deletes p where_ i c then c.write p none else c))

/-- `INSERT INTO t`, with the number of the new row. -/
def insert (t : T) (r : Row t) : ℕ × Tables T Row :=
  ((s t).length, Function.update s t (s t ++ [⟨none, some (p, some r)⟩]))

variable {s p} {t : T} {i : ℕ}

/-- The cell that was set. -/
theorem cell_setCell_self {c : Cell (Row t)} (h : i < (s t).length) :
    (s.setCell t i c).cell t i = c := by
  simp [cell, setCell, h]

/-- The other cells of the table. -/
theorem cell_setCell_of_ne {c : Cell (Row t)} {j : ℕ} (h : j ≠ i) :
    (s.setCell t i c).cell t j = s.cell t j := by
  simp [cell, setCell, h.symm]

/-- The other tables. -/
theorem cell_setCell_of_table {c : Cell (Row t)} {t' : T} {j : ℕ} (h : t' ≠ t) :
    (s.setCell t i c).cell t' j = s.cell t' j := by
  simp [cell, setCell, h]

/-- The new cell is locked by its process. -/
theorem cell_insert_self (r : Row t) :
    (s.insert p t r).2.cell t (s t).length = ⟨none, some (p, some r)⟩ := by
  simp [cell, insert]

/-- The other cells of the table. -/
theorem cell_insert_of_ne (r : Row t) {j : ℕ} (h : j ≠ (s t).length) :
    (s.insert p t r).2.cell t j = s.cell t j := by
  rcases Nat.lt_or_gt_of_ne h with hlt | hgt
  · simp [cell, insert, List.getElem?_append_left hlt]
  · have h1 : (s t)[j]? = none := List.getElem?_eq_none (Nat.le_of_lt hgt)
    have h2 : (s t ++ [(⟨none, some (p, some r)⟩ : Cell (Row t))])[j]? = none :=
      List.getElem?_eq_none (by rw [List.length_append]; exact hgt)
    simp only [cell, insert, Function.update_self, h1, h2]

/-- The other tables. -/
theorem cell_insert_of_table (r : Row t) {t' : T} {j : ℕ} (h : t' ≠ t) :
    (s.insert p t r).2.cell t' j = s.cell t' j := by
  simp [cell, insert, h]

/-- What an `UPDATE` does: nothing when no visible row matches; otherwise it waits for the row's
lock, and then writes the row. -/
theorem updateAt_cases {cond : Row t → Bool} {set : Row t → Row t} {b : Bool}
    {s' : Tables T Row} (h : s.updateAt p t i cond set = some (b, s')) :
    (b = false ∧ s' = s ∧ ∀ r, s.get p t i = some r → cond r = false) ∨
      (b = true ∧ ∃ r, s.get p t i = some r ∧ cond r = true ∧
        (s.cell t i).heldByOther p = false ∧
        s' = s.setCell t i ((s.cell t i).write p (some (set r)))) := by
  unfold updateAt at h
  split at h
  · next r hr =>
    split_ifs at h with hc hl
    · cases h
      exact .inr ⟨rfl, r, hr, hc, by simpa using hl, rfl⟩
    · cases h
      refine .inl ⟨rfl, rfl, fun r' hr' => ?_⟩
      rw [hr] at hr'
      cases hr'
      simpa using hc
  · next hr =>
    cases h
    exact .inl ⟨rfl, rfl, fun r' hr' => by rw [hr] at hr'; cases hr'⟩

/-- An `UPDATE` of a row that no other transaction holds does not wait. -/
theorem exists_updateAt (h : (s.cell t i).heldByOther p = false) (cond : Row t → Bool)
    (set : Row t → Row t) : ∃ b s', s.updateAt p t i cond set = some (b, s') := by
  unfold updateAt
  split
  · split_ifs with hc hl
    · rw [h] at hl
      cases hl
    · exact ⟨true, _, rfl⟩
    · exact ⟨false, s, rfl⟩
  · exact ⟨false, s, rfl⟩

/-- What a `DELETE` does: it waits for the locks of the rows that match and deletes them. -/
theorem deleteWhere_cases {where_ : ℕ → Row t → Bool} {n : ℕ} {s' : Tables T Row}
    (h : s.deleteWhere p t where_ = some (n, s')) :
    n = (s.select p t where_).length ∧
      (∀ j, s'.cell t j = if deletes p where_ j (s.cell t j) then (s.cell t j).write p none
        else s.cell t j) ∧
      (∀ j, deletes p where_ j (s.cell t j) = true → (s.cell t j).heldByOther p = false) ∧
      ∀ t' ≠ t, s' t' = s t' := by
  unfold deleteWhere at h
  split_ifs at h with hany
  cases h
  refine ⟨rfl, fun j => ?_, fun j hj => ?_, fun t' ht => by simp [ht]⟩
  · rw [cell, Function.update_self, List.getElem?_mapIdx, cell]
    cases hj : (s t)[j]? with
    | none => simp [deletes]
    | some c => simp
  · by_contra hl
    apply hany
    rw [List.any_eq_true]
    cases hc : (s t)[j]? with
    | none => simp [cell, hc, deletes] at hj
    | some c =>
      simp only [cell, hc, Option.getD_some] at hj hl
      exact ⟨(c, j), by simpa [List.mem_zipIdx_iff_getElem?] using hc, by simp [hj, hl]⟩

end Tables

end DropRoom.Store
