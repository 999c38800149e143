import DropRoom.Store.Versioned

/-!
# Statements

The statements of a transaction as data, so that a program can issue them and a monitor can tell
them apart, with their meaning on a store. Which rows an `UPDATE` or a `DELETE` matches, and what an
`UPDATE` sets, is given by a `Dialect`. `exec p q s` is the answer to the statement and the store
after it, or `none` while the statement waits for a lock that another transaction than `p` holds.

The lemmas say which cells a statement may change: an `UPDATE` one row of one table, an `INSERT`
one row that nobody has seen, a `DELETE` the rows of one table that match, and none of them a row
that another transaction holds.
-/

namespace DropRoom.Store

/-- The updates `Upd` and the deletes `Del` that are issued on the rows of each table. -/
structure Dialect (T : Type) (Row Upd Del : T → Type) where
  /-- The further condition of an `UPDATE .. WHERE id = i`. -/
  applies : {t : T} → Upd t → Row t → Bool
  /-- The row that an `UPDATE` sets. -/
  set : {t : T} → Upd t → Row t → Row t
  /-- The rows that a `DELETE` matches. -/
  deletes : {t : T} → Del t → ℕ → Row t → Bool

/-- A statement over the tables `T`. -/
inductive Sql (T : Type) (Row Upd Del : T → Type) : Type
  /-- The rows that satisfy a condition. -/
  | select (t : T) (where_ : ℕ → Row t → Bool)
  /-- Update the row with a given number, if it satisfies the update's condition. -/
  | updateAt (t : T) (i : ℕ) (u : Upd t)
  /-- Delete the rows that match. -/
  | deleteWhere (t : T) (d : Del t)
  /-- Insert a row. -/
  | insert (t : T) (r : Row t)
  | commit
  | rollback

namespace Sql

variable {T : Type} {Row Upd Del : T → Type}

/-- What a statement answers: the rows selected, whether the row was updated, how many rows were
deleted, or the number of the row inserted. -/
abbrev Answer : Sql T Row Upd Del → Type
  | .select t _ => List (ℕ × Row t)
  | .updateAt .. => Bool
  | .deleteWhere .. => ℕ
  | .insert .. => ℕ
  | .commit => Unit
  | .rollback => Unit

variable [DecidableEq T] (D : Dialect T Row Upd Del)

/-- Execute a statement of transaction `p`. -/
def exec (p : ℕ) : (q : Sql T Row Upd Del) → Tables T Row → Option (q.Answer × Tables T Row)
  | .select t where_, s => some (s.select p t where_, s)
  | .updateAt t i u, s => s.updateAt p t i (D.applies u) (D.set u)
  | .deleteWhere t d, s => s.deleteWhere p t (D.deletes d)
  | .insert t r, s => some (s.insert p t r)
  | .commit, s => some ((), s.commit p)
  | .rollback, s => some ((), s.rollback p)

variable {D} {p : ℕ} {s s' : Tables T Row} {t t' : T} {i j : ℕ}

/-- An `UPDATE` leaves every other row alone. -/
theorem updateAt_cell_of_ne {cond : Row t → Bool} {set : Row t → Row t} {b : Bool}
    (h : s.updateAt p t i cond set = some (b, s')) (hj : j ≠ i) : s'.cell t j = s.cell t j := by
  rcases Tables.updateAt_cases h with ⟨-, rfl, -⟩ | ⟨-, r, -, -, -, rfl⟩
  · rfl
  · exact Tables.cell_setCell_of_ne hj

/-- An `UPDATE` leaves every other table alone. -/
theorem updateAt_cell_of_table {cond : Row t → Bool} {set : Row t → Row t} {b : Bool}
    (h : s.updateAt p t i cond set = some (b, s')) (ht : t' ≠ t) :
    s'.cell t' j = s.cell t' j := by
  rcases Tables.updateAt_cases h with ⟨-, rfl, -⟩ | ⟨-, r, -, -, -, rfl⟩
  · rfl
  · exact Tables.cell_setCell_of_table ht

/-- A `DELETE` leaves every other table alone. -/
theorem deleteWhere_cell_of_table {where_ : ℕ → Row t → Bool} {n : ℕ}
    (h : s.deleteWhere p t where_ = some (n, s')) (ht : t' ≠ t) :
    s'.cell t' j = s.cell t' j := by
  obtain ⟨-, -, -, hne⟩ := Tables.deleteWhere_cases h
  simp [Tables.cell, hne t' ht]

omit [DecidableEq T] in
/-- The version that a transaction sees decides whether a `DELETE` hits a row. -/
theorem deletes_iff {where_ : ℕ → Row t → Bool} :
    Tables.deletes p where_ i (s.cell t i) = true ↔
      ∃ r, s.get p t i = some r ∧ where_ i r = true := by
  unfold Tables.deletes Tables.get
  cases (s.cell t i).view p <;> simp

/-- A row of a `DELETE` after it. -/
theorem deleteWhere_cell {where_ : ℕ → Row t → Bool} {n : ℕ}
    (h : s.deleteWhere p t where_ = some (n, s')) (j : ℕ) :
    (s'.cell t j = s.cell t j ∧ ∀ r, s.get p t j = some r → where_ j r = false) ∨
      (∃ r, s.get p t j = some r ∧ where_ j r = true ∧ (s.cell t j).heldByOther p = false ∧
        s'.cell t j = (s.cell t j).write p none) := by
  obtain ⟨-, hcell, hheld, -⟩ := Tables.deleteWhere_cases h
  by_cases hd : Tables.deletes p where_ j (s.cell t j) = true
  · obtain ⟨r, hr, hw⟩ := deletes_iff.1 hd
    exact .inr ⟨r, hr, hw, hheld j hd, by rw [hcell, if_pos hd]⟩
  · refine .inl ⟨by rw [hcell, if_neg hd], fun r hr => ?_⟩
    by_contra hw
    exact hd (deletes_iff.2 ⟨r, hr, by simpa using hw⟩)

end Sql

end DropRoom.Store
