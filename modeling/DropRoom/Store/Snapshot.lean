import DropRoom.Store.Sql

/-!
# One transaction at a time

While a single transaction is open, no statement waits, and the tables are known from two versions
of each row: what the transaction sees and what is committed. `Snapshot` holds these as functions of
the row number, so an `UPDATE` is the update of a function, and `exec` is total. `exec_of` says that
the tables of versioned rows do the same.
-/

namespace DropRoom.Store

/-- The rows that a transaction sees, the committed rows, and how many rows were inserted. -/
structure Snapshot (T : Type) (Row : T → Type) where
  rows : (t : T) → ℕ → Option (Row t)
  saved : (t : T) → ℕ → Option (Row t)
  count : T → ℕ
  /-- Only rows that were inserted are seen. -/
  rows_lt : ∀ t i r, rows t i = some r → i < count t
  /-- Only rows that were inserted are committed. -/
  saved_lt : ∀ t i r, saved t i = some r → i < count t

namespace Snapshot

variable {T : Type} {Row Upd Del : T → Type}

/-- Two snapshots with the same rows, saved rows and counts are the same. -/
@[ext]
theorem ext {s s' : Snapshot T Row} (hrows : s.rows = s'.rows) (hsaved : s.saved = s'.saved)
    (hcount : s.count = s'.count) : s = s' := by
  cases s
  cases s'
  cases hrows
  cases hsaved
  cases hcount
  rfl

/-- What transaction `p` sees of the tables, and what is committed. -/
def of (p : ℕ) (s : Tables T Row) : Snapshot T Row where
  rows t i := s.get p t i
  saved t i := s.committed t i
  count t := (s t).length
  rows_lt _ _ _ h := Tables.lt_length_of_get h
  saved_lt _ _ _ h := Tables.lt_length_of_committed h

/-- The rows that a `SELECT` returns. -/
def select (s : Snapshot T Row) (t : T) (where_ : ℕ → Row t → Bool) : List (ℕ × Row t) :=
  (List.range (s.count t)).filterMap fun i =>
    (s.rows t i).bind fun r => if where_ i r then some (i, r) else none

/-- `COMMIT`. -/
def commit (s : Snapshot T Row) : Snapshot T Row :=
  { s with saved := s.rows, saved_lt := s.rows_lt }

/-- `ROLLBACK`. -/
def rollback (s : Snapshot T Row) : Snapshot T Row :=
  { s with rows := s.saved, rows_lt := s.saved_lt }

section

variable {s : Snapshot T Row}

/-- A number that was given out is not given out again. -/
@[simp] theorem rows_commit : s.commit.rows = s.rows := rfl
@[simp] theorem saved_commit : s.commit.saved = s.rows := rfl
@[simp] theorem count_commit : s.commit.count = s.count := rfl
@[simp] theorem rows_rollback : s.rollback.rows = s.saved := rfl
@[simp] theorem saved_rollback : s.rollback.saved = s.saved := rfl
@[simp] theorem count_rollback : s.rollback.count = s.count := rfl

end

variable [DecidableEq T]

/-- The transaction writes a row that was inserted before. -/
def set (s : Snapshot T Row) (t : T) (i : ℕ) (v : Option (Row t)) : Snapshot T Row :=
  if h : i < s.count t then { s with
    rows := Function.update s.rows t (Function.update (s.rows t) i v)
    rows_lt := by
      intro t' j r hr
      by_cases ht : t' = t
      · subst ht
        rw [Function.update_self] at hr
        by_cases hj : j = i
        · exact hj ▸ h
        · rw [Function.update_of_ne hj] at hr
          exact s.rows_lt _ _ _ hr
      · rw [Function.update_of_ne ht] at hr
        exact s.rows_lt _ _ _ hr }
  else s

/-- `UPDATE t SET .. WHERE id = i AND ..`. -/
def updateAt (s : Snapshot T Row) (t : T) (i : ℕ) (cond : Row t → Bool) (f : Row t → Row t) :
    Bool × Snapshot T Row :=
  match s.rows t i with
  | some r => if cond r then (true, s.set t i (some (f r))) else (false, s)
  | none => (false, s)

/-- The rows but for those that match. -/
def drop (s : Snapshot T Row) (t : T) (where_ : ℕ → Row t → Bool) : Snapshot T Row :=
  { s with
    rows := Function.update s.rows t fun i => (s.rows t i).filter fun r => !where_ i r
    rows_lt := by
      intro t' j r hr
      by_cases ht : t' = t
      · subst ht
        rw [Function.update_self, Option.filter_eq_some_iff] at hr
        exact s.rows_lt _ _ _ hr.1
      · rw [Function.update_of_ne ht] at hr
        exact s.rows_lt _ _ _ hr }

/-- `DELETE FROM t WHERE ..`. -/
def deleteWhere (s : Snapshot T Row) (t : T) (where_ : ℕ → Row t → Bool) : ℕ × Snapshot T Row :=
  ((s.select t where_).length, s.drop t where_)

/-- The tables with a new row. -/
def add (s : Snapshot T Row) (t : T) (r : Row t) : Snapshot T Row where
  rows := Function.update s.rows t (Function.update (s.rows t) (s.count t) (some r))
  saved := s.saved
  count := Function.update s.count t (s.count t + 1)
  rows_lt := by
    intro t' j r' hr
    by_cases ht : t' = t
    · subst ht
      rw [Function.update_self] at hr ⊢
      by_cases hj : j = s.count t'
      · omega
      · rw [Function.update_of_ne hj] at hr
        exact Nat.lt_succ_of_lt (s.rows_lt _ _ _ hr)
    · rw [Function.update_of_ne ht] at hr ⊢
      exact s.rows_lt _ _ _ hr
  saved_lt := by
    intro t' j r' hr
    have hlt := s.saved_lt _ _ _ hr
    by_cases ht : t' = t
    · subst ht
      rw [Function.update_self]
      exact Nat.lt_succ_of_lt hlt
    · rwa [Function.update_of_ne ht]

/-- `INSERT INTO t`. -/
def insert (s : Snapshot T Row) (t : T) (r : Row t) : ℕ × Snapshot T Row := (s.count t, s.add t r)

/-- Execute a statement. -/
def exec (D : Dialect T Row Upd Del) :
    (q : Sql T Row Upd Del) → Snapshot T Row → q.Answer × Snapshot T Row
  | .select t where_, s => (s.select t where_, s)
  | .updateAt t i u, s => s.updateAt t i (D.applies u) (D.set u)
  | .deleteWhere t d, s => s.deleteWhere t (D.deletes d)
  | .insert t r, s => s.insert t r
  | .commit, s => ((), s.commit)
  | .rollback, s => ((), s.rollback)

section

variable {s : Snapshot T Row} {t t' : T} {i j : ℕ} {v : Option (Row t)}

/-- The row that was written. -/
theorem rows_set_self (h : i < s.count t) : (s.set t i v).rows t i = v := by simp [set, h]

/-- The other rows of the table. -/
@[simp] theorem rows_set_of_ne (h : j ≠ i) : (s.set t i v).rows t j = s.rows t j := by
  unfold set
  split <;> simp [h]

/-- The other tables. -/
@[simp] theorem rows_set_of_table (h : t' ≠ t) : (s.set t i v).rows t' = s.rows t' := by
  unfold set
  split <;> simp [h]

/-- A write saves nothing. -/
@[simp] theorem saved_set : (s.set t i v).saved = s.saved := by
  unfold set
  split <;> rfl

/-- A write makes no row. -/
@[simp] theorem count_set : (s.set t i v).count = s.count := by
  unfold set
  split <;> rfl

/-- Writing what is there already. -/
theorem set_eq_self {r : Row t} (h : s.rows t i = some r) : s.set t i (some r) = s := by
  have hrows : Function.update s.rows t (Function.update (s.rows t) i (some r)) = s.rows := by
    rw [← h, Function.update_eq_self, Function.update_eq_self]
  refine ext ?_ saved_set count_set
  rw [set, dif_pos (s.rows_lt t i r h)]
  exact hrows

/-- The new row. -/
@[simp] theorem rows_add_self {r : Row t} : (s.add t r).rows t (s.count t) = some r := by
  simp [add]

/-- The other rows of the table. -/
@[simp] theorem rows_add_of_ne {r : Row t} (h : j ≠ s.count t) :
    (s.add t r).rows t j = s.rows t j := by
  simp [add, h]

/-- The other tables. -/
@[simp] theorem rows_add_of_table {r : Row t} (h : t' ≠ t) : (s.add t r).rows t' = s.rows t' := by
  simp [add, h]

/-- An insertion saves nothing. -/
@[simp] theorem saved_add {r : Row t} : (s.add t r).saved = s.saved := rfl

/-- The next number is given out. -/
@[simp] theorem count_add_self {r : Row t} : (s.add t r).count t = s.count t + 1 := by simp [add]

/-- The rows that do not meet the condition stay. -/
@[simp] theorem rows_drop {where_ : ℕ → Row t → Bool} :
    (s.drop t where_).rows t i = (s.rows t i).filter fun r => !where_ i r := by
  simp [drop]

/-- The other tables. -/
@[simp] theorem rows_drop_of_table {where_ : ℕ → Row t → Bool} (h : t' ≠ t) :
    (s.drop t where_).rows t' = s.rows t' := by
  simp [drop, h]

/-- A deletion saves nothing. -/
@[simp] theorem saved_drop {where_ : ℕ → Row t → Bool} : (s.drop t where_).saved = s.saved := rfl

/-- A number that was given out is not given out again. -/
@[simp] theorem count_drop {where_ : ℕ → Row t → Bool} : (s.drop t where_).count = s.count := rfl

/-- An `UPDATE` of a row that matches. -/
theorem updateAt_of_some {cond : Row t → Bool} {f : Row t → Row t} {r : Row t}
    (hr : s.rows t i = some r) (hc : cond r = true) :
    s.updateAt t i cond f = (true, s.set t i (some (f r))) := by
  unfold updateAt
  rw [hr]
  exact if_pos hc

/-- An `UPDATE` of a row that does not match. -/
theorem updateAt_of_none {cond : Row t → Bool} {f : Row t → Row t}
    (hr : ∀ r, s.rows t i = some r → cond r = false) : s.updateAt t i cond f = (false, s) := by
  unfold updateAt
  cases h : s.rows t i with
  | none => rfl
  | some r => exact if_neg (by rw [hr r h]; exact Bool.false_ne_true)

/-- Only a `COMMIT` changes what is committed. -/
theorem saved_exec {D : Dialect T Row Upd Del} {q : Sql T Row Upd Del} (hq : q ≠ .commit) :
    (exec D q s).2.saved = s.saved := by
  cases q with
  | updateAt t i u =>
    simp only [exec, updateAt]
    split
    · split
      · exact saved_set
      · rfl
    · rfl
  | commit => exact absurd rfl hq
  | _ => rfl

omit [DecidableEq T] in
/-- The rows that a `SELECT` returns are those that match. -/
theorem mem_select {where_ : ℕ → Row t → Bool} {r : Row t} :
    (i, r) ∈ s.select t where_ ↔ s.rows t i = some r ∧ where_ i r = true := by
  simp only [select, List.mem_filterMap, List.mem_range, Option.bind_eq_some_iff]
  constructor
  · rintro ⟨j, -, r', hr, h⟩
    split_ifs at h with hw
    cases h
    exact ⟨hr, hw⟩
  · rintro ⟨hr, hw⟩
    exact ⟨i, s.rows_lt t i r hr, r, hr, by simp [hw]⟩

omit [DecidableEq T] in
/-- No row is returned twice. -/
theorem nodup_select (where_ : ℕ → Row t → Bool) : (s.select t where_).Nodup := by
  refine List.Nodup.filterMap (fun i j x hi hj => ?_) List.nodup_range
  simp only [Option.mem_def, Option.bind_eq_some_iff] at hi hj
  obtain ⟨r, -, hr⟩ := hi
  obtain ⟨r', -, hr'⟩ := hj
  split_ifs at hr hr'
  cases hr
  cases hr'
  rfl

omit [DecidableEq T] in
/-- A `SELECT` that at most one row satisfies returns at most one row. -/
theorem select_cases {where_ : ℕ → Row t → Bool} (huniq : ∀ i j r r', s.rows t i = some r →
    where_ i r = true → s.rows t j = some r' → where_ j r' = true → i = j) :
    s.select t where_ = [] ∨ ∃ x, s.select t where_ = [x] := by
  have hsame : ∀ x ∈ s.select t where_, ∀ y ∈ s.select t where_, x = y := by
    rintro ⟨i, r⟩ hx ⟨j, r'⟩ hy
    obtain ⟨hr, hw⟩ := mem_select.1 hx
    obtain ⟨hr', hw'⟩ := mem_select.1 hy
    obtain rfl := huniq i j r r' hr hw hr' hw'
    rw [hr] at hr'
    rw [Option.some.inj hr']
  have hnodup := s.nodup_select (t := t) where_
  cases hl : s.select t where_ with
  | nil => exact .inl rfl
  | cons x l =>
    refine .inr ⟨x, ?_⟩
    rw [hl] at hsame hnodup
    cases l with
    | nil => rfl
    | cons y l =>
      have hxy := hsame x List.mem_cons_self y (List.mem_cons_of_mem _ List.mem_cons_self)
      rw [hxy] at hnodup
      simp at hnodup

omit [DecidableEq T] in
/-- A `SELECT` by the number of a row. -/
theorem select_at {where_ : ℕ → Row t → Bool} (h : ∀ j r, where_ j r = true → j = i) :
    s.select t where_ = ((s.rows t i).filter (where_ i)).toList.map fun r => (i, r) := by
  -- No other row is selected.
  have hstep : ∀ j, j ≠ i → ((s.rows t j).bind fun r => if where_ j r then some (j, r) else none)
      = none := by
    intro j hj
    cases hr : s.rows t j with
    | none => rfl
    | some r =>
      have hw : where_ j r = false := by
        by_contra hw
        exact hj (h j r (by simpa using hw))
      simp [hw]
  have hlist : ∀ n, ((List.range n).filterMap fun j =>
      (s.rows t j).bind fun r => if where_ j r then some (j, r) else none) =
      if i < n then ((s.rows t i).filter (where_ i)).toList.map fun r => (i, r) else [] := by
    intro n
    induction n with
    | zero => simp
    | succ n ih =>
      rw [List.range_succ, List.filterMap_append, ih]
      by_cases hn : n = i
      · subst hn
        rw [if_neg (Nat.lt_irrefl n), if_pos (Nat.lt_succ_self n)]
        cases hr : s.rows t n with
        | none => simp [hr]
        | some r => cases hw : where_ n r <;> simp [hr, hw, Option.filter]
      · have hlt : i < n + 1 ↔ i < n := by omega
        simp [hstep n hn, hlt]
  unfold select
  rw [hlist]
  split
  · rfl
  · next hn =>
    cases hr : s.rows t i with
    | none => rfl
    | some r => exact absurd (s.rows_lt t i r hr) hn

end

/-! ## The tables do the same -/

section

variable {D : Dialect T Row Upd Del} {p : ℕ} {s : Tables T Row}

omit [DecidableEq T] in
/-- Nobody waits while a single transaction is open. -/
theorem heldByOther_write {α : Type} {c : Cell α} {v : Option α} :
    (c.write p v).heldByOther p = false := by
  simp [Cell.heldByOther]

omit [DecidableEq T] in
/-- Where no row is locked, a transaction sees what is committed. -/
theorem rows_of_free (h : s.Free) : (of p s).rows = (of p s).saved :=
  funext fun t => funext fun i => h.get_eq t i

omit [DecidableEq T] in
/-- A snapshot is known from the cells. -/
theorem of_ext {s' : Tables T Row} {σ : Snapshot T Row}
    (hrows : ∀ t i, (s'.cell t i).view p = σ.rows t i)
    (hsaved : ∀ t i, (s'.cell t i).committed = σ.saved t i)
    (hcount : ∀ t, (s' t).length = σ.count t) : of p s' = σ := by
  ext1
  · exact funext fun t => funext fun i => hrows t i
  · exact funext fun t => funext fun i => hsaved t i
  · exact funext hcount

/-- Writing a row of the tables. -/
theorem of_setCell {t : T} {i : ℕ} (hi : i < (s t).length) (v : Option (Row t)) :
    of p (s.setCell t i ((s.cell t i).write p v)) = (of p s).set t i v := by
  have hi' : i < (of p s).count t := hi
  refine of_ext (fun t' j => ?_) (fun t' j => ?_) fun t' => ?_
  · by_cases ht : t' = t
    · subst ht
      by_cases hj : j = i
      · subst hj
        rw [Tables.cell_setCell_self hi, rows_set_self hi', Cell.view_write]
      · rw [Tables.cell_setCell_of_ne hj, rows_set_of_ne hj]
        rfl
    · rw [Tables.cell_setCell_of_table ht, rows_set_of_table ht]
      rfl
  · rw [saved_set]
    by_cases ht : t' = t
    · subst ht
      by_cases hj : j = i
      · subst hj
        rw [Tables.cell_setCell_self hi]
        rfl
      · rw [Tables.cell_setCell_of_ne hj]
        rfl
    · rw [Tables.cell_setCell_of_table ht]
      rfl
  · rw [count_set]
    by_cases ht : t' = t
    · subst ht
      simp [of, Tables.setCell]
    · simp [of, Tables.setCell, ht]

/-- A write by the process that has the store alone leaves it alone. -/
theorem alone_setCell (h : s.Alone p) {t : T} {i : ℕ} (hi : i < (s t).length)
    (v : Option (Row t)) : (s.setCell t i ((s.cell t i).write p v)).Alone p := by
  intro t' j
  by_cases ht : t' = t
  · subst ht
    by_cases hj : j = i
    · subst hj
      rw [Tables.cell_setCell_self hi]
      exact heldByOther_write
    · rw [Tables.cell_setCell_of_ne hj]
      exact h _ _
  · rw [Tables.cell_setCell_of_table ht]
    exact h _ _

/-- An `UPDATE` of a single transaction. -/
theorem updateAt_of (h : s.Alone p) (t : T) (i : ℕ) (cond : Row t → Bool) (f : Row t → Row t) :
    ∃ s', s.updateAt p t i cond f = some (((of p s).updateAt t i cond f).1, s') ∧
      of p s' = ((of p s).updateAt t i cond f).2 ∧ s'.Alone p := by
  obtain ⟨b, s', hu⟩ := Tables.exists_updateAt (h t i) cond f
  refine ⟨s', ?_⟩
  rcases Tables.updateAt_cases hu with ⟨rfl, rfl, hno⟩ | ⟨rfl, r, hr, hc, -, rfl⟩
  · have hsame : (of p s').updateAt t i cond f = (false, of p s') := by
      unfold updateAt
      split
      · next r hr => rw [if_neg (by rw [hno r hr]; exact Bool.false_ne_true)]
      · rfl
    rw [hu, hsame]
    exact ⟨rfl, rfl, h⟩
  · have hwrite : (of p s).updateAt t i cond f = (true, (of p s).set t i (some (f r))) := by
      unfold updateAt
      rw [show (of p s).rows t i = some r from hr]
      exact if_pos hc
    have hi := Tables.lt_length_of_get hr
    rw [hu, hwrite]
    exact ⟨rfl, of_setCell hi _, alone_setCell h hi _⟩

/-- A `DELETE` of a single transaction. -/
theorem deleteWhere_of (h : s.Alone p) (t : T) (where_ : ℕ → Row t → Bool) :
    ∃ s', s.deleteWhere p t where_ = some (((of p s).deleteWhere t where_).1, s') ∧
      of p s' = ((of p s).deleteWhere t where_).2 ∧ s'.Alone p := by
  -- The process is alone, so it waits for no row.
  have hany : ((s t).zipIdx.any fun ci =>
      Tables.deletes p where_ ci.2 ci.1 && ci.1.heldByOther p) = false := by
    rw [List.any_eq_false]
    rintro ⟨c, i⟩ hc
    have hcell : s.cell t i = c := by
      rw [List.mem_zipIdx_iff_getElem?] at hc
      rw [Tables.cell, hc]
      rfl
    simp [← hcell, h t i]
  obtain ⟨s', hd⟩ : ∃ s', s.deleteWhere p t where_ = some ((s.select p t where_).length, s') := by
    unfold Tables.deleteWhere
    rw [if_neg (by rw [hany]; exact Bool.false_ne_true)]
    exact ⟨_, rfl⟩
  obtain ⟨-, hcell, -, hother⟩ := Tables.deleteWhere_cases hd
  -- A row that is deleted keeps its number.
  have hlength : (s' t).length = (s t).length := by
    unfold Tables.deleteWhere at hd
    rw [if_neg (by rw [hany]; exact Bool.false_ne_true)] at hd
    cases hd
    simp
  have hcells : ∀ t' ≠ t, ∀ j, s'.cell t' j = s.cell t' j := fun t' ht j => by
    rw [Tables.cell, Tables.cell, hother t' ht]
  refine ⟨s', hd, of_ext (fun t' j => ?_) (fun t' j => ?_) fun t' => ?_, fun t' j => ?_⟩
  · by_cases ht : t' = t
    · subst ht
      rw [hcell j]
      change _ = ((of p s).drop t' where_).rows t' j
      rw [rows_drop]
      change _ = ((s.cell t' j).view p).filter _
      unfold Tables.deletes
      cases hv : (s.cell t' j).view p with
      | none => simp [hv]
      | some r => cases hw : where_ j r <;> simp [hw, hv, Option.filter]
    · rw [hcells t' ht]
      change _ = ((of p s).drop t where_).rows t' j
      rw [rows_drop_of_table ht]
      rfl
  · by_cases ht : t' = t
    · subst ht
      rw [hcell j]
      split <;> rfl
    · rw [hcells t' ht]
      rfl
  · by_cases ht : t' = t
    · subst ht
      exact hlength
    · rw [hother t' ht]
      rfl
  · by_cases ht : t' = t
    · subst ht
      rw [hcell j]
      split
      · exact heldByOther_write
      · exact h _ _
    · rw [hcells t' ht]
      exact h _ _

/-- An `INSERT` of a single transaction. -/
theorem insert_of (h : s.Alone p) (t : T) (r : Row t) :
    (s.insert p t r).1 = ((of p s).insert t r).1 ∧
      of p (s.insert p t r).2 = ((of p s).insert t r).2 ∧ (s.insert p t r).2.Alone p := by
  -- The row stands at the next number, as the draft of the process.
  have hcell : ∀ t' j, (s.insert p t r).2.cell t' j =
      if h : t' = t ∧ j = (s t).length then ⟨none, some (p, some (h.1 ▸ r))⟩ else s.cell t' j := by
    intro t' j
    split
    · next hj =>
      obtain ⟨rfl, rfl⟩ := hj
      exact Tables.cell_insert_self r
    · next hj =>
      by_cases ht : t' = t
      · subst ht
        exact Tables.cell_insert_of_ne r fun hj' => hj ⟨rfl, hj'⟩
      · exact Tables.cell_insert_of_table r ht
  have hcount : (of p s).count t = (s t).length := rfl
  refine ⟨rfl, of_ext (fun t' j => ?_) (fun t' j => ?_) fun t' => ?_, fun t' j => ?_⟩
  · rw [hcell]
    change _ = ((of p s).add t r).rows t' j
    by_cases ht : t' = t
    · subst ht
      by_cases hj : j = (of p s).count t'
      · subst hj
        rw [dif_pos ⟨rfl, rfl⟩, rows_add_self]
        exact Cell.view_of_lock rfl
      · rw [dif_neg fun h => hj h.2, rows_add_of_ne hj]
        rfl
    · rw [dif_neg fun h => ht h.1, rows_add_of_table ht]
      rfl
  · rw [hcell]
    split
    · next hj =>
      obtain ⟨rfl, rfl⟩ := hj
      change none = (s.cell t' (s t').length).committed
      rw [Tables.cell_length]
      rfl
    · rfl
  · change _ = ((of p s).add t r).count t'
    by_cases ht : t' = t
    · subst ht
      rw [count_add_self, hcount]
      simp [Tables.insert]
    · simp [add, of, Tables.insert, ht]
  · rw [hcell]
    split
    · simp [Cell.heldByOther]
    · exact h _ _

/-- A statement of a single transaction does not wait, and does what it does to the snapshot. -/
theorem exec_of (h : s.Alone p) (q : Sql T Row Upd Del) :
    ∃ s', Sql.exec D p q s = some ((exec D q (of p s)).1, s') ∧
      of p s' = (exec D q (of p s)).2 ∧ s'.Alone p := by
  cases q with
  | select t where_ => exact ⟨s, rfl, rfl, h⟩
  | updateAt t i u => exact updateAt_of h t i _ _
  | deleteWhere t d => exact deleteWhere_of h t _
  | insert t r =>
    obtain ⟨ha, hs, hal⟩ := insert_of h t r
    exact ⟨_, congrArg some (Prod.ext ha rfl), hs, hal⟩
  | commit =>
    refine ⟨s.commit p, rfl, of_ext (fun t i => ?_) (fun t i => ?_) fun t => ?_,
      h.free_commit.alone p⟩
    · rw [Cell.view_of_free (h.free_commit t i), Tables.cell_commit, Cell.committed_commit]
      rfl
    · rw [Tables.cell_commit, Cell.committed_commit]
      rfl
    · simp [Tables.commit, exec, of]
  | rollback =>
    refine ⟨s.rollback p, rfl, of_ext (fun t i => ?_) (fun t i => ?_) fun t => ?_,
      h.free_rollback.alone p⟩
    · rw [Cell.view_of_free (h.free_rollback t i), Tables.cell_rollback, Cell.committed_rollback]
      rfl
    · rw [Tables.cell_rollback, Cell.committed_rollback]
      rfl
    · simp [Tables.rollback, exec, of]

end

end Snapshot

end DropRoom.Store
