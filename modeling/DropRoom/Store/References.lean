import DropRoom.Store.Sql

/-!
# Foreign keys

What a database does for the references between rows, on top of the statements of `Sql`. An `INSERT`
locks the rows that it refers to against deletion until its transaction ends (`FOR KEY SHARE`): it is
refused where such a row is not there, and waits where another transaction is about to delete it. A
`DELETE` waits for the transactions that have locked its rows in this way, and sets the references to
its rows to NULL (`ON DELETE SET NULL`), which is an `UPDATE` of the rows that refer to them.
-/

namespace DropRoom.Store

namespace Cell

variable {α : Type}

/-- Another transaction than `p` has deleted the row, and may still roll back. -/
def leaving (p : ℕ) (c : Cell α) : Bool :=
  match c.lock with
  | some (q, none) => q != p
  | _ => false

/-- The cell after an `UPDATE .. WHERE`. -/
def revise (p : ℕ) (cond : α → Bool) (set : α → α) (c : Cell α) : Cell α :=
  match c.view p with
  | some r => if cond r then c.write p (some (set r)) else c
  | none => c

/-- An `UPDATE .. WHERE` leaves a cell alone, or writes the row that is seen. -/
theorem revise_cases (p : ℕ) (cond : α → Bool) (set : α → α) (c : Cell α) :
    c.revise p cond set = c ∨
      ∃ r, c.view p = some r ∧ cond r = true ∧ c.revise p cond set = c.write p (some (set r)) := by
  unfold revise
  cases hv : c.view p with
  | none => exact .inl rfl
  | some r =>
    cases hc : cond r with
    | true => exact .inr ⟨r, rfl, hc, if_pos hc⟩
    | false => exact .inl (if_neg (by rw [hc]; exact Bool.false_ne_true))

end Cell

namespace Tables

variable {T : Type} {Row : T → Type} [DecidableEq T] {s s' : Tables T Row} {p : ℕ} {t : T}

/-- `UPDATE t SET .. WHERE ..`, which waits for the locks of the rows that match. -/
def updateWhere (s : Tables T Row) (p : ℕ) (t : T) (cond : Row t → Bool) (set : Row t → Row t) :
    Option (Tables T Row) :=
  if (s t).any fun c => (c.view p).any cond && c.heldByOther p then none
  else some (Function.update s t ((s t).map (Cell.revise p cond set)))

/-- An `UPDATE .. WHERE` leaves every other table alone. -/
theorem updateWhere_cell_of_table {cond : Row t → Bool} {set : Row t → Row t}
    (h : s.updateWhere p t cond set = some s') {t' : T} (ht : t' ≠ t) (i : ℕ) :
    s'.cell t' i = s.cell t' i := by
  unfold updateWhere at h
  split_ifs at h
  cases h
  simp [cell, ht]

/-- A row after an `UPDATE .. WHERE`. -/
theorem updateWhere_cell {cond : Row t → Bool} {set : Row t → Row t}
    (h : s.updateWhere p t cond set = some s') (i : ℕ) : s'.cell t i = s.cell t i ∨
      ∃ r, s.get p t i = some r ∧ cond r = true ∧ (s.cell t i).heldByOther p = false ∧
        s'.cell t i = (s.cell t i).write p (some (set r)) := by
  unfold updateWhere at h
  split_ifs at h with hany
  cases h
  have hcell : cell (Function.update s t ((s t).map (Cell.revise p cond set))) t i =
      (s.cell t i).revise p cond set := by
    rw [cell, Function.update_self, List.getElem?_map, cell]
    cases (s t)[i]? <;> rfl
  rw [hcell]
  rcases Cell.revise_cases p cond set (s.cell t i) with hsame | ⟨r, hr, hc, hwrite⟩
  · exact .inl hsame
  · refine .inr ⟨r, hr, hc, ?_, hwrite⟩
    by_contra hheld
    refine hany (List.any_eq_true.2 ⟨s.cell t i, ?_, ?_⟩)
    · have hi := lt_length_of_get (s := s) (p := p) hr
      rw [cell, List.getElem?_eq_getElem hi]
      exact List.getElem_mem hi
    · simpa [hr, hc] using hheld

end Tables

/-- The foreign keys of the tables. -/
structure References (T : Type) (Row : T → Type) where
  /-- The rows that a row refers to. -/
  targets : {t : T} → Row t → List (T × ℕ)
  /-- The tables whose references to a table are set to NULL when its rows are deleted. -/
  referring : T → List T
  /-- The row with its references to some rows set to NULL. -/
  release : {t : T} → (T → ℕ → Bool) → Row t → Row t
  referring_nodup : ∀ t, (referring t).Nodup

/-- A transaction has locked a row that it refers to. -/
structure Share (T : Type) where
  holder : ℕ
  table : T
  row : ℕ
  deriving DecidableEq

/-- Tables with the locks of their foreign keys. -/
structure Keyed (T : Type) (Row : T → Type) where
  tables : Tables T Row
  shares : List (Share T)

variable {T : Type} {Row Upd Del : T → Type} [DecidableEq T]

namespace References

variable (K : References T Row) (p : ℕ) (hit : T → ℕ → Bool)

/-- Set the references to the rows that are hit to NULL, in some tables. -/
def nullify : List T → Tables T Row → Option (Tables T Row)
  | [], s => some s
  | t :: ts, s =>
    (s.updateWhere p t (fun r => (K.targets r).any fun x => hit x.1 x.2) (K.release hit)).bind
      (nullify ts)

variable {K p hit}

/-- The other tables are left alone. -/
theorem nullify_cell_of_notMem {ts : List T} {s s' : Tables T Row}
    (h : K.nullify p hit ts s = some s') {t : T} (ht : t ∉ ts) (i : ℕ) :
    s'.cell t i = s.cell t i := by
  induction ts generalizing s with
  | nil => cases h; rfl
  | cons t' ts ih =>
    obtain ⟨s₁, hs₁, h⟩ := Option.bind_eq_some_iff.1 h
    have hne : t ≠ t' := fun h => ht (h ▸ List.mem_cons_self)
    rw [ih h fun h => ht (List.mem_cons_of_mem _ h), Tables.updateWhere_cell_of_table hs₁ hne]

/-- A row is left alone, or it is written without its references to rows that are hit. -/
theorem nullify_cell {ts : List T} (hts : ts.Nodup) {s s' : Tables T Row}
    (h : K.nullify p hit ts s = some s') (t : T) (i : ℕ) : s'.cell t i = s.cell t i ∨
      ∃ r, s.get p t i = some r ∧ (s.cell t i).heldByOther p = false ∧
        s'.cell t i = (s.cell t i).write p (some (K.release hit r)) := by
  induction ts generalizing s with
  | nil => cases h; exact .inl rfl
  | cons t' ts ih =>
    obtain ⟨s₁, hs₁, hrest⟩ := Option.bind_eq_some_iff.1 h
    obtain ⟨hnot, hts⟩ := List.nodup_cons.1 hts
    by_cases ht : t = t'
    · subst ht
      rw [nullify_cell_of_notMem hrest hnot]
      rcases Tables.updateWhere_cell hs₁ i with hsame | ⟨r, hr, -, hl, hwrite⟩
      · exact .inl hsame
      · exact .inr ⟨r, hr, hl, hwrite⟩
    · have hsame := Tables.updateWhere_cell_of_table hs₁ ht i
      rcases ih hts hrest with hih | ⟨r, hr, hl, hwrite⟩
      · exact .inl (hih.trans hsame)
      · rw [Tables.get, hsame] at hr
        rw [hsame] at hl hwrite
        exact .inr ⟨r, hr, hl, hwrite⟩

end References

namespace Keyed

variable (D : Dialect T Row Upd Del) (K : References T Row) (p : ℕ)

/-- The rows that a `DELETE` hits. -/
def hit {t : T} (d : Del t) (s : Keyed T Row) (t' : T) (i : ℕ) : Bool :=
  decide (t' = t) && Tables.deletes p (D.deletes d) i (s.tables.cell t i)

/-- Another transaction than `p` refers to a row that a `DELETE` hits. -/
def shared {t : T} (d : Del t) (s : Keyed T Row) : Bool :=
  s.shares.any fun x => x.holder != p && s.hit D p d x.table x.row

/-- The locks of the foreign keys once transaction `p` has ended. -/
def unshared (s : Keyed T Row) : List (Share T) := s.shares.filter fun x => x.holder != p

/-- Execute a statement of transaction `p`: the answer, if it is not refused, and the tables after it,
or `none` while it waits. -/
def exec : (q : Sql T Row Upd Del) → Keyed T Row → Option (Option q.Answer × Keyed T Row)
  | .select t where_, s => some (some (s.tables.select p t where_), s)
  | .updateAt t i u, s => (s.tables.updateAt p t i (D.applies u) (D.set u)).map fun (b, tables) =>
    (some b, { s with tables })
  | .deleteWhere t d, s =>
    if s.shared D p d then none
    else (s.tables.deleteWhere p t (D.deletes d)).bind fun (n, tables) =>
      (K.nullify p (s.hit D p d) (K.referring t) tables).map fun tables =>
        (some n, { s with tables })
  | .insert t r, s =>
    if (K.targets r).any fun x => (s.tables.get p x.1 x.2).isNone then some (none, s)
    else if (K.targets r).any fun x => (s.tables.cell x.1 x.2).leaving p then none
    else
      let (i, tables) := s.tables.insert p t r
      some (some i, ⟨tables, (K.targets r).map (fun x => ⟨p, x.1, x.2⟩) ++ s.shares⟩)
  | .commit, s => some (some (), ⟨s.tables.commit p, s.unshared p⟩)
  | .rollback, s => some (some (), ⟨s.tables.rollback p, s.unshared p⟩)

/-- Transaction `q` holds a lock that a statement of transaction `p` waits for. -/
inductive Blocks : Sql T Row Upd Del → Keyed T Row → ℕ → Prop
  | updateAt {t i u s q v r} (hr : s.tables.get p t i = some r) (hu : D.applies u r = true)
      (hl : (s.tables.cell t i).lock = some (q, v)) (hq : q ≠ p) :
      Blocks (.updateAt t i u) s q
  | deleteWhere {t} {d : Del t} {s i q v} (hd : s.hit D p d t i = true)
      (hl : (s.tables.cell t i).lock = some (q, v)) (hq : q ≠ p) : Blocks (.deleteWhere t d) s q
  | share {t} {d : Del t} {s i q} (hd : s.hit D p d t i = true) (hs : ⟨q, t, i⟩ ∈ s.shares)
      (hq : q ≠ p) : Blocks (.deleteWhere t d) s q
  | nullify {t} {d : Del t} {s t' j r q v} (ht : t' ∈ K.referring t)
      (hr : s.tables.get p t' j = some r)
      (hd : ((K.targets r).any fun x => s.hit D p d x.1 x.2) = true)
      (hl : (s.tables.cell t' j).lock = some (q, v)) (hq : q ≠ p) : Blocks (.deleteWhere t d) s q
  | insert {t} {r : Row t} {s t' i q} (hr : (t', i) ∈ K.targets r)
      (hl : (s.tables.cell t' i).lock = some (q, none)) (hq : q ≠ p) : Blocks (.insert t r) s q

/-- What a statement does to the tables. -/
inductive Does : (q : Sql T Row Upd Del) → Tables T Row → Option q.Answer → Tables T Row → Prop
  /-- It does what it does without foreign keys. -/
  | plain {q s a s'} (h : Sql.exec D p q s = some (a, s')) : Does q s (some a) s'
  /-- An `INSERT` is refused, since a row that it refers to is not there. -/
  | refused {t} {r : Row t} {s x} (hx : x ∈ K.targets r) (h : s.get p x.1 x.2 = none) :
      Does (.insert t r) s none s
  /-- A `DELETE` also sets the references to its rows to NULL. -/
  | released {t} {d : Del t} {s n s₁ s' hit} (h : Sql.exec D p (.deleteWhere t d) s = some (n, s₁))
      (hs : K.nullify p hit (K.referring t) s₁ = some s') : Does (.deleteWhere t d) s (some n) s'

variable {D K p} {s s' : Keyed T Row}

/-- A statement that is executed does nothing else. -/
theorem exec_does {q : Sql T Row Upd Del} {x : Option q.Answer}
    (h : exec D K p q s = some (x, s')) : Does D K p q s.tables x s'.tables := by
  cases q with
  | select t where_ => cases h; exact .plain rfl
  | updateAt t i u =>
    obtain ⟨⟨b, tables⟩, hu, h⟩ := Option.map_eq_some_iff.1 h
    cases h
    exact .plain hu
  | deleteWhere t d =>
    rw [exec] at h
    split_ifs at h
    obtain ⟨⟨n, tables⟩, hd, h⟩ := Option.bind_eq_some_iff.1 h
    obtain ⟨tables', hs, h⟩ := Option.map_eq_some_iff.1 h
    cases h
    exact .released hd hs
  | insert t r =>
    rw [exec] at h
    split_ifs at h with hgone
    · cases h
      obtain ⟨x, hx, hnone⟩ := List.any_eq_true.1 hgone
      exact .refused hx (Option.isNone_iff_eq_none.1 hnone)
    · cases h
      exact .plain rfl
  | commit => cases h; exact .plain rfl
  | rollback => cases h; exact .plain rfl

/-- An `UPDATE` waits for nothing but the lock of its row. -/
theorem heldByOther_of_exec_updateAt {t : T} {i : ℕ} {u : Upd t}
    (h : exec D K p (.updateAt t i u) s = none) : (s.tables.cell t i).heldByOther p = true := by
  by_contra hl
  obtain ⟨b, tables, hu⟩ := Tables.exists_updateAt (Bool.eq_false_iff.2 hl) (D.applies u) (D.set u)
  rw [exec, hu] at h
  cases h

/-- An `INSERT` waits for nothing but the deletion of a row that it refers to. -/
theorem leaving_of_exec_insert {t : T} {r : Row t} (h : exec D K p (.insert t r) s = none) :
    ∃ x ∈ K.targets r, (s.tables.cell x.1 x.2).leaving p = true := by
  rw [exec] at h
  split_ifs at h with hgone hleaving
  exact List.any_eq_true.1 hleaving

end Keyed

end DropRoom.Store
