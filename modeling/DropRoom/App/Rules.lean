import DropRoom.App.World

/-!
# Rules for the commands

What a command may be answered and what it does to the database, one lemma for each statement. A
machine is `Faithful` when it executes the commands of the server; the machines differ only in
which commands may fail and how the world moves by itself, so the lemmas serve all of them.
-/

namespace DropRoom

open Store Effect

section

variable {S α : Type} {τ : Prog.Transformer Cmd Resp Err S}

/-- The precondition of one command. -/
theorem wp_issue (hτ : τ.Monotone) (c : Cmd) (Q : Except Err (Resp c) → S → Prop) (s : S) :
    (issue c).wp τ Q s ↔ τ c Q s :=
  Prog.wp_perform hτ c Q s

/-- The precondition of a program with its own database session: its body must end where the
rollback leads to the postcondition. -/
theorem wp_withSession (hτ : τ.Monotone) {body : Op α} {Q : Except Err α → S → Prop} {s : S}
    (h : body.wp τ (fun r s' => τ (.sql .rollback) (fun x s'' => match x with
      | .ok _ => Q r s''
      | .error e => Q (.error e) s'') s') s) : (withSession body).wp τ Q s := by
  unfold withSession
  rw [Prog.wp_bind, Prog.wp_tryCatch]
  refine Prog.wp_mono hτ ?_ h
  rintro (e | a) s' h
  · dsimp only
    rw [Prog.wp_bind]
    refine (wp_issue hτ _ _ _).2 (hτ _ _ _ _ ?_ h)
    rintro (e' | u) s'' h <;> exact h
  · dsimp only
    rw [Prog.wp_bind]
    refine (wp_issue hτ _ _ _).2 (hτ _ _ _ _ ?_ h)
    rintro (e' | u) s'' h <;> exact h

end

/-- A command followed by a program, where some answers may lead into the sink. -/
theorem wp_then {L α : Type} {M : Monitor Cmd Resp Err L} {l₀ l : L} (h : M.Sink l₀) {c : Cmd}
    {f : Resp c → Op α} {Q : Except Err α → L → Prop} (ha : M.allowed l c)
    (hok : ∀ a, M.next l c (.ok a) = l₀ ∨
      (f a).wp M.trans (Monitor.orSink l₀ Q) (M.next l c (.ok a)))
    (herr : ∀ e, M.next l c (.error e) = l₀ ∨ Q (.error e) (M.next l c (.error e))) :
    (issue c >>= f).wp M.trans (Monitor.orSink l₀ Q) l := by
  refine (Prog.wp_bind _ _ _ _).2 ((wp_issue M.trans_monotone c _ l).2 ⟨ha, ?_⟩)
  rintro (e | a)
  · exact herr e
  · dsimp only
    rcases hok a with hs | hw
    · rw [hs]
      exact h.wp (f a)
    · exact hw

/-- The machine executes the commands as the server does, and fails no rollback. -/
structure Faithful (m : Machine Cmd Resp Err World) : Prop where
  exec_eq : m.exec = exec
  fault_raises : ∀ c e, m.fault c e → c.Raises e
  env_tick : ∀ w w', m.env w w' → w.Tick w'

/-- The server itself. -/
theorem server_faithful : Faithful server := ⟨rfl, fun _ _ h => h, fun _ _ h => h⟩

/-- The server while nothing fails and the clock stands still. -/
theorem calm_faithful : Faithful calm := ⟨rfl, fun _ _ h => h.elim, fun _ _ h => h.elim⟩

/-- The server while nothing fails. -/
theorem reliable_faithful : Faithful reliable := ⟨rfl, fun _ _ h => h.elim, fun _ _ h => h⟩

/-- Where nothing fails, a command is answered by executing it. -/
theorem reliable_exec {p : ℕ} {c : Cmd} {w w' : World} {x} (h : reliable.Answer p c w x w') :
    exec p c w = some (x, w') := by
  cases h with
  | exec h => exact h
  | fault h => exact h.elim

/-- Where nothing fails, no statement does. -/
theorem reliable_sql {p : ℕ} {q : Sql Table Row Upd Del} {w w' : World} {x}
    (h : reliable.Answer p (.sql q) w x w') :
    ∃ a db, q.exec dialect p w.db = some (a, db) ∧ x = .ok a ∧ w' = { w with db } := by
  have he := reliable_exec h
  rw [exec, Option.map_eq_some_iff] at he
  obtain ⟨⟨a, db⟩, hq, he⟩ := he
  cases he
  exact ⟨a, db, hq, rfl, rfl⟩

/-- Time passes without anything else happening. -/
theorem World.Tick.db_eq {w w' : World} (h : w.Tick w') : w'.db = w.db := by
  obtain ⟨d, d', rfl⟩ := h
  rfl

variable {m : Machine Cmd Resp Err World} {p : ℕ} {w w' : World}

/-- A statement is executed on the database, or fails without an effect. -/
theorem Faithful.sql (hm : Faithful m) {q : Sql Table Row Upd Del} {x}
    (h : m.Answer p (.sql q) w x w') :
    (∃ a db, q.exec dialect p w.db = some (a, db) ∧ x = .ok a ∧ w' = { w with db }) ∨
      (∃ e, x = .error e ∧ (Cmd.sql q).Raises e ∧ w' = w) := by
  cases h with
  | exec h =>
    rw [hm.exec_eq, exec, Option.map_eq_some_iff] at h
    obtain ⟨⟨a, db⟩, hq, he⟩ := h
    cases he
    exact .inl ⟨a, db, hq, rfl, rfl⟩
  | fault h => exact .inr ⟨_, rfl, hm.fault_raises _ _ h, rfl⟩

/-- A command that is not a statement leaves the database alone. -/
theorem Faithful.db_eq (hm : Faithful m) {c : Cmd} {x} (h : m.Answer p c w x w')
    (hc : ∀ q, c ≠ .sql q) : w'.db = w.db := by
  cases h with
  | fault h => rfl
  | exec h =>
    rw [hm.exec_eq] at h
    cases c with
    | sql q => exact absurd rfl (hc q)
    | put key data =>
      cases data <;>
      · simp only [exec, Option.some.injEq, Prod.mk.injEq] at h
        rw [← h.2]
    | dequeue =>
      rw [exec] at h
      split at h
      · simp only [Option.some.injEq, Prod.mk.injEq] at h
        rw [← h.2]
      · exact absurd h (Option.some_ne_none _).symm
    | _ =>
      simp only [exec, Option.some.injEq, Prod.mk.injEq] at h
      rw [← h.2]

/-- A command that may change the storage. -/
def Cmd.Stores : Cmd → Prop
  | .put .. => True
  | .deleteObject _ => True
  | _ => False

/-- Every other command leaves the storage alone. -/
theorem Faithful.storage_eq (hm : Faithful m) {c : Cmd} {x} (h : m.Answer p c w x w')
    (hc : ¬c.Stores) : w'.storage = w.storage := by
  cases h with
  | fault h => rfl
  | exec h =>
    rw [hm.exec_eq] at h
    cases c with
    | sql q =>
      rw [exec, Option.map_eq_some_iff] at h
      obtain ⟨⟨a, db⟩, -, he⟩ := h
      cases he
      rfl
    | put key data => exact absurd trivial hc
    | deleteObject key => exact absurd trivial hc
    | dequeue =>
      rw [exec] at h
      split at h
      · simp only [Option.some.injEq, Prod.mk.injEq] at h
        rw [← h.2]
      · exact absurd h (Option.some_ne_none _).symm
    | _ =>
      simp only [exec, Option.some.injEq, Prod.mk.injEq] at h
      rw [← h.2]

/-- A `SELECT` changes nothing. -/
theorem Faithful.select (hm : Faithful m) {t : Table} {where_} {x}
    (h : m.Answer p (.sql (.select t where_)) w x w') :
    w' = w ∧ ∀ rows, x = .ok rows → rows = w.db.select p t where_ := by
  rcases hm.sql h with ⟨a, db, hq, rfl, rfl⟩ | ⟨e, rfl, -, rfl⟩
  · cases hq
    exact ⟨rfl, fun rows h => (Except.ok.inj h).symm⟩
  · exact ⟨rfl, fun rows h => nomatch h⟩

/-- An `UPDATE` writes the row that it matches under the row's lock, or changes nothing. -/
theorem Faithful.updateAt (hm : Faithful m) {t : Table} {i : ℕ} {u : Upd t} {x}
    (h : m.Answer p (.sql (.updateAt t i u)) w x w') :
    (x = .ok true ∧ ∃ r, w.db.get p t i = some r ∧ dialect.applies u r = true ∧
      (w.db.cell t i).heldByOther p = false ∧ w' = { w with
        db := w.db.setCell t i ((w.db.cell t i).write p (some (dialect.set u r))) }) ∨
    (x = .ok false ∧ (∀ r, w.db.get p t i = some r → dialect.applies u r = false) ∧ w' = w) ∨
    (∃ e, x = .error e ∧ w' = w) := by
  rcases hm.sql h with ⟨a, db, hq, rfl, rfl⟩ | ⟨e, rfl, -, rfl⟩
  · rcases Tables.updateAt_cases hq with ⟨rfl, rfl, hr⟩ | ⟨rfl, r, hr, hc, hl, rfl⟩
    · exact .inr (.inl ⟨rfl, hr, rfl⟩)
    · exact .inl ⟨rfl, r, hr, hc, hl, rfl⟩
  · exact .inr (.inr ⟨e, rfl, rfl⟩)

/-- A `DELETE` locks the rows that it matches, or changes nothing. -/
theorem Faithful.deleteWhere (hm : Faithful m) {t : Table} {d : Del t} {x}
    (h : m.Answer p (.sql (.deleteWhere t d)) w x w') :
    (∃ n db, x = .ok n ∧ w.db.deleteWhere p t (dialect.deletes d) = some (n, db) ∧
      w' = { w with db }) ∨ (∃ e, x = .error e ∧ w' = w) := by
  rcases hm.sql h with ⟨a, db, hq, rfl, rfl⟩ | ⟨e, rfl, -, rfl⟩
  · exact .inl ⟨a, db, rfl, hq, rfl⟩
  · exact .inr ⟨e, rfl, rfl⟩

/-- An `INSERT` adds a row that only its transaction sees, or changes nothing. -/
theorem Faithful.insert (hm : Faithful m) {t : Table} {r : Row t} {x}
    (h : m.Answer p (.sql (.insert t r)) w x w') :
    (x = .ok (w.db t).length ∧ w' = { w with db := (w.db.insert p t r).2 }) ∨
      (∃ e, x = .error e ∧ w' = w) := by
  rcases hm.sql h with ⟨a, db, hq, rfl, rfl⟩ | ⟨e, rfl, -, rfl⟩
  · cases hq
    exact .inl ⟨rfl, rfl⟩
  · exact .inr ⟨e, rfl, rfl⟩

/-- A `COMMIT` publishes, or changes nothing. -/
theorem Faithful.commit (hm : Faithful m) {x} (h : m.Answer p (.sql .commit) w x w') :
    (x = .ok () ∧ w' = { w with db := w.db.commit p }) ∨ (∃ e, x = .error e ∧ w' = w) := by
  rcases hm.sql h with ⟨a, db, hq, rfl, rfl⟩ | ⟨e, rfl, -, rfl⟩
  · cases hq
    exact .inl ⟨rfl, rfl⟩
  · exact .inr ⟨e, rfl, rfl⟩

/-- A `ROLLBACK` never fails. -/
theorem Faithful.rollback (hm : Faithful m) {x} (h : m.Answer p (.sql .rollback) w x w') :
    x = .ok () ∧ w' = { w with db := w.db.rollback p } := by
  rcases hm.sql h with ⟨a, db, hq, rfl, rfl⟩ | ⟨e, -, he, -⟩
  · cases hq
    exact ⟨rfl, rfl⟩
  · exact he.elim

/-- An object is stored, or nothing changes. -/
theorem Faithful.put (hm : Faithful m) {key : Key} {data : Except Err Bytes} {x}
    (h : m.Answer p (.put key data) w x w') :
    (∃ bytes : Bytes, x = .ok bytes.length ∧
      w' = { w with storage := w.storage.insert key bytes }) ∨ (∃ e, x = .error e ∧ w' = w) := by
  cases h with
  | fault h => exact .inr ⟨_, rfl, rfl⟩
  | exec h =>
    rw [hm.exec_eq] at h
    cases data with
    | error e =>
      cases h
      exact .inr ⟨e, rfl, rfl⟩
    | ok bytes =>
      cases h
      exact .inl ⟨bytes, rfl, rfl⟩

/-- An object is deleted, or nothing changes. -/
theorem Faithful.deleteObject (hm : Faithful m) {key : Key} {x}
    (h : m.Answer p (.deleteObject key) w x w') :
    (x = .ok () ∧ w' = { w with storage := w.storage.erase key }) ∨
      (∃ e, x = .error e ∧ w' = w) := by
  cases h with
  | fault h => exact .inr ⟨_, rfl, rfl⟩
  | exec h =>
    rw [hm.exec_eq] at h
    cases h
    exact .inl ⟨rfl, rfl⟩

/-- A listing changes nothing. -/
theorem Faithful.listKeys (hm : Faithful m) {pre : Key} {x}
    (h : m.Answer p (.listKeys pre) w x w') :
    w' = w ∧ ∀ keys, x = .ok keys → keys = w.storage.listKeys pre := by
  cases h with
  | fault h => exact ⟨rfl, fun keys hk => by cases hk⟩
  | exec h =>
    rw [hm.exec_eq] at h
    cases h
    exact ⟨rfl, fun keys hk => (Except.ok.inj hk).symm⟩

/-- A command that is neither a statement on a row nor the end of a transaction. -/
def Cmd.Spares (t : Table) (i : ℕ) : Cmd → Prop
  | .sql (.updateAt t' i' _) => ¬(t' = t ∧ i' = i)
  | .sql (.deleteWhere t' _) => t' ≠ t
  | .sql (.insert t' _) => t' ≠ t
  | .sql .commit => False
  | .sql .rollback => False
  | _ => True

/-- A command leaves the rows that it spares alone. -/
theorem Faithful.cell_of_spares (hm : Faithful m) {c : Cmd} {x} (h : m.Answer p c w x w')
    {t : Table} {i : ℕ} (hc : c.Spares t i) : w'.db.cell t i = w.db.cell t i := by
  by_cases hq : ∃ q, c = .sql q
  · obtain ⟨q, rfl⟩ := hq
    rcases hm.sql h with ⟨a, db, hq, -, rfl⟩ | ⟨e, -, -, rfl⟩
    · cases q with
      | select t' where_ => cases hq; rfl
      | updateAt t' i' u =>
        by_cases ht : t = t'
        · subst ht
          exact Sql.updateAt_cell_of_ne hq fun hi => hc ⟨rfl, hi.symm⟩
        · exact Sql.updateAt_cell_of_table hq ht
      | deleteWhere t' d => exact Sql.deleteWhere_cell_of_table hq fun ht => hc ht.symm
      | insert t' r =>
        cases hq
        exact Tables.cell_insert_of_table r fun ht => hc ht.symm
      | commit => exact hc.elim
      | rollback => exact hc.elim
    · rfl
  · rw [hm.db_eq h fun q hq' => hq ⟨q, hq'⟩]

/-- Case analysis on what a command does to a row of a table. -/
theorem Faithful.row_elim (hm : Faithful m) {c : Cmd} {x} (h : m.Answer p c w x w') (t : Table)
    (i : ℕ) {motive : (c : Cmd) → Except Err (Resp c) → Cell (Row t) → Prop}
    (spared : ∀ c x, c.Spares t i → motive c x (w.db.cell t i))
    (failed : ∀ c e, c ≠ .sql .rollback → motive c (.error e) (w.db.cell t i))
    (refused : ∀ u, (∀ r, w.db.get p t i = some r → dialect.applies u r = false) →
      motive (.sql (.updateAt t i u)) (.ok false) (w.db.cell t i))
    (updated : ∀ u r, w.db.get p t i = some r → dialect.applies u r = true →
      (w.db.cell t i).heldByOther p = false →
      motive (.sql (.updateAt t i u)) (.ok true)
        ((w.db.cell t i).write p (some (dialect.set u r))))
    (kept : ∀ d n, (∀ r, w.db.get p t i = some r → dialect.deletes d i r = false) →
      motive (.sql (.deleteWhere t d)) (.ok n) (w.db.cell t i))
    (deleted : ∀ d n r, w.db.get p t i = some r → dialect.deletes d i r = true →
      (w.db.cell t i).heldByOther p = false →
      motive (.sql (.deleteWhere t d)) (.ok n) ((w.db.cell t i).write p none))
    (other : ∀ r j, j ≠ i → motive (.sql (.insert t r)) (.ok j) (w.db.cell t i))
    (inserted : ∀ r, i = (w.db t).length → w.db.cell t i = Cell.empty →
      motive (.sql (.insert t r)) (.ok i) (Cell.empty.write p (some r)))
    (committed : motive (.sql .commit) (.ok ()) ((w.db.cell t i).commit p))
    (rolledBack : motive (.sql .rollback) (.ok ()) ((w.db.cell t i).rollback p)) :
    motive c x (w'.db.cell t i) := by
  by_cases hc : c.Spares t i
  · rw [hm.cell_of_spares h hc]
    exact spared c x hc
  · cases c with
    | sql q =>
      cases q with
      | select t' where_ => exact absurd trivial hc
      -- An update of another row would have spared this one.
      | updateAt t' i' u =>
        obtain ⟨rfl, rfl⟩ : t' = t ∧ i' = i := by simpa [Cmd.Spares] using hc
        rcases hm.updateAt h with ⟨rfl, r, hr, hu, hl, rfl⟩ | ⟨rfl, hr, rfl⟩ | ⟨e, rfl, rfl⟩
        · rw [Tables.cell_setCell_self (Tables.lt_length_of_get hr)]
          exact updated u r hr hu hl
        · exact refused u hr
        · exact failed _ e nofun
      | deleteWhere t' d =>
        obtain rfl : t' = t := by simpa [Cmd.Spares] using hc
        rcases hm.deleteWhere h with ⟨n, db, rfl, hd, rfl⟩ | ⟨e, rfl, rfl⟩
        · rcases Sql.deleteWhere_cell hd i with ⟨hi, hr⟩ | ⟨r, hr, hw, hl, hi⟩
          · rw [hi]
            exact kept d n hr
          · rw [hi]
            exact deleted d n r hr hw hl
        · exact failed _ e nofun
      -- The new row is this one, or the next.
      | insert t' r =>
        obtain rfl : t' = t := by simpa [Cmd.Spares] using hc
        rcases hm.insert h with ⟨rfl, rfl⟩ | ⟨e, rfl, rfl⟩
        · by_cases hi : i = (w.db t').length
          · subst hi
            rw [Tables.cell_insert_self]
            exact inserted r rfl Tables.cell_length
          · rw [Tables.cell_insert_of_ne r hi]
            exact other r _ fun hj => hi hj.symm
        · exact failed _ e nofun
      | commit =>
        rcases hm.commit h with ⟨rfl, rfl⟩ | ⟨e, rfl, rfl⟩
        · rw [Tables.cell_commit]
          exact committed
        · exact failed _ e nofun
      | rollback =>
        obtain ⟨rfl, rfl⟩ := hm.rollback h
        rw [Tables.cell_rollback]
        exact rolledBack
    | _ => exact absurd trivial hc

end DropRoom
