import DropRoom.App.Rules

/-!
# Versions of a row

A row has its committed version and, while a transaction holds its lock, a draft. `Faithful.has`
says where the versions after a command come from: no command makes one up but an `UPDATE`, from a
version that is there, and an `INSERT`, under a number that is new. So what every `UPDATE` leaves of
a row (`fixed`) stays the same in all of its versions, whatever tasks run side by side
(`World.Coherent`, `World.Keeps`).
-/

namespace DropRoom

open Effect Store

/-! ## Versions -/

/-- The row is the committed version of the cell, or its draft. -/
def Store.Cell.Has {α : Type} (c : Cell α) (r : α) : Prop :=
  c.committed = some r ∨ ∃ q, c.lock = some (q, some r)

section

variable {α : Type} {c : Cell α} {p : ℕ} {r : α}

/-- What a process sees is a version. -/
theorem Store.Cell.Has.of_view (h : c.view p = some r) : c.Has r := by
  by_cases hl : ∃ v, c.lock = some (p, v)
  · obtain ⟨v, hl⟩ := hl
    rw [Cell.view_of_lock hl] at h
    exact .inr ⟨p, by rw [hl, h]⟩
  · rw [Cell.view_of_ne fun v hv => hl ⟨v, hv⟩] at h
    exact .inl h

/-- A write makes one version. -/
theorem Store.Cell.Has.of_write {v : Option α} (h : (c.write p v).Has r) : v = some r ∨ c.Has r := by
  rcases h with h | ⟨q, h⟩
  · exact .inr (.inl h)
  · cases h
    exact .inl rfl

/-- A commit makes no version. -/
theorem Store.Cell.Has.of_commit (h : (c.commit p).Has r) : c.Has r := by
  by_cases hl : ∃ v, c.lock = some (p, v)
  · obtain ⟨v, hl⟩ := hl
    rw [Cell.commit_of_lock hl] at h
    rcases h with h | ⟨q, h⟩
    · cases h
      exact .inr ⟨p, hl⟩
    · cases h
  · rwa [Cell.commit_of_ne fun v hv => hl ⟨v, hv⟩] at h

/-- A rollback makes no version. -/
theorem Store.Cell.Has.of_rollback (h : (c.rollback p).Has r) : c.Has r := by
  by_cases hl : ∃ v, c.lock = some (p, v)
  · obtain ⟨v, hl⟩ := hl
    rw [Cell.rollback_of_lock hl] at h
    rcases h with h | ⟨q, h⟩
    · exact .inl h
    · cases h
  · rwa [Cell.rollback_of_ne fun v hv => hl ⟨v, hv⟩] at h

/-- A cell that was never written has no version. -/
theorem Store.Cell.not_has_empty : ¬(Cell.empty : Cell α).Has r := by
  rintro (h | ⟨q, h⟩)
  · cases h
  · cases h

/-- A row that is committed and not locked has one version. -/
theorem Store.Cell.has_single {v : α} : (⟨some r, none⟩ : Cell α).Has v ↔ v = r := by
  constructor
  · rintro (h | ⟨q, h⟩)
    · exact (Option.some.inj h).symm
    · cases h
  · rintro rfl
    exact .inl rfl

end

section

variable {m : Machine Cmd Resp Err World} {p : ℕ} {c : Cmd} {w w' : World} {x : Except Err (Resp c)}
  {t : Table} {i : ℕ}

/-- No number of a row is given up. -/
theorem Faithful.length_le (hm : Faithful m) (h : m.Answer p c w x w') (t : Table) :
    (w.db t).length ≤ (w'.db t).length := by
  by_cases hq : ∃ q, c = .sql q
  · obtain ⟨q, rfl⟩ := hq
    rcases hm.sql h with ⟨a, db, hq, -, rfl⟩ | ⟨e, -, -, rfl⟩
    · cases q with
      | select t' where_ => cases hq; exact le_rfl
      -- Rows are written in place, and a row that is deleted keeps its number.
      | updateAt t' j u =>
        rcases Tables.updateAt_cases hq with ⟨-, rfl, -⟩ | ⟨-, r, -, -, -, rfl⟩
        · exact le_rfl
        · by_cases ht : t = t'
          · subst ht
            simp [Tables.setCell]
          · simp [Tables.setCell, Function.update_of_ne ht]
      | deleteWhere t' d =>
        change Tables.deleteWhere _ _ _ _ = _ at hq
        unfold Tables.deleteWhere at hq
        split at hq
        · cases hq
        · cases hq
          by_cases ht : t = t'
          · subst ht
            simp
          · simp [Function.update_of_ne ht]
      -- Only an insertion adds one.
      | insert t' r =>
        cases hq
        by_cases ht : t = t'
        · subst ht
          simp
        · simp [Function.update_of_ne ht]
      | commit =>
        cases hq
        simp [Tables.commit]
      | rollback =>
        cases hq
        simp [Tables.rollback]
    · exact le_rfl
  · rw [hm.db_eq h fun q hq' => hq ⟨q, hq'⟩]

/-- Where a version of a row comes from. -/
theorem Faithful.has (hm : Faithful m) (h : m.Answer p c w x w') {r' : Row t}
    (hr' : (w'.db.cell t i).Has r') :
    (w.db.cell t i).Has r' ∨
      (∃ u r, c = .sql (.updateAt t i u) ∧ (w.db.cell t i).Has r ∧ dialect.applies u r = true ∧
        r' = dialect.set u r) ∨
      (c = .sql (.insert t r') ∧ i = (w.db t).length) := by
  refine hm.row_elim h t i (motive := fun c _ cl => cl.Has r' → (w.db.cell t i).Has r' ∨
      (∃ u r, c = .sql (.updateAt t i u) ∧ (w.db.cell t i).Has r ∧ dialect.applies u r = true ∧
        r' = dialect.set u r) ∨ (c = .sql (.insert t r') ∧ i = (w.db t).length))
    ?spared ?failed ?refused ?updated ?kept ?deleted ?other ?inserted ?committed ?rolledBack hr'
  case spared => exact fun _ _ _ h => .inl h
  case failed => exact fun _ _ _ h => .inl h
  case refused => exact fun _ _ h => .inl h
  case kept => exact fun _ _ _ h => .inl h
  case other => exact fun _ _ _ h => .inl h
  case updated =>
    intro u r hr hu _ h
    rcases h.of_write with h | h
    · exact .inr (.inl ⟨u, r, rfl, .of_view hr, hu, (Option.some.inj h).symm⟩)
    · exact .inl h
  case deleted =>
    intro d n r _ _ _ h
    rcases h.of_write with h | h
    · cases h
    · exact .inl h
  case inserted =>
    intro r hi _ h
    rcases h.of_write with h | h
    · cases h
      exact .inr (.inr ⟨rfl, hi⟩)
    · exact absurd h Cell.not_has_empty
  case committed => exact fun h => .inl h.of_commit
  case rolledBack => exact fun h => .inl h.of_rollback

/-- A committed row that nobody has locked stays so, unless the command updates or deletes it. -/
theorem Faithful.cell_stays (hm : Faithful m) (h : m.Answer p c w x w') {r : Row t}
    (hcell : w.db.cell t i = ⟨some r, none⟩) (hupdate : ∀ u, c ≠ .sql (.updateAt t i u))
    (hdelete : ∀ d, c = .sql (.deleteWhere t d) → dialect.deletes d i r = false) :
    w'.db.cell t i = ⟨some r, none⟩ := by
  refine hm.row_elim h t i (motive := fun c _ cl => (∀ u, c ≠ .sql (.updateAt t i u)) →
      (∀ d, c = .sql (.deleteWhere t d) → dialect.deletes d i r = false) → cl = ⟨some r, none⟩)
    ?spared ?failed ?refused ?updated ?kept ?deleted ?other ?inserted ?committed ?rolledBack
    hupdate hdelete
  case spared => exact fun _ _ _ _ _ => hcell
  case failed => exact fun _ _ _ _ _ => hcell
  case refused => exact fun _ _ _ _ => hcell
  case kept => exact fun _ _ _ _ _ => hcell
  case other => exact fun _ _ _ _ _ => hcell
  case updated => exact fun u _ _ _ _ hu _ => absurd rfl (hu u)
  case deleted =>
    intro d n r' hget hd _ _ hno
    -- The row has one version only.
    have hhas : (w.db.cell t i).Has r' := .of_view hget
    rw [hcell, Cell.has_single] at hhas
    rw [hhas, hno d rfl] at hd
    cases hd
  case inserted =>
    intro r' _ hempty _ _
    rw [hcell] at hempty
    cases hempty
  case committed =>
    intro _ _
    rw [hcell]
    exact Cell.commit_of_ne fun v hv => by cases hv
  case rolledBack =>
    intro _ _
    rw [hcell]
    exact Cell.rollback_of_ne fun v hv => by cases hv

end

/-! ## What no statement changes -/

/-- The columns that no statement changes. The sender of a message and the uploader of a file are not
among them: `ON DELETE SET NULL` takes them away with the session. -/
abbrev Fixed : Table → Type
  | .rooms => String × TokenHash × TokenHash
  | .sessions => ℕ × TokenHash × Role
  | .files => ℕ × Uuid
  | .messages => ℕ × Option String × String × Time
  | .auditEvents => AuditEventRow

/-- The columns that no `UPDATE` writes and no deletion elsewhere sets to `NULL`. -/
def fixed : (t : Table) → Row t → Fixed t
  | .rooms, r => (r.room_code, r.access_token_hash, r.owner_token_hash)
  | .sessions, r => (r.room_id, r.session_token_hash, r.role)
  | .files, r => (r.room_id, r.storage_key)
  | .messages, r => (r.room_id, r.display_name, r.body, r.created_at)
  | .auditEvents, r => r

/-- An `UPDATE` leaves the fixed columns. -/
theorem fixed_set {t : Table} (u : Upd t) (r : Row t) : fixed t (dialect.set u r) = fixed t r := by
  cases t with
  | rooms => cases u <;> rfl
  | sessions => cases u <;> rfl
  | files => cases u <;> rfl
  | messages => exact u.elim
  | auditEvents => exact u.elim

/-- The versions of a row have the same fixed columns. -/
def World.Coherent (w : World) : Prop :=
  ∀ t i v v', (w.db.cell t i).Has v → (w.db.cell t i).Has v' → fixed t v = fixed t v'

/-- The number of a row is in use, and its versions have the fixed columns of `r`. -/
structure World.Seen (w : World) (t : Table) (i : ℕ) (r : Row t) : Prop where
  lt : i < (w.db t).length
  fixed_eq : ∀ v, (w.db.cell t i).Has v → fixed t v = fixed t r

/-- What is known of a world is known of another one. -/
structure World.Keeps (w w' : World) : Prop where
  length : ∀ t, (w.db t).length ≤ (w'.db t).length
  coherent : w.Coherent → w'.Coherent
  seen : ∀ {t i r}, w.Seen t i r → w'.Seen t i r

namespace World

/-- A world keeps its own versions. -/
theorem Keeps.refl (w : World) : w.Keeps w := ⟨fun _ => le_rfl, id, id⟩

/-- What is kept twice is kept. -/
theorem Keeps.trans {w₁ w₂ w₃ : World} (h : w₁.Keeps w₂) (h' : w₂.Keeps w₃) : w₁.Keeps w₃ :=
  ⟨fun t => (h.length t).trans (h'.length t), fun hw => h'.coherent (h.coherent hw),
    fun hr => h'.seen (h.seen hr)⟩

/-- Where every row has one version, the versions agree. -/
theorem Coherent.of_free {w : World} (h : w.db.Free) : w.Coherent := by
  intro t i v v' hv hv'
  have hone : ∀ r, (w.db.cell t i).Has r → (w.db.cell t i).committed = some r := by
    rintro r (hr | ⟨q, hr⟩)
    · exact hr
    · rw [h t i] at hr
      cases hr
  obtain rfl := Option.some.inj ((hone v hv).symm.trans (hone v' hv'))
  rfl

/-- A version that is there tells the fixed columns. -/
theorem Coherent.seen {w : World} (hw : w.Coherent) {t : Table} {i : ℕ} {r : Row t}
    (hr : (w.db.cell t i).Has r) : w.Seen t i r := by
  refine ⟨?_, fun v hv => hw t i v r hv hr⟩
  by_contra hge
  rw [Tables.cell, List.getElem?_eq_none (Nat.le_of_not_lt hge)] at hr
  exact Cell.not_has_empty hr

variable {m : Machine Cmd Resp Err World} {p : ℕ} {c : Cmd} {w w' : World} {x : Except Err (Resp c)}

/-- Every command keeps what is known. -/
theorem keeps_of_answer (hm : Faithful m) (h : m.Answer p c w x w') : w.Keeps w' where
  length := hm.length_le h
  coherent hw := by
    -- A version that an `UPDATE` writes has the fixed columns of one that was there before.
    have hold : ∀ t i v, (w'.db.cell t i).Has v → (∃ v₀, (w.db.cell t i).Has v₀ ∧
        fixed t v = fixed t v₀) ∨ (c = .sql (.insert t v) ∧ i = (w.db t).length) := by
      intro t i v hv
      rcases hm.has h hv with hv | ⟨u, r, -, hr, -, rfl⟩ | hnew
      · exact .inl ⟨v, hv, rfl⟩
      · exact .inl ⟨r, hr, fixed_set u r⟩
      · exact .inr hnew
    have hnone : ∀ t v, ¬(w.db.cell t (w.db t).length).Has v := by
      intro t v hv
      rw [Tables.cell_length] at hv
      exact Cell.not_has_empty hv
    intro t i v v' hv hv'
    rcases hold t i v hv with ⟨v₀, hv₀, hfixed⟩ | ⟨hc, rfl⟩
    · rcases hold t i v' hv' with ⟨v₁, hv₁, hfixed'⟩ | ⟨-, rfl⟩
      · rw [hfixed, hfixed']
        exact hw t i v₀ v₁ hv₀ hv₁
      · exact absurd hv₀ (hnone t v₀)
    · rcases hold t _ v' hv' with ⟨v₁, hv₁, -⟩ | ⟨hc', -⟩
      · exact absurd hv₁ (hnone t v₁)
      · rw [hc] at hc'
        cases hc'
        rfl
  seen := by
    rintro t i r ⟨hlt, hfixed⟩
    refine ⟨hlt.trans_le (hm.length_le h t), fun v hv => ?_⟩
    rcases hm.has h hv with hv | ⟨u, r', -, hr', -, rfl⟩ | ⟨-, rfl⟩
    · exact hfixed v hv
    · exact (fixed_set u r').trans (hfixed r' hr')
    · exact absurd hlt (lt_irrefl _)

/-- One step keeps the versions. -/
theorem Tick.keeps_known (h : w.Tick w') : w.Keeps w' := by
  obtain ⟨d, d', rfl⟩ := h
  exact ⟨fun _ => le_rfl, id, fun hr => ⟨hr.lt, hr.fixed_eq⟩⟩

end World

end DropRoom
