import DropRoom.App.Frames

/-!
# What `cleanup_room` does

Run alone, `cleanup_room` wipes a room that can still be torn down, and otherwise does nothing. If
it fails on the way, nothing is committed, but the objects of some of the room's files may be gone.
-/

namespace DropRoom

open Effect Store Prog

/-- The keys of the objects that `_delete_content` deletes. -/
def Serial.roomKeys (σ : Serial) (room_id : ℕ) : List Key :=
  (σ.db.select .files fun _ r => r.room_id == room_id).map fun r => r.2.storage_key.text

/-- A row once a room is torn down: the room is DELETED, and nothing belongs to it. -/
def wiped (room_id : ℕ) : (t : Table) → ℕ → Option (Row t) → Option (Row t)
  | .rooms, i, v => if i = room_id then v.map fun r => { r with status := .deleted } else v
  | .sessions, _, v => v.filter fun r => r.room_id != room_id
  | .files, _, v => v.filter fun r => r.room_id != room_id
  | .messages, _, v => v.filter fun r => r.room_id != room_id
  | .auditEvents, _, v => v.filter fun r => r.room_id != some room_id

/-- The rows but for those that belong to a room. -/
def emptied (db : Snapshot Table Row) (room_id : ℕ) : Snapshot Table Row :=
  (((db.drop .files (dialect.deletes (t := .files) (.byRoom room_id))).drop .messages
    (dialect.deletes (t := .messages) (.byRoom room_id))).drop .sessions
    (dialect.deletes (t := .sessions) room_id)).drop .auditEvents
    (dialect.deletes (t := .auditEvents) room_id)

/-- The room of a row can be torn down. -/
def RoomRow.Open (r : RoomRow) : Prop := r.status = .active ∨ r.status = .expired

/-- Whether a room can be torn down is decided. -/
instance (r : RoomRow) : Decidable r.Open := inferInstanceAs (Decidable (_ ∨ _))

/-- The room, loaded as `room`, can still be torn down. -/
def Serial.CanWipe (σ : Serial) (room : Room) : Prop :=
  ∃ row, σ.db.rows .rooms room.id = some row ∧
    (row.status = .expired ∨ (room.status = .active ∧ row.status = .active))

/-- The state after some objects were deleted, where nothing was committed. -/
def Serial.Erased (σ : Serial) (keys : List Key) (σ' : Serial) : Prop :=
  σ'.db.saved = σ.db.saved ∧
    σ'.rest = { σ.rest with storage := σ.rest.storage.eraseAll keys }

/-- The state after a room was torn down. -/
structure Serial.Wiped (σ : Serial) (room_id : ℕ) (σ' : Serial) : Prop where
  rows : ∀ t i, σ'.db.rows t i = wiped room_id t i (σ.db.rows t i)
  saved : σ'.db.saved = σ.db.saved
  count : σ'.db.count = σ.db.count
  rest : σ'.rest = { σ.rest with storage := σ.rest.storage.eraseAll (σ.roomKeys room_id) }

section

variable {σ σ' : Serial} {i room_id : ℕ} {v : Option RoomRow}

/-- Writing a room changes no key. -/
@[simp] theorem Serial.roomKeys_set :
    Serial.roomKeys { σ with db := σ.db.set .rooms i v } room_id = σ.roomKeys room_id := by
  unfold Serial.roomKeys Snapshot.select
  rw [Snapshot.count_set, Snapshot.rows_set_of_table (by decide)]

/-- What remains of the rows without those of a room. -/
theorem rows_emptied {db : Snapshot Table Row} {t : Table} (ht : t ≠ .rooms) :
    (emptied db room_id).rows t i = wiped room_id t i (db.rows t i) := by
  unfold emptied
  cases t with
  | rooms => exact absurd rfl ht
  | files =>
    rw [Snapshot.rows_drop_of_table (by decide), Snapshot.rows_drop_of_table (by decide),
      Snapshot.rows_drop_of_table (by decide), Snapshot.rows_drop]
    rfl
  | messages =>
    rw [Snapshot.rows_drop_of_table (by decide), Snapshot.rows_drop_of_table (by decide),
      Snapshot.rows_drop, Snapshot.rows_drop_of_table (by decide)]
    rfl
  | sessions =>
    rw [Snapshot.rows_drop_of_table (by decide), Snapshot.rows_drop,
      Snapshot.rows_drop_of_table (by decide), Snapshot.rows_drop_of_table (by decide)]
    rfl
  | auditEvents =>
    rw [Snapshot.rows_drop, Snapshot.rows_drop_of_table (by decide),
      Snapshot.rows_drop_of_table (by decide), Snapshot.rows_drop_of_table (by decide)]
    rfl

/-- Emptying a room leaves the rooms. -/
theorem rooms_emptied {db : Snapshot Table Row} :
    (emptied db room_id).rows .rooms = db.rows .rooms := by
  unfold emptied
  rw [Snapshot.rows_drop_of_table (by decide), Snapshot.rows_drop_of_table (by decide),
    Snapshot.rows_drop_of_table (by decide), Snapshot.rows_drop_of_table (by decide)]

/-- A room that is torn down after it was marked. -/
theorem Serial.Wiped.of_set {row row' : RoomRow} (hrow : σ.db.rows .rooms room_id = some row)
    (hmark : { row' with status := .deleted } = { row with status := .deleted })
    (h : Serial.Wiped { σ with db := σ.db.set .rooms room_id (some row') } room_id σ') :
    σ.Wiped room_id σ' where
  rows t j := by
    rw [h.rows t j]
    cases t with
    | rooms =>
      by_cases hj : j = room_id
      · subst hj
        rw [Snapshot.rows_set_self (σ.db.rows_lt _ _ _ hrow), hrow]
        simp only [wiped, if_true, Option.map_some, hmark]
      · rw [Snapshot.rows_set_of_ne hj]
    | _ => rw [Snapshot.rows_set_of_table (by decide)]
  saved := h.saved.trans Snapshot.saved_set
  count := h.count.trans Snapshot.count_set
  rest := by rw [h.rest, Serial.roomKeys_set]

end

namespace Ends

variable {α : Type} {σ : Serial}

/-- An `UPDATE` by the number of the row, or a failure. -/
theorem updateAt {t : Table} {i : ℕ} {u : Upd t} {Q : Except Err Bool → Serial → Prop}
    (hok : Q (.ok (σ.db.updateAt t i (dialect.applies u) (dialect.set u)).1)
      { σ with db := (σ.db.updateAt t i (dialect.applies u) (dialect.set u)).2 })
    (herr : ∀ e, Q (.error e) σ) : Ends (DropRoom.updateAt t i u) Q σ :=
  issue_of_exec rfl hok herr

/-- A `DELETE`, or a failure. -/
theorem deleteWhere {t : Table} {d : Del t} {Q : Except Err ℕ → Serial → Prop}
    (hok : ∀ n, Q (.ok n) { σ with db := σ.db.drop t (dialect.deletes d) })
    (herr : ∀ e, Q (.error e) σ) : Ends (DropRoom.deleteWhere t d) Q σ :=
  issue_of_exec rfl (hok _) herr

/-- A commit, or a failure of it. -/
theorem commit {Q : Except Err Unit → Serial → Prop}
    (hok : Q (.ok ()) { σ with db := σ.db.commit }) (herr : ∀ e, Q (.error e) σ) :
    Ends DropRoom.commit Q σ :=
  issue_of_exec rfl hok herr

/-- An object is deleted, or is not. -/
theorem delete {key : Key} {Q : Except Err Unit → Serial → Prop}
    (hok : Q (.ok ()) { σ with rest := { σ.rest with storage := σ.rest.storage.erase key } })
    (herr : ∀ e, Q (.error e) σ) : Ends (storage.delete key) Q σ :=
  issue_of_exec rfl hok herr

/-- Deleting objects one by one: when it fails, those under the first keys are gone. -/
theorem forM_delete (keys : List Key) {Q : Except Err PUnit → Serial → Prop}
    (hok : Q (.ok ⟨⟩) { σ with rest := { σ.rest with storage := σ.rest.storage.eraseAll keys } })
    (herr : ∀ e first, first <+: keys → Q (.error e)
      { σ with rest := { σ.rest with storage := σ.rest.storage.eraseAll first } }) :
    Ends (keys.forM storage.delete) Q σ := by
  induction keys generalizing σ with
  | nil => exact hok
  | cons key keys ih =>
    refine .bind (.delete (ih hok fun e first hfirst => ?_) fun e => ?_)
    · exact herr e (key :: first) (List.cons_prefix_cons.2 ⟨rfl, hfirst⟩)
    · exact herr e [] List.nil_prefix

/-- `_delete_content`. -/
theorem deleteContent {room_id : ℕ} {Q : Except Err Unit → Serial → Prop}
    (hok : Q (.ok ()) ⟨emptied σ.db room_id,
      { σ.rest with storage := σ.rest.storage.eraseAll (σ.roomKeys room_id) }⟩)
    (herr : ∀ e keys σ', keys ⊆ σ.roomKeys room_id → σ.Erased keys σ' → Q (.error e) σ') :
    Ends (cleanupService.deleteContent room_id) Q σ := by
  refine .bind (.bind (.select ?_ fun e => herr e [] σ (List.nil_subset _) ⟨rfl, rfl⟩))
  refine .bind ?_
  have hforM : ∀ l : List (ℕ × FileRow), (l.map fun r => r.2.storage_key).forM
      (fun key => storage.delete key.text) =
        (l.map fun r => r.2.storage_key.text).forM storage.delete := by
    intro l
    induction l with
    | nil => rfl
    | cons r l ih =>
      exact congrArg (fun rest => storage.delete r.2.storage_key.text >>= fun _ => rest) ih
  rw [hforM]
  refine forM_delete _ ?_ fun e first hfirst => ?_
  · have hall : ∀ e σ', σ'.db.saved = σ.db.saved → σ'.rest = { σ.rest with
        storage := σ.rest.storage.eraseAll (σ.roomKeys room_id) } → Q (.error e) σ' :=
      fun e σ' hsaved hrest => herr e _ σ' (List.Subset.refl _) ⟨hsaved, hrest⟩
    refine .bind (.deleteWhere (fun _ => ?_) fun e => hall e _ rfl rfl)
    refine .bind (.deleteWhere (fun _ => ?_) fun e => hall e _ rfl rfl)
    refine .bind (.deleteWhere (fun _ => ?_) fun e => hall e _ rfl rfl)
    exact .bind (.deleteWhere (fun _ => hok) fun e => hall e _ rfl rfl)
  · exact herr e first _ hfirst.subset ⟨rfl, rfl⟩

/-- `cleanup_room` from `mark_room_deleting` on. -/
theorem teardown {room_id : ℕ} {Q : Except Err Bool → Serial → Prop}
    (htrue : ∀ row, σ.db.rows .rooms room_id = some row → row.status = .expired → ∀ σ',
      σ.Wiped room_id σ' → Q (.ok true) σ')
    (hfalse : (∀ row, σ.db.rows .rooms room_id = some row → row.status ≠ .expired) →
      Q (.ok false) σ)
    (herr : ∀ e keys σ', (∀ key ∈ keys, key ∈ σ.roomKeys room_id ∧
      ∃ row, σ.db.rows .rooms room_id = some row ∧ row.status = .expired) →
      σ.Erased keys σ' → Q (.error e) σ') :
    Ends (do
      if ← roomRepository.markRoomDeleting room_id then
        cleanupService.deleteContent room_id
        let _ ← roomRepository.markRoomDeleted room_id
        pure true
      else
        pure false : Op Bool) Q σ := by
  refine .bind (.updateAt ?_ fun e => herr e [] σ (by simp) ⟨rfl, rfl⟩)
  by_cases hexpired : ∃ row, σ.db.rows .rooms room_id = some row ∧ row.status = .expired
  · have hexp := hexpired
    obtain ⟨row, hrow, hstatus⟩ := hexpired
    have hlt := σ.db.rows_lt _ _ _ hrow
    -- The room was expired, so it is marked.
    have happlies : dialect.applies (t := .rooms) RoomUpdate.markDeleting row = true :=
      beq_iff_eq.2 hstatus
    rw [Snapshot.updateAt_of_some hrow happlies]
    have hkeys := @Serial.roomKeys_set σ room_id room_id
      (some (dialect.set (t := .rooms) RoomUpdate.markDeleting row))
    refine .bind (.deleteContent ?_ fun e keys σ' hsub herased => ?_)
    · rw [hkeys]
      -- Its contents go, and the row is as it was marked.
      have hmarked : (emptied (σ.db.set .rooms room_id
          (some (dialect.set (t := .rooms) RoomUpdate.markDeleting row))) room_id).rows .rooms
            room_id = some { row with status := .deleting } := by
        rw [rooms_emptied, Snapshot.rows_set_self hlt]
        rfl
      refine .bind (.updateAt ?_ fun e => herr e _ _ (fun key hkey => ⟨hkey, hexp⟩) ⟨?_, rfl⟩)
      · rw [Snapshot.updateAt_of_some hmarked rfl]
        refine htrue row hrow hstatus _ ⟨fun t i => ?_, ?_, ?_, rfl⟩
        · cases t with
          | rooms =>
            by_cases hi : i = room_id
            · subst hi
              rw [Snapshot.rows_set_self, hrow]
              · simp only [wiped, if_true, Option.map_some]
                rfl
              · exact (emptied _ _).rows_lt _ _ _ hmarked
            · rw [Snapshot.rows_set_of_ne hi, rooms_emptied, Snapshot.rows_set_of_ne hi]
              exact (if_neg hi).symm
          | _ =>
            rw [Snapshot.rows_set_of_table (by decide), rows_emptied (by decide),
              Snapshot.rows_set_of_table (by decide)]
        · rw [Snapshot.saved_set]
          exact Snapshot.saved_set
        · rw [Snapshot.count_set]
          exact Snapshot.count_set
      · exact Snapshot.saved_set
    · rw [hkeys] at hsub
      exact herr e keys σ' (fun key hkey => ⟨hsub hkey, hexp⟩)
        ⟨herased.1.trans Snapshot.saved_set, herased.2⟩
  -- The room is not expired, and nothing happens.
  · rw [Snapshot.updateAt_of_none fun row hrow => ?_]
    · exact hfalse fun row hrow hstatus => hexpired ⟨row, hrow, hstatus⟩
    · exact beq_eq_false_iff_ne.2 fun hstatus => hexpired ⟨row, hrow, hstatus⟩

/-- `cleanup_room` wipes the room if it can, and fails only when a command does. -/
theorem cleanupRoom {room : Room} {Q : Except Err Bool → Serial → Prop}
    (htrue : σ.CanWipe room → ∀ σ', σ.Wiped room.id σ' → Q (.ok true) σ')
    (hfalse : ¬σ.CanWipe room → Q (.ok false) σ)
    (herr : ∀ e keys σ', (∀ key ∈ keys, key ∈ σ.roomKeys room.id ∧ σ.CanWipe room) →
      σ.Erased keys σ' → Q (.error e) σ') :
    Ends (cleanupService.cleanupRoom room) Q σ := by
  unfold cleanupService.cleanupRoom
  split
  -- The room was active when it was loaded, and is marked expired first.
  · next hactive =>
    refine .bind (.updateAt ?_ fun e => herr e [] σ (by simp) ⟨rfl, rfl⟩)
    by_cases hrow : ∃ row, σ.db.rows .rooms room.id = some row ∧ row.status = .active
    · obtain ⟨row, hrow, hstatus⟩ := hrow
      have hlt := σ.db.rows_lt _ _ _ hrow
      have happlies : dialect.applies (t := .rooms) RoomUpdate.markExpired row = true :=
        beq_iff_eq.2 hstatus
      rw [Snapshot.updateAt_of_some hrow happlies]
      refine teardown (fun row' hrow' hstatus' σ' hwiped => ?_) (fun hno => ?_)
        fun e keys σ' hsub herased => ?_
      · have hmark : ({ RoomUpdate.set .markExpired row with status := .deleted } : RoomRow) =
            { row with status := .deleted } := rfl
        exact htrue ⟨row, hrow, .inr ⟨hactive, hstatus⟩⟩ σ' (.of_set hrow hmark hwiped)
      · exact absurd rfl (hno _ (Snapshot.rows_set_self hlt))
      · rw [Serial.roomKeys_set] at hsub
        have hcan : σ.CanWipe room := ⟨row, hrow, .inr ⟨hactive, hstatus⟩⟩
        exact herr e keys σ' (fun key hkey => ⟨(hsub key hkey).1, hcan⟩)
          ⟨herased.1.trans Snapshot.saved_set, herased.2⟩
    -- It is active no longer: the mark fails, and the teardown takes it if it has expired.
    · rw [Snapshot.updateAt_of_none fun row hrow' => ?_]
      · refine teardown (fun row' hrow' hstatus σ' => ?_) (fun hno => hfalse ?_)
          fun e keys σ' hsub => herr e keys σ' fun key hkey => ⟨(hsub key hkey).1, ?_⟩
        rotate_right
        · obtain ⟨row', hrow', hstatus⟩ := (hsub key hkey).2
          exact ⟨row', hrow', .inl hstatus⟩
        · exact htrue ⟨row', hrow', .inl hstatus⟩ σ'
        · rintro ⟨row', hrow', hstatus | ⟨-, hstatus⟩⟩
          · exact hno row' hrow' hstatus
          · exact hrow ⟨row', hrow', hstatus⟩
      · exact beq_eq_false_iff_ne.2 fun hstatus => hrow ⟨row, hrow', hstatus⟩
  · next hactive =>
    refine teardown (fun row hrow hstatus σ' => ?_) (fun hno => hfalse ?_)
      fun e keys σ' hsub => herr e keys σ' fun key hkey => ⟨(hsub key hkey).1, ?_⟩
    rotate_right
    · obtain ⟨row, hrow, hstatus⟩ := (hsub key hkey).2
      exact ⟨row, hrow, .inl hstatus⟩
    · exact htrue ⟨row, hrow, .inl hstatus⟩ σ'
    · rintro ⟨row, hrow, hstatus | ⟨hloaded, -⟩⟩
      · exact hno row hrow hstatus
      · exact hactive hloaded

end Ends

end DropRoom
