import DropRoom.App.Lifting

/-!
# What a teardown misses

`cleanup_room` deletes the file records, messages and sessions of its room with one `DELETE` a table.
A row that another transaction inserts is deleted only if it is committed when the `DELETE` on its
table is executed. The monitor follows which tables the transaction of each process has wiped. A run
in which every insert is seen by the wipe (`seen`) leaves no row of a DELETED room behind.
-/

namespace DropRoom

open Effect Store

namespace wipe

/-- The tables whose rows a teardown deletes. -/
def contents : List Table := [.files, .messages, .sessions]

/-- The `DELETE` drops all rows of room `ρ`. -/
def wipes (ρ : ℕ) : (t : Table) → Del t → Bool
  | .files, .byRoom room_id => room_id == ρ
  | .messages, .byRoom room_id => room_id == ρ
  | .sessions, room_id => room_id == ρ
  | _, _ => false

/-- A wipe matches every row of its room. -/
theorem deletes_of_wipes {ρ : ℕ} {t : Table} {d : Del t} (hd : wipes ρ t d = true) {r : Row t}
    (hr : roomOf t r = some ρ) (i : ℕ) : dialect.deletes d i r = true := by
  cases t with
  | rooms => exact d.elim
  | sessions =>
    obtain rfl : d = ρ := eq_of_beq hd
    exact beq_iff_eq.2 (Option.some.inj hr)
  | files =>
    cases d with
    | byId => cases hd
    | byRoom room_id =>
      obtain rfl : room_id = ρ := eq_of_beq hd
      exact beq_iff_eq.2 (Option.some.inj hr)
  | messages =>
    cases d with
    | byId => cases hd
    | byRoom room_id =>
      obtain rfl : room_id = ρ := eq_of_beq hd
      exact beq_iff_eq.2 (Option.some.inj hr)
  | auditEvents => cases hd

/-! ## The protocol -/

/-- The commands that a process may issue when its transaction has wiped the tables of `φ`: it
marks the room as DELETED only when all of them are wiped. -/
def allowed (ρ : ℕ) (φ : List Table) : Cmd → Prop
  | .sql (.updateAt .rooms i u) => i = ρ → u = .markDeleted → ∀ t ∈ contents, t ∈ φ
  | .sql (.insert .rooms r) => r.status = .active
  | _ => True

/-- The tables that are wiped after a command was answered. -/
def next (ρ : ℕ) (φ : List Table) : (c : Cmd) → Except Err (Resp c) → List Table
  | .sql (.deleteWhere t d), .ok _ => if wipes ρ t d then t :: φ else φ
  | .sql .commit, .ok _ => []
  | .sql .rollback, _ => []
  | _, _ => φ

/-- The protocol of the teardown of room `ρ`. -/
def monitor (ρ : ℕ) : Monitor Cmd Resp Err (List Table) := ⟨allowed ρ, next ρ⟩

/-- A row of the room is inserted only while its table is not wiped and the room is not DELETED,
and a table is wiped only while no other transaction has a row of the room in it that is not
committed. -/
def seen (ρ n : ℕ) : Guard Cmd World (List Table) := fun p c w φ => match c with
  | .sql (.insert t r) => t ∈ contents → roomOf t r = some ρ →
    (∀ q < n, t ∉ φ q) ∧ ∀ r₀ ∈ w.db.committed .rooms ρ, r₀.status ≠ .deleted
  | .sql (.deleteWhere t d) => wipes ρ t d = true →
    ∀ i < (w.db t).length, ∀ l ∈ (w.db.cell t i).lock, l.1 ≠ p → ∀ r ∈ l.2, roomOf t r ≠ some ρ
  | _ => True

/-- Whether the wiping is seen is decided. -/
instance (ρ n p : ℕ) (c : Cmd) (w : World) (φ : ℕ → List Table) : Decidable (seen ρ n p c w φ) := by
  unfold seen
  split <;> infer_instance

/-! ## The invariant -/

/-- No version of a row belongs to the room. -/
structure Absent {t : Table} (ρ : ℕ) (cl : Cell (Row t)) : Prop where
  committed : ∀ r, cl.committed = some r → roomOf t r ≠ some ρ
  pending : ∀ q r, cl.lock = some (q, some r) → roomOf t r ≠ some ρ

/-- The row is not one of the room, or process `p` has deleted it. -/
structure Gone {t : Table} (ρ p : ℕ) (cl : Cell (Row t)) : Prop where
  committed : ∀ r, cl.committed = some r → roomOf t r = some ρ → cl.lock = some (p, none)
  pending : ∀ q r, cl.lock = some (q, some r) → roomOf t r ≠ some ρ

/-- The invariant of the database and the wiped tables of all processes. -/
structure Inv (ρ n : ℕ) (db : Db) (φ : ℕ → List Table) : Prop where
  /-- A row that is updated stays in its room. -/
  stays : ∀ t ∈ contents, ∀ i q r r', (db.cell t i).committed = some r →
    (db.cell t i).lock = some (q, some r') → roomOf t r' = roomOf t r
  /-- No row of the room is left in a table that is wiped. -/
  wiped : ∀ q, ∀ t ∈ contents, t ∈ φ q → ∀ i, Gone ρ q (db.cell t i)
  /-- The room becomes DELETED only with all tables wiped. -/
  marked : ∀ q r, (db.cell .rooms ρ).lock = some (q, some r) → r.status = .deleted →
    (∃ r₀, db.committed .rooms ρ = some r₀ ∧ r₀.status = .deleted) ∨ ∀ t ∈ contents, t ∈ φ q
  /-- No row of the room is left once it is DELETED. -/
  deleted : ∀ r, db.committed .rooms ρ = some r → r.status = .deleted →
    ∀ t ∈ contents, ∀ i, Absent ρ (db.cell t i)
  bound : ∀ q, φ q ≠ [] → q < n

section

variable {t : Table} {ρ p q : ℕ} {cl : Cell (Row t)}

/-- What a process may do to a row: where `B` holds it inserts no row of the room, and it ends its
transaction only where `E` does. -/
inductive Touch (ρ p : ℕ) (B E : Prop) (cl : Cell (Row t)) : Cell (Row t) → Prop
  | keep : Touch ρ p B E cl cl
  | update (r r' : Row t) (hv : cl.view p = some r) (hr : roomOf t r' = roomOf t r)
      (hl : cl.heldByOther p = false) : Touch ρ p B E cl (cl.write p (some r'))
  | delete (hl : cl.heldByOther p = false) : Touch ρ p B E cl (cl.write p none)
  | insert (r : Row t) (hc : cl = Cell.empty) (hr : B → roomOf t r ≠ some ρ) :
      Touch ρ p B E cl (cl.write p (some r))
  | commit (he : E) : Touch ρ p B E cl (cl.commit p)
  | rollback (he : E) : Touch ρ p B E cl (cl.rollback p)

variable {B E : Prop} {cl' : Cell (Row t)}

/-- A row that is updated stays in its room, whatever is done to it. -/
theorem Touch.stays (h : Touch ρ p B E cl cl')
    (hs : ∀ q r r', cl.committed = some r → cl.lock = some (q, some r') → roomOf t r' = roomOf t r) :
    ∀ q r r', cl'.committed = some r → cl'.lock = some (q, some r') → roomOf t r' = roomOf t r := by
  intro q r r' hr hr'
  cases h with
  | keep => exact hs q r r' hr hr'
  | update r₁ r₂ hv h₂ hl =>
    cases hr'
    rw [h₂]
    rcases Cell.heldByOther_eq_false.1 hl with hl | ⟨v, hl⟩
    · rw [Cell.view_of_free hl] at hv
      rw [Option.some.inj (hv.symm.trans hr)]
    · rw [Cell.view_of_lock hl] at hv
      subst hv
      exact hs p r r₁ hr hl
  | delete hl => cases hr'
  | insert r₁ hc h₁ =>
    subst hc
    cases hr
  | commit he =>
    rcases Cell.lock_commit (p := p) cl with hl | ⟨q', v, -, -, hc⟩
    · rw [hl] at hr'
      cases hr'
    · rw [hc] at hr hr'
      exact hs q r r' hr hr'
  | rollback he =>
    by_cases hl : ∃ v, cl.lock = some (p, v)
    · obtain ⟨v, hl⟩ := hl
      rw [Cell.rollback_of_lock hl] at hr'
      cases hr'
    · rw [Cell.rollback_of_ne fun v hv => hl ⟨v, hv⟩] at hr hr'
      exact hs q r r' hr hr'

/-- A row that is gone stays gone until the process that has deleted it ends its transaction. -/
theorem Touch.gone (h : Touch ρ p B E cl cl') (ha : B) (hg : Gone ρ q cl)
    (hq : q = p → ¬E) : Gone ρ q cl' := by
  -- A row that process `p` may write is not deleted by another one.
  have hown : cl.heldByOther p = false → ∀ r, cl.committed = some r → roomOf t r = some ρ →
      q = p ∧ cl.view p = none := by
    intro hl r hr hρ
    have hlock := hg.committed r hr hρ
    rcases Cell.heldByOther_eq_false.1 hl with hl | ⟨v, hl⟩
    · rw [hl] at hlock
      cases hlock
    · rw [hl] at hlock
      cases hlock
      exact ⟨rfl, Cell.view_of_lock hl⟩
  cases h with
  | keep => exact hg
  | update r r' hv hr hl =>
    refine ⟨fun r₁ h₁ hρ => ?_, fun q' r₁ h₁ => ?_⟩
    · rw [(hown hl r₁ h₁ hρ).2] at hv
      cases hv
    · cases h₁
      rw [hr]
      rcases Cell.heldByOther_eq_false.1 hl with hl' | ⟨v, hl'⟩
      · intro hρ
        have hc : cl.committed = some r := by rwa [Cell.view_of_free hl'] at hv
        rw [(hown hl r hc hρ).2] at hv
        cases hv
      · rw [Cell.view_of_lock hl'] at hv
        subst hv
        exact hg.pending p r hl'
  | delete hl =>
    refine ⟨fun r₁ h₁ hρ => ?_, by rintro q' r₁ ⟨⟩⟩
    rw [(hown hl r₁ h₁ hρ).1]
    rfl
  | insert r hc hr =>
    subst hc
    refine ⟨by rintro r₁ ⟨⟩, fun q' r₁ h₁ => ?_⟩
    cases h₁
    exact hr ha
  | commit he =>
    by_cases hl : ∃ v, cl.lock = some (p, v)
    · obtain ⟨v, hl⟩ := hl
      rw [Cell.commit_of_lock hl]
      refine ⟨fun r₁ h₁ hρ => ?_, by rintro q' r₁ ⟨⟩⟩
      obtain rfl : v = some r₁ := h₁
      exact absurd hρ (hg.pending p r₁ hl)
    · rw [Cell.commit_of_ne fun v hv => hl ⟨v, hv⟩]
      exact hg
  | rollback he =>
    by_cases hl : ∃ v, cl.lock = some (p, v)
    · obtain ⟨v, hl⟩ := hl
      rw [Cell.rollback_of_lock hl]
      refine ⟨fun r₁ h₁ hρ => ?_, by rintro q' r₁ ⟨⟩⟩
      have hlock := hg.committed r₁ h₁ hρ
      rw [hl] at hlock
      cases hlock
      exact absurd he (hq rfl)
    · rw [Cell.rollback_of_ne fun v hv => hl ⟨v, hv⟩]
      exact hg

/-- A row that is absent stays absent. -/
theorem Touch.absent (h : Touch ρ p B E cl cl') (ha : B) (hg : Absent ρ cl) :
    Absent ρ cl' := by
  -- What the process sees is its draft or the committed row, and neither is of the room.
  have hview : ∀ r, cl.view p = some r → roomOf t r ≠ some ρ := by
    intro r hv
    by_cases hl : ∃ v, cl.lock = some (p, v)
    · obtain ⟨v, hl⟩ := hl
      rw [Cell.view_of_lock hl] at hv
      subst hv
      exact hg.pending p r hl
    · rw [Cell.view_of_ne fun v hv => hl ⟨v, hv⟩] at hv
      exact hg.committed r hv
  cases h with
  | keep => exact hg
  | update r r' hv hr hl =>
    refine ⟨hg.committed, fun q' r₁ h₁ => ?_⟩
    cases h₁
    rw [hr]
    exact hview r hv
  | delete hl => exact ⟨hg.committed, by rintro q' r₁ ⟨⟩⟩
  | insert r hc hr =>
    refine ⟨hg.committed, fun q' r₁ h₁ => ?_⟩
    cases h₁
    exact hr ha
  | commit he =>
    refine ⟨fun r₁ h₁ => hview r₁ ((Cell.committed_commit cl).symm.trans h₁), fun q' r₁ h₁ => ?_⟩
    rcases Cell.lock_commit (p := p) cl with hl | ⟨q', v, -, -, hc⟩
    · rw [hl] at h₁
      cases h₁
    · rw [hc] at h₁
      exact hg.pending _ r₁ h₁
  | rollback he =>
    refine ⟨fun r₁ h₁ => hg.committed r₁ ((Cell.committed_rollback cl).symm.trans h₁),
      fun q' r₁ h₁ => ?_⟩
    by_cases hl : ∃ v, cl.lock = some (p, v)
    · obtain ⟨v, hl⟩ := hl
      rw [Cell.rollback_of_lock hl] at h₁
      cases h₁
    · rw [Cell.rollback_of_ne fun v hv => hl ⟨v, hv⟩] at h₁
      exact hg.pending _ r₁ h₁

/-- A commit leaves nothing of what the process has deleted. -/
theorem Gone.commit (hg : Gone ρ p cl) : Absent ρ (cl.commit p) := by
  by_cases hl : ∃ v, cl.lock = some (p, v)
  · obtain ⟨v, hl⟩ := hl
    rw [Cell.commit_of_lock hl]
    refine ⟨fun r₁ h₁ => ?_, by rintro q' r₁ ⟨⟩⟩
    obtain rfl : v = some r₁ := h₁
    exact hg.pending p r₁ hl
  · rw [Cell.commit_of_ne fun v hv => hl ⟨v, hv⟩]
    exact ⟨fun r₁ h₁ hρ => hl ⟨none, hg.committed r₁ h₁ hρ⟩, hg.pending⟩

end

/-! ## Every step keeps the invariant -/

section

variable {env : Env} {ρ n p : ℕ} {w w' : World} {φ : ℕ → List Table} {c : Cmd}
  {x : Except Err (Resp c)} {m : Machine Cmd Resp Err World}

/-- The command has ended the transaction. -/
def ended : (c : Cmd) → Except Err (Resp c) → Prop
  | .sql .commit, .ok _ => True
  | .sql .rollback, _ => True
  | _, _ => False

/-- The room must not get rows in a table: some process has wiped it, or the room is DELETED. -/
def Barred (ρ n : ℕ) (db : Db) (φ : ℕ → List Table) (t : Table) : Prop :=
  (∃ q < n, t ∈ φ q) ∨ ∃ r₀, db.committed .rooms ρ = some r₀ ∧ r₀.status = .deleted

/-- What a command may do to a row. -/
theorem touch (hm : Faithful m) (hx : m.Answer p c w x w') (hok : seen ρ n p c w φ) {t : Table}
    (ht : t ∈ contents) (i : ℕ) :
    Touch ρ p (Barred ρ n w.db φ t) (ended c x) (w.db.cell t i) (w'.db.cell t i) := by
  refine hm.row_elim hx t i (motive := fun c x cl' => seen ρ n p c w φ →
    Touch ρ p (Barred ρ n w.db φ t) (ended c x) (w.db.cell t i) cl')
    ?_ ?_ ?_ ?_ ?_ ?_ ?_ ?_ ?_ ?_ hok
  · exact fun _ _ _ _ => .keep
  · exact fun _ _ _ _ => .keep
  · exact fun _ _ _ => .keep
  · exact fun u r hr _ hl _ => .update r _ hr (roomOf_set u r) hl
  · exact fun _ _ _ _ => .keep
  · exact fun _ _ _ _ _ hl _ => .delete hl
  · exact fun _ _ _ _ => .keep
  · intro r hi hc hok
    rw [hc]
    refine .insert r rfl fun hbarred hρ => ?_
    obtain ⟨hq, hr₀⟩ := hok ht hρ
    rcases hbarred with ⟨q, hqn, htq⟩ | ⟨r₀, hc₀, hs⟩
    · exact hq q hqn htq
    · exact hr₀ r₀ hc₀ hs
  · exact fun _ => .commit trivial
  · exact fun _ => .rollback trivial

/-- A wipe leaves no row of the room. -/
theorem Inv.gone_of_wipe (I : Inv ρ n w.db φ) (hm : Faithful m) {t : Table} {d : Del t} {k : ℕ}
    (hx : m.Answer p (.sql (.deleteWhere t d)) w (.ok k) w')
    (hok : seen ρ n p (.sql (.deleteWhere t d)) w φ) (ht : t ∈ contents)
    (hd : wipes ρ t d = true) (i : ℕ) : Gone ρ p (w'.db.cell t i) := by
  rcases hm.deleteWhere hx with ⟨k', db, -, hdel, rfl⟩ | ⟨e, he, -⟩
  -- The statement does not see the drafts of the others: the condition is about them.
  · have hother : ∀ q r, (w.db.cell t i).lock = some (q, some r) → q ≠ p → roomOf t r ≠ some ρ := by
      intro q r hl hqp
      have hi : i < (w.db t).length := by
        by_contra hn
        rw [Tables.cell, List.getElem?_eq_none (Nat.le_of_not_lt hn)] at hl
        cases hl
      exact hok hd i hi _ hl hqp r rfl
    rcases Sql.deleteWhere_cell hdel i with ⟨hc, hkept⟩ | ⟨r, hr, -, hl, hc⟩
    · -- The row is not matched, so what the process sees of it is none of the room.
      have hview : ∀ r, (w.db.cell t i).view p = some r → roomOf t r ≠ some ρ := by
        intro r hv hρ
        have := hkept r hv
        rw [deletes_of_wipes hd hρ] at this
        cases this
      change Gone ρ p (Tables.cell db t i)
      rw [hc]
      refine ⟨fun r hr hρ => ?_, fun q r hl => ?_⟩
      · by_cases hl : ∃ v, (w.db.cell t i).lock = some (p, v)
        · obtain ⟨v, hl⟩ := hl
          cases v with
          | none => exact hl
          | some r' =>
            have hroom := I.stays t ht i p r r' hr hl
            exact absurd (hroom.trans hρ) (hview r' (Cell.view_of_lock hl))
        · exact absurd hρ (hview r ((Cell.view_of_ne fun v hv => hl ⟨v, hv⟩).trans hr))
      · by_cases hqp : q = p
        · subst hqp
          exact hview r (Cell.view_of_lock hl)
        · exact hother q r hl hqp
    · change Gone ρ p (Tables.cell db t i)
      rw [hc]
      exact ⟨fun _ _ _ => rfl, by rintro q r' ⟨⟩⟩
  · cases he

/-- Where a command leaves the tables that a process has wiped, no row of the room is left. -/
theorem Inv.wiped_next (I : Inv ρ n w.db φ) (hm : Faithful m) (hx : m.Answer p c w x w')
    (hok : seen ρ n p c w φ) {t : Table} (ht : t ∈ contents) (h : t ∈ next ρ (φ p) c x) (i : ℕ) :
    Gone ρ p (w'.db.cell t i) := by
  have hkeep : t ∈ φ p → ¬ended c x → Gone ρ p (w'.db.cell t i) := by
    intro hmem hend
    have hp : p < n := I.bound p fun h => by rw [h] at hmem; cases hmem
    exact (touch hm hx hok ht i).gone (.inl ⟨p, hp, hmem⟩) (I.wiped p t ht hmem i) fun _ => hend
  cases c with
  | sql q =>
    cases q with
    | deleteWhere t' d =>
      cases x with
      | error e => exact hkeep h id
      | ok k =>
        by_cases hd : wipes ρ t' d = true
        · have hn : next ρ (φ p) (.sql (.deleteWhere t' d)) (.ok k) = t' :: φ p := if_pos hd
          rw [hn] at h
          rcases List.mem_cons.1 h with rfl | h
          · exact I.gone_of_wipe hm hx hok ht hd i
          · exact hkeep h id
        · have hn : next ρ (φ p) (.sql (.deleteWhere t' d)) (.ok k) = φ p := if_neg hd
          rw [hn] at h
          exact hkeep h id
    | commit =>
      cases x with
      | error e => exact hkeep h id
      | ok u => cases h
    | rollback => cases h
    | _ => exact hkeep h id
  | _ => exact hkeep h id

/-- A process keeps what it has wiped until it ends its transaction. -/
theorem mem_next {l : List Table} {t : Table} (hend : ¬ended c x) (h : t ∈ l) :
    t ∈ next ρ l c x := by
  cases c with
  | sql q =>
    cases q with
    | deleteWhere t' d =>
      cases x with
      | error e => exact h
      | ok k =>
        change t ∈ if wipes ρ t' d then t' :: l else l
        split
        · exact List.mem_cons_of_mem _ h
        · exact h
    | commit =>
      cases x with
      | error e => exact h
      | ok u => exact absurd trivial hend
    | rollback => exact absurd trivial hend
    | _ => exact h
  | _ => exact h

/-- Only `mark_room_deleted` makes a room DELETED. -/
theorem eq_markDeleted_of_set {u : RoomUpdate} {r : RoomRow} (h : (u.set r).status = .deleted) :
    u = .markDeleted ∨ r.status = .deleted := by
  cases u with
  | markDeleted => exact .inl rfl
  | markExpired => cases h
  | markDeleting => cases h
  | _ => exact .inr h

/-- The row of the room after a command. -/
structure RoomStep (ρ p : ℕ) (φ : ℕ → List Table) (cl : Cell RoomRow) (c : Cmd)
    (x : Except Err (Resp c)) (cl' : Cell RoomRow) : Prop where
  marked : ∀ q r, cl'.lock = some (q, some r) → r.status = .deleted →
    (∃ r₀, cl'.committed = some r₀ ∧ r₀.status = .deleted) ∨
      ∀ t ∈ contents, t ∈ Function.update φ p (next ρ (φ p) c x) q
  deleted : ∀ r, cl'.committed = some r → r.status = .deleted →
    (∃ r₀, cl.committed = some r₀ ∧ r₀.status = .deleted) ∨
      c = .sql .commit ∧ ended c x ∧ ∀ t ∈ contents, t ∈ φ p

/-- A command that does not touch the row of the room. -/
theorem Inv.room_keep (I : Inv ρ n w.db φ) (hend : ¬ended c x) :
    RoomStep ρ p φ (w.db.cell .rooms ρ) c x (w.db.cell .rooms ρ) := by
  refine ⟨fun q r hl hs => ?_, fun r hr hs => .inl ⟨r, hr, hs⟩⟩
  refine (I.marked q r hl hs).imp_right fun h t ht => ?_
  by_cases hq : q = p
  · subst hq
    rw [Function.update_self]
    exact mem_next hend (h t ht)
  · rw [Function.update_of_ne hq]
    exact h t ht

/-- What every command does to the row of the room. -/
theorem Inv.room_next (I : Inv ρ n w.db φ) (hm : Faithful m) (ha : allowed ρ (φ p) c)
    (hx : m.Answer p c w x w') : RoomStep ρ p φ (w.db.cell .rooms ρ) c x (w'.db.cell .rooms ρ) := by
  -- The process does not hold the room, so its move does not concern the row.
  have hother : ∀ {c x}, (∀ v, (w.db.cell .rooms ρ).lock ≠ some (p, v)) →
      RoomStep ρ p φ (w.db.cell .rooms ρ) c x (w.db.cell .rooms ρ) := by
    intro c x hl
    refine ⟨fun q r hq hs => ?_, fun r hr hs => .inl ⟨r, hr, hs⟩⟩
    rw [Function.update_of_ne (by rintro rfl; exact hl _ hq)]
    exact I.marked q r hq hs
  refine hm.row_elim hx .rooms ρ (motive := fun c x cl' => allowed ρ (φ p) c →
    RoomStep ρ p φ (w.db.cell .rooms ρ) c x cl') ?_ ?_ ?_ ?_ ?_ ?_ ?_ ?_ ?_ ?_ ha
  · intro c x hs _
    refine I.room_keep fun he => ?_
    unfold ended at he
    split at he
    · exact hs
    · exact hs
    · exact he
  · intro c e hc _
    refine I.room_keep fun he => ?_
    unfold ended at he
    split at he
    · next h => cases h
    · exact hc rfl
    · exact he
  · exact fun u _ _ => I.room_keep id
  -- The row is updated: if it is DELETED now, the process is past the contents of the room.
  · intro u r hr hu hl ha
    refine ⟨fun q r' hq hs => ?_, fun r' hr' hs => .inl ⟨r', hr', hs⟩⟩
    cases hq
    rw [Function.update_self]
    rcases eq_markDeleted_of_set hs with rfl | hs
    · exact .inr (ha rfl rfl)
    · -- The row was DELETED before, as committed or as the process has left it.
      rcases Cell.heldByOther_eq_false.1 hl with hlock | ⟨v, hlock⟩
      · exact .inl ⟨r, (Cell.view_of_free hlock).symm.trans hr, hs⟩
      · have hv : v = some r := (Cell.view_of_lock hlock).symm.trans hr
        subst hv
        exact I.marked p r hlock hs
  · exact fun d => d.elim
  · exact fun d => d.elim
  · exact fun r j _ _ => I.room_keep id
  -- A new room is active.
  · intro r hi hc ha
    refine ⟨fun q r' hq hs => ?_, by rintro r' ⟨⟩⟩
    cases hq
    rw [show r.status = .active from ha] at hs
    cases hs
  -- At the commit what the process has written is there for all.
  · intro _
    by_cases hl : ∃ v, (w.db.cell .rooms ρ).lock = some (p, v)
    · obtain ⟨v, hl⟩ := hl
      rw [Cell.commit_of_lock hl]
      refine ⟨by rintro q r ⟨⟩, fun r hr hs => ?_⟩
      obtain rfl : v = some r := hr
      exact (I.marked p r hl hs).imp_right fun h => ⟨rfl, trivial, h⟩
    · rw [Cell.commit_of_ne fun v hv => hl ⟨v, hv⟩]
      exact hother fun v hv => hl ⟨v, hv⟩
  · intro _
    by_cases hl : ∃ v, (w.db.cell .rooms ρ).lock = some (p, v)
    · obtain ⟨v, hl⟩ := hl
      rw [Cell.rollback_of_lock hl]
      exact ⟨by rintro q r ⟨⟩, fun r hr hs => .inl ⟨r, hr, hs⟩⟩
    · rw [Cell.rollback_of_ne fun v hv => hl ⟨v, hv⟩]
      exact hother fun v hv => hl ⟨v, hv⟩

/-- Every command that is seen keeps the invariant. -/
theorem Inv.step (I : Inv ρ n w.db φ) (hm : Faithful m) (hp : p < n) (ha : allowed ρ (φ p) c)
    (hok : seen ρ n p c w φ) (hx : m.Answer p c w x w') :
    Inv ρ n w'.db (Function.update φ p (next ρ (φ p) c x)) := by
  have hroom := I.room_next hm ha hx
  refine ⟨fun t ht i => (touch hm hx hok ht i).stays (I.stays t ht i), fun q t ht hmem i => ?_,
    hroom.marked, fun r hr hs t ht i => ?_, fun q hq => ?_⟩
  · by_cases hq : q = p
    · subst hq
      rw [Function.update_self] at hmem
      exact I.wiped_next hm hx hok ht hmem i
    · rw [Function.update_of_ne hq] at hmem
      have hqn : q < n := I.bound q fun h => by rw [h] at hmem; cases hmem
      exact (touch hm hx hok ht i).gone (.inl ⟨q, hqn, hmem⟩) (I.wiped q t ht hmem i)
        fun h => absurd h hq
  · rcases hroom.deleted r hr hs with hbefore | ⟨rfl, hend, hall⟩
    · obtain ⟨r₀, hr₀, hs₀⟩ := hbefore
      exact (touch hm hx hok ht i).absent (.inr ⟨r₀, hr₀, hs₀⟩) (I.deleted r₀ hr₀ hs₀ t ht i)
    · rcases hm.commit hx with ⟨rfl, rfl⟩ | ⟨e, rfl, -⟩
      · change Absent ρ (Tables.cell (w.db.commit p) t i)
        rw [Tables.cell_commit]
        exact (I.wiped p t ht (hall t ht) i).commit
      · exact hend.elim
  · by_cases hqp : q = p
    · exact hqp ▸ hp
    · rw [Function.update_of_ne hqp] at hq
      exact I.bound q hq

/-! ## The programs keep to the protocol -/

variable {α : Type} {l : List Table}

/-- A `DELETE` of a teardown, which then has wiped its table. -/
theorem wipe_bind {t : Table} {d : Del t} {f : ℕ → Op α} {Q : Except Err α → List Table → Prop}
    (hd : wipes ρ t d = true) (he : ∀ e l, Q (.error e) l)
    (hf : ∀ n, (f n).wp (monitor ρ).trans Q (t :: l)) :
    (deleteWhere t d >>= f).wp (monitor ρ).trans Q l := by
  refine (Prog.wp_bind _ _ _ _).2 ((wp_issue (monitor ρ).trans_monotone _ _ _).2 ⟨trivial, ?_⟩)
  rintro (e | k)
  · exact he e _
  · have hn : (monitor ρ).next l (.sql (.deleteWhere t d)) (.ok k) = t :: l := if_pos hd
    rw [hn]
    exact hf k

/-- A command that updates no status is always allowed. -/
theorem plain_allowed {K : List Kind} (hK : ∀ k ∈ markKinds, k ∉ K) (hc : Issued env K c) :
    allowed ρ l c := by
  cases hc with
  | markExpired h => exact absurd h (hK _ (by decide))
  | markDeleting h => exact absurd h (hK _ (by decide))
  | markDeleted h => exact absurd h (hK _ (by decide))
  | newRoom h r hr => exact hr.1
  | join h i => rintro - ⟨⟩
  | leave h i => rintro - ⟨⟩
  | claim h i n => rintro - ⟨⟩
  | release h i => rintro - ⟨⟩
  | fields h i => rintro - ⟨⟩
  | _ => trivial

/-- A program that updates no status keeps to the protocol. -/
theorem plain_wp {K : List Kind} (hK : ∀ k ∈ markKinds, k ∉ K) {prog : Op α}
    (hp : prog.Only (Issued env K)) :
    prog.wp (monitor ρ).trans (fun _ _ => True) l :=
  hp.wp (I := fun _ => True) (fun _ _ hc _ => ⟨plain_allowed hK hc, fun _ => trivial⟩) trivial

/-- A program that updates no status, followed by one that keeps to the protocol. -/
theorem plain_bind {β : Type} {K : List Kind} (hK : ∀ k ∈ markKinds, k ∉ K) {prog : Op β}
    (hp : prog.Only (Issued env K)) {f : β → Op α} {Q : Except Err α → List Table → Prop}
    (he : ∀ e l, Q (.error e) l) (hf : ∀ a l, (f a).wp (monitor ρ).trans Q l) :
    (prog >>= f).wp (monitor ρ).trans Q l := by
  rw [Prog.wp_bind]
  refine Prog.wp_mono (monitor ρ).trans_monotone ?_ (plain_wp hK hp)
  rintro (e | a) l' -
  · exact he e l'
  · exact hf a l'

/-- `_delete_content` wipes all tables. -/
theorem deleteContent_wp (env : Env) :
    (cleanupService.deleteContent ρ).wp (monitor ρ).trans
      (fun x l' => x = .ok () → ∀ t ∈ contents, t ∈ l') l := by
  have hself : ∀ i : ℕ, (i == i) = true := fun i => beq_self_eq_true i
  have hkeys : (fileRepository.listRoomStorageKeys ρ).Only (Issued env []) :=
    Prog.only_bind (only_select _ _) fun _ => only_pure _
  refine plain_bind (by simp) hkeys (by rintro e l ⟨⟩) fun keys l => ?_
  have hobjects : (keys.forM fun key => storage.delete key.text).Only
      (Issued env [.deleteObject]) := Prog.only_forM (fun _ => only_delete (by decide) _) _
  refine plain_bind (by decide) hobjects (by rintro e l ⟨⟩) fun _ l => ?_
  refine wipe_bind (hself ρ) (by rintro e l ⟨⟩) fun _ => ?_
  refine wipe_bind (hself ρ) (by rintro e l ⟨⟩) fun _ => ?_
  refine wipe_bind (hself ρ) (by rintro e l ⟨⟩) fun _ => ?_
  refine (Prog.wp_bind _ _ _ _).2 ((wp_issue (monitor ρ).trans_monotone _ _ _).2 ⟨trivial, ?_⟩)
  rintro (e | k)
  · rintro ⟨⟩
  · rintro - t ht
    change t ∈ [Table.sessions, .messages, .files] ++ l
    refine List.mem_append_left _ ?_
    revert t
    decide

/-- `cleanup_room` with the commit of its caller keeps to the protocol. -/
theorem caller_wp (env : Env) (room : DropRoom.Room) {k : Bool → Op Unit}
    (hk : ∀ b, (k b).Only (Issued env [])) :
    (do
      let changed ← cleanupService.cleanupRoom room
      commit
      k changed : Op Unit).wp (monitor ρ).trans (fun _ _ => True) l := by
  -- Only the last mark needs that the contents are gone.
  have hissue : ∀ {i : ℕ} {u : RoomUpdate} {f : Bool → Op Bool} {l : List Table},
      (i = ρ → u = .markDeleted → ∀ t ∈ contents, t ∈ l) →
      (∀ b, (f b).wp (monitor ρ).trans (fun _ _ => True) l) →
      (updateAt .rooms i u >>= f).wp (monitor ρ).trans (fun _ _ => True) l := by
    intro i u f l ha hf
    refine (Prog.wp_bind _ _ _ _).2 ((wp_issue (monitor ρ).trans_monotone _ _ _).2 ⟨ha, ?_⟩)
    rintro (e | b)
    · trivial
    · exact hf b
  -- It comes after the contents have been deleted.
  have hwipe : ∀ {l : List Table}, (do
      if ← roomRepository.markRoomDeleting room.id then
        cleanupService.deleteContent room.id
        let _ ← roomRepository.markRoomDeleted room.id
        pure true
      else
        pure false : Op Bool).wp (monitor ρ).trans (fun _ _ => True) l := by
    intro l
    refine hissue (by rintro - ⟨⟩) fun b => ?_
    cases b with
    | false => trivial
    | true =>
      by_cases hi : room.id = ρ
      · rw [hi]
        refine (Prog.wp_bind _ _ _ _).2 ?_
        refine Prog.wp_mono (monitor ρ).trans_monotone ?_ (deleteContent_wp env)
        rintro (e | u) l' hl
        · trivial
        · exact hissue (fun _ _ => hl rfl) fun _ => trivial
      · have hissued : (cleanupService.deleteContent room.id).Only (Issued env contentKinds) :=
          only_deleteContent (fun _ h => h) room.id
        refine plain_bind (by decide) hissued (fun _ _ => trivial) fun _ l => ?_
        exact hissue (fun h => absurd h hi) fun _ => trivial
  rw [Prog.wp_bind]
  -- An active room is marked expired before.
  have hclean : (cleanupService.cleanupRoom room).wp (monitor ρ).trans (fun _ _ => True) l := by
    unfold cleanupService.cleanupRoom
    split
    · exact hissue (by rintro - ⟨⟩) fun _ => hwipe
    · exact hwipe
  refine Prog.wp_mono (monitor ρ).trans_monotone ?_ hclean
  rintro (e | b) l' -
  · trivial
  · have htell : (commit >>= fun _ => k b).Only (Issued env [.commit]) :=
      Prog.only_bind (only_commit (by decide)) fun _ => (hk b).mono fun _ hc => hc.mono (by simp)
    exact plain_wp (by decide) htell

/-- The protocol concerns `cleanup_room` only. -/
theorem lifts (env : Env) (ρ : ℕ) : Lifts env (monitor ρ) fun _ => True where
  plain hK hc _ := ⟨plain_allowed hK hc, fun _ => trivial⟩
  reads hc := by
    refine ⟨plain_allowed (K := []) (by simp) hc, fun x => ?_⟩
    cases hc with
    | close h => cases h
    | commit h => cases h
    | dropSessions h => cases h
    | dropFile h => cases h
    | dropFiles h => cases h
    | dropMessages h => cases h
    | dropAudit h => cases h
    | _ => rfl
  close _ := ⟨trivial, fun _ => trivial⟩
  caller room _ _ hk := caller_wp env room hk

end

/-! ## Runs -/

/-- `n` tasks of the server, and nobody else. -/
def start (env : Env) (n : ℕ) (tasks : ℕ → Task) (w : World) :
    Conf Cmd Resp Err Unit World (List Table) :=
  .start w [] fun p => if p < n then (tasks p).program env else pure ()

end wipe

open wipe

/-- No row of a DELETED room is left behind. For every run of any number of tasks of the server
(joins, chat messages, uploads, teardowns and everything else, each with its own checks of the
status), with any failures, that begins while the room is not DELETED: if every insert of a session,
a message or a file record of the room was seen, then in every state in which the room is committed
as DELETED no such row is committed. -/
theorem deleted_room_is_empty (env : Env) (ρ n : ℕ) (tasks : ℕ → Task) (w : World)
    (hfree : w.db.Free) (hlive : ∀ r, w.db.committed .rooms ρ = some r → r.status ≠ .deleted)
    (s : Conf Cmd Resp Err Unit World (List Table))
    (h : server.Reaches (monitor ρ) (seen ρ n) (start env n tasks w) s)
    (r : RoomRow) (hr : s.world.db.committed .rooms ρ = some r) (hdel : r.status = .deleted) :
    ∀ t ∈ contents, ∀ i row, s.world.db.committed t i = some row → roomOf t row ≠ some ρ := by
  have hend : ∀ q, n ≤ q → ((start env n tasks w).proc q).outcome.isSome = true := by
    intro q hq
    have hproc : (start env n tasks w).proc q = .ret () := if_neg (Nat.not_lt.2 hq)
    rw [hproc]
    rfl
  have hfresh : Inv ρ n w.db fun _ => [] := by
    refine ⟨fun t _ i q r r' _ hl => ?_, fun q t _ h => ?_, fun q r hl => ?_,
      fun r hr hs => absurd hs (hlive r hr), fun q h => absurd rfl h⟩
    · rw [hfree t i] at hl
      cases hl
    · cases h
    · rw [hfree .rooms ρ] at hl
      cases hl
  have hconforms : (start env n tasks w).Conforms (monitor ρ) fun _ _ => True := by
    intro p
    dsimp only [start, Conf.start]
    split
    · exact (lifts env ρ).program (tasks p) trivial
    · trivial
  have I : Inv ρ n s.world.db s.phase := by
    refine (Machine.invariant (I := fun w φ => Inv ρ n w.db φ) ?_ ?_ (Machine.reaches_lt hend h).1
      hfresh hconforms).1
    · intro w φ p c x w' I ha hok hx
      exact I.step server_faithful hok.1 ha hok.2 hx
    · intro w φ w' I ht
      rw [World.Tick.db_eq ht]
      exact I
  exact fun t ht i row hrow => (I.deleted r hr hdel t ht i).committed row hrow

/-- A server with one room and the job to clean it up. -/
def World.doomedRoom : World :=
  { World.holding [.plain] [] [] with queue := [.roomCleanup (some 0)] }

/-- A worker, and a guest who joins the room. -/
def wipe.racers : ℕ → Task
  | 0 => .worker 1
  | _ => .request (.joinRoom "a" ⟨none, none, none⟩) ⟨none, some "x", some "x", none, none⟩

/-- A guest who has passed the check of the status before the teardown, and has its session inserted
after it, leaves the session in the DELETED room. -/
theorem deleted_room_keeps_session :
    ∃ s : Conf Cmd Resp Err Unit World (List Table),
      server.Reaches (monitor 0) Guard.all (start .plain 2 racers .doomedRoom) s ∧
      (∀ p < 2, (s.proc p).outcome.isSome = true) ∧
      (∃ r, s.world.db.committed .rooms 0 = some r ∧ r.status = .deleted) ∧
      ∃ row, s.world.db.committed .sessions 0 = some row ∧ roomOf .sessions row = some 0 := by
  have hrun : ((server.play (monitor 0) Guard.all
      ([1, 1, 1] ++ List.replicate 13 0 ++ List.replicate 6 1)
      (start .plain 2 racers .doomedRoom)).map fun s =>
      ((List.range 2).all fun p => (s.proc p).outcome.isSome,
        (s.world.db.committed .rooms 0).map RoomRow.status,
        (s.world.db.committed .sessions 0).map (roomOf .sessions))) =
      some (true, some .deleted, some (some 0)) := by
    decide
  obtain ⟨s, hs, hd⟩ := Option.map_eq_some_iff.1 hrun
  obtain ⟨hend, hd⟩ := Prod.mk.inj hd
  obtain ⟨hstatus, hroom⟩ := Prod.mk.inj hd
  exact ⟨s, Machine.play_reaches hs, fun p hp =>
    List.all_eq_true.1 hend p (List.mem_range.2 hp), Option.map_eq_some_iff.1 hstatus,
    Option.map_eq_some_iff.1 hroom⟩

/-- A guest who joins before the teardown leaves nothing. -/
theorem deleted_room_is_empty_doomedRoom :
    ∃ s : Conf Cmd Resp Err Unit World (List Table),
      server.Reaches (monitor 0) (seen 0 2) (start .plain 2 racers .doomedRoom) s ∧
      (s.world.db .sessions).length = 1 ∧
      ∀ i row, s.world.db.committed .sessions i = some row → roomOf .sessions row ≠ some 0 := by
  have hrun : ((server.play (monitor 0) (seen 0 2)
      (List.replicate 9 1 ++ List.replicate 13 0)
      (start .plain 2 racers .doomedRoom)).map fun s =>
      ((s.world.db .sessions).length, (s.world.db.committed .rooms 0).map RoomRow.status)) =
      some (1, some .deleted) := by
    decide
  obtain ⟨s, hs, hd⟩ := Option.map_eq_some_iff.1 hrun
  obtain ⟨hlength, hstatus⟩ := Prod.mk.inj hd
  obtain ⟨r, hr, hdel⟩ := Option.map_eq_some_iff.1 hstatus
  have hreach := Machine.play_reaches hs
  have hlive : ∀ r, World.doomedRoom.db.committed .rooms 0 = some r → r.status ≠ .deleted := by
    rintro r ⟨⟩
    decide
  exact ⟨s, hreach, hlength, deleted_room_is_empty .plain 0 2 racers .doomedRoom
    World.holding_free hlive s hreach r hr hdel .sessions (by decide)⟩

end DropRoom
