import DropRoom.Rooms.Cleanup

/-!
# A cleanup pass

All rooms of `run_cleanup_pass` share one transaction, which is rolled back when `cleanup_room`
raises. What was torn down before is undone with it, but stays in the list that is returned. So the
list tells the truth as long as no room raises after another one that has not.
-/

namespace DropRoom

open Effect Store Prog cleanupService

namespace passes

/-! ## What came of each room -/

/-- The rooms of a pass in order, each with the answer of `cleanup_room`, or `none` if it raised. -/
abbrev Outcomes : Type := List (Room × Option Bool)

/-- The rooms that `run_cleanup_pass` returns. -/
def cleaned (outs : Outcomes) : List Room :=
  outs.filterMap fun o => if o.2 = some true then some o.1 else none

/-- The rooms that were torn down since the last rollback. -/
def kept (outs : Outcomes) : List ℕ :=
  outs.foldl (fun ids o => match o.2 with
    | some true => ids ++ [o.1.id]
    | some false => ids
    | none => []) []

/-- A room has raised. -/
def raised (outs : Outcomes) : Bool := outs.any fun o => o.2.isNone

/-- A room has raised after another one that had not. -/
def RaisedAfter (outs : Outcomes) : Prop :=
  ∃ before room after, outs = before ++ (room, none) :: after ∧ ∃ o ∈ before, o.2 ≠ none

section

variable {outs : Outcomes} {room : Room}

/-- A room is added to the result if it was torn down. -/
@[simp] theorem cleaned_snoc (o : Option Bool) : cleaned (outs ++ [(room, o)]) =
    cleaned outs ++ if o = some true then [room] else [] := by
  rw [cleaned, List.filterMap_append]
  congr 1
  by_cases ho : o = some true <;> simp [ho]

/-- A room that was torn down stays so until another one raises. -/
@[simp] theorem kept_snoc_true : kept (outs ++ [(room, some true)]) = kept outs ++ [room.id] := by
  rw [kept, List.foldl_append]
  rfl

/-- A room that was left alone changes nothing. -/
@[simp] theorem kept_snoc_false : kept (outs ++ [(room, some false)]) = kept outs := by
  rw [kept, List.foldl_append]
  rfl

/-- A room that raises takes the others back. -/
@[simp] theorem kept_snoc_none : kept (outs ++ [(room, none)]) = [] := by
  rw [kept, List.foldl_append]
  rfl

/-- A room has raised, now or before. -/
@[simp] theorem raised_snoc (o : Option Bool) :
    raised (outs ++ [(room, o)]) = (raised outs || o.isNone) := by
  rw [raised, List.any_append, List.any_cons, List.any_nil, Bool.or_false]
  rfl

/-- What was torn down since the last rollback is among the rooms. -/
theorem mem_of_mem_kept {i : ℕ} (h : i ∈ kept outs) : i ∈ outs.map fun o => o.1.id := by
  induction outs using List.reverseRecOn with
  | nil => cases h
  | append_singleton outs o ih =>
    obtain ⟨room, o⟩ := o
    rw [List.map_append, List.mem_append]
    rcases o with _ | _ | _
    · rw [kept_snoc_none] at h
      cases h
    · rw [kept_snoc_false] at h
      exact .inl (ih h)
    · rw [kept_snoc_true, List.mem_append] at h
      exact h.imp ih id

/-- What has not raised was torn down, so it is in the list. -/
theorem mem_cleaned (hfalse : ∀ o ∈ outs, o.2 ≠ some false) {o : Room × Option Bool}
    (ho : o ∈ outs) (hne : o.2 ≠ none) : o.1 ∈ cleaned outs := by
  obtain ⟨room, _ | _ | _⟩ := o
  · exact absurd rfl hne
  · exact absurd rfl (hfalse _ ho)
  · exact List.mem_filterMap.2 ⟨_, ho, rfl⟩

/-- What is in the list was torn down at some point. -/
theorem exists_of_mem_cleaned (h : room ∈ cleaned outs) : (room, some true) ∈ outs := by
  obtain ⟨⟨room', o⟩, ho, hsome⟩ := List.mem_filterMap.1 h
  by_cases htrue : o = some true
  · subst htrue
    obtain rfl : room' = room := by simpa using hsome
    exact ho
  · simp [htrue] at hsome

/-- While no room raises after another one that has not, nothing of the list is undone. -/
theorem kept_of_not_raisedAfter (h : ¬RaisedAfter outs) :
    kept outs = (cleaned outs).map fun room => room.id := by
  induction outs using List.reverseRecOn with
  | nil => rfl
  | append_singleton outs o ih =>
    obtain ⟨room, o⟩ := o
    have hbefore : ¬RaisedAfter outs := by
      rintro ⟨before, room', after, rfl, hne⟩
      exact h ⟨before, room', after ++ [(room, o)], by simp, hne⟩
    rcases o with _ | _ | _
    · -- All rooms before have raised, so the list is empty.
      have hnil : cleaned outs = [] := by
        refine List.eq_nil_iff_forall_not_mem.2 fun torn htorn => h ?_
        exact ⟨outs, room, [], rfl, _, exists_of_mem_cleaned htorn, Option.some_ne_none true⟩
      simp [hnil]
    · simp [ih hbefore]
    · simp [ih hbefore]

/-- What was torn down before a rollback is undone, but stays in the list. -/
theorem exists_of_raisedAfter (hids : (outs.map fun o => o.1.id).Nodup)
    (hfalse : ∀ o ∈ outs, o.2 ≠ some false) (h : RaisedAfter outs) :
    ∃ room ∈ cleaned outs, room.id ∉ kept outs := by
  obtain ⟨before, room, after, rfl, o, ho, hne⟩ := h
  have hkept : ∀ i ∈ kept (before ++ (room, none) :: after), i ∈ after.map fun o => o.1.id := by
    intro i hi
    have hsplit : kept (before ++ (room, none) :: after) = kept after := by
      rw [kept, List.foldl_append, List.foldl_cons]
      rfl
    rw [hsplit] at hi
    exact mem_of_mem_kept hi
  refine ⟨o.1, mem_cleaned hfalse (List.mem_append_left _ ho) hne, fun hmem => ?_⟩
  rw [List.map_append, List.map_cons, List.nodup_append] at hids
  exact hids.2.2 _ (List.mem_map_of_mem ho) _ (List.mem_cons_of_mem _ (hkept _ hmem)) rfl

end

/-! ## The pass with its outcomes -/

/-- The loop of `run_cleanup_pass`, with all outcomes. -/
def tryOutcomes (refresh : Room → Op Room) : Bool → Outcomes → List Room → Op Outcomes
  | _, outs, [] => pure outs
  | expired, outs, room :: rooms => do
    let o ← tryRoom refresh expired room
    tryOutcomes refresh (expired || o.isNone) (outs ++ [(room, o)]) rooms

/-- `run_cleanup_pass`, with all outcomes. -/
def outcomes (refresh : Room → Op Room) : Op Outcomes := do
  sweepDeletedObjects
  sweepStalePending
  let rooms ← roomRepository.listRoomsPendingCleanup
  tryOutcomes refresh false [] rooms

/-- The loop with the outcomes has the result of the one without. -/
theorem tryRooms_eq (refresh : Room → Op Room) (rooms : List Room) (expired : Bool)
    (outs : Outcomes) : tryRooms refresh expired (cleaned outs) rooms =
      cleaned <$> tryOutcomes refresh expired outs rooms := by
  induction rooms generalizing expired outs with
  | nil => rfl
  | cons room rooms ih =>
    rw [tryRooms, tryOutcomes, map_bind]
    congr 1
    funext o
    rw [← ih, cleaned_snoc]
    rcases o with _ | _ | _ <;> simp

/-- The pass returns the rooms that its outcomes say. -/
theorem runCleanupPass_eq (refresh : Room → Op Room) :
    runCleanupPass refresh = cleaned <$> outcomes refresh := by
  simp only [runCleanupPass, outcomes, map_bind]
  congr 1
  funext _
  congr 1
  funext _
  congr 1
  funext rooms
  exact tryRooms_eq refresh rooms false []

/-! ## What the pass does to the rows -/

/-- A row once some rooms are torn down. -/
def wipedAll (ids : List ℕ) : (t : Table) → ℕ → Option (Row t) → Option (Row t)
  | .rooms, i, v => if i ∈ ids then v.map fun r => { r with status := .deleted } else v
  | .sessions, _, v => v.filter fun r => decide (r.room_id ∉ ids)
  | .files, _, v => v.filter fun r => decide (r.room_id ∉ ids)
  | .messages, _, v => v.filter fun r => decide (r.room_id ∉ ids)
  | .auditEvents, _, v => v.filter fun r => decide (∀ i ∈ ids, r.room_id ≠ some i)

/-- No room is torn down. -/
theorem wipedAll_nil (t : Table) (i : ℕ) (v : Option (Row t)) : wipedAll [] t i v = v := by
  cases t <;> cases v <;> simp [wipedAll]

/-- Tearing down one more room. -/
theorem wiped_wipedAll (ids : List ℕ) (room_id : ℕ) (t : Table) (i : ℕ) (v : Option (Row t)) :
    wiped room_id t i (wipedAll ids t i v) = wipedAll (ids ++ [room_id]) t i v := by
  have hmem : ∀ j, j ∈ ids ++ [room_id] ↔ j ∈ ids ∨ j = room_id := by
    intro j
    rw [List.mem_append, List.mem_singleton]
  cases t with
  | rooms =>
    by_cases hids : i ∈ ids <;> by_cases hi : i = room_id <;> cases v <;>
      simp_all [wiped, wipedAll]
  | auditEvents =>
    refine Option.filter_filter.trans (congrArg (fun q => v.filter q) (funext fun r => ?_))
    rw [Bool.eq_iff_iff]
    simp only [Bool.and_eq_true, decide_eq_true_eq, bne_iff_ne, hmem, or_imp, forall_and, forall_eq]
  | _ =>
    refine Option.filter_filter.trans (congrArg (fun q => v.filter q) (funext fun r => ?_))
    rw [Bool.eq_iff_iff]
    simp only [Bool.and_eq_true, decide_eq_true_eq, bne_iff_ne, hmem, not_or]

/-- What the attempt at one room makes of the rows. -/
def tried (room_id : ℕ) (rows saved : (t : Table) → ℕ → Option (Row t)) :
    Option Bool → (t : Table) → ℕ → Option (Row t)
  | some true => fun t i => wiped room_id t i (rows t i)
  | some false => rows
  | none => saved

/-- What is known of the next look at a room after a rollback: it only reads, and if it returns, it
is the row as it is now. -/
structure Refreshes (env : Env) (refresh : Room → Op Room) : Prop where
  reads : ∀ room, (refresh room).Only (Issued env [])
  row : ∀ room σ, Ends (refresh room) (fun r _ => ∀ room', r = .ok room' →
    room'.id = room.id ∧ σ.db.rows .rooms room.id = some room'.toRoomRow) σ

section

variable {env : Env} {refresh : Room → Op Room} (hrefresh : Refreshes env refresh) {σ : Serial}
include hrefresh

/-- The attempt at a room that is ACTIVE or EXPIRED tears it down or raises. -/
theorem ends_tryRoom {expired : Bool} {room : Room} (hopen : RoomRow.Open room.toRoomRow)
    (hrow : σ.db.rows .rooms room.id = some room.toRoomRow) :
    Ends (tryRoom refresh expired room) (fun r σ' => ∃ o, r = .ok o ∧ o ≠ some false ∧
      σ'.db.saved = σ.db.saved ∧ σ'.db.rows = tried room.id σ.db.rows σ.db.saved o) σ := by
  have hprog : tryRoom refresh expired room =
      ((if expired then refresh room else pure room) >>= fun loaded =>
        some <$> cleanupRoom loaded).tryCatch fun _ => (do issue (.sql .rollback); pure none) := by
    cases expired <;> rfl
  -- The first look at the room, from the listing or after a rollback.
  have hload : Ends (if expired then refresh room else pure room) (fun r σ' => σ'.db = σ.db ∧
      ∀ loaded, r = .ok loaded → loaded.id = room.id ∧ loaded.toRoomRow = room.toRoomRow) σ := by
    cases expired with
    | false =>
      refine ⟨rfl, ?_⟩
      rintro loaded ⟨⟩
      exact ⟨rfl, rfl⟩
    | true =>
      have hdb : Ends (refresh room) (fun _ σ' => σ'.db = σ.db) σ :=
        .reads (hrefresh.reads room) fun _ _ h _ => h
      refine (hdb.and (hrefresh.row room σ)).mono ?_
      rintro r σ' ⟨h, hloaded⟩
      refine ⟨h, fun loaded hr => ?_⟩
      obtain ⟨hid, hnow⟩ := hloaded loaded hr
      exact ⟨hid, Option.some.inj (hnow.symm.trans hrow)⟩
  have hraise : ∀ σ' : Serial, σ'.db.saved = σ.db.saved →
      Ends (do issue (.sql .rollback); pure none : Op (Option Bool)) (fun r σ' => ∃ o, r = .ok o ∧
        o ≠ some false ∧ σ'.db.saved = σ.db.saved ∧
          σ'.db.rows = tried room.id σ.db.rows σ.db.saved o) σ' := by
    intro σ' hsaved
    refine .bind (.issue (fun x σ'' hx => ?_) fun e he => he.elim)
    cases hx
    exact ⟨none, rfl, by simp, hsaved, hsaved⟩
  refine (congrArg (fun prog => Ends prog _ σ) hprog).mpr ?_
  refine .tryCatch (.bind (hload.mono ?_))
  rintro (e | loaded) σ₁ ⟨hdb, hloaded⟩
  · exact hraise σ₁ (congrArg Snapshot.saved hdb)
  · obtain ⟨hid, hsame⟩ := hloaded loaded rfl
    have hcan : σ₁.CanWipe loaded := by
      refine ⟨room.toRoomRow, ?_, ?_⟩
      · rw [hdb, hid]
        exact hrow
      · rcases hopen with hactive | hexpired
        · exact .inr ⟨(congrArg RoomRow.status hsame).trans hactive, hactive⟩
        · exact .inl hexpired
    refine .bind (.cleanupRoom (fun _ σ' hwiped => ?_) (fun hno => absurd hcan hno)
      fun e keys σ' _ herased => ?_)
    · refine ⟨some true, rfl, by simp, ?_, ?_⟩
      · rw [hwiped.saved, hdb]
      · funext t i
        rw [hwiped.rows t i, hdb, hid]
        rfl
    · exact hraise σ' (by rw [herased.1, hdb])

/-- Where the loop of a pass is: what was torn down since the last rollback is wiped of the rows at
the start of the loop, or of those that are committed if there was a rollback. -/
structure During (before start : (t : Table) → ℕ → Option (Row t)) (outs : Outcomes) (σ : Serial) :
    Prop where
  saved : σ.db.saved = before
  rows : ∀ t i, σ.db.rows t i =
    wipedAll (kept outs) t i ((if raised outs then before else start) t i)
  torn : ∀ o ∈ outs, o.2 ≠ some false

omit hrefresh in
/-- The attempt at one more room. -/
theorem During.tried {before start : (t : Table) → ℕ → Option (Row t)} {outs : Outcomes}
    {room : Room} {o : Option Bool} {σ' : Serial} (h : During before start outs σ)
    (ho : o ≠ some false) (hsaved : σ'.db.saved = σ.db.saved)
    (hrows : σ'.db.rows = tried room.id σ.db.rows σ.db.saved o) :
    During before start (outs ++ [(room, o)]) σ' where
  saved := hsaved.trans h.saved
  rows t i := by
    rw [hrows, raised_snoc]
    rcases o with _ | _ | _
    · rw [kept_snoc_none, wipedAll_nil, Option.isNone_none, Bool.or_true, if_pos rfl]
      exact congrFun (congrFun h.saved t) i
    · exact absurd rfl ho
    · rw [kept_snoc_true, ← wiped_wipedAll, Option.isNone_some, Bool.or_false, ← h.rows t i]
      rfl
  torn o' ho' := by
    rcases List.mem_append.1 ho' with ho' | ho'
    · exact h.torn o' ho'
    · rwa [List.mem_singleton.1 ho']

/-- The loop over rooms that are ACTIVE or EXPIRED. -/
theorem ends_tryOutcomes {before start : (t : Table) → ℕ → Option (Row t)} (rooms : List Room)
    (hrooms : ∀ room ∈ rooms, RoomRow.Open room.toRoomRow ∧
      before .rooms room.id = some room.toRoomRow ∧ start .rooms room.id = some room.toRoomRow)
    {expired : Bool} {outs : Outcomes}
    (hids : (outs.map (fun o => o.1.id) ++ rooms.map fun room => room.id).Nodup)
    (h : During before start outs σ) :
    Ends (tryOutcomes refresh expired outs rooms) (fun r σ' => ∃ outs', r = .ok outs' ∧
      outs'.map Prod.fst = outs.map Prod.fst ++ rooms ∧ During before start outs' σ') σ := by
  induction rooms generalizing expired outs σ with
  | nil => exact ⟨outs, rfl, by simp, h⟩
  | cons room rooms ih =>
    obtain ⟨hopen, hsaved, hstart⟩ := hrooms room List.mem_cons_self
    have hnotin : room.id ∉ kept outs := by
      intro hmem
      rw [List.nodup_append] at hids
      exact hids.2.2 _ (mem_of_mem_kept hmem) _ List.mem_cons_self rfl
    have hrow : σ.db.rows .rooms room.id = some room.toRoomRow := by
      rw [h.rows]
      refine (if_neg hnotin).trans ?_
      split
      · exact hsaved
      · exact hstart
    refine .bind ((ends_tryRoom hrefresh hopen hrow).mono ?_)
    rintro r σ' ⟨o, rfl, ho, hsame, hrows⟩
    have hids' : ((outs ++ [(room, o)]).map (fun o => o.1.id) ++
        rooms.map fun room => room.id).Nodup := by
      rw [List.map_append, List.append_assoc]
      exact hids
    refine (ih (fun room' hmem => hrooms room' (List.mem_cons_of_mem _ hmem)) hids'
      (h.tried ho hsame hrows)).mono ?_
    rintro r σ'' ⟨outs', rfl, hmap, hduring⟩
    refine ⟨outs', rfl, ?_, hduring⟩
    rw [hmap, List.map_append, List.append_assoc]
    rfl

end

/-! ## The sweeps before the loop -/

/-- Nothing is committed, and of the rows only some PENDING file records are gone. -/
structure Swept (σ σ' : Serial) : Prop where
  saved : σ'.db.saved = σ.db.saved
  now : σ'.rest.now = σ.rest.now
  rows : ∀ t, t ≠ .files → σ'.db.rows t = σ.db.rows t
  files : ∀ i r, FileRow.status r ≠ .pending →
    (σ'.db.rows .files i = some r ↔ σ.db.rows .files i = some r)

/-- Nothing was swept. -/
theorem Swept.refl (σ : Serial) : Swept σ σ := ⟨rfl, rfl, fun _ _ => rfl, fun _ _ _ => Iff.rfl⟩

section

variable {σ σ' : Serial}

/-- Two sweeps are one. -/
theorem Swept.trans {σ'' : Serial} (h : Swept σ σ') (h' : Swept σ' σ'') : Swept σ σ'' where
  saved := h'.saved.trans h.saved
  now := h'.now.trans h.now
  rows t ht := (h'.rows t ht).trans (h.rows t ht)
  files i r hr := (h'.files i r hr).trans (h.files i r hr)

/-- Deleting an object. -/
theorem Swept.erase (h : Swept σ σ') (key : Key) : Swept σ
    { σ' with rest := { σ'.rest with storage := σ'.rest.storage.erase key } } :=
  ⟨h.saved, h.now, h.rows, h.files⟩

/-- Deleting a PENDING record. -/
theorem Swept.drop (h : Swept σ σ') {file_id : ℕ} {row : FileRow}
    (hrow : σ.db.rows .files file_id = some row) (hpending : row.status = .pending) : Swept σ
    { σ' with db := σ'.db.drop .files (dialect.deletes (t := .files) (.byId file_id)) } where
  saved := h.saved
  now := h.now
  rows t ht := (Snapshot.rows_drop_of_table ht).trans (h.rows t ht)
  files i r hr := by
    rw [Snapshot.rows_drop, Option.filter_eq_some_iff, h.files i r hr]
    refine and_iff_left_of_imp fun hri => ?_
    have hi : i ≠ file_id := by
      rintro rfl
      obtain rfl : row = r := Option.some.inj (hrow.symm.trans hri)
      exact hr hpending
    simp [dialect, hi]

/-- A loop whose body keeps `I` when it returns. -/
theorem ends_forM_returns {ι : Type} {f : ι → Op PUnit} {I : Serial → Prop} (l : List ι)
    (hf : ∀ i ∈ l, ∀ σ, I σ → Ends (f i) (fun r σ' => r = .ok ⟨⟩ → I σ') σ) (hI : I σ) :
    Ends (l.forM f) (fun r σ' => r = .ok ⟨⟩ → I σ') σ := by
  induction l generalizing σ with
  | nil => exact fun _ => hI
  | cons i l ih =>
    refine .bind ((hf i List.mem_cons_self σ hI).mono ?_)
    rintro (e | ⟨⟩) σ' hI'
    · rintro ⟨⟩
    · exact ih (fun j hj => hf j (List.mem_cons_of_mem _ hj)) (hI' rfl)

/-- The sweep of the deleted objects changes no row. -/
theorem ends_sweepDeletedObjects :
    Ends sweepDeletedObjects (fun r σ' => r = .ok () → Swept σ σ') σ := by
  refine .bind (.select ?_ fun e => ?_)
  · refine ends_forM_returns (I := Swept σ) _ (fun r _ σ' h => ?_) (.refl σ)
    refine .delete (fun _ => h.erase _) fun e => ?_
    rintro ⟨⟩
  · rintro ⟨⟩

/-- The sweep of the stale uploads deletes PENDING records. -/
theorem ends_sweepStalePending :
    Ends sweepStalePending (fun r σ' => r = .ok () → Swept σ σ') σ := by
  refine .bind (.utcnow (.bind (.select ?_ fun e => ?_)))
  · refine ends_forM_returns (I := Swept σ) _ (fun r hr σ' h => ?_) (.refl σ)
    obtain ⟨hrow, hstale⟩ := Snapshot.mem_select.1 hr
    have hpending : r.2.status = .pending := by
      rw [fileRepository.stalePending, Bool.and_eq_true, beq_iff_eq] at hstale
      exact hstale.1
    refine .bind (.delete (.bind (.deleteWhere (fun _ _ => ?_) fun e => ?_)) fun e => ?_)
    · exact (h.erase _).drop hrow hpending
    · rintro ⟨⟩
    · rintro ⟨⟩
  · rintro ⟨⟩

/-- What a pass that returns has done. -/
structure Passed (σ : Serial) (outs : Outcomes) (σ' : Serial) : Prop where
  swept : ∃ σ₁, Swept σ σ₁ ∧ During σ.db.saved σ₁.db.rows outs σ'
  ids : (outs.map fun o => o.1.id).Nodup
  pending : ∀ o ∈ outs, roomRepository.pendingCleanup σ.rest.now o.1.toRoomRow = true ∧
    σ.db.saved .rooms o.1.id = some o.1.toRoomRow

/-- A room that is due can be torn down. -/
theorem open_of_pendingCleanup {now : Time} {r : RoomRow}
    (h : roomRepository.pendingCleanup now r = true) : r.Open := by
  rw [roomRepository.pendingCleanup, Bool.and_eq_true, Bool.or_eq_true, beq_iff_eq, beq_iff_eq] at h
  exact h.1

/-- What a pass does, whatever fails in it. -/
theorem ends_outcomes {env : Env} {refresh : Room → Op Room} (hrefresh : Refreshes env refresh)
    (hσ : σ.db.rows = σ.db.saved) :
    Ends (outcomes refresh) (fun r σ' => ∀ outs, r = .ok outs → Passed σ outs σ') σ := by
  refine .bind (ends_sweepDeletedObjects.mono ?_)
  rintro (e | ⟨⟩) σ₁ h₁
  · rintro outs ⟨⟩
  refine .bind (ends_sweepStalePending.mono ?_)
  rintro (e | ⟨⟩) σ₂ h₂
  · rintro outs ⟨⟩
  -- The two sweeps leave the rooms.
  have hswept : Swept σ σ₂ := (h₁ rfl).trans (h₂ rfl)
  have hrooms : σ₂.db.rows .rooms = σ.db.saved .rooms :=
    (hswept.rows .rooms (by decide)).trans (congrFun hσ .rooms)
  refine .bind (.bind (.utcnow (.bind (.select ?_ fun e => ?_))))
  · let listed := σ₂.db.select .rooms fun _ r => roomRepository.pendingCleanup σ₂.rest.now r
    have hmem : ∀ room ∈ (listed.take 100).map toRoom,
        roomRepository.pendingCleanup σ.rest.now room.toRoomRow = true ∧
          σ.db.saved .rooms room.id = some room.toRoomRow := by
      intro room hroom
      obtain ⟨⟨i, r⟩, hi, rfl⟩ := List.mem_map.1 hroom
      obtain ⟨hrow, hpending⟩ := Snapshot.mem_select.1 (List.mem_of_mem_take hi)
      rw [hswept.now] at hpending
      exact ⟨hpending, hrooms ▸ hrow⟩
    -- No room is listed twice.
    have hids : (((listed.take 100).map toRoom).map fun room => room.id).Nodup := by
      rw [List.map_map]
      refine List.Nodup.map_on ?_ ((Snapshot.nodup_select _).sublist (List.take_sublist _ _))
      rintro ⟨i, r⟩ hi ⟨j, r'⟩ hj hid
      obtain rfl : i = j := hid
      have hr := (Snapshot.mem_select.1 (List.mem_of_mem_take hi)).1
      rw [(Snapshot.mem_select.1 (List.mem_of_mem_take hj)).1] at hr
      rw [Option.some.inj hr]
    -- The loop begins with nothing torn down.
    have hstart : During σ.db.saved σ₂.db.rows [] σ₂ :=
      ⟨hswept.saved, fun t i => (wipedAll_nil t i _).symm, by simp⟩
    have hids' : ((([] : Outcomes).map fun o => o.1.id) ++
        ((listed.take 100).map toRoom).map fun room => room.id).Nodup := hids
    refine (ends_tryOutcomes hrefresh _ (fun room hroom => ?_) hids' hstart).mono ?_
    · obtain ⟨hpending, hrow⟩ := hmem room hroom
      exact ⟨open_of_pendingCleanup hpending, hrow, hrooms ▸ hrow⟩
    · rintro r σ' ⟨outs, rfl, hmap, hduring⟩ outs' ⟨⟩
      have hfst : outs.map Prod.fst = (listed.take 100).map toRoom := hmap
      refine ⟨⟨σ₂, hswept, hduring⟩, ?_, fun o ho => hmem o.1 ?_⟩
      · rw [← hfst, List.map_map] at hids
        exact hids
      · rw [← hfst]
        exact List.mem_map_of_mem ho
  · rintro outs ⟨⟩

end

/-! ## What the list promises -/

/-- The rows of a room that matter to its members. -/
def Valued : (t : Table) → Row t → Prop
  | .files, r => r.status = .confirmed
  | .messages, _ => True
  | .sessions, _ => True
  | .rooms, _ => False
  | .auditEvents, _ => False

/-- The rooms of the list are wiped, and the other rooms that were pending are as they were. -/
structure Isolated (w w' : World) (rooms : List Room) : Prop where
  deleted : ∀ room ∈ rooms, ∃ row, w'.db.committed .rooms room.id = some row ∧
    row.status = .deleted
  emptied : ∀ room ∈ rooms, ∀ t i r, w'.db.committed t i = some r → roomOf t r ≠ some room.id
  status : ∀ i row, w.db.committed .rooms i = some row →
    roomRepository.pendingCleanup w.now row = true → i ∉ rooms.map (fun room => room.id) →
      ∃ row', w'.db.committed .rooms i = some row' ∧ row'.status = row.status
  content : ∀ i row, w.db.committed .rooms i = some row →
    roomRepository.pendingCleanup w.now row = true → i ∉ rooms.map (fun room => room.id) →
      ∀ t j r, roomOf t r = some i → Valued t r →
        (w'.db.committed t j = some r ↔ w.db.committed t j = some r)

section

variable {ids : List ℕ} {i j : ℕ}

/-- Nothing belongs to a room that was torn down. -/
theorem roomOf_of_wipedAll (hi : i ∈ ids) {t : Table} {v : Option (Row t)} {r : Row t}
    (h : wipedAll ids t j v = some r) : roomOf t r ≠ some i := by
  cases t with
  | rooms => exact (Option.some_ne_none i).symm
  | auditEvents =>
    have hr := (Option.filter_eq_some_iff.1 h).2
    exact of_decide_eq_true hr i hi
  | _ =>
    have hr := (Option.filter_eq_some_iff.1 h).2
    rintro ⟨⟩
    exact of_decide_eq_true hr hi

/-- What belongs to another room stays. -/
theorem wipedAll_eq_some (hi : i ∉ ids) {t : Table} {v : Option (Row t)} {r : Row t}
    (hroom : roomOf t r = some i) : wipedAll ids t j v = some r ↔ v = some r := by
  cases t with
  | rooms => cases hroom
  | auditEvents =>
    refine Option.filter_eq_some_iff.trans (and_iff_left (decide_eq_true fun k hk hr => hi ?_))
    obtain rfl : k = i := Option.some.inj (hr.symm.trans hroom)
    exact hk
  | _ =>
    obtain rfl := Option.some.inj hroom
    exact Option.filter_eq_some_iff.trans (and_iff_left (decide_eq_true hi))

end

section

variable {σ σ' : Serial} {outs : Outcomes} {w w' : World}

/-- After a pass without a torn-down room that is rolled back, the list tells the truth, and only
then. -/
theorem Passed.isolated_iff (h : Passed σ outs σ')
    (hw : ∀ t i, w.db.committed t i = σ.db.saved t i) (hrows : σ.db.rows = σ.db.saved)
    (hw' : ∀ t i, w'.db.committed t i = σ'.db.rows t i) :
    Isolated w w' (cleaned outs) ↔ ¬RaisedAfter outs := by
  obtain ⟨⟨σ₁, hswept, hduring⟩, hids, hpending⟩ := h
  -- The sweep of expired sessions leaves the rooms.
  have hrooms : ∀ i, (if raised outs then σ.db.saved else σ₁.db.rows) .rooms i =
      σ.db.saved .rooms i := by
    intro i
    split
    · rfl
    · rw [hswept.rows .rooms (by decide), hrows]
  -- A room of the result was listed, so it was due.
  have hlisted : ∀ room ∈ cleaned outs,
      roomRepository.pendingCleanup σ.rest.now room.toRoomRow = true ∧
        σ.db.saved .rooms room.id = some room.toRoomRow :=
    fun room hroom => hpending _ (exists_of_mem_cleaned hroom)
  constructor
  -- A room that was torn down before the failure is as it was, though it is in the result.
  · intro hisolated hraised
    obtain ⟨room, hroom, hkept⟩ := exists_of_raisedAfter hids hduring.torn hraised
    obtain ⟨row, hrow, hdeleted⟩ := hisolated.deleted room hroom
    obtain ⟨hp, hsaved⟩ := hlisted room hroom
    have hsame : σ'.db.rows .rooms room.id = some room.toRoomRow := by
      rw [hduring.rows]
      exact (if_neg hkept).trans ((hrooms _).trans hsaved)
    rw [hw', hsame] at hrow
    obtain rfl := Option.some.inj hrow
    rcases open_of_pendingCleanup hp with hactive | hexpired
    · rw [hactive] at hdeleted
      cases hdeleted
    · rw [hexpired] at hdeleted
      cases hdeleted
  · intro hraised
    have hkept := kept_of_not_raisedAfter hraised
    -- Without such a failure the rooms of the result are the rooms that stay torn down.
    have hmem : ∀ room ∈ cleaned outs, room.id ∈ kept outs := by
      intro room hroom
      rw [hkept]
      exact List.mem_map_of_mem hroom
    refine ⟨fun room hroom => ?_, fun room hroom t i r hr => ?_, fun i row hrow hp hi => ?_,
      fun i row hrow hp hi t j r hroom hvalued => ?_⟩
    · refine ⟨{ room.toRoomRow with status := .deleted }, ?_, rfl⟩
      rw [hw', hduring.rows]
      refine (if_pos (hmem room hroom)).trans ?_
      rw [hrooms, (hlisted room hroom).2]
      rfl
    · rw [hw', hduring.rows] at hr
      exact roomOf_of_wipedAll (hmem room hroom) hr
    · rw [← hkept] at hi
      refine ⟨row, ?_, rfl⟩
      rw [hw', hduring.rows]
      exact (if_neg hi).trans ((hrooms i).trans ((hw _ _).symm.trans hrow))
    · rw [← hkept] at hi
      rw [hw', hduring.rows, hw, wipedAll_eq_some hi hroom]
      split
      · exact Iff.rfl
      · cases t with
        | rooms => exact hvalued.elim
        | auditEvents => exact hvalued.elim
        | files =>
          have hne : FileRow.status r ≠ .pending := by
            rw [show FileRow.status r = .confirmed from hvalued]
            decide
          rw [hswept.files j r hne, hrows]
        | _ => rw [hswept.rows _ (by decide), hrows]

end

end passes

/-- A pass that shares one transaction isolates the failures of its rooms as long as no room raises
after another one that has not: then every room that it returns is DELETED with nothing left of it,
and every other pending room has its status and its content. When a room raises after another one
that has not, a room that it returns is not DELETED. -/
theorem cleanup_pass_isolation {env : Env} {refresh : Room → Op Room}
    (hrefresh : passes.Refreshes env refresh) {p : ℕ} {w w' : World} {outs : passes.Outcomes}
    (hfree : w.db.Free) (h : server.Runs p (do
      let outs ← passes.outcomes refresh
      commit
      pure outs) w (.ok outs) w') :
    server.Runs p (do
      let rooms ← runCleanupPass refresh
      commit
      pure rooms) w (.ok (passes.cleaned outs)) w' ∧
    (passes.Isolated w w' (passes.cleaned outs) ↔ ¬passes.RaisedAfter outs) := by
  constructor
  -- The pass is what its outcomes say, and returns the rooms among them.
  · have hprog : (do
        let rooms ← runCleanupPass refresh
        commit
        pure rooms) = passes.cleaned <$> (do
        let outs ← passes.outcomes refresh
        commit
        pure outs) := by
      rw [passes.runCleanupPass_eq]
      simp only [map_bind, bind_map_left]
      rfl
    rw [hprog]
    exact h.map passes.cleaned
  · have hrows := Snapshot.rows_of_free (p := p) hfree
    -- The commit makes the rows of the pass the committed ones.
    have hends : Ends (do
        let outs ← passes.outcomes refresh
        commit
        pure outs) (fun r σ' => ∀ outs, r = .ok outs →
          ∃ σ₁, passes.Passed (.of p w) outs σ₁ ∧ σ'.db.saved = σ₁.db.rows) (.of p w) := by
      refine .bind ((passes.ends_outcomes hrefresh hrows).mono ?_)
      rintro (e | outs) σ₁ hpassed
      · rintro outs ⟨⟩
      · refine .bind (.commit ?_ fun e => ?_)
        · rintro outs ⟨⟩
          exact ⟨σ₁, hpassed outs rfl, rfl⟩
        · rintro outs ⟨⟩
    obtain ⟨σ₁, hpassed, hsaved⟩ := hends.of_runs h (hfree.alone p) outs rfl
    exact hpassed.isolated_iff (fun _ _ => rfl) hrows fun t i => congrFun (congrFun hsaved t) i

namespace passes

/-- Two rooms whose time is over, with a file each. -/
def pair : World :=
  { World.holding
      [{ RoomRow.plain with expires_at := 0 },
        { RoomRow.plain with room_code := "D", access_token_hash := "b", expires_at := 0 }]
      []
      [.plain, { FileRow.plain with room_id := 1, storage_key := ⟨['l'], by decide⟩ }] with
    storage := AList.insert ['k'] [65] (AList.insert ['l'] [66] ∅) }

/-- After a rollback, reading an attribute of an expired object fails. -/
def missingGreenlet : Room → Op Room := fun _ => .raise .exception

/-- A refresh that fails is one of the refreshes. -/
theorem refreshes_missingGreenlet : Refreshes .plain missingGreenlet :=
  ⟨fun _ => only_raise _, fun _ _ _ h => by cases h⟩

/-- The object under a key cannot be deleted. -/
def stuckAt (key : Key) : Cmd → Option Err
  | .deleteObject k => if k = key then some .exception else none
  | _ => none

/-- The failure is one that the command can have. -/
theorem raises_of_stuckAt {key : Key} {c : Cmd} {e : Err} (h : stuckAt key c = some e) :
    c.Raises e := by
  unfold stuckAt at h
  split at h
  · split_ifs at h
    cases h
    rfl
  · cases h

end passes

/-- A pass over two rooms in which nothing fails. -/
theorem cleanup_pass_isolation_pair : ∃ outs w',
    outs.map (fun o : Room × Option Bool => (o.1.id, o.2)) = [(0, some true), (1, some true)] ∧
      passes.Isolated passes.pair w' (passes.cleaned outs) := by
  obtain ⟨outs, houts, hr⟩ := calm.exists_runs_ok 0 (do
    let outs ← passes.outcomes passes.missingGreenlet
    commit
    pure outs) passes.pair (fun outs => outs.map fun o => (o.1.id, o.2))
    (b := [(0, some true), (1, some true)]) (by decide)
  have hfree : passes.pair.db.Free := World.holding_free
  obtain ⟨-, hiff⟩ := cleanup_pass_isolation passes.refreshes_missingGreenlet hfree
    (server_of_calm hr)
  refine ⟨outs, _, houts, hiff.2 ?_⟩
  rintro ⟨before, room, after, rfl, -⟩
  have hmem : (room.id, none) ∈ [(0, some true), (1, some true)] := by
    rw [← houts]
    exact List.mem_map_of_mem (List.mem_append_right _ List.mem_cons_self)
  simp at hmem

/-- The second room raises, so the first one is as before, and yet is returned. -/
theorem returned_room_is_active : ∃ rooms w', server.Runs 0 (do
      let rooms ← runCleanupPass passes.missingGreenlet
      commit
      pure rooms) passes.pair (.ok rooms) w' ∧ rooms.map (fun room => room.id) = [0] ∧
    (w'.db.committed .rooms 0).map (fun row => row.status) = some .active ∧
      ¬passes.Isolated passes.pair w' rooms := by
  obtain ⟨rooms, hrooms, hr⟩ := (server.failing (passes.stuckAt ['l'])).exists_runs_ok 0 (do
    let rooms ← runCleanupPass passes.missingGreenlet
    commit
    pure rooms) passes.pair (fun rooms => rooms.map fun room => room.id) (b := [0]) (by decide)
  refine ⟨rooms, _, hr.of_failing fun _ _ => passes.raises_of_stuckAt, hrooms, by decide, ?_⟩
  intro hisolated
  obtain ⟨room, hroom, hid⟩ : ∃ room ∈ rooms, room.id = 0 := by
    rw [← List.mem_map, hrooms]
    exact List.mem_singleton_self 0
  obtain ⟨row, hrow, hdeleted⟩ := hisolated.deleted room hroom
  rw [hid] at hrow
  have hactive : (((server.failing (passes.stuckAt ['l'])).endWorld 0 (do
      let rooms ← runCleanupPass passes.missingGreenlet
      commit
      pure rooms) passes.pair).db.committed .rooms 0).map (fun row => row.status) =
        some .active := by decide
  rw [hrow] at hactive
  rw [Option.map_some, hdeleted] at hactive
  cases hactive

end DropRoom
