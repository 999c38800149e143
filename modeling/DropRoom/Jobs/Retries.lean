import DropRoom.Rooms.Cleanup
import DropRoom.Files.Writes
import DropRoom.Files.Parts

/-!
# Handlers that are retried

The queue runs a handler again after it failed, and the scheduler enqueues the same work again and
again. A failed attempt commits nothing, and the objects that it has deleted are among those that a
successful attempt deletes, which is decided by rows that are still there (`Job.Doomed`). So what
any attempts come to is what one successful attempt does (`Job.result`).
-/

namespace DropRoom

open Effect Store Prog uploadService

/-! ## What an attempt does -/

/-- The committed rows, and the objects by their keys. -/
structure Content where
  rows : (t : Table) → ℕ → Option (Row t)
  objects : Key → Option Bytes

/-- What the world holds. -/
def World.content (w : World) : Content := ⟨w.db.committed, fun key => w.storage.lookup key⟩

/-- What the transaction has committed, and the objects. -/
def Serial.content (σ : Serial) : Content := ⟨σ.db.saved, fun key => σ.rest.storage.lookup key⟩

/-- The handlers that the queue may run again. -/
def Job.Retried : Job → Prop
  | .roomCleanup _ => True
  | .deleteFileObject _ => True
  | .expireUploadSession _ => True
  | .cleanupOrphanedObject _ => True
  | .sendRoomExpirationEvent _ => False
  | .generateAuditEvent _ _ => False

/-- What a job makes of the rows. -/
def Job.rows (job : Job) (rows : (t : Table) → ℕ → Option (Row t)) :
    (t : Table) → ℕ → Option (Row t) :=
  match job with
  | .roomCleanup (some room_id) =>
    if ∃ r ∈ rows .rooms room_id, RoomRow.Open r then fun t i => wiped room_id t i (rows t i)
    else rows
  | .expireUploadSession (some file_id) =>
    if ∃ r ∈ rows .files file_id, FileRow.status r = .pending then
      Function.update rows .files (Function.update (rows .files) file_id none)
    else rows
  | _ => rows

/-- The keys under which a job deletes the objects. -/
def Job.Doomed (job : Job) (rows : (t : Table) → ℕ → Option (Row t)) (key : Key) : Prop :=
  match job with
  | .roomCleanup (some room_id) => (∃ r ∈ rows .rooms room_id, RoomRow.Open r) ∧
      ∃ i, ∃ r ∈ rows .files i, FileRow.room_id r = room_id ∧ key = (FileRow.storage_key r).text
  | .deleteFileObject (some k) => k ≠ [] ∧ key = k
  | .cleanupOrphanedObject (some k) => k ≠ [] ∧ key = k
  | .expireUploadSession (some file_id) => ∃ r ∈ rows .files file_id,
      FileRow.status r = .pending ∧ (partPrefix r.storage_key <+: key ∨ key = r.storage_key.text)
  | _ => False

open Classical in
/-- What a successful attempt does. -/
noncomputable def Job.result (job : Job) (c : Content) : Content where
  rows := job.rows c.rows
  objects key := if job.Doomed c.rows key then none else c.objects key

/-- What an attempt that fails may leave: nothing is committed, and some of the objects that are to
be deleted are gone. -/
def Job.Partly (job : Job) (c c' : Content) : Prop :=
  c'.rows = c.rows ∧ ∀ key, c'.objects key = c.objects key ∨
    job.Doomed c.rows key ∧ c'.objects key = none

section

variable {job : Job} {c c' : Content}

/-- After an attempt that failed, a successful one does what it would have done before. -/
theorem Job.result_of_partly (h : job.Partly c c') : job.result c' = job.result c := by
  obtain ⟨hrows, hobjects⟩ := h
  unfold Job.result
  rw [hrows]
  congr 1
  funext key
  rcases hobjects key with hsame | ⟨hdoomed, -⟩
  · rw [hsame]
  · rw [if_pos hdoomed, if_pos hdoomed]

section

variable {rows : (t : Table) → ℕ → Option (Row t)} {room_id file_id : ℕ} {key : Key}

/-- A cleanup of a room leaves its status and nothing else of it. -/
theorem Job.rows_roomCleanup : (Job.roomCleanup (some room_id)).rows rows =
    if ∃ r ∈ rows .rooms room_id, RoomRow.Open r then fun t i => wiped room_id t i (rows t i)
    else rows := rfl

/-- An expiry deletes a record that is still PENDING. -/
theorem Job.rows_expireUploadSession : (Job.expireUploadSession (some file_id)).rows rows =
    if ∃ r ∈ rows .files file_id, FileRow.status r = .pending then
      Function.update rows .files (Function.update (rows .files) file_id none)
    else rows := rfl

/-- A room that was torn down is not open. -/
theorem not_open_wiped :
    ¬∃ r ∈ wiped room_id .rooms room_id (rows .rooms room_id), RoomRow.Open r := by
  rintro ⟨r, hr, hopen⟩
  obtain ⟨r₀, -, rfl⟩ := Option.map_eq_some_iff.1 ((if_pos rfl).symm.trans hr)
  rcases hopen with hactive | hexpired
  · cases hactive
  · cases hexpired

/-- A record that was deleted is not there. -/
theorem not_pending_update : ¬∃ r ∈ Function.update rows .files
    (Function.update (rows .files) file_id none) .files file_id, FileRow.status r = .pending := by
  rintro ⟨r, hr, -⟩
  rw [Function.update_self, Function.update_self] at hr
  cases hr

/-- The work of a job is done once. -/
theorem Job.rows_rows (job : Job) : job.rows (job.rows rows) = job.rows rows := by
  cases job with
  | roomCleanup room_id =>
    cases room_id with
    | none => rfl
    | some room_id =>
      rw [rows_roomCleanup, rows_roomCleanup]
      by_cases h : ∃ r ∈ rows .rooms room_id, RoomRow.Open r
      · rw [if_pos h, if_neg not_open_wiped]
      · rw [if_neg h, if_neg h]
  | expireUploadSession file_id =>
    cases file_id with
    | none => rfl
    | some file_id =>
      rw [rows_expireUploadSession, rows_expireUploadSession]
      by_cases h : ∃ r ∈ rows .files file_id, FileRow.status r = .pending
      · rw [if_pos h, if_neg not_pending_update]
      · rw [if_neg h, if_neg h]
  | _ => rfl

/-- What is to be deleted after the work is done was to be deleted before. -/
theorem Job.doomed_of_rows {job : Job} (h : job.Doomed (job.rows rows) key) :
    job.Doomed rows key := by
  cases job with
  | roomCleanup room_id =>
    cases room_id with
    | none => exact h
    | some room_id =>
      rw [rows_roomCleanup] at h
      by_cases hopen : ∃ r ∈ rows .rooms room_id, RoomRow.Open r
      · rw [if_pos hopen] at h
        exact absurd h.1 not_open_wiped
      · rwa [if_neg hopen] at h
  | expireUploadSession file_id =>
    cases file_id with
    | none => exact h
    | some file_id =>
      rw [rows_expireUploadSession] at h
      by_cases hpending : ∃ r ∈ rows .files file_id, FileRow.status r = .pending
      · rw [if_pos hpending] at h
        obtain ⟨r, hr, -⟩ := h
        rw [Function.update_self, Function.update_self] at hr
        cases hr
      · rwa [if_neg hpending] at h
  | _ => exact h

end

/-- A successful attempt after a successful attempt does nothing. -/
theorem Job.result_result : job.result (job.result c) = job.result c := by
  unfold Job.result
  dsimp only
  rw [Job.rows_rows]
  congr 1
  funext key
  by_cases h : job.Doomed c.rows key
  · rw [if_pos h, ite_self]
  · rw [if_neg h, if_neg fun h' => h (Job.doomed_of_rows h')]

end

/-! ## The attempts of each handler -/

/-- What an attempt of a job ends in. -/
def Job.Attempted (job : Job) (σ : Serial) (r : Except Err Unit) (σ' : Serial) : Prop :=
  match r with
  | .ok () => σ'.content = job.result σ.content
  | .error _ => job.Partly σ.content σ'.content

section

variable {job : Job} {σ σ' : Serial}

/-- A job that has nothing to do. -/
theorem Job.result_eq_self {c : Content} (hrows : job.rows c.rows = c.rows)
    (hdoomed : ∀ key, ¬job.Doomed c.rows key) : job.result c = c := by
  unfold Job.result
  rw [hrows]
  congr 1
  funext key
  exact if_neg (hdoomed key)

/-- An attempt that has deleted some objects and committed nothing. -/
theorem Job.partly_of_erased {keys : List Key} (hkeys : ∀ key ∈ keys, job.Doomed σ.db.saved key)
    (hsaved : σ'.db.saved = σ.db.saved)
    (hs : ∀ key, σ'.rest.storage.lookup key = (σ.rest.storage.eraseAll keys).lookup key) :
    job.Partly σ.content σ'.content := by
  refine ⟨hsaved, fun key => ?_⟩
  have hkey := hs key
  rw [Storage.lookup_eraseAll] at hkey
  by_cases hmem : key ∈ keys
  · exact .inr ⟨hkeys key hmem, hkey.trans (if_pos hmem)⟩
  · exact .inl (hkey.trans (if_neg hmem))

/-- An attempt that has done all of the work. -/
theorem Job.content_of_erased {keys : List Key}
    (hkeys : ∀ key ∈ keys, job.Doomed σ.db.saved key)
    (hall : ∀ key, job.Doomed σ.db.saved key → key ∉ keys → σ.rest.storage.lookup key = none)
    (hsaved : σ'.db.saved = job.rows σ.db.saved)
    (hs : ∀ key, σ'.rest.storage.lookup key = (σ.rest.storage.eraseAll keys).lookup key) :
    σ'.content = job.result σ.content := by
  unfold Job.result Serial.content
  rw [hsaved]
  congr 1
  funext key
  rw [hs key, Storage.lookup_eraseAll]
  by_cases hmem : key ∈ keys
  · rw [if_pos hmem, if_pos (hkeys key hmem)]
  · rw [if_neg hmem]
    by_cases hdoomed : job.Doomed σ.db.saved key
    · rw [if_pos hdoomed, hall key hdoomed hmem]
    · rw [if_neg hdoomed]

/-- `get_room_by_id` answers the room with that number, or fails. -/
theorem Ends.getRoomById {i : ℕ} {Q : Except Err (Option Room) → Serial → Prop}
    (hok : Q (.ok ((σ.db.rows .rooms i).map fun r => toRoom (i, r))) σ)
    (herr : ∀ e, Q (.error e) σ) : Ends (roomRepository.getRoomById i) Q σ := by
  have hsingle : σ.Single .rooms fun j _ => j == i := by
    intro j k r r' _ hw _ hw'
    exact (beq_iff_eq.1 hw).trans (beq_iff_eq.1 hw').symm
  have hroom : (σ.find .rooms fun j _ => j == i).map toRoom =
      (σ.db.rows .rooms i).map fun r => toRoom (i, r) := by
    have hafter := (After.find_iff hsingle toRoom fun r _ =>
      r = .ok ((σ.find .rooms fun j _ => j == i).map toRoom)).2 rfl
    exact (Except.ok.inj ((After.getRoomById_iff i _).1 hafter)).symm
  refine .find hsingle _ ?_ herr
  rw [hroom]
  exact hok

/-- The keys with the given beginning, or a failure. -/
theorem Ends.listKeys {pre : Key} {Q : Except Err (List Key) → Serial → Prop}
    (hok : Q (.ok (σ.rest.storage.listKeys pre)) σ) (herr : ∀ e, Q (.error e) σ) :
    Ends (storage.listKeys pre) Q σ :=
  issue_of_exec rfl hok herr

/-- The keys of a room are those of its file records. -/
theorem mem_roomKeys {room_id : ℕ} {key : Key} : key ∈ σ.roomKeys room_id ↔
    ∃ i, ∃ r ∈ σ.db.rows .files i, FileRow.room_id r = room_id ∧
      key = (FileRow.storage_key r).text := by
  simp only [Serial.roomKeys, List.mem_map, Prod.exists, Snapshot.mem_select, beq_iff_eq,
    Option.mem_def]
  constructor
  · rintro ⟨i, r, ⟨hr, hroom⟩, rfl⟩
    exact ⟨i, r, hr, hroom, rfl⟩
  · rintro ⟨i, r, hr, hroom, rfl⟩
    exact ⟨i, r, ⟨hr, hroom⟩, rfl⟩

/-- Deleting one object. -/
theorem ends_deleteKey {job : Job} {key : Option Key} (hrows : ∀ rows, job.rows rows = rows)
    (hdoomed : ∀ rows k, job.Doomed rows k ↔ k ≠ [] ∧ key = some k) :
    Ends (handlers.deleteKey key) (job.Attempted σ) σ := by
  have hskip : (∀ k, ¬(k ≠ [] ∧ key = some k)) → σ.content = job.result σ.content := fun hno =>
    (Job.result_eq_self (hrows _) fun k hk => hno k ((hdoomed _ k).1 hk)).symm
  unfold handlers.deleteKey
  cases key with
  | none => exact hskip fun k hk => by cases hk.2
  | some k =>
    by_cases hk : k = []
    · refine (congrArg (fun prog => Ends prog _ σ) (if_pos hk)).mpr (hskip fun k' hk' => ?_)
      exact hk'.1 ((Option.some.inj hk'.2).symm.trans hk)
    · refine (congrArg (fun prog => Ends prog _ σ) (if_neg hk)).mpr (.delete ?_ fun e => ?_)
      · have hkeys : ∀ k' ∈ [k], job.Doomed σ.db.saved k' := by
          intro k' hk'
          obtain rfl := List.mem_singleton.1 hk'
          exact (hdoomed _ _).2 ⟨hk, rfl⟩
        refine Job.content_of_erased hkeys (fun k' hd hmem => ?_) (hrows _).symm fun _ => rfl
        exact absurd (List.mem_singleton.2 (Option.some.inj ((hdoomed _ _).1 hd).2).symm) hmem
      · exact ⟨rfl, fun _ => .inl rfl⟩

/-- The rows without one record. -/
theorem rows_drop_byId {file_id : ℕ} :
    (σ.db.drop .files (dialect.deletes (t := .files) (.byId file_id))).rows =
      Function.update σ.db.rows .files (Function.update (σ.db.rows .files) file_id none) := by
  have hrows : (fun i => (σ.db.rows .files i).filter fun r =>
      !dialect.deletes (t := .files) (.byId file_id) i r) =
      Function.update (σ.db.rows .files) file_id none := by
    funext i
    by_cases hi : i = file_id
    · subst hi
      rw [Function.update_self]
      exact Option.filter_eq_none_iff.2 fun r _ => by simp [dialect]
    · rw [Function.update_of_ne hi]
      cases σ.db.rows .files i with
      | none => rfl
      | some r => exact Option.filter_some_pos (by simp [dialect, hi])
  rw [← hrows]
  rfl

variable (hσ : σ.db.rows = σ.db.saved)
include hσ

/-- `run_room_cleanup`. -/
theorem ends_runRoomCleanup (room_id : ℕ) : Ends (handlers.runRoomCleanup (some room_id))
    ((Job.roomCleanup (some room_id)).Attempted σ) σ := by
  have hnothing : (Job.roomCleanup (some room_id)).Partly σ.content σ.content :=
    ⟨rfl, fun _ => .inl rfl⟩
  -- A room that cannot be torn down is left alone.
  have hskip : (¬∃ r ∈ σ.db.saved .rooms room_id, RoomRow.Open r) →
      σ.content = (Job.roomCleanup (some room_id)).result σ.content := by
    intro hno
    have hrows : (Job.roomCleanup (some room_id)).rows σ.content.rows = σ.content.rows := if_neg hno
    exact (Job.result_eq_self hrows fun key hdoomed => hno hdoomed.1).symm
  refine .withSession (.bind (.getRoomById ?_ fun e => hnothing))
  rw [hσ]
  cases hrow : σ.db.saved .rooms room_id with
  | none =>
    refine hskip ?_
    rw [hrow]
    rintro ⟨r, ⟨⟩, -⟩
  | some row =>
    change Ends (if row.status = .deleted then _ else _) _ σ
    split
    · next hdeleted =>
      refine hskip ?_
      rw [hrow]
      rintro ⟨r, ⟨⟩, hopen | hopen⟩
      · rw [hdeleted] at hopen
        cases hopen
      · rw [hdeleted] at hopen
        cases hopen
    · next hstatus =>
      -- The room can be torn down exactly if it is open or expired already.
      have hcan : σ.CanWipe (toRoom (room_id, row)) → ∃ r ∈ σ.db.saved .rooms room_id,
          RoomRow.Open r := by
        rintro ⟨r, hr, hopen | ⟨-, hopen⟩⟩
        · exact ⟨r, hσ ▸ hr, .inr hopen⟩
        · exact ⟨r, hσ ▸ hr, .inl hopen⟩
      -- The keys that the teardown deletes are the doomed ones.
      have hdoomed : ∀ key, (∃ r ∈ σ.db.saved .rooms room_id, RoomRow.Open r) →
          (key ∈ σ.roomKeys room_id ↔ (Job.roomCleanup (some room_id)).Doomed σ.db.saved key) := by
        intro key hopen
        rw [mem_roomKeys, hσ]
        exact (and_iff_right hopen).symm
      refine .bind (.cleanupRoom (fun hwipe σ' hwiped => ?_) (fun hno => ?_)
        fun e keys σ' hsub herased => ?_)
      · have hopen := hcan hwipe
        -- Once the rows are committed, the job has its result.
        have hdone : ∀ σ'' : Serial, σ''.db.saved = σ'.db.rows →
            σ''.rest.storage = σ'.rest.storage →
            σ''.content = (Job.roomCleanup (some room_id)).result σ.content := by
          intro σ'' hsaved hs
          refine Job.content_of_erased (fun key => (hdoomed key hopen).1)
            (fun key hd hmem => absurd ((hdoomed key hopen).2 hd) hmem) ?_ fun key => ?_
          · rw [hsaved, Job.rows_roomCleanup, if_pos hopen]
            funext t i
            rw [hwiped.rows t i, hσ]
            rfl
          · rw [hs, hwiped.rest]
            rfl
        -- Until then the rows stay, and some of the objects are gone.
        have hpart : ∀ σ'' : Serial, σ''.db.saved = σ'.db.saved →
            σ''.rest.storage = σ'.rest.storage →
            (Job.roomCleanup (some room_id)).Partly σ.content σ''.content := by
          intro σ'' hsaved hs
          refine Job.partly_of_erased (fun key => (hdoomed key hopen).1)
            (hsaved.trans hwiped.saved) fun key => ?_
          rw [hs, hwiped.rest]
          rfl
        refine .bind (.commit ?_ fun e => hpart _ rfl rfl)
        refine .broadcast fun σ'' hσ'' => ?_
        obtain ⟨_, _, _, rfl⟩ := hσ''
        exact hdone _ rfl rfl
      · have hno' : ¬∃ r ∈ σ.db.saved .rooms room_id, RoomRow.Open r := by
          rintro ⟨r, hr, hopen⟩
          obtain rfl : r = row := Option.some.inj (hr.symm.trans hrow)
          rcases hopen with hopen | hopen
          · exact hno ⟨r, hσ ▸ hrow, .inr ⟨hopen, hopen⟩⟩
          · exact hno ⟨r, hσ ▸ hrow, .inl hopen⟩
        refine .bind (.commit ?_ fun e => hnothing)
        change (Content.mk σ.db.rows _) = _
        rw [hσ]
        exact hskip hno'
      -- The storage has failed after some of the objects.
      · have hkeys : ∀ key ∈ keys, (Job.roomCleanup (some room_id)).Doomed σ.db.saved key :=
          fun key hkey => (hdoomed key (hcan (hsub key hkey).2)).1 (hsub key hkey).1
        refine Job.partly_of_erased hkeys herased.1 fun key => ?_
        rw [herased.2]

/-- `expire_upload_session`. -/
theorem ends_expireUploadSession (file_id : ℕ) : Ends (handlers.expireUploadSession (some file_id))
    ((Job.expireUploadSession (some file_id)).Attempted σ) σ := by
  have hnothing : (Job.expireUploadSession (some file_id)).Partly σ.content σ.content :=
    ⟨rfl, fun _ => .inl rfl⟩
  -- A record that is not pending is left alone.
  have hskip : (¬∃ r ∈ σ.db.saved .files file_id, FileRow.status r = .pending) →
      σ.content = (Job.expireUploadSession (some file_id)).result σ.content := by
    intro hno
    have hrows : (Job.expireUploadSession (some file_id)).rows σ.content.rows = σ.content.rows :=
      if_neg hno
    refine (Job.result_eq_self hrows fun key hdoomed => hno ?_).symm
    obtain ⟨r, hr, hpending, -⟩ := hdoomed
    exact ⟨r, hr, hpending⟩
  refine .withSession (.bind (.getFileById ?_ fun e => hnothing))
  have hfile : σ.file file_id = (σ.db.saved .files file_id).map fun r => toFile (file_id, r) := by
    rw [← hσ]
    rfl
  rw [hfile]
  cases hrow : σ.db.saved .files file_id with
  | none =>
    refine hskip ?_
    rw [hrow]
    rintro ⟨r, ⟨⟩, -⟩
  | some row =>
    by_cases hpending : row.status = .pending
    -- The parts and the object of a pending record are doomed.
    · have hdoomed : ∀ key, (partPrefix row.storage_key <+: key ∨ key = row.storage_key.text) →
          (Job.expireUploadSession (some file_id)).Doomed σ.db.saved key :=
        fun key hkey => ⟨row, hrow, hpending, hkey⟩
      let keys := σ.rest.storage.listKeys (partPrefix row.storage_key)
      have hkeys : ∀ key ∈ keys, (Job.expireUploadSession (some file_id)).Doomed σ.db.saved key :=
        fun key hkey => hdoomed key (.inl (mem_listKeys.1 hkey).2)
      -- Until the row is deleted, some of the doomed objects are gone and the rows stay.
      have hpart : ∀ (deleted : List Key) (σ' : Serial), deleted ⊆ keys ++ [row.storage_key.text] →
          σ'.db.saved = σ.db.saved → σ'.rest.storage = σ.rest.storage.eraseAll deleted →
          (Job.expireUploadSession (some file_id)).Partly σ.content σ'.content := by
        intro deleted σ' hsub hsaved hs
        refine Job.partly_of_erased (fun key hkey => ?_) hsaved fun key => by rw [hs]
        rcases List.mem_append.1 (hsub hkey) with hkey | hkey
        · exact hkeys key hkey
        · exact hdoomed key (.inr (List.mem_singleton.1 hkey))
      refine (congrArg (fun prog => Ends prog _ σ) (if_pos hpending)).mpr ?_
      refine .bind (.bind (.listKeys ?_ fun e => hnothing))
      refine .forM_delete _ ?_ fun e first hfirst => ?_
      rotate_right
      · exact hpart first _ (fun key hkey => List.mem_append_left _ (hfirst.subset hkey)) rfl rfl
      have herased : (σ.rest.storage.eraseAll keys).erase row.storage_key.text =
          σ.rest.storage.eraseAll (keys ++ [row.storage_key.text]) := by
        unfold Storage.eraseAll
        rw [List.foldl_append]
        rfl
      have hsub : keys ⊆ keys ++ [row.storage_key.text] := List.subset_append_left _ _
      refine .bind (.delete ?_ fun e => hpart keys _ hsub rfl rfl)
      refine .bind (.deleteWhere (fun _ => ?_) fun e => ?_)
      · refine .commit ?_ fun e => hpart _ _ (List.Subset.refl _) rfl herased
        have hmem : ∀ key ∈ keys ++ [row.storage_key.text],
            (Job.expireUploadSession (some file_id)).Doomed σ.db.saved key := by
          intro key hkey
          rcases List.mem_append.1 hkey with hkey | hkey
          · exact hkeys key hkey
          · exact hdoomed key (.inr (List.mem_singleton.1 hkey))
        refine Job.content_of_erased hmem ?_ ?_ fun key =>
          congrArg (fun s : Storage => s.lookup key) herased
        -- Every part that was there was listed.
        · rintro key ⟨r, hr, -, hkey⟩ hno
          obtain rfl : r = row := Option.some.inj (hr.symm.trans hrow)
          rcases hkey with hkey | hkey
          · by_contra hsome
            exact hno (List.mem_append_left _ (mem_listKeys.2 ⟨mem_keys_iff.2 hsome, hkey⟩))
          · exact absurd (List.mem_append_right _ (List.mem_singleton.2 hkey)) hno
        · have hex : ∃ r ∈ σ.db.saved .files file_id, FileRow.status r = .pending :=
            ⟨row, hrow, hpending⟩
          rw [Job.rows_expireUploadSession, if_pos hex, ← hσ]
          exact rows_drop_byId
      · exact hpart _ _ (List.Subset.refl _) rfl herased
    · refine (congrArg (fun prog => Ends prog _ σ) (if_neg hpending)).mpr (hskip ?_)
      rw [hrow]
      rintro ⟨r, ⟨⟩, h⟩
      exact hpending h

omit hσ in
/-- A key to delete is the one that is given. -/
theorem doomed_some {k k' : Key} : k' ≠ [] ∧ k = k' ↔ k ≠ [] ∧ some k' = some k := by
  constructor
  · rintro ⟨hne, rfl⟩
    exact ⟨hne, rfl⟩
  · rintro ⟨hne, hsome⟩
    obtain rfl := Option.some.inj hsome
    exact ⟨hne, rfl⟩

/-- An attempt of a job that may be retried. -/
theorem ends_attempt (hjob : job.Retried) : Ends job.handler (job.Attempted σ) σ := by
  cases job with
  | roomCleanup room_id =>
    cases room_id with
    | none => exact (@Job.result_eq_self (.roomCleanup none) _ rfl fun _ h => h).symm
    | some room_id => exact ends_runRoomCleanup hσ room_id
  | expireUploadSession file_id =>
    cases file_id with
    | none => exact (@Job.result_eq_self (.expireUploadSession none) _ rfl fun _ h => h).symm
    | some file_id => exact ends_expireUploadSession hσ file_id
  | deleteFileObject key =>
    refine ends_deleteKey (fun _ => rfl) fun rows k => ?_
    cases key with
    | none => exact iff_of_false id fun h => by cases h.2
    | some k' => exact doomed_some
  | cleanupOrphanedObject key =>
    refine ends_deleteKey (fun _ => rfl) fun rows k => ?_
    cases key with
    | none => exact iff_of_false id fun h => by cases h.2
    | some k' => exact doomed_some
  | sendRoomExpirationEvent room_id => exact hjob.elim
  | generateAuditEvent room_id type => exact hjob.elim

end

/-! ## Any number of attempts -/

/-- The attempts of a job: some fail, then one succeeds, then further ones succeed. In between time
passes. -/
inductive Attempts (job : Job) : World → World → Prop
  | success {p w w'} (h : server.Runs p job.handler w (.ok ()) w') : Attempts job w w'
  | failure {p e w w₁ w₂ w'} (h : server.Runs p job.handler w (.error e) w₁) (ht : w₁.Tick w₂)
      (hs : Attempts job w₂ w') : Attempts job w w'
  | again {p w w₁ w₂ w'} (hs : Attempts job w w₁) (ht : w₁.Tick w₂)
      (h : server.Runs p job.handler w₂ (.ok ()) w') : Attempts job w w'

/-- The passing of time changes nothing that a job looks at. -/
theorem World.Tick.keeps {w w' : World} (h : w.Tick w') :
    w'.db = w.db ∧ w'.content = w.content := by
  obtain ⟨_, _, rfl⟩ := h
  exact ⟨rfl, rfl⟩

section

variable {job : Job} (hjob : job.Retried) {p : ℕ} {w w' : World}
include hjob

/-- What an attempt makes of the world. -/
theorem attempted_of_runs {r : Except Err Unit} (hfree : w.db.Free)
    (h : server.Runs p job.handler w r w') : w'.db.Free ∧ job.Attempted (.of p w) r (.of p w') :=
  ⟨job.settles.free server_faithful h hfree,
    (ends_attempt (Snapshot.rows_of_free hfree) hjob).of_runs h (hfree.alone p)⟩

/-- Any attempts come to the result of the job. -/
theorem Attempts.content_eq (h : Attempts job w w') (hfree : w.db.Free) :
    w'.db.Free ∧ w'.content = job.result w.content := by
  induction h with
  | success h => exact attempted_of_runs hjob hfree h
  | failure h ht _ ih =>
    obtain ⟨hfree₁, hpartly⟩ := attempted_of_runs hjob hfree h
    obtain ⟨hdb, hsame⟩ := ht.keeps
    obtain ⟨hfree', hcontent⟩ := ih (hdb ▸ hfree₁)
    rw [hsame] at hcontent
    exact ⟨hfree', hcontent.trans (Job.result_of_partly hpartly)⟩
  | again _ ht h ih =>
    obtain ⟨hfree₁, hcontent⟩ := ih hfree
    obtain ⟨hdb, hsame⟩ := ht.keeps
    obtain ⟨hfree', hagain⟩ := attempted_of_runs hjob (hdb ▸ hfree₁) h
    refine ⟨hfree', Eq.trans hagain ?_⟩
    exact (congrArg job.result (hsame.trans hcontent)).trans Job.result_result

end

/-- The handlers of `ROOM_CLEANUP`, `DELETE_FILE_OBJECT`, `EXPIRE_UPLOAD_SESSION` and
`CLEANUP_ORPHANED_OBJECT` may be retried: however many attempts fail before one succeeds, and
however many succeed after it, the committed rows and the objects are those after one successful
attempt. -/
theorem handlers_retry_safe {job : Job} (hjob : job.Retried) {w w' w₁ : World} (hfree : w.db.Free)
    (h : Attempts job w w') {p : ℕ} (h₁ : server.Runs p job.handler w (.ok ()) w₁) :
    (∀ t i, w'.db.committed t i = w₁.db.committed t i) ∧
      ∀ key, w'.storage.lookup key = w₁.storage.lookup key := by
  have hcontent : w'.content = w₁.content :=
    (h.content_eq hjob hfree).2.trans ((Attempts.success h₁).content_eq hjob hfree).2.symm
  exact ⟨fun t i => congrFun (congrFun (congrArg Content.rows hcontent) t) i,
    fun key => congrFun (congrArg Content.objects hcontent) key⟩

namespace retries

/-- A server whose room is to be torn down, with a file. -/
def doomed : World :=
  { World.holding [{ RoomRow.plain with status := .expired }] [] [.plain] with
    storage := AList.insert ['k'] [65, 66, 67, 68, 69] ∅ }

/-- The file records cannot be deleted. -/
def stuck : Cmd → Option Err
  | .sql (.deleteWhere .files _) => some .exception
  | _ => none

/-- The failure is one that the command can have. -/
theorem raises_of_stuck {c : Cmd} {e : Err} (h : stuck c = some e) : c.Raises e := by
  unfold stuck at h
  split at h
  · cases h
    rfl
  · cases h

/-- The world that an attempt leaves that fails when it is to delete the records. -/
def halfway : World :=
  (server.failing stuck).endWorld 0 (Job.roomCleanup (some 0)).handler doomed

end retries

/-- An attempt that fails when it has deleted the object, and one that succeeds. -/
theorem handlers_retry_safe_halfway :
    server.Runs 0 (Job.roomCleanup (some 0)).handler retries.doomed (.error .exception)
      retries.halfway ∧
    retries.halfway.storage.lookup ['k'] = none ∧
    (retries.halfway.db.committed .files 0).map FileRow.status = some .confirmed ∧
    ∃ w', Attempts (.roomCleanup (some 0)) retries.doomed w' ∧
      w'.db.committed .files 0 = none ∧ w'.storage.lookup ['k'] = none := by
  have hfail : server.Runs 0 (Job.roomCleanup (some 0)).handler retries.doomed
      (.error .exception) retries.halfway :=
    ((server.failing retries.stuck).runs_error 0 _ _ (by decide)).of_failing
      fun _ _ => retries.raises_of_stuck
  obtain ⟨⟨⟩, -, hr⟩ := calm.exists_runs_ok 0 (Job.roomCleanup (some 0)).handler retries.halfway
    (fun _ => ()) (b := ()) (by decide)
  obtain ⟨⟨⟩, -, hr₁⟩ := calm.exists_runs_ok 0 (Job.roomCleanup (some 0)).handler retries.doomed
    (fun _ => ()) (b := ()) (by decide)
  have hretried : (Job.roomCleanup (some 0)).Retried := trivial
  have hattempts := Attempts.failure hfail ⟨0, 0, rfl⟩ (.success (server_of_calm hr))
  have hfree : retries.doomed.db.Free := World.holding_free
  obtain ⟨hrows, hobjects⟩ :=
    handlers_retry_safe hretried hfree hattempts (server_of_calm hr₁)
  refine ⟨hfail, by decide, by decide, _, hattempts, (hrows .files 0).trans ?_,
    (hobjects ['k']).trans ?_⟩
  · decide
  · decide

end DropRoom
