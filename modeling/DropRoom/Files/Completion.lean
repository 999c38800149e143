import DropRoom.App.Footprint
import DropRoom.Files.Parts

/-!
# Concurrent completions of one upload

`complete_upload_session` checks that its record is PENDING, lists the staged parts, reads them into
the final object, claims the quota, confirms the record and deletes the parts, in separate steps. Two
requests that have both listed all parts go on independently of each other, and each may undo what
the other has done.

The monitor follows one request. When a request lists all parts only while no other one that has
listed them all is under way (`exclusive`), at most one request at a time is `active`; `Holds` says
what is true of the database and the storage at each of its stages, and everybody else only reads.
-/

namespace DropRoom

open Effect Store uploadService

namespace completion

/-- A pending upload with the row of its room and what may be staged for it at each index, which is
never empty. The first `count` chunks have the size that was declared. -/
structure Upload where
  file : ℕ
  row : FileRow
  roomRow : RoomRow
  chunk : ℕ → Bytes
  count : ℕ
  pending : row.status = .pending
  count_pos : 0 < count
  chunk_ne_nil : ∀ i, chunk i ≠ []
  total : row.total_size_bytes = some (concat chunk count).length

namespace Upload

variable (t : Upload)

/-- The storage key of the upload. -/
abbrev key : Uuid := t.row.storage_key

/-- The concatenation of the chunks. -/
def data : Bytes := concat t.chunk t.count

/-- The record once it is confirmed. -/
def confirmedRow : FileRow := { t.row with
  content_type := some (magic.normalizeContentType (t.data.take chunkSize) t.row.content_type)
  size_bytes := t.data.length
  status := .confirmed }

/-- The room once its quota is claimed. -/
def claimedRow : RoomRow := { t.roomRow with
  storage_used_bytes := t.roomRow.storage_used_bytes + t.data.length
  file_count := t.roomRow.file_count + 1 }

/-- The update that claims the quota. -/
def claim (env : Env) : RoomUpdate :=
  .claimQuota t.data.length env.max_files_per_room env.max_room_storage_bytes

/-- The confirmed record differs from the pending one. -/
theorem confirmedRow_ne : t.confirmedRow ≠ t.row := by
  intro h
  have hs := congrArg FileRow.status h
  rw [t.pending] at hs
  cases hs

/-- Flushing the confirmed record over the pending one gives the confirmed one. -/
theorem set_flush : FileUpdate.set (.flush t.row t.confirmedRow) t.row = t.confirmedRow :=
  FileRow.flush_self t.row t.confirmedRow

end Upload

/-! ## The protocol of a request -/

/-- How far a request for the first `m` chunks has come: it is about to read the record, it has
found it PENDING, it has listed its parts and read some, it has written the object, has read it
back, has claimed the quota, has confirmed the record and deleted some parts, is committed, has
given up, or has nothing more to do. The stage `broken` is entered when a command is answered as it
cannot be. -/
inductive Stage
  | fresh (m : ℕ) | loaded (m : ℕ) | reading (m parts : ℕ) | wrote (m : ℕ) | assembled (m : ℕ)
  | claimed | deleting (parts : ℕ) | won | refused | over | broken
  deriving DecidableEq

/-- The request has listed its parts and is under way. -/
def Stage.underway : Stage → Bool
  | .reading .. | .wrote _ | .assembled _ | .claimed | .deleting _ | .refused => true
  | _ => false

/-- The request is under way or committed. -/
def Stage.active : Stage → Bool
  | .won => true
  | s => s.underway

/-- A request that is active and no longer underway has won. -/
theorem Stage.won_of_active {st : Stage} (h : st.active = true) (h' : st.underway = false) :
    st = .won := by
  cases st <;> first | rfl | exact absurd (h.symm.trans h') (by decide)

/-- The rows that `_pending_session` reads. -/
def byId (file_id : ℤ) : ℕ → FileRow → Bool := fun i _ => (i : ℤ) == file_id

/-- The commands of a request, by its stage. -/
inductive Allowed (env : Env) (t : Upload) : Stage → Cmd → Prop
  | find (m : ℕ) : Allowed env t (.fresh m) (.sql (.select .files (byId t.file)))
  | list (m : ℕ) : Allowed env t (.loaded m) (.listKeys (partPrefix t.key))
  | giveUp (m : ℕ) : Allowed env t (.loaded m) (.sql .rollback)
  | readPart {m j : ℕ} (hj : j < m) : Allowed env t (.reading m j) (.getStream (partKey t.key j))
  | write (m j : ℕ) : Allowed env t (.reading m j) (.put t.key.text (.ok (concat t.chunk m)))
  | readBack (m : ℕ) : Allowed env t (.wrote m) (.getStream t.key.text)
  | discard (m : ℕ) : Allowed env t (.assembled m) (.deleteObject t.key.text)
  | claim : Allowed env t (.assembled t.count) (.sql (.updateAt .rooms t.row.room_id (t.claim env)))
  | confirm : Allowed env t .claimed (.sql (.updateAt .files t.file (.flush t.row t.confirmedRow)))
  | audit (j : ℕ) (event : AuditEventRow) :
      Allowed env t (.deleting j) (.sql (.insert .auditEvents event))
  | deletePart (j : ℕ) : Allowed env t (.deleting j) (.deleteObject (partKey t.key j))
  | commit {j : ℕ} (hj : 0 < j) : Allowed env t (.deleting j) (.sql .commit)
  | deleteObject (key : Key) : Allowed env t .refused (.deleteObject key)
  | refuse : Allowed env t .refused (.sql .rollback)
  | won {c : Cmd} (hc : Issued env [.close] c) : Allowed env t .won c
  | ended {c : Cmd} (hc : Issued env [.close] c) : Allowed env t .over c
  | broken (c : Cmd) : Allowed env t .broken c

/-- The stage after a command was answered. -/
def next (t : Upload) : Stage → (c : Cmd) → Except Err (Resp c) → Stage
  | .fresh m, .sql (.select .files _), .ok rows =>
    if rows = [(t.file, t.row)] then .loaded m
    else if rows = [(t.file, t.confirmedRow)] then .over else .broken
  | .loaded m, .listKeys _, .ok keys =>
    if missing keys m ≠ [] then .over
    else if parts keys m = (List.range m).map (partKey t.key) then .reading m 0 else .broken
  | .loaded _, .sql .rollback, _ => .over
  | .reading m j, .getStream _, .ok part =>
    if part = t.chunk j then .reading m (j + 1) else .broken
  | .reading m _, .put _ _, .ok total =>
    if total = (concat t.chunk m).length then .wrote m else .broken
  | .wrote m, .getStream _, .ok stream =>
    if stream = concat t.chunk m then .assembled m else .broken
  | .assembled _, .deleteObject _, .ok _ => .refused
  | .assembled _, .sql (.updateAt .rooms _ _), .ok ok => if ok then .claimed else .refused
  | .claimed, .sql (.updateAt .files _ _), .ok true => .deleting 0
  | .deleting j, .sql (.insert .auditEvents _), .ok _ => .deleting j
  | .deleting j, .deleteObject _, .ok _ => .deleting (j + 1)
  | .deleting _, .sql .commit, .ok _ => .won
  | .refused, .deleteObject _, .ok _ => .refused
  | .refused, .sql .rollback, _ => .over
  | .won, _, _ => .won
  | .over, _, _ => .over
  | _, _, _ => .broken

/-- The protocol of the requests that complete an upload. -/
def monitor (env : Env) (t : Upload) : Monitor Cmd Resp Err Stage := ⟨Allowed env t, next t⟩

/-- The command lists keys. -/
def lists : Cmd → Bool
  | .listKeys _ => true
  | _ => false

/-- The number of parts that a request asks for, until it has listed them. -/
def Stage.asks : Stage → Option ℕ
  | .fresh m | .loaded m => some m
  | _ => none

/-- A request whose listing finds all parts that it asks for lists only while no other such request
is under way. -/
def exclusive (t : Upload) (n : ℕ) : Guard Cmd World Stage := fun p c w φ =>
  lists c = true → (∀ m ∈ (φ p).asks, missing (w.storage.listKeys (partPrefix t.key)) m = []) →
    ∀ q < n, (φ q).underway = false

/-- Whether a completion may list the parts is decided. -/
instance (t : Upload) (n p : ℕ) (c : Cmd) (w : World) (φ : ℕ → Stage) :
    Decidable (exclusive t n p c w φ) :=
  inferInstanceAs (Decidable (_ → _ → _))

/-! ## What holds at each stage -/

/-- The part keys in storage hold the chunks of the upload. -/
structure Parts (t : Upload) (s : Storage) : Prop where
  only : OnlyParts s t.key
  chunk : ∀ i part, s.lookup (partKey t.key i) = some part → part = t.chunk i

/-- Nothing is claimed or confirmed. -/
structure Rest (t : Upload) (w : World) : Prop where
  parts : Parts t w.storage
  room : w.db.cell .rooms t.row.room_id = ⟨some t.roomRow, none⟩
  file : w.db.cell .files t.file = ⟨some t.row, none⟩

/-- What is true of the world while request `p` is in a stage. -/
def Holds (t : Upload) (p : ℕ) : Stage → World → Prop
  | .reading m _, w => Rest t w ∧
      ∀ i < m, w.storage.lookup (partKey t.key i) = some (t.chunk i)
  | .wrote m, w => Rest t w ∧ w.storage.lookup t.key.text = some (concat t.chunk m)
  | .assembled m, w => Rest t w ∧ w.storage.lookup t.key.text = some (concat t.chunk m)
  | .refused, w => Rest t w
  | .claimed, w => Parts t w.storage ∧
      w.db.cell .rooms t.row.room_id = ⟨some t.roomRow, some (p, some t.claimedRow)⟩ ∧
      w.db.cell .files t.file = ⟨some t.row, none⟩ ∧
      w.storage.lookup t.key.text = some t.data
  | .deleting j, w => Parts t w.storage ∧
      w.db.cell .rooms t.row.room_id = ⟨some t.roomRow, some (p, some t.claimedRow)⟩ ∧
      w.db.cell .files t.file = ⟨some t.row, some (p, some t.confirmedRow)⟩ ∧
      w.storage.lookup t.key.text = some t.data ∧
      ∀ i < j, w.storage.lookup (partKey t.key i) = none
  | .won, w => Parts t w.storage ∧
      w.db.cell .rooms t.row.room_id = ⟨some t.claimedRow, none⟩ ∧
      w.db.cell .files t.file = ⟨some t.confirmedRow, none⟩ ∧
      w.storage.lookup t.key.text = some t.data ∧
      w.storage.lookup (partKey t.key 0) = none
  | _, _ => False

variable {t : Upload} {s : Storage} {w w' : World} {p q : ℕ}

/-- Writing the object of an upload leaves its parts. -/
theorem Parts.put (h : Parts t s) (data : Bytes) : Parts t (s.insert t.key.text data) where
  only key hk hp := by
    rcases AList.mem_insert _ |>.1 (AList.mem_keys.2 hk) with rfl | hk
    · exact absurd hp (not_partPrefix_isPrefix _ _)
    · exact h.only key (AList.mem_keys.1 hk) hp
  chunk i part hl := by
    rw [AList.lookup_insert_ne (text_ne_partKey t.key t.key i).symm] at hl
    exact h.chunk i part hl

/-- Deleting objects leaves no other parts. -/
theorem Parts.erase (h : Parts t s) (key : Key) : Parts t (s.erase key) where
  only key' hk hp := by
    exact h.only key' (AList.mem_keys.1 (AList.mem_erase.1 (AList.mem_keys.2 hk)).2) hp
  chunk i part hl := by
    by_cases hk : partKey t.key i = key
    · rw [hk, AList.lookup_erase] at hl
      cases hl
    · rw [AList.lookup_erase_ne hk] at hl
      exact h.chunk i part hl

/-- What a stage needs of the world is the storage and the two rows. -/
theorem Rest.congr (h : Rest t w) (hs : w'.storage = w.storage)
    (hr : w'.db.cell .rooms t.row.room_id = w.db.cell .rooms t.row.room_id)
    (hf : w'.db.cell .files t.file = w.db.cell .files t.file) : Rest t w' :=
  ⟨hs ▸ h.parts, hr.trans h.room, hf.trans h.file⟩

/-- What a stage says depends on the storage and two rows only. -/
theorem Holds.congr {st : Stage} (h : Holds t p st w) (hs : w'.storage = w.storage)
    (hr : w'.db.cell .rooms t.row.room_id = w.db.cell .rooms t.row.room_id)
    (hf : w'.db.cell .files t.file = w.db.cell .files t.file) : Holds t p st w' := by
  cases st with
  | reading m j => exact ⟨h.1.congr hs hr hf, by rw [hs]; exact h.2⟩
  | wrote m => exact ⟨h.1.congr hs hr hf, by rw [hs]; exact h.2⟩
  | assembled m => exact ⟨h.1.congr hs hr hf, by rw [hs]; exact h.2⟩
  | refused => exact Rest.congr h hs hr hf
  | claimed =>
    simp only [Holds, hs, hr, hf] at h ⊢
    exact h
  | deleting j =>
    simp only [Holds, hs, hr, hf] at h ⊢
    exact h
  | won =>
    simp only [Holds, hs, hr, hf] at h ⊢
    exact h
  | _ => exact h.elim

variable {env : Env} {c : Cmd} {x : Except Err (Resp c)} {st : Stage}

/-- Where a command of an active request leads: to another active stage, or to the end of a request
that has changed nothing. -/
def Leads (t : Upload) (p : ℕ) (st : Stage) (w : World) : Prop :=
  (st.active = true ∧ Holds t p st w) ∨ (st = .over ∧ Rest t w)

/-- A step to a stage in which the request holds the record. -/
theorem Leads.active {st r : Stage} (hn : st = r) (ha : r.active = true)
    (h : Holds t p r w) : Leads t p st w := by
  subst hn
  exact .inl ⟨ha, h⟩

/-- A step to the end without success. -/
theorem Leads.over {st : Stage} (hn : st = .over) (h : Rest t w) : Leads t p st w :=
  .inr ⟨hn, h⟩

section

/-- The `UPDATE` that claims the quota. -/
theorem Holds.claim (h : Holds t p (.assembled t.count) w)
    {x : Except Err (Resp (.sql (.updateAt .rooms t.row.room_id (t.claim env))))}
    (hx : reliable.Answer p (.sql (.updateAt .rooms t.row.room_id (t.claim env))) w x w') :
    Leads t p (next t (.assembled t.count) _ x) w' := by
  obtain ⟨b, db, hq, rfl, rfl⟩ := reliable_sql hx
  rcases Tables.updateAt_cases hq with ⟨rfl, rfl, -⟩ | ⟨rfl, r, hr, -, -, rfl⟩
  · exact .active (r := .refused) rfl rfl h.1
  · have hcell := h.1.room
    obtain rfl : r = t.roomRow := by
      rw [Tables.get, hcell] at hr
      exact (Option.some.inj hr).symm
    refine .active (r := .claimed) rfl rfl ⟨h.1.parts, ?_, ?_, h.2⟩
    · rw [Tables.cell_setCell_self (Tables.lt_length_of_get hr), hcell]
      rfl
    · exact (Tables.cell_setCell_of_table (by decide)).trans h.1.file

/-- The flush that confirms the record. -/
theorem Holds.confirm (h : Holds t p .claimed w)
    {x : Except Err (Resp (.sql (.updateAt .files t.file (.flush t.row t.confirmedRow))))}
    (hx : reliable.Answer p (.sql (.updateAt .files t.file (.flush t.row t.confirmedRow))) w x w') :
    Leads t p (next t .claimed _ x) w' := by
  obtain ⟨b, db, hq, rfl, rfl⟩ := reliable_sql hx
  obtain ⟨hparts, hroom, hfile, hdata⟩ := h
  have hget : w.db.get p .files t.file = some t.row := by rw [Tables.get, hfile]; rfl
  rcases Tables.updateAt_cases hq with ⟨rfl, rfl, hr⟩ | ⟨rfl, r, hr, -, -, rfl⟩
  · exact absurd (hr _ hget) Bool.true_eq_false.mp
  · obtain rfl : r = t.row := Option.some.inj (hr.symm.trans hget)
    refine .active (r := .deleting 0) rfl rfl
      ⟨hparts, ?_, ?_, hdata, fun i hi => absurd hi (Nat.not_lt_zero i)⟩
    · exact (Tables.cell_setCell_of_table (by decide)).trans hroom
    · rw [Tables.cell_setCell_self (Tables.lt_length_of_get hr), hfile]
      exact congrArg (fun r => (⟨some t.row, some (p, some r)⟩ : Cell FileRow)) t.set_flush

/-- One more part is deleted. -/
theorem Holds.deletePart {j : ℕ} (h : Holds t p (.deleting j) w)
    {x : Except Err (Resp (.deleteObject (partKey t.key j)))}
    (hx : reliable.Answer p (.deleteObject (partKey t.key j)) w x w') :
    Leads t p (next t (.deleting j) _ x) w' := by
  cases reliable_exec hx
  obtain ⟨hparts, hroom, hfile, hdata, hgone⟩ := h
  refine .active (r := .deleting (j + 1)) rfl rfl
    ⟨hparts.erase _, hroom, hfile, ?_, fun i hi => ?_⟩
  · exact (AList.lookup_erase_ne (text_ne_partKey _ _ _)).trans hdata
  · by_cases hij : partKey t.key i = partKey t.key j
    · rw [hij]
      exact AList.lookup_erase _ _
    · refine (AList.lookup_erase_ne hij).trans (hgone i ?_)
      have hne : i ≠ j := fun h => hij (h ▸ rfl)
      omega

/-- The commit of a request that has deleted a part. -/
theorem Holds.commit {j : ℕ} (h : Holds t p (.deleting j) w) (hj : 0 < j)
    {x : Except Err (Resp (.sql .commit))} (hx : reliable.Answer p (.sql .commit) w x w') :
    Leads t p (next t (.deleting j) _ x) w' := by
  obtain ⟨u, db, hq, rfl, rfl⟩ := reliable_sql hx
  cases hq
  obtain ⟨hparts, hroom, hfile, hdata, hgone⟩ := h
  refine .active (r := .won) rfl rfl ⟨hparts, ?_, ?_, hdata, hgone 0 hj⟩
  · rw [Tables.cell_commit, hroom]
    exact Cell.commit_of_lock rfl
  · rw [Tables.cell_commit, hfile]
    exact Cell.commit_of_lock rfl

/-- The end of a request that gives up. -/
theorem Holds.refuse (h : Holds t p .refused w) {x : Except Err (Resp (.sql .rollback))}
    (hx : reliable.Answer p (.sql .rollback) w x w') : Leads t p (next t .refused _ x) w' := by
  obtain ⟨u, db, hq, rfl, rfl⟩ := reliable_sql hx
  cases hq
  refine .over rfl ⟨h.parts, ?_, ?_⟩
  · rw [Tables.cell_rollback, h.room]
    rfl
  · rw [Tables.cell_rollback, h.file]
    rfl

/-- What a committed request still does. -/
theorem Holds.rest (h : Holds t p .won w) (hc : Issued env [.close] c)
    (hx : reliable.Answer p c w x w') : Leads t p (next t .won c x) w' := by
  obtain ⟨hs, hcell⟩ := Issued.frame reliable_faithful hc hx
  have hw := h
  obtain ⟨-, hroom, hfile, -⟩ := hw
  refine .active (r := .won) rfl rfl (h.congr hs (hcell _ _ ?_) (hcell _ _ ?_))
  · rw [hroom]
    rintro v ⟨⟩
  · rw [hfile]
    rintro v ⟨⟩

/-- Every command of the active request does what its stage says. -/
theorem Holds.step (h : Holds t p st w) (ha : Allowed env t st c)
    (hx : reliable.Answer p c w x w') : Leads t p (next t st c x) w' := by
  cases ha with
  | @readPart m j hj =>
    cases reliable_exec hx
    have hpart : (w.storage.lookup (partKey t.key j)).getD [] = t.chunk j := by
      rw [h.2 j hj]
      rfl
    exact .active (r := .reading m (j + 1)) (if_pos hpart) rfl h
  | write m j =>
    cases reliable_exec hx
    exact .active (r := .wrote m) (if_pos rfl) rfl
      ⟨⟨h.1.parts.put _, h.1.room, h.1.file⟩, AList.lookup_insert _⟩
  | readBack m =>
    cases reliable_exec hx
    exact .active (r := .assembled m) (if_pos (by rw [h.2]; rfl)) rfl h
  | discard m =>
    -- The size is not the declared one, or the content is refused.
    cases reliable_exec hx
    exact .active (r := .refused) rfl rfl ⟨h.1.parts.erase _, h.1.room, h.1.file⟩
  | claim => exact h.claim hx
  | confirm => exact h.confirm hx
  | audit j event =>
    obtain ⟨i, db, hq, rfl, rfl⟩ := reliable_sql hx
    exact .active (r := .deleting j) rfl rfl (h.congr rfl
      (reliable_faithful.cell_of_spares hx (by decide : Table.auditEvents ≠ .rooms))
      (reliable_faithful.cell_of_spares hx (by decide : Table.auditEvents ≠ .files)))
  | deletePart j => exact h.deletePart hx
  | commit hj => exact h.commit hj hx
  | deleteObject key =>
    cases reliable_exec hx
    exact .active (r := .refused) rfl rfl ⟨h.parts.erase _, h.room, h.file⟩
  | refuse => exact h.refuse hx
  | won hc => exact h.rest hc hx
  | _ => exact h.elim

end

/-! ## The invariant -/

/-- What a request that is not active sees: part keys with the right contents, and a record that it
has not locked. -/
structure Bystander (t : Upload) (q : ℕ) (w : World) : Prop where
  parts : Parts t w.storage
  room : ∀ v, (w.db.cell .rooms t.row.room_id).lock ≠ some (q, v)
  file : ∀ v, (w.db.cell .files t.file).lock ≠ some (q, v)
  row : w.db.committed .files t.file = some t.row ∨
    w.db.committed .files t.file = some t.confirmedRow

/-- At rest every request may be looking on. -/
theorem Rest.bystander (h : Rest t w) (q : ℕ) : Bystander t q w where
  parts := h.parts
  room v hv := by rw [h.room] at hv; cases hv
  file v hv := by rw [h.file] at hv; cases hv
  row := .inl (by rw [Tables.committed, h.file])

/-- While one request holds the record, the others look on. -/
theorem Holds.bystander (h : Holds t p st w) (hq : q ≠ p) : Bystander t q w := by
  cases st with
  | reading m j => exact h.1.bystander q
  | wrote m => exact h.1.bystander q
  | assembled m => exact h.1.bystander q
  | refused => exact Rest.bystander h q
  | claimed =>
    obtain ⟨hparts, hroom, hfile, -⟩ := h
    refine ⟨hparts, fun v hv => ?_, fun v hv => ?_, .inl (by rw [Tables.committed, hfile])⟩
    · rw [hroom] at hv
      cases hv
      exact hq rfl
    · rw [hfile] at hv
      cases hv
  | deleting j =>
    obtain ⟨hparts, hroom, hfile, -⟩ := h
    refine ⟨hparts, fun v hv => ?_, fun v hv => ?_, .inl (by rw [Tables.committed, hfile])⟩
    · rw [hroom] at hv
      cases hv
      exact hq rfl
    · rw [hfile] at hv
      cases hv
      exact hq rfl
  | won =>
    obtain ⟨hparts, hroom, hfile, -⟩ := h
    refine ⟨hparts, fun v hv => ?_, fun v hv => ?_, .inr (by rw [Tables.committed, hfile])⟩
    · rw [hroom] at hv
      cases hv
    · rw [hfile] at hv
      cases hv
  | _ => exact h.elim

/-- Parts that are listed are there. -/
theorem Parts.lookup_eq {m : ℕ} (h : Parts t s)
    (hm : missing (s.listKeys (partPrefix t.key)) m = []) {i : ℕ} (hi : i < m) :
    s.lookup (partKey t.key i) = some (t.chunk i) := by
  cases hl : s.lookup (partKey t.key i) with
  | some part => rw [h.chunk i part hl]
  | none =>
    have hmem := h.only.mem_missing.2 ⟨hi, hl⟩
    rw [hm] at hmem
    cases hmem

/-- What a command of a request that is not active does: nothing, except that the request may become
active by listing all parts. -/
structure Looks (t : Upload) (c : Cmd) (st st' : Stage) (w w' : World) : Prop where
  storage : w'.storage = w.storage
  room : w'.db.cell .rooms t.row.room_id = w.db.cell .rooms t.row.room_id
  file : w'.db.cell .files t.file = w.db.cell .files t.file
  stage : (st'.active = false ∧ st' ≠ .broken ∧ (st = .over → st' = .over)) ∨
    ∃ m, st' = .reading m 0 ∧ st = .loaded m ∧ lists c = true ∧
      missing (w.storage.listKeys (partPrefix t.key)) m = []

/-- A request reads the record. -/
theorem Bystander.find (h : Bystander t p w) {m : ℕ}
    {x : Except Err (Resp (.sql (.select .files (byId t.file))))}
    (hx : reliable.Answer p (.sql (.select .files (byId t.file))) w x w') :
    Looks t (.sql (.select .files (byId t.file))) (.fresh m) (next t (.fresh m) _ x) w w' := by
  obtain ⟨rows, db, hq, rfl, rfl⟩ := reliable_sql hx
  cases hq
  refine ⟨rfl, rfl, rfl, .inl ?_⟩
  have hget : w.db.get p .files t.file = w.db.committed .files t.file := Cell.view_of_ne h.file
  have hrows : ∀ r, w.db.committed .files t.file = some r →
      w.db.select p .files (byId t.file) = [(t.file, r)] := by
    intro r hr
    refine Tables.select_eq_singleton (hget.trans hr) (by simp [byId]) fun i r _ hw => ?_
    exact Int.ofNat_inj.1 (eq_of_beq hw)
  rcases h.row with hr | hr
  · have hn : next t (.fresh m) (.sql (.select .files (byId t.file)))
        (.ok (w.db.select p .files (byId t.file))) = .loaded m := if_pos (hrows _ hr)
    rw [hn]
    exact ⟨rfl, Stage.noConfusion, Stage.noConfusion⟩
  · have hn : next t (.fresh m) (.sql (.select .files (byId t.file)))
        (.ok (w.db.select p .files (byId t.file))) = .over := by
      refine (if_neg fun he => t.confirmedRow_ne ?_).trans (if_pos (hrows _ hr))
      rw [hrows _ hr] at he
      simpa using he
    rw [hn]
    exact ⟨rfl, by decide, fun h => nomatch h⟩

/-- A request lists its parts. -/
theorem Bystander.list (h : Bystander t p w) {m : ℕ}
    {x : Except Err (Resp (.listKeys (partPrefix t.key)))}
    (hx : reliable.Answer p (.listKeys (partPrefix t.key)) w x w') :
    Looks t (.listKeys (partPrefix t.key)) (.loaded m) (next t (.loaded m) _ x) w w' := by
  cases reliable_exec hx
  refine ⟨rfl, rfl, rfl, ?_⟩
  by_cases hm : missing (w.storage.listKeys (partPrefix t.key)) m = []
  · have hn : next t (.loaded m) (.listKeys (partPrefix t.key))
        (.ok (w.storage.listKeys (partPrefix t.key))) = .reading m 0 :=
      (if_neg (not_not.2 hm)).trans (if_pos (h.parts.only.parts_eq hm))
    exact .inr ⟨m, hn, rfl, rfl, hm⟩
  · have hn : next t (.loaded m) (.listKeys (partPrefix t.key))
        (.ok (w.storage.listKeys (partPrefix t.key))) = .over := if_pos hm
    rw [hn]
    exact .inl ⟨rfl, by decide, fun _ => rfl⟩

/-- A command of a request that is not active. -/
theorem Bystander.step (h : Bystander t p w) (hst : st.active = false) (hb : st ≠ .broken)
    (ha : Allowed env t st c) (hx : reliable.Answer p c w x w') :
    Looks t c st (next t st c x) w w' := by
  cases ha with
  | find m => exact h.find hx
  | list m => exact h.list hx
  | giveUp m =>
    obtain ⟨-, rfl⟩ := reliable_faithful.rollback hx
    have hn : next t (.loaded m) (.sql .rollback) x = .over := rfl
    rw [hn]
    exact ⟨rfl, (Tables.cell_rollback _ _).trans (Cell.rollback_of_ne h.room),
      (Tables.cell_rollback _ _).trans (Cell.rollback_of_ne h.file),
      .inl ⟨rfl, by decide, fun _ => rfl⟩⟩
  | ended hc =>
    obtain ⟨hs, hcell⟩ := Issued.frame reliable_faithful hc hx
    have hn : next t .over c x = .over := rfl
    rw [hn]
    exact ⟨hs, hcell _ _ h.room, hcell _ _ h.file, .inl ⟨rfl, by decide, fun _ => rfl⟩⟩
  | broken => exact absurd rfl hb
  | _ => cases hst

/-- A request goes on asking for what it has asked for. -/
theorem mem_asks_of_next {m : ℕ} (h : m ∈ (next t st c x).asks) : m ∈ st.asks := by
  unfold next at h
  split at h <;> (try split_ifs at h) <;> first | exact h | cases h

/-- The invariant of `n` requests that complete an upload: nobody is active and nothing is claimed,
or one request is active and what its stage says holds. -/
structure Inv (n : ℕ) (t : Upload) (w : World) (φ : ℕ → Stage) : Prop where
  world : ((∀ q, (φ q).active = false) ∧ Rest t w) ∨
    ∃ p, (φ p).active = true ∧ (∀ q ≠ p, (φ q).active = false) ∧ Holds t p (φ p) w
  whole : ∀ q, φ q ≠ .broken
  bound : ∀ q, φ q ≠ .over → q < n
  asks : ∀ q, ∀ m ∈ (φ q).asks, 0 < m

variable {n : ℕ} {φ : ℕ → Stage}

/-- A request that is not active is a bystander. -/
theorem Inv.bystander (I : Inv n t w φ) (hp : (φ p).active = false) : Bystander t p w := by
  rcases I.world with ⟨-, hr⟩ | ⟨q, hq, -, hh⟩
  · exact hr.bystander p
  · refine hh.bystander fun hpq => ?_
    rw [hpq, hq] at hp
    cases hp

/-- The active request is alone active. -/
theorem Inv.solo (I : Inv n t w φ) (hp : (φ p).active = true) :
    (∀ q ≠ p, (φ q).active = false) ∧ Holds t p (φ p) w := by
  rcases I.world with ⟨hnone, -⟩ | ⟨p', hp', hsolo, hh⟩
  · rw [hnone p] at hp
    cases hp
  · obtain rfl : p = p' := by
      by_contra hne
      rw [hsolo p hne] at hp
      cases hp
    exact ⟨hsolo, hh⟩

/-- Listing all parts finds nobody active: no other request is under way, and a committed one has
deleted a part. -/
theorem Inv.nobody (I : Inv n t w φ) (hp : (φ p).active = false) {m : ℕ} (hload : φ p = .loaded m)
    (hlist : lists c = true) (hm : missing (w.storage.listKeys (partPrefix t.key)) m = [])
    (hok : exclusive t n p c w φ) : (∀ q, (φ q).active = false) ∧ Rest t w := by
  rcases I.world with hw | ⟨p', hp', -, hh⟩
  · exact hw
  · exfalso
    have hlisted : ∀ m ∈ (φ p).asks, missing (w.storage.listKeys (partPrefix t.key)) m = [] := by
      rw [hload]
      rintro m' ⟨⟩
      exact hm
    have hunder := hok hlist hlisted p' (I.bound p' fun h => by rw [h] at hp'; cases hp')
    have hwon : φ p' = .won := Stage.won_of_active hp' hunder
    rw [hwon] at hh
    have hpart := (I.bystander hp).parts.lookup_eq hm (I.asks p m (by rw [hload]; rfl))
    rw [hh.2.2.2.2] at hpart
    cases hpart

section

variable {st' : Stage}

/-- The number of parts that a request asks for stays positive. -/
theorem Inv.asks_next (I : Inv n t w φ) :
    ∀ q, ∀ m ∈ (Function.update φ p (next t (φ p) c x) q).asks, 0 < m :=
  (Function.forall_update_iff φ fun _ st => ∀ m ∈ st.asks, 0 < m).2
    ⟨fun m hm => I.asks p m (mem_asks_of_next hm), fun q _ => I.asks q⟩

/-- A process that goes on leaves the others as they are. -/
theorem active_update (hother : ∀ q ≠ p, (φ q).active = false) :
    ∀ q ≠ p, (Function.update φ p st' q).active = false := by
  intro q hq
  rw [Function.update_of_ne hq]
  exact hother q hq

/-- When nobody else is active and the process is not either, nobody is. -/
theorem none_active (hp : st'.active = false) (hother : ∀ q ≠ p, (φ q).active = false) (q : ℕ) :
    (Function.update φ p st' q).active = false := by
  by_cases hq : q = p
  · rwa [hq, Function.update_self]
  · exact active_update hother q hq

end

/-- The active request goes on. -/
theorem Inv.step_active (I : Inv n t w φ) (hp : (φ p).active = true)
    (ha : Allowed env t (φ p) c) (hx : reliable.Answer p c w x w') :
    Inv n t w' (Function.update φ p (next t (φ p) c x)) := by
  have hbound : p < n := I.bound p fun h => by rw [h] at hp; cases hp
  obtain ⟨hsolo, hh⟩ := I.solo hp
  have hlead := hh.step ha hx
  refine ⟨?_, ?_, ?_, I.asks_next⟩
  · rcases hlead with ⟨hact, hh'⟩ | ⟨hover, hr⟩
    · refine .inr ⟨p, ?_, active_update hsolo, ?_⟩
      · rwa [Function.update_self]
      · rwa [Function.update_self]
    · exact .inl ⟨none_active (by rw [hover]; rfl) hsolo, hr⟩
  · refine (Function.forall_update_iff φ fun _ st => st ≠ .broken).2 ⟨?_, fun q _ => I.whole q⟩
    rcases hlead with ⟨hact, -⟩ | ⟨hover, -⟩
    · rintro hb
      rw [hb] at hact
      cases hact
    · rw [hover]
      decide
  · exact (Function.forall_update_iff φ fun q st => st ≠ .over → q < n).2
      ⟨fun _ => hbound, fun q _ => I.bound q⟩

/-- A request that is not active looks on, or lists all parts and becomes active. -/
theorem Inv.step_looks (I : Inv n t w φ) (hp : (φ p).active = false)
    (ha : Allowed env t (φ p) c) (hok : exclusive t n p c w φ)
    (hx : reliable.Answer p c w x w') :
    Inv n t w' (Function.update φ p (next t (φ p) c x)) := by
  have hlook := (I.bystander hp).step hp (I.whole p) ha hx
  refine ⟨?_, ?_, ?_, I.asks_next⟩
  -- Either the request stays outside, or it is the one that has listed the parts of a pending
  -- record.
  · rcases hlook.stage with ⟨hact, -, -⟩ | ⟨m, hn, hload, hlist, hm⟩
    · rcases I.world with ⟨hnone, hr⟩ | ⟨p', hp', hsolo, hh⟩
      · exact .inl ⟨none_active hact fun q _ => hnone q,
          hr.congr hlook.storage hlook.room hlook.file⟩
      · have hne : p' ≠ p := by
          rintro rfl
          rw [hp] at hp'
          cases hp'
        refine .inr ⟨p', ?_, fun q hq => ?_, ?_⟩
        · rwa [Function.update_of_ne hne]
        · by_cases hqp : q = p
          · rwa [hqp, Function.update_self]
          · rw [Function.update_of_ne hqp]
            exact hsolo q hq
        · rw [Function.update_of_ne hne]
          exact hh.congr hlook.storage hlook.room hlook.file
    -- Nobody else was inside, so this one goes in alone.
    · obtain ⟨hnone, hrest⟩ := I.nobody hp hload hlist hm hok
      refine .inr ⟨p, ?_, active_update fun q _ => hnone q, ?_⟩
      · rw [Function.update_self, hn]
        rfl
      · rw [Function.update_self, hn]
        refine ⟨hrest.congr hlook.storage hlook.room hlook.file, fun i hi => ?_⟩
        rw [hlook.storage]
        exact (I.bystander hp).parts.lookup_eq hm hi
  · refine (Function.forall_update_iff φ fun _ st => st ≠ .broken).2 ⟨?_, fun q _ => I.whole q⟩
    rcases hlook.stage with ⟨-, hb, -⟩ | ⟨m, hn, -⟩
    · exact hb
    · rw [hn]
      exact fun h => nomatch h
  · refine (Function.forall_update_iff φ fun q st => st ≠ .over → q < n).2
      ⟨fun h => I.bound p fun hover => ?_, fun q _ => I.bound q⟩
    rcases hlook.stage with ⟨-, -, hstay⟩ | ⟨m, -, hload, -⟩
    · exact h (hstay hover)
    · rw [hload] at hover
      cases hover

/-- An exclusive step of a request keeps the invariant. -/
theorem Inv.step (I : Inv n t w φ) (ha : Allowed env t (φ p) c) (hok : exclusive t n p c w φ)
    (hx : reliable.Answer p c w x w') :
    Inv n t w' (Function.update φ p (next t (φ p) c x)) := by
  by_cases hp : (φ p).active = true
  · exact I.step_active hp ha hx
  · exact I.step_looks ((Bool.not_eq_true _).mp hp) ha hok hx

/-! ## The requests keep to the protocol -/

section

variable {α : Type} {room : Room} {actor : SessionRecord} {body : uploads.UploadSessionComplete}

/-- What has left the order of the stages stays out of it. -/
theorem sink : (monitor env t).Sink .broken := ⟨.broken, fun _ _ => rfl⟩

/-- Reading, and closing the database session, keep a stage in which there is nothing more to
do. -/
theorem over_wp {prog : Op α} (h : prog.Only (Issued env [.close]))
    (hs : st = .over ∨ st = .won) :
    prog.wp (monitor env t).trans (fun _ s' => s' = st) st := by
  refine h.wp (M := monitor env t) (I := fun s' => s' = st) (fun c s' hc hs' => ?_) rfl
  subst hs'
  rcases hs with rfl | rfl
  · exact ⟨.ended hc, fun _ => rfl⟩
  · exact ⟨.won hc, fun _ => rfl⟩

/-- Reading the parts from index `j` on yields the chunks from there on. -/
theorem merged_wp (env : Env) (t : Upload) (m j : ℕ) (hj : j ≤ m) :
    (merged (((List.range m).drop j).map (partKey t.key))).wp (monitor env t).trans
      (Monitor.orSink .broken fun x s =>
        s = .reading m m ∧ x = .ok (((List.range m).drop j).map t.chunk).flatten)
      (.reading m j) := by
  obtain ⟨k, hk⟩ := Nat.exists_eq_add_of_le hj
  induction k generalizing j with
  | zero =>
    obtain rfl : m = j := hk
    rw [List.drop_eq_nil_of_le (by simp)]
    exact .inr ⟨rfl, rfl⟩
  | succ k ih =>
    have hlt : j < m := by omega
    rw [List.drop_eq_getElem_cons (by simpa using hlt), List.getElem_range]
    refine wp_then sink (.readPart hlt) (fun part => ?_) fun e => .inl rfl
    by_cases hp : part = t.chunk j
    · have hn : (monitor env t).next (.reading m j) (.getStream (partKey t.key j)) (.ok part) =
          .reading m (j + 1) := if_pos hp
      rw [hn]
      refine .inr (sink.bind (ih (j + 1) hlt (by omega)) ?_ ?_)
      · rintro rest s ⟨rfl, hr⟩
        cases hr
        exact .inr ⟨rfl, by rw [List.map_cons, List.flatten_cons, hp]⟩
      · rintro e s ⟨-, hr⟩
        cases hr
    · exact .inl (if_neg hp)

/-- Assembling the object writes the chunks and reads their beginning back. -/
theorem assemble_wp (m : ℕ) :
    (assemble t.key ((List.range m).map (partKey t.key))).wp (monitor env t).trans
      (Monitor.orSink .broken fun x s => s = .assembled m ∧
        x = .ok ((concat t.chunk m).length, (concat t.chunk m).take chunkSize))
      (.reading m 0) := by
  have hmerged := merged_wp env t m 0 (Nat.zero_le _)
  rw [List.drop_zero] at hmerged
  refine sink.bind hmerged ?_ (by rintro e s ⟨-, hr⟩; cases hr)
  rintro data s ⟨rfl, hr⟩
  obtain rfl : data = concat t.chunk m := Except.ok.inj hr
  refine wp_then sink (.write _ _) (fun total => ?_) fun e => .inl rfl
  by_cases htotal : total = (concat t.chunk m).length
  · have hn : (monitor env t).next (.reading m m) (.put t.key.text
        (.ok (concat t.chunk m))) (.ok total) = .wrote m := if_pos htotal
    rw [hn]
    refine .inr (wp_then sink (.readBack _) (fun stream => ?_) fun e => .inl rfl)
    by_cases hstream : stream = concat t.chunk m
    · subst htotal hstream
      exact .inr (.inr ⟨if_pos rfl, rfl⟩)
    · exact .inl (if_neg hstream)
  · exact .inl (if_neg htotal)

/-- Deleting the parts after the record was confirmed. -/
theorem deleting_wp (env : Env) (t : Upload) (m j : ℕ) (hj : j ≤ m) :
    (((List.range m).drop j).map (partKey t.key) |>.forM storage.delete).wp
      (monitor env t).trans (Monitor.orSink .broken fun x s =>
        s = .deleting m ∧ x = .ok ()) (.deleting j) := by
  obtain ⟨k, hk⟩ := Nat.exists_eq_add_of_le hj
  induction k generalizing j with
  | zero =>
    obtain rfl : m = j := hk
    rw [List.drop_eq_nil_of_le (by simp)]
    exact .inr ⟨rfl, rfl⟩
  | succ k ih =>
    have hlt : j < m := by omega
    rw [List.drop_eq_getElem_cons (by simpa using hlt), List.getElem_range]
    exact wp_then sink (.deletePart _) (fun _ => .inr (ih (j + 1) hlt (by omega))) fun e => .inl rfl

/-- Deleting the parts of a request that gives up. -/
theorem refused_wp (keys : List Key) :
    (keys.forM storage.delete).wp (monitor env t).trans
      (Monitor.orSink .broken fun _ s => s = .refused) .refused := by
  induction keys with
  | nil => exact .inr rfl
  | cons key keys ih => exact wp_then sink (.deleteObject _) (fun _ => .inr ih) fun e => .inl rfl

/-- A request ends with the record confirmed and some parts deleted, or it has changed nothing. -/
def Ended (t : Upload) (x : Except Err FileRecord) (s : Stage) : Prop :=
  match x with
  | .ok _ => s = .deleting t.count
  | .error _ => s = .refused ∨ s = .over ∨ ∃ m, s = .loaded m

/-- Claiming the quota and confirming the record. -/
theorem confirmUpload_wp (hroom : room.id = t.row.room_id) (first : Bytes)
    (hfirst : first = t.data.take chunkSize) :
    (confirmUpload env room (toFile (t.file, t.row)) ((List.range t.count).map
      (partKey t.key)) t.data.length first).wp (monitor env t).trans
      (Monitor.orSink .broken (Ended t)) (.assembled t.count) := by
  subst hfirst
  unfold confirmUpload
  refine wp_then sink (hroom ▸ .claim) (fun claimed => ?_) fun e => .inl rfl
  cases claimed with
  | true =>
    refine .inr ?_
    rw [if_pos rfl]
    refine sink.bind (P := fun x s => s = .deleting 0 ∧ x = .ok ()) ?_ ?_
      (by rintro e s ⟨-, hr⟩; cases hr)
    · unfold fileRepository.flush
      split
      · next h => exact absurd h t.confirmedRow_ne
      · refine wp_then sink .confirm (fun updated => ?_) fun e => .inl rfl
        cases updated with
        | true => exact .inr (.inr ⟨rfl, rfl⟩)
        | false => exact .inl rfl
    · rintro _ s ⟨rfl, -⟩
      refine wp_then sink (.audit _ _) (fun _ => .inr ?_) fun e => .inl rfl
      have hdelete := deleting_wp env t t.count 0 (Nat.zero_le _)
      rw [List.drop_zero] at hdelete
      refine sink.bind hdelete ?_ (by rintro e s ⟨-, hr⟩; cases hr)
      rintro _ s ⟨rfl, -⟩
      exact .inr rfl
  | false =>
    refine .inr (wp_then sink (.deleteObject _) (fun _ => .inr ?_) fun e => .inl rfl)
    refine sink.bind (refused_wp _) ?_ fun e s hs => .inr (.inl hs)
    rintro _ s rfl
    exact .inr (.inl rfl)

/-- Assembling the object, and confirming it if all chunks are there. -/
theorem assembleUpload_wp (env : Env) (m : ℕ) (hroom : room.id = t.row.room_id) :
    (assembleUpload env room (toFile (t.file, t.row)) ((List.range m).map (partKey t.key))).wp
      (monitor env t).trans (Monitor.orSink .broken (Ended t)) (.reading m 0) := by
  have hrefuse : ∀ e : Err, (do storage.delete t.key.text; .raise e : Op FileRecord).wp
      (monitor env t).trans (Monitor.orSink .broken (Ended t)) (.assembled m) := fun e =>
    wp_then sink (.discard _) (fun _ => .inr (.inr (.inl rfl))) fun e => .inl rfl
  refine sink.bind (P := fun x s => s = .assembled m ∧
    x = .ok ((concat t.chunk m).length, (concat t.chunk m).take chunkSize))
    (sink.tryCatch (assemble_wp m) (fun _ _ h => .inr h) ?_) ?_ (by rintro e s ⟨-, hr⟩; cases hr)
  · rintro e s ⟨-, hr⟩
    cases hr
  · rintro ⟨total, first⟩ s ⟨rfl, hr⟩
    cases hr
    have htotal : (toFile (t.file, t.row)).total_size_bytes.getD 0 = t.data.length :=
      congrArg (·.getD 0) t.total
    dsimp only
    rw [htotal]
    by_cases hall : m = t.count
    · subst hall
      split
      · next h => exact absurd rfl h
      · split
        · exact hrefuse _
        · exact confirmUpload_wp hroom _ rfl
    · split
      · exact hrefuse _
      · next h => exact absurd ((length_concat_inj t.chunk_ne_nil).1 (not_not.1 h)) hall

/-- `complete_upload_session` with the record as it was loaded. -/
theorem completeUploadSession_wp (m : ℕ) :
    (uploadService.completeUploadSession env room actor (toFile (t.file, t.row)) m).wp
      (monitor env t).trans (Monitor.orSink .broken (Ended t)) (.loaded m) := by
  have hstay : ∀ e, Monitor.orSink .broken (Ended t) (.error e) (.loaded m) :=
    fun e => .inr (.inr (.inr ⟨m, rfl⟩))
  refine (Prog.wp_require_bind _ _ _ _ _).2 ⟨fun hroom => ?_, fun _ => hstay _⟩
  unfold authorizeChunkedUpload
  rw [bind_assoc]
  refine (Prog.wp_require_bind _ _ _ _ _).2 ⟨fun _ => ?_, fun _ => hstay _⟩
  refine (Prog.wp_require_bind _ _ _ _ _).2 ⟨fun _ => ?_, fun _ => hstay _⟩
  refine (Prog.wp_require_bind _ _ _ _ _).2 ⟨fun _ => ?_, fun _ => hstay _⟩
  refine wp_then sink (.list _) (fun keys => ?_) fun e => .inl rfl
  by_cases hmiss : missing keys m = []
  · by_cases hparts : parts keys m = (List.range m).map (partKey t.key)
    · refine .inr ((Prog.wp_require_bind _ _ _ _ _).2 ⟨fun _ => ?_, fun h => absurd hmiss h⟩)
      rw [hparts]
      have hn : next t (.loaded m) (.listKeys (partPrefix t.key)) (.ok keys) = .reading m 0 :=
        (if_neg (not_not.2 hmiss)).trans (if_pos hparts)
      have hassemble := assembleUpload_wp env m hroom.symm
      rw [← hn] at hassemble
      exact hassemble
    · exact .inl ((if_neg (not_not.2 hmiss)).trans (if_neg hparts))
  · refine .inr ((Prog.wp_require_bind _ _ _ _ _).2 ⟨fun h => absurd h hmiss, fun _ => ?_⟩)
    exact .inr (.inr (.inl (if_pos hmiss)))

/-- A request that finds the record CONFIRMED raises. -/
theorem completeUploadSession_over_wp (m : ℕ) :
    (uploadService.completeUploadSession env room actor (toFile (t.file, t.confirmedRow)) m).wp
      (monitor env t).trans (Monitor.orSink .broken fun x s => s = .over ∧ ∃ e, x = .error e)
      .over := by
  have hstay : ∀ e : Err, Monitor.orSink .broken (fun (x : Except Err FileRecord) s =>
      s = Stage.over ∧ ∃ e, x = .error e) (.error e) .over := fun e => .inr ⟨rfl, e, rfl⟩
  refine (Prog.wp_require_bind _ _ _ _ _).2 ⟨fun _ => ?_, fun _ => hstay _⟩
  unfold authorizeChunkedUpload
  rw [bind_assoc]
  refine (Prog.wp_require_bind _ _ _ _ _).2 ⟨fun _ => ?_, fun _ => hstay _⟩
  refine (Prog.wp_require_bind _ _ _ _ _).2 ⟨fun _ => ?_, fun _ => hstay _⟩
  exact (Prog.wp_require_bind _ _ _ _ _).2 ⟨fun h => (nomatch h), fun _ => hstay _⟩

/-- The stages in which a request ends before its database session is closed. -/
def Stage.last (s : Stage) : Prop := s = .won ∨ s = .refused ∨ s = .over ∨ ∃ m, s = .loaded m

/-- A request from reading the record on. -/
theorem completeAs_wp :
    (uploads.completeAs env actor room t.file body).wp (monitor env t).trans
      (Monitor.orSink .broken fun _ s => s.last) (.fresh body.totalChunks) := by
  -- What is left once the record is found: its room is checked, and the upload is completed.
  let rest : FileRecord → Op FileView := fun found => do
    let rec_ ← (do
      Prog.require (found.room_id = room.id) (error .fileNotFound "")
      pure found : Op FileRecord)
    let confirmed ← uploadService.completeUploadSession env room actor rec_ body.totalChunks
    commit
    let view := fileView confirmed actor.display_name
    broadcast (wsChannel room) (.fileUploadCompleted view) []
    pure view
  -- The record is still pending, and this request may be the one that completes it.
  have hfound : (rest (toFile (t.file, t.row))).wp (monitor env t).trans
      (Monitor.orSink .broken fun _ s => s.last) (.loaded body.totalChunks) := by
    dsimp only [rest]
    rw [bind_assoc]
    simp only [pure_bind]
    refine (Prog.wp_require_bind _ _ _ _ _).2
      ⟨fun _ => ?_, fun _ => .inr (.inr (.inr (.inr ⟨_, rfl⟩)))⟩
    refine sink.bind (P := Ended t) (completeUploadSession_wp _) ?_ fun e s hs => .inr (.inr hs)
    rintro confirmed s rfl
    refine wp_then sink (.commit t.count_pos) (fun _ => .inr ?_) fun e => .inl rfl
    have htell : (do
        broadcast (wsChannel room) (.fileUploadCompleted (fileView confirmed actor.display_name)) []
        pure (fileView confirmed actor.display_name) : Op FileView).Only (Issued env [.close]) :=
      Prog.only_bind (only_broadcast _ _ _ fun h => h.elim) fun _ => only_pure _
    exact Prog.wp_mono (monitor env t).trans_monotone (fun _ _ hs => .inr (.inl hs))
      (over_wp htell (.inr rfl))
  -- The record was confirmed by another request: this one is over before it writes.
  have hconfirmed : (rest (toFile (t.file, t.confirmedRow))).wp (monitor env t).trans
      (Monitor.orSink .broken fun _ s => s.last) .over := by
    dsimp only [rest]
    rw [bind_assoc]
    simp only [pure_bind]
    refine (Prog.wp_require_bind _ _ _ _ _).2
      ⟨fun _ => ?_, fun _ => .inr (.inr (.inr (.inl rfl)))⟩
    refine sink.bind (completeUploadSession_over_wp _) ?_ ?_
    · rintro _ s ⟨-, e, he⟩
      cases he
    · rintro e s ⟨rfl, -⟩
      exact .inr (.inr (.inr (.inl rfl)))
  -- The database answers with one of the two rows.
  unfold uploads.completeAs uploads.pendingSession fileRepository.getFileById
  simp only [bind_assoc]
  refine wp_then sink (.find _) (fun rows => ?_) fun e => .inl rfl
  by_cases hrow : rows = [(t.file, t.row)]
  · subst hrow
    have hn : next t (.fresh body.totalChunks) (.sql (.select .files (byId t.file)))
        (.ok [(t.file, t.row)]) = .loaded body.totalChunks := if_pos rfl
    rw [← hn] at hfound
    exact .inr hfound
  · by_cases hrow' : rows = [(t.file, t.confirmedRow)]
    · subst hrow'
      have hn : next t (.fresh body.totalChunks) (.sql (.select .files (byId t.file)))
          (.ok [(t.file, t.confirmedRow)]) = .over := (if_neg hrow).trans (if_pos rfl)
      rw [← hn] at hconfirmed
      exact .inr hconfirmed
    · exact .inl ((if_neg hrow).trans (if_neg hrow'))

/-- A request with its database session. -/
theorem request_wp :
    (discard (withSession (uploads.completeAs env actor room t.file body))).wp (monitor env t).trans
      (Monitor.orSink .broken fun _ s => s = .won ∨ s = .over) (.fresh body.totalChunks) := by
  refine (Prog.wp_map _ _ _ _).2 (wp_withSession (monitor env t).trans_monotone ?_)
  refine Prog.wp_mono (monitor env t).trans_monotone ?_ completeAs_wp
  have hclose : Issued env [.close] (.sql .rollback) := .close (by decide)
  rintro r s (rfl | rfl | rfl | rfl | ⟨m, rfl⟩)
  · exact ⟨.broken _, by rintro (e | u) <;> exact .inl rfl⟩
  · exact ⟨.won hclose, by rintro (e | u) <;> exact .inr (.inl rfl)⟩
  · exact ⟨.refuse, by rintro (e | u) <;> exact .inr (.inr rfl)⟩
  · exact ⟨.ended hclose, by rintro (e | u) <;> exact .inr (.inr rfl)⟩
  · exact ⟨.giveUp _, by rintro (e | u) <;> exact .inr (.inr rfl)⟩

end

/-! ## Runs -/

variable {room : ℕ → Room} {actor : ℕ → SessionRecord} {body : ℕ → uploads.UploadSessionComplete}

/-- `n` requests that complete the upload, and nobody else. -/
def start (t : Upload) (env : Env) (room : ℕ → Room) (actor : ℕ → SessionRecord)
    (body : ℕ → uploads.UploadSessionComplete) (n : ℕ) (w : World) :
    Conf Cmd Resp Err Unit World Stage where
  world := w
  phase p := if p < n then .fresh (body p).totalChunks else .over
  proc p := if p < n then discard (withSession
    (uploads.completeAs env (actor p) (room p) t.file (body p))) else pure ()

/-- Every process keeps to the protocol. -/
theorem start_conforms : (start t env room actor body n w).Conforms (monitor env t)
    (Monitor.orSink .broken fun _ s => s = .won ∨ s = .over) := by
  intro p
  dsimp only [start]
  by_cases hp : p < n
  · rw [if_pos hp, if_pos hp]
    exact request_wp
  · rw [if_neg hp, if_neg hp]
    exact .inr (.inr rfl)

/-- The invariant holds before the requests. -/
theorem Inv.init (h : Rest t w) : Inv n t w (start t env room actor body n w).phase where
  world := by
    refine .inl ⟨fun q => ?_, h⟩
    dsimp only [start]
    split <;> rfl
  whole q := by
    dsimp only [start]
    split <;> exact Stage.noConfusion
  bound q hq := by
    dsimp only [start] at hq
    by_contra hn
    exact hq (if_neg hn)
  asks q m hm := by
    dsimp only [start] at hm
    split at hm
    · cases hm
      exact (body q).totalChunks_pos
    · cases hm

/-- The quota was claimed for the upload at most once. -/
def ClaimedAtMostOnce (t : Upload) (w : World) : Prop :=
  ∃ r, w.db.committed .rooms t.row.room_id = some r ∧ (r = t.roomRow ∨ r = t.claimedRow)

/-- If the record is committed as CONFIRMED, its object is there and holds the chunks. -/
def ObjectKept (t : Upload) (w : World) : Prop :=
  ∀ r, w.db.committed .files t.file = some r → r.status = .confirmed →
    r.size_bytes = t.data.length ∧ w.storage.lookup t.key.text = some t.data

/-- At rest nothing is claimed. -/
theorem Rest.claimed (h : Rest t w) : ClaimedAtMostOnce t w ∧ ObjectKept t w := by
  refine ⟨⟨t.roomRow, ?_, .inl rfl⟩, fun r hr hs => ?_⟩
  · rw [Tables.committed, h.room]
  · rw [Tables.committed, h.file] at hr
    cases hr
    rw [t.pending] at hs
    cases hs

/-- The request that holds the record claims once. -/
theorem Holds.claimed (h : Holds t p st w) : ClaimedAtMostOnce t w ∧ ObjectKept t w := by
  cases st with
  | reading m j => exact h.1.claimed
  | wrote m => exact h.1.claimed
  | assembled m => exact h.1.claimed
  | refused => exact Rest.claimed h
  | claimed =>
    obtain ⟨-, hroom, hfile, -⟩ := h
    refine ⟨⟨t.roomRow, by rw [Tables.committed, hroom], .inl rfl⟩, fun r hr hs => ?_⟩
    rw [Tables.committed, hfile] at hr
    cases hr
    rw [t.pending] at hs
    cases hs
  | deleting j =>
    obtain ⟨-, hroom, hfile, -⟩ := h
    refine ⟨⟨t.roomRow, by rw [Tables.committed, hroom], .inl rfl⟩, fun r hr hs => ?_⟩
    rw [Tables.committed, hfile] at hr
    cases hr
    rw [t.pending] at hs
    cases hs
  | won =>
    obtain ⟨-, hroom, hfile, hdata, -⟩ := h
    refine ⟨⟨t.claimedRow, by rw [Tables.committed, hroom], .inr rfl⟩, fun r hr _ => ?_⟩
    rw [Tables.committed, hfile] at hr
    cases hr
    exact ⟨rfl, hdata⟩
  | _ => exact h.elim

end completion

open completion

/-- For every run of `n` concurrent requests that complete one PENDING upload whose chunks are all
staged, by any actors, with any room objects and for any numbers of chunks: as long as a request
whose listing finds all parts that it asks for has listed them only while no other such request was
under way, the quota was claimed at most once, and a record that is committed as CONFIRMED has its
object, which is the concatenation of the chunks. -/
theorem completion_exclusive (env : Env) (t : Upload) (n : ℕ) (room : ℕ → Room)
    (actor : ℕ → SessionRecord) (body : ℕ → uploads.UploadSessionComplete) (w : World)
    (h₀ : Rest t w) (s : Conf Cmd Resp Err Unit World Stage)
    (h : reliable.Reaches (monitor env t) (exclusive t n) (start t env room actor body n w) s) :
    ClaimedAtMostOnce t s.world ∧ ObjectKept t s.world := by
  have hI : Inv n t s.world s.phase := by
    refine (Machine.invariant (I := Inv n t) ?_ ?_ h (Inv.init h₀) start_conforms).1
    · intro w φ p c x w' I ha hok hx
      exact I.step ha hok hx
    · intro w φ w' I ht
      obtain ⟨d, d', rfl⟩ := ht
      refine ⟨?_, I.whole, I.bound, I.asks⟩
      exact I.world.imp (fun h => ⟨h.1, h.2.congr rfl rfl rfl⟩)
        fun ⟨p, hp, hsolo, hh⟩ => ⟨p, hp, hsolo, hh.congr rfl rfl rfl⟩
  rcases hI.world with ⟨-, hr⟩ | ⟨p, -, -, hh⟩
  · exact hr.claimed
  · exact hh.claimed

/-- `FileRow.plain` while it is uploaded in chunks of one byte. -/
def FileRow.chunked : FileRow :=
  { FileRow.plain with status := .pending, size_bytes := 1, total_size_bytes := some 1 }

/-- `FileRow.chunked` with its only chunk. -/
def completion.Upload.plain : Upload where
  file := 0
  row := .chunked
  roomRow := .plain
  chunk _ := [65]
  count := 1
  pending := rfl
  count_pos := by decide
  chunk_ne_nil _ := by decide
  total := rfl

/-- A server with one room and one upload whose chunk is staged. -/
def World.staged : World :=
  { World.holding [.plain] [] [.chunked] with
    storage := (∅ : Storage).insert (partKey FileRow.chunked.storage_key 0) [65] }

/-- The start of the run is at rest. -/
theorem completion.rest_staged : Rest .plain .staged where
  parts := by
    have hkeys : World.staged.storage.keys = [partKey Upload.plain.key 0] := rfl
    refine ⟨fun key hk _ => ⟨0, ?_⟩, fun i part hl => ?_⟩
    · rw [hkeys] at hk
      exact List.mem_singleton.1 hk
    · by_cases hi : partKey Upload.plain.key i = partKey Upload.plain.key 0
      · rw [hi] at hl
        exact (Option.some.inj hl).symm
      · have hnone : World.staged.storage.lookup (partKey Upload.plain.key i) = none :=
          (AList.lookup_insert_ne hi).trans (AList.lookup_empty _)
        rw [hnone] at hl
        cases hl
  room := rfl
  file := rfl

/-- A request for the only chunk. -/
def completion.oneChunk : uploads.UploadSessionComplete := ⟨1, by decide⟩

/-- Of two requests that have both listed the only chunk, the second deletes the object that the
first has committed. -/
theorem completion_loses_object :
    ∃ s : Conf Cmd Resp Err Unit World Stage,
      reliable.Reaches (monitor .plain .plain) Guard.all (start .plain .plain
        (fun _ => toRoom (0, .plain)) (fun _ => toSession (0, .owner)) (fun _ => oneChunk) 2
        .staged) s ∧
      (∀ p < 2, (s.proc p).outcome.isSome = true) ∧ ¬ObjectKept .plain s.world := by
  have hrun : ((reliable.play (monitor .plain .plain) Guard.all
      [0, 0, 1, 1, 0, 0, 0, 0, 0, 0, 0, 0, 0, 0, 1, 1, 1, 1, 1]
      (start .plain .plain (fun _ => toRoom (0, .plain)) (fun _ => toSession (0, .owner))
        (fun _ => oneChunk) 2 .staged)).map fun s =>
      ((List.range 2).all fun p => (s.proc p).outcome.isSome,
        (s.world.db.committed .files 0).map FileRow.status,
        s.world.storage.lookup ['k'])) = some (true, some .confirmed, none) := by
    decide
  obtain ⟨s, hs, hd⟩ := Option.map_eq_some_iff.1 hrun
  obtain ⟨hend, hd⟩ := Prod.mk.inj hd
  obtain ⟨hstatus, hgone⟩ := Prod.mk.inj hd
  obtain ⟨r, hr, hconfirmed⟩ := Option.map_eq_some_iff.1 hstatus
  refine ⟨s, Machine.play_reaches hs, fun p hp =>
    List.all_eq_true.1 hend p (List.mem_range.2 hp), fun hkept => ?_⟩
  have hdata := (hkept r hr hconfirmed).2
  exact nomatch hgone.symm.trans hdata

/-- One request after the other. -/
theorem completion_exclusive_staged :
    ∃ s : Conf Cmd Resp Err Unit World Stage,
      (s.world.db.committed .files 0).map FileRow.status = some .confirmed ∧
      (ClaimedAtMostOnce .plain s.world ∧ ObjectKept .plain s.world) := by
  have hrun : ((reliable.play (monitor .plain .plain) (exclusive .plain 2)
      [0, 0, 0, 0, 0, 0, 0, 0, 0, 0, 0, 0, 1, 1]
      (start .plain .plain (fun _ => toRoom (0, .plain)) (fun _ => toSession (0, .owner))
        (fun _ => oneChunk) 2 .staged)).map fun s =>
      (s.world.db.committed .files 0).map FileRow.status) = some (some .confirmed) := by
    decide
  obtain ⟨s, hs, hd⟩ := Option.map_eq_some_iff.1 hrun
  exact ⟨s, hd, completion_exclusive .plain .plain 2 _ _ _ .staged rest_staged s
    (Machine.play_reaches hs)⟩

end DropRoom
