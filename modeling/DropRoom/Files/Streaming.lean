import DropRoom.App.Checks
import DropRoom.Files.Chunks

/-!
# Uploads that are streamed

`upload_file` reads its first chunk before the others, counts while storage reads, and has four exits
at which it undoes what it did. Reading may fail at any chunk (`fileService.Source`), and so may
writing to storage (`streaming.storing`). Every run ends in a confirmed record with the whole object,
or in an error with nothing left of it.
-/

namespace DropRoom

open Effect Store Prog fileService

namespace streaming

/-- The server while nothing fails but writing to storage, which stores an object or nothing. -/
def storing : Machine Cmd Resp Err World where
  exec := exec
  fault c e := e = .exception ∧ ∃ key data, c = .put key data
  env _ _ := False

/-- The machine in which the storage may fail. -/
theorem storing_faithful : Faithful storing where
  exec_eq := rfl
  fault_raises := by
    rintro c e ⟨rfl, key, data, rfl⟩
    rfl
  env_tick _ _ h := h.elim

/-! ## The chunks of the source -/

section

variable {env : Env}

/-- What the source yields after the first chunk is all that is left, and not too much. -/
theorem drain_ok {chunks : Source} {total total' : ℕ} {data : Bytes}
    (h : drain env total chunks = .ok (data, total')) (htotal : total ≤ env.max_file_size_bytes) :
    ∃ datas : List Bytes, chunks = datas.map .ok ∧ data = datas.flatten ∧
      total' = total + data.length ∧ total' ≤ env.max_file_size_bytes := by
  induction chunks generalizing total data with
  | nil =>
    cases h
    exact ⟨[], rfl, rfl, rfl, htotal⟩
  | cons chunk chunks ih =>
    rcases chunk with e | chunk
    · cases h
    rw [drain] at h
    split at h
    · cases h
    · next hlarge =>
      split at h
      · next rest total'' hrest =>
        cases h
        obtain ⟨datas, rfl, rfl, hsum, hle⟩ := ih hrest (by omega)
        refine ⟨chunk :: datas, rfl, rfl, ?_, hle⟩
        rw [hsum, List.length_append]
        omega
      · cases h

/-- What `put_source` reads is the whole source: nothing when it is empty, and not too much. -/
theorem anext_ok {chunks rest : Source} {first data : Bytes} {total : ℕ}
    (hnext : anext chunks = .ok (first, rest)) (hsmall : first.length ≤ env.max_file_size_bytes)
    (hdrain : drain env first.length rest = .ok (data, total)) :
    ∃ datas : List Bytes, chunks = datas.map .ok ∧ first = datas.headD [] ∧
      first ++ data = datas.flatten ∧ total = datas.flatten.length ∧
      total ≤ env.max_file_size_bytes := by
  obtain ⟨datas, hrest, rfl, htotal, hle⟩ := drain_ok hdrain hsmall
  have hlength : total = (first ++ datas.flatten).length := by
    rw [htotal, List.length_append]
  rcases chunks with _ | ⟨e | chunk, chunks⟩
  · cases hnext
    obtain rfl := List.map_eq_nil_iff.1 hrest.symm
    exact ⟨[], rfl, rfl, rfl, hlength, hle⟩
  · cases hnext
  · cases hnext
    exact ⟨first :: datas, by rw [hrest]; rfl, rfl, rfl, hlength, hle⟩

end

/-! ## What `upload_file` ends in -/

/-- A record is confirmed for the chunks `datas`. -/
structure Confirmed (env : Env) (σ : Serial) (room : Room) (content_type : Option String)
    (datas : List Bytes) (rec_ : FileRecord) (σ' : Serial) : Prop where
  status : rec_.status = .confirmed
  size : rec_.size_bytes = datas.flatten.length
  bounded : rec_.size_bytes ≤ env.max_file_size_bytes
  content_type : rec_.content_type =
    some (magic.normalizeContentType (datas.headD []) content_type)
  new : σ.db.rows .files rec_.id = none
  row : σ'.db.rows .files rec_.id = some rec_.toFileRow
  object : σ'.rest.storage.lookup rec_.storage_key.text = some datas.flatten
  counters : ∃ row, σ.db.rows .rooms room.id = some row ∧
    σ'.db.rows .rooms room.id = some { row with
      storage_used_bytes := row.storage_used_bytes + datas.flatten.length
      file_count := row.file_count + 1 }

/-- Nothing is left: the rows of all tables are as before, and there is no object under the storage
key if one was drawn. -/
structure Undone (σ σ' : Serial) : Prop where
  rows : σ'.db.rows = σ.db.rows
  storage : σ'.rest.uuidsUsed = σ.rest.uuidsUsed ∧ σ'.rest.storage = σ.rest.storage ∨
    σ'.rest.uuidsUsed = σ.rest.uuidsUsed + 1 ∧ ∀ key, σ'.rest.storage.lookup key =
      if key = (σ.rest.uuids σ.rest.uuidsUsed).text then none else σ.rest.storage.lookup key

/-- What a run of `upload_file` ends in. -/
def Outcome (env : Env) (σ : Serial) (room : Room) (content_type : Option String)
    (chunks : Source) : Except Err FileRecord → Serial → Prop
  | .ok rec_, σ' => ∃ datas : List Bytes, chunks = datas.map .ok ∧
    Confirmed env σ room content_type datas rec_ σ'
  | .error _, σ' => Undone σ σ'

/-! ## Programs in which only writing to storage may fail -/

/-- Every run of the program from `σ`, in which only writing to storage may fail, ends in `Q`. -/
def Writes {α : Type} (prog : Op α) (Q : Except Err α → Serial → Prop) (σ : Serial) : Prop :=
  prog.wp ((Serial.machine storing).trans 0) Q σ

namespace Writes

variable {α β : Type} {σ : Serial} {Q : Except Err α → Serial → Prop}

/-- What a run ends in. -/
theorem of_runs {p : ℕ} {w w' : World} {prog : Op α} {r : Except Err α}
    (h : Writes prog Q (.of p w)) (hr : storing.Runs p prog w r w') (hw : w.db.Alone p) :
    Q r (.of p w') :=
  ((Serial.machine storing).wp_iff_runs 0 prog Q _).1 h _ _ (runs_serial storing_faithful hr hw).1

/-- The postcondition may be made weaker. -/
theorem mono {prog : Op α} {Q' : Except Err α → Serial → Prop} (h : Writes prog Q σ)
    (hQ : ∀ r σ', Q r σ' → Q' r σ') : Writes prog Q' σ :=
  Prog.wp_mono (Machine.trans_monotone _ _) hQ h

/-- One program after the other, as long as nothing is raised. -/
theorem bind {p : Op β} {f : β → Op α} (h : Writes p (fun x σ' => match x with
    | .ok a => Writes (f a) Q σ'
    | .error e => Q (.error e) σ') σ) : Writes (p >>= f) Q σ := by
  refine (Prog.wp_bind _ _ _ _).2 (h.mono ?_)
  rintro (e | a) σ' h
  · exact h
  · exact h

/-- A handler goes on where the program has raised. -/
theorem tryCatch {p : Op α} {f : Err → Op α} (h : Writes p (fun x σ' => match x with
    | .ok a => Q (.ok a) σ'
    | .error e => Writes (f e) Q σ') σ) : Writes (p.tryCatch f) Q σ := by
  refine (Prog.wp_tryCatch _ _ _ _).2 (h.mono ?_)
  rintro (e | a) σ' h
  · exact h
  · exact h

/-- A program that does not write to storage. -/
theorem of_after {env : Env} {K : List Kind} {prog : Op α} (hprog : prog.Only (Issued env K))
    (hK : Kind.put ∉ K) (h : After prog Q σ) : Writes prog Q σ := by
  unfold After at h
  rw [(Serial.machine calm).wp_iff_runs] at h
  refine ((Serial.machine storing).wp_iff_runs 0 prog Q σ).2 fun r σ' hr => h r σ' ?_
  clear h
  induction hr with
  | ret a σ => exact .ret a σ
  | raise e σ => exact .raise e σ
  | call ha _ ih =>
    obtain ⟨hc, hk⟩ := (only_call _ _).1 hprog
    cases ha with
    | exec hx => exact .call (.exec hx) (ih (hk _))
    | fault hf =>
      obtain ⟨-, key, data, rfl⟩ := hf
      cases hc with | put hput => exact absurd hput hK

/-- The run in which nothing fails is one of them. -/
theorem after {prog : Op α} (h : Writes prog Q σ) : After prog Q σ := by
  unfold Writes at h
  rw [(Serial.machine storing).wp_iff_runs] at h
  refine ((Serial.machine calm).wp_iff_runs 0 prog Q σ).2 fun r σ' hr => h r σ' ?_
  clear h
  induction hr with
  | ret a σ => exact .ret a σ
  | raise e σ => exact .raise e σ
  | call ha _ ih =>
    cases ha with
    | exec hx => exact .call (.exec hx) ih
    | fault hf => exact hf.elim

/-- Writing an object stores it, or fails and stores nothing. -/
theorem put {key : Key} {data : Bytes} {Q : Except Err ℕ → Serial → Prop}
    (hok : Q (.ok data.length)
      { σ with rest := { σ.rest with storage := σ.rest.storage.insert key data } })
    (herr : ∀ e, Q (.error e) σ) : Writes (storage.put key (.ok data)) Q σ := by
  refine (wp_issue (Machine.trans_monotone _ _) _ _ _).2 fun x σ' ha => ?_
  cases ha with
  | exec hx =>
    cases hx
    exact hok
  | fault _ => exact herr _

/-- Writing an object whose source fails. -/
theorem put_error {key : Key} {e : Err} {Q : Except Err ℕ → Serial → Prop}
    (herr : ∀ e, Q (.error e) σ) : Writes (storage.put key (.error e)) Q σ := by
  refine (wp_issue (Machine.trans_monotone _ _) _ _ _).2 fun x σ' ha => ?_
  cases ha with
  | exec hx =>
    cases hx
    exact herr _
  | fault _ => exact herr _

end Writes

/-! ## The parts of `upload_file` -/

section

variable {env : Env} {σ : Serial} {room : Room} {content_type : Option String} {chunks : Source}
  {key : Uuid}

/-- Reading the source into storage: the whole of it is stored, or nothing. -/
theorem writes_putSource : Writes (putSource env key chunks) (fun r σ' =>
    (∀ first total, r = .ok (first, total) → ∃ datas : List Bytes, chunks = datas.map .ok ∧
      first = datas.headD [] ∧ total = datas.flatten.length ∧ total ≤ env.max_file_size_bytes ∧
      σ' = { σ with rest := { σ.rest with
        storage := σ.rest.storage.insert key.text datas.flatten } }) ∧
    ∀ e, r = .error e → σ' = σ) σ := by
  have hfail : ∀ e : Err, (∀ first total, (.error e : Except Err (Bytes × ℕ)) = .ok (first, total) →
      ∃ datas : List Bytes, chunks = datas.map .ok ∧ first = datas.headD [] ∧
        total = datas.flatten.length ∧ total ≤ env.max_file_size_bytes ∧
        σ = { σ with rest := { σ.rest with
          storage := σ.rest.storage.insert key.text datas.flatten } }) ∧
      ∀ e', (.error e : Except Err (Bytes × ℕ)) = .error e' → σ = σ := by
    intro e
    refine ⟨?_, fun _ _ => rfl⟩
    rintro first total ⟨⟩
  unfold putSource
  split
  · exact hfail _
  · next first rest hnext =>
    refine (Prog.wp_require_bind _ _ _ _ _).2 ⟨fun hsmall => ?_, fun _ => hfail _⟩
    dsimp only
    cases hdrain : drain env first.length rest with
    | error e =>
      refine Writes.bind (Writes.put_error fun e' => ?_)
      exact hfail e'
    | ok s =>
      obtain ⟨data, total⟩ := s
      obtain ⟨datas, hchunks, hhead, hflatten, htotal, hle⟩ := anext_ok hnext hsmall hdrain
      refine Writes.bind (Writes.put ?_ fun e' => hfail e')
      refine ⟨?_, by rintro e ⟨⟩⟩
      rintro _ _ ⟨⟩
      exact ⟨datas, hchunks, hhead, htotal, hle, by rw [← hflatten]⟩

/-- The rows of a transaction that deletes the row that it inserted. -/
theorem rows_drop_add (s : Snapshot Table Row) (row : FileRow) :
    ((s.add .files row).drop .files (dialect.deletes (t := .files)
      (.byId (s.count .files)))).rows = s.rows := by
  funext t i
  by_cases ht : t = .files
  · subst ht
    rw [Snapshot.rows_drop]
    by_cases hi : i = s.count .files
    · subst hi
      rw [Snapshot.rows_add_self]
      have hnone : s.rows .files (s.count .files) = none := by
        by_contra hsome
        obtain ⟨r, hr⟩ := Option.ne_none_iff_exists'.1 hsome
        exact absurd (s.rows_lt _ _ _ hr) (Nat.lt_irrefl _)
      rw [hnone]
      simp [dialect]
    · rw [Snapshot.rows_add_of_ne hi]
      cases hr : s.rows .files i with
      | none => rfl
      | some r => simp [Option.filter_some, dialect, hi]
  · rw [Snapshot.rows_drop_of_table ht, Snapshot.rows_add_of_table ht]

/-- `_cleanup_failed_upload` undoes what `upload_file` has done. -/
theorem after_cleanup {rec_ : FileRecord} {s : Storage}
    (hid : rec_.id = σ.db.count .files) (hkey : key = σ.rest.uuids σ.rest.uuidsUsed)
    (hs : ∀ k, k ≠ key.text → s.lookup k = σ.rest.storage.lookup k) :
    After (cleanupFailedUpload rec_.id key) (fun r σ' => r = .ok () ∧ Undone σ σ')
      { db := σ.db.add .files rec_.toFileRow
        rest := { σ.rest with storage := s, uuidsUsed := σ.rest.uuidsUsed + 1 } } := by
  unfold cleanupFailedUpload fileRepository.deleteRecord
  refine (After.bind_iff _ _ _).2 ((After.delete_iff _ _).2 ?_)
  refine (After.bind_iff _ _ _).2 ((After.deleteWhere_iff _ _ _).2 ((After.pure_iff _).2 ?_))
  refine ⟨rfl, ?_, .inr ⟨rfl, fun k => ?_⟩⟩
  · rw [hid]
    exact rows_drop_add σ.db rec_.toFileRow
  · dsimp only
    rw [← hkey]
    split
    · next hk => rw [hk, AList.lookup_erase]
    · next hk => rw [AList.lookup_erase_ne hk, hs k hk]

/-- A room in which the quota can be claimed. -/
def Claimable (env : Env) (σ : Serial) (room : Room) (size : ℕ) : Prop :=
  ∃ row, σ.db.rows .rooms room.id = some row ∧ row.status = .active ∧
    row.file_count < env.max_files_per_room ∧
    row.storage_used_bytes + size ≤ env.max_room_storage_bytes

/-- `upload_file` from the quota claim on, once its object of `datas` is stored. -/
theorem after_claim {rec_ : FileRecord} {datas : List Bytes} {s : Storage}
    (hid : rec_.id = σ.db.count .files) (hkey : rec_.storage_key = σ.rest.uuids σ.rest.uuidsUsed)
    (hs : s = σ.rest.storage.insert rec_.storage_key.text datas.flatten)
    (hbounded : datas.flatten.length ≤ env.max_file_size_bytes) :
    After (do
      let claimed ← claimQuota env room.id datas.flatten.length
      if claimed then
        let confirmed := { rec_ with
          content_type := some (magic.normalizeContentType (datas.headD []) content_type)
          size_bytes := datas.flatten.length
          status := .confirmed }
        fileRepository.flush rec_ confirmed
        let _ ← roomRepository.createAuditEvent (some room.id) "FILE_UPLOADED"
        pure confirmed
      else
        cleanupFailedUpload rec_.id rec_.storage_key
        .raise (error .roomStorageQuotaExceeded "Room storage quota exceeded"))
      (fun r σ' => (∀ rec', r = .ok rec' → Confirmed env σ room content_type datas rec' σ') ∧
        ∀ e, r = .error e → Undone σ σ' ∧ ¬Claimable env σ room datas.flatten.length)
      { db := σ.db.add .files rec_.toFileRow
        rest := { σ.rest with storage := s, uuidsUsed := σ.rest.uuidsUsed + 1 } } := by
  have hlt : rec_.id < (σ.db.add .files rec_.toFileRow).count .files := by
    rw [hid, Snapshot.count_add_self]
    exact Nat.lt_succ_self _
  -- The record is the one that was just added.
  have hnew : σ.db.rows .files rec_.id = none := by
    by_contra hsome
    obtain ⟨r, hr⟩ := Option.ne_none_iff_exists'.1 hsome
    exact absurd (σ.db.rows_lt _ _ _ hr) (hid ▸ Nat.lt_irrefl _)
  have hrow : (σ.db.add .files rec_.toFileRow).rows .files rec_.id = some rec_.toFileRow := by
    rw [hid]
    exact Snapshot.rows_add_self
  unfold claimQuota
  refine (After.bind_iff _ _ _).2 ((After.updateAt_iff _ _ _ _).2 ?_)
  dsimp only
  have happlies_iff : ∀ row : RoomRow, dialect.applies (t := Table.rooms)
      (.claimQuota datas.flatten.length env.max_files_per_room env.max_room_storage_bytes) row =
      true ↔ row.status = .active ∧ row.file_count < env.max_files_per_room ∧
        row.storage_used_bytes + datas.flatten.length ≤ env.max_room_storage_bytes := by
    intro row
    simp [dialect, RoomUpdate.applies, and_assoc]
  -- Either the room has the quota and the record is confirmed, or everything is undone.
  by_cases hclaim : Claimable env σ room datas.flatten.length
  · obtain ⟨row, hroom, hquota⟩ := hclaim
    have happlies := (happlies_iff row).2 hquota
    have hroom' : (σ.db.add .files rec_.toFileRow).rows .rooms room.id = some row := by
      rw [Snapshot.rows_add_of_table (by decide)]
      exact hroom
    rw [Snapshot.updateAt_of_some hroom' happlies, if_pos rfl]
    refine (After.bind_iff _ _ _).2 ((After.fileFlush_iff ?_ ?_ _).2 ?_)
    · rw [Snapshot.rows_set_of_table (by decide)]
      exact hrow
    · rfl
    refine (After.bind_iff _ _ _).2 ((After.insert_iff _ _ _).2 ((After.pure_iff _).2 ?_))
    refine ⟨?_, by rintro e ⟨⟩⟩
    rintro _ ⟨⟩
    refine ⟨rfl, rfl, hbounded, rfl, hnew, ?_, ?_, row, hroom, ?_⟩
    · rw [Snapshot.rows_add_of_table (by decide), Snapshot.rows_set_self]
      simpa using hlt
    · rw [hs, AList.lookup_insert]
    · rw [Snapshot.rows_add_of_table (by decide), Snapshot.rows_set_of_table (by decide),
        Snapshot.rows_set_self]
      · rfl
      · exact (σ.db.add .files rec_.toFileRow).rows_lt _ _ _ hroom'
  · rw [Snapshot.updateAt_of_none]
    · rw [if_neg Bool.false_ne_true]
      refine (After.bind_iff _ _ _).2 ((after_cleanup hid hkey fun k hk => ?_).mono ?_)
      · rw [hs, AList.lookup_insert_ne hk]
      · rintro r σ' ⟨rfl, hundone⟩
        exact ⟨(by rintro rec' ⟨⟩), fun e _ => ⟨hundone, hclaim⟩⟩
    · intro row hrow
      rw [Snapshot.rows_add_of_table (by decide)] at hrow
      exact Bool.eq_false_iff.2 fun happlies => hclaim ⟨row, hrow, (happlies_iff row).1 happlies⟩

/-- The record that is created for an upload. -/
theorem after_create {name : String} {by_ : Option ℕ} {at_ : Time} :
    After (fileRepository.createFileRecord room.id name key content_type by_ at_)
      (fun r σ' => ∃ rec_ : FileRecord, r = .ok rec_ ∧ rec_.id = σ.db.count .files ∧
        rec_.storage_key = key ∧ σ' = { σ with db := σ.db.add .files rec_.toFileRow }) σ := by
  unfold fileRepository.createFileRecord
  refine (After.bind_iff _ _ _).2 ((After.utcnow_iff _).2 ?_)
  refine (After.bind_iff _ _ _).2 ((After.insert_iff _ _ _).2 ((After.pure_iff _).2 ?_))
  exact ⟨_, rfl, rfl, rfl, rfl⟩

/-- `upload_file` ends in a confirmed record with the whole object, or leaves nothing. -/
theorem writes_uploadFile {actor : SessionRecord} {filename : Option String} :
    Writes (uploadFile env room actor filename content_type chunks)
      (Outcome env σ room content_type chunks) σ := by
  have hrefused : ∀ e, Outcome env σ room content_type chunks (.error e) σ := by
    intro e
    exact ⟨rfl, .inl ⟨rfl, rfl⟩⟩
  unfold uploadFile authorizeUpload
  refine Writes.bind ((Prog.wp_require_bind _ _ _ _ _).2 ⟨fun _ => ?_, fun _ => hrefused _⟩)
  refine (Prog.wp_require _ _ _ _).2 ⟨fun _ => ?_, fun _ => hrefused _⟩
  have huuid : uuid4.Only (Issued env []) := only_uuid4
  refine Writes.bind (.of_after huuid (by decide) ((After.uuid4_iff _).2 ?_))
  -- The key that is drawn, and the record that is created for it.
  obtain ⟨key, hkey⟩ : ∃ key, σ.rest.uuids σ.rest.uuidsUsed = key := ⟨_, rfl⟩
  dsimp only
  rw [hkey]
  have hcreate : (fileRepository.createFileRecord room.id (safeName filename) key content_type
      (some actor.id) (room.expires_at + seconds 300)).Only (Issued env [.newFile]) :=
    only_createFileRecord (by decide) _ _ _ _ _ _
  refine Writes.bind (.of_after hcreate (by decide) (after_create.mono ?_))
  rintro _ _ ⟨rec_, rfl, hid, hrec, rfl⟩
  have hkey' : rec_.storage_key = σ.rest.uuids σ.rest.uuidsUsed := hrec.trans hkey.symm
  dsimp only at hid ⊢
  refine Writes.bind (Writes.tryCatch (writes_putSource.mono fun r σ' hput => ?_))
  rcases r with e | ⟨first, total⟩
  · obtain rfl := hput.2 e rfl
    have honly : (cleanupFailedUpload rec_.id key).Only (Issued env [.deleteObject, .dropFile]) :=
      only_cleanupFailedUpload (by decide) (by decide) _ _
    refine Writes.bind (.of_after honly (by decide) ((after_cleanup hid hkey.symm
      fun _ _ => rfl).mono ?_))
    rintro _ σ' ⟨rfl, hundone⟩
    rcases e with _ | _ | _ <;> exact hundone
  · obtain ⟨datas, hchunks, rfl, rfl, hle, rfl⟩ := hput.1 _ _ rfl
    refine (Prog.wp_require_bind _ _ _ _ _).2 ⟨fun _ => ?_, fun h => absurd hle h⟩
    refine @Writes.of_after _ _ _ env [.claim, .flushFile, .newAudit, .deleteObject, .dropFile] _
      ?_ (by decide) ?_
    · refine only_bind (only_claimQuota (by decide) _ _) fun claimed => ?_
      split
      · refine only_bind (only_fileFlush (by decide) _ _) fun _ => ?_
        exact only_bind (only_createAuditEvent (by decide) _ _) fun _ => only_pure _
      · exact only_bind (only_cleanupFailedUpload (by decide) (by decide) _ _) fun _ => only_raise _
    rw [← hrec]
    refine (after_claim hid hkey' rfl hle).mono fun r σ' hclaim => ?_
    rcases r with e | rec'
    · exact (hclaim.2 e rfl).1
    · exact ⟨datas, hchunks, hclaim.1 rec' rfl⟩

/-- A source that does not fail and is not too large. -/
theorem drain_map_ok {datas : List Bytes} {total : ℕ}
    (h : total + datas.flatten.length ≤ env.max_file_size_bytes) :
    drain env total (datas.map .ok) = .ok (datas.flatten, total + datas.flatten.length) := by
  induction datas generalizing total with
  | nil => rfl
  | cons data datas ih =>
    rw [List.flatten_cons, List.length_append] at h
    rw [List.map_cons, drain, if_neg (by omega), ih (by omega), List.flatten_cons,
      List.length_append, Nat.add_assoc]

/-- Reading such a source into storage, while nothing fails. -/
theorem after_putSource {datas : List Bytes}
    (h : datas.flatten.length ≤ env.max_file_size_bytes) :
    After (putSource env key (datas.map .ok)) (fun r σ' =>
      r = .ok (datas.headD [], datas.flatten.length) ∧ σ' = { σ with rest := { σ.rest with
        storage := σ.rest.storage.insert key.text datas.flatten } }) σ := by
  unfold putSource
  rcases datas with _ | ⟨first, datas⟩
  · refine (After.require_bind_iff _ _ _).2 ⟨fun _ => ?_, fun hlarge => ?_⟩
    · exact (After.bind_iff _ _ _).2 ((After.put_ok_iff _ _ _).2 ⟨rfl, rfl⟩)
    · exact absurd (Nat.zero_le _) hlarge
  · rw [List.flatten_cons, List.length_append] at h
    dsimp only [anext, List.map_cons]
    refine (After.require_bind_iff _ _ _).2 ⟨fun _ => ?_, fun hlarge => absurd ?_ hlarge⟩
    · rw [drain_map_ok h, ← List.length_append, ← List.flatten_cons]
      exact (After.bind_iff _ _ _).2 ((After.put_ok_iff _ _ _).2 ⟨rfl, rfl⟩)
    · omega

/-- `upload_file` succeeds, while nothing fails, for an owner of an active room with quota left. -/
theorem after_uploadFile_ok {actor : SessionRecord} {filename : Option String}
    {datas : List Bytes} (hactive : room.status = .active) (hactor : actor.role = .owner)
    (hsize : datas.flatten.length ≤ env.max_file_size_bytes)
    (hquota : Claimable env σ room datas.flatten.length) :
    After (uploadFile env room actor filename content_type (datas.map .ok))
      (fun r _ => ∃ rec_, r = .ok rec_) σ := by
  unfold uploadFile authorizeUpload
  refine (After.bind_iff _ _ _).2 ((After.require_bind_iff _ _ _).2
    ⟨fun _ => ?_, fun h => absurd hactive h⟩)
  refine (After.require_iff _ _ _).2 ⟨fun _ => ?_, fun h => absurd (.inl hactor) h⟩
  refine (After.bind_iff _ _ _).2 ((After.uuid4_iff _).2 ?_)
  obtain ⟨key, hkey⟩ : ∃ key, σ.rest.uuids σ.rest.uuidsUsed = key := ⟨_, rfl⟩
  dsimp only
  rw [hkey]
  refine (After.bind_iff _ _ _).2 (after_create.mono ?_)
  rintro _ _ ⟨rec_, rfl, hid, hrec, rfl⟩
  have hkey' : rec_.storage_key = σ.rest.uuids σ.rest.uuidsUsed := hrec.trans hkey.symm
  dsimp only at hid ⊢
  refine (After.bind_iff _ _ _).2 ((After.tryCatch_iff _ _).2 ((after_putSource hsize).mono ?_))
  rintro _ _ ⟨rfl, rfl⟩
  refine (After.require_bind_iff _ _ _).2 ⟨fun _ => ?_, fun h => absurd hsize h⟩
  rw [← hrec]
  refine (after_claim hid hkey' rfl hsize).mono fun r σ' hclaim => ?_
  rcases r with e | rec'
  · exact absurd hquota (hclaim.2 e rfl).2
  · exact ⟨rec', rfl⟩

end

end streaming

open streaming

/-- For every sequence of chunks, in which reading may fail at any point and writing to storage may
fail, every room and every actor, `upload_file` ends in a confirmed record with the concatenation of
the chunks as its object, or in an error with nothing left of it. The size that `storage.put` has read
is never too large for the check that follows it. -/
theorem upload_all_or_nothing {env : Env} {room : Room} {actor : SessionRecord}
    {filename content_type : Option String} {chunks : Source} {p : ℕ} {w : World}
    (hw : w.db.Alone p) :
    (∀ r w', storing.Runs p (uploadFile env room actor filename content_type chunks) w r w' →
      Outcome env (.of p w) room content_type chunks r (.of p w')) ∧
    ∀ key first total w', storing.Runs p (putSource env key chunks) w (.ok (first, total)) w' →
      total ≤ env.max_file_size_bytes := by
  refine ⟨fun r w' hr => writes_uploadFile.of_runs hr hw, fun key first total w' hr => ?_⟩
  obtain ⟨datas, -, -, -, hle, -⟩ := (writes_putSource.of_runs hr hw).1 first total rfl
  exact hle

/-- The owner of a room uploads two chunks. -/
theorem upload_all_or_nothing_owned : ∃ rec_ w', storing.Runs 0 (uploadFile .plain
      (toRoom (0, .plain)) (toSession (0, .owner)) none none [.ok [65], .ok [66]]) .owned
      (.ok rec_) w' ∧ rec_.size_bytes = 2 ∧
    Outcome .plain (.of 0 .owned) (toRoom (0, .plain)) none [.ok [65], .ok [66]] (.ok rec_)
      (.of 0 w') := by
  obtain ⟨rec_, hsize, hr⟩ := storing.exists_runs_ok 0 (uploadFile .plain (toRoom (0, .plain))
    (toSession (0, .owner)) none none [.ok [65], .ok [66]]) .owned (fun rec_ => rec_.size_bytes)
    (b := 2) (by decide)
  exact ⟨rec_, _, hr, hsize, (upload_all_or_nothing (World.holding_free.alone 0)).1 _ _ hr⟩

end DropRoom
