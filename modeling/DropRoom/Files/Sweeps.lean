import DropRoom.Files.Orphans

/-!
# The sweep of deleted files

`_scan_once` asks for 500 `DELETED` records and enqueues a job for those of them whose object is still
in storage. The job deletes the object but leaves the record as it is, so the query returns the same
records again and again, and the objects of the records after them stay where they are.
-/

namespace DropRoom

open Effect Store Prog orphans

namespace sweeps

/-- The storage keys of the `DELETED` records, in the order in which the query returns them. -/
def deletedKeys (w : World) : List Key :=
  ((Snapshot.of 0 w.db).select .files fun _ r => r.status == .deleted).map
    fun r => r.2.storage_key.text

/-- The object of a `DELETED` record is still in storage. -/
def Left (w : World) (key : Key) : Prop := key ∈ deletedKeys w ∧ w.storage.lookup key ≠ none

/-- The job is a `DELETE_FILE_OBJECT`. -/
def isDelete : Job → Bool
  | .deleteFileObject _ => true
  | .roomCleanup _ | .expireUploadSession _ | .sendRoomExpirationEvent _ | .cleanupOrphanedObject _
  | .generateAuditEvent .. => false

/-- A scan, and the `DELETE_FILE_OBJECT` jobs that it has enqueued, run to success. -/
def Sweep (env : Env) (w w'' : World) : Prop :=
  ∃ w', calm.Runs 0 (scheduler.scanOnce env) w (.ok ()) w' ∧
    calm.Runs 0 (((w'.queue.drop w.queue.length).filter isDelete).forM Job.handler) w' (.ok ⟨⟩) w''

/-- Scans and their jobs, one after the other. -/
inductive Sweeps (env : Env) : ℕ → World → World → Prop
  | stop (w : World) : Sweeps env 0 w w
  | more {n w w' w''} (h : Sweeps env n w w') (hnext : Sweep env w' w'') : Sweeps env (n + 1) w w''

/-! ## What a scan enqueues -/

section

variable {env : Env} {σ : Serial}

/-- The keys of the jobs that a scan enqueues: those of the first 500 `DELETED` records that are in
storage. -/
def found (σ : Serial) : List Key :=
  (((σ.db.select .files fun _ r => r.status == .deleted).take 500).map
    fun r => r.2.storage_key.text).filter fun key => (σ.rest.storage.lookup key).isSome

/-- The jobs for the records whose object exists. -/
theorem forM_exists_iff (l : List FileRecord) (Q : Except Err PUnit → Serial → Prop) :
    After (l.forM fun rec_ => do
      if ← storage.exists_ rec_.storage_key.text then
        DropRoom.enqueue (.deleteFileObject (some rec_.storage_key.text))) Q σ ↔
      Q (.ok ⟨⟩) { σ with rest := { σ.rest with
        queue := σ.rest.queue ++ ((l.map fun rec_ => rec_.storage_key.text).filter
          fun key => (σ.rest.storage.lookup key).isSome).map
            fun key => .deleteFileObject (some key) } } := by
  induction l generalizing σ with
  | nil =>
    rw [List.map_nil, List.filter_nil, List.map_nil, List.append_nil]
    exact Iff.rfl
  | cons rec_ l ih =>
    refine (After.bind_iff _ (fun _ => l.forM _) Q).trans ?_
    refine (After.bind_iff _ _ _).trans ((After.exists_iff _ _).trans ?_)
    dsimp only
    rw [List.map_cons]
    by_cases h : (σ.rest.storage.lookup rec_.storage_key.text).isSome = true
    · rw [if_pos h, List.filter_cons, if_pos h, List.map_cons]
      refine (After.enqueue_iff _ _).trans (ih.trans ?_)
      rw [List.append_assoc, List.singleton_append]
    · rw [if_neg h, List.filter_cons, if_neg h]
      exact ih

/-- What the scan reads of the database. -/
theorem after_scanRecords (cutoff : Time) :
    After (scheduler.scanRecords cutoff) (fun r σ' => (∃ keys, r = .ok keys) ∧
      σ'.db = σ.db.rollback ∧ σ'.rest.storage = σ.rest.storage ∧
      ∃ early late, (∀ job ∈ early, isDelete job = false) ∧ (∀ job ∈ late, isDelete job = false) ∧
        σ'.rest.queue = σ.rest.queue ++ (early ++
          (found σ).map (fun key => .deleteFileObject (some key)) ++ late)) σ := by
  refine (After.withSession_iff _ _).2 ?_
  refine (After.bind_iff _ _ _).2 ((After.bind_iff _ _ _).2 ((After.utcnow_iff _).2 ?_))
  refine (After.bind_iff _ _ _).2 ((After.select_iff _ _ _).2 ((After.pure_iff _).2 ?_))
  refine (After.bind_iff _ _ _).2 ((forM_enqueue_iff _ _ _).2 ?_)
  refine (After.bind_iff _ _ _).2 ((After.bind_iff _ _ _).2 ((After.select_iff _ _ _).2 ?_))
  refine (After.pure_iff _).2 ((After.bind_iff _ _ _).2 ((forM_exists_iff _ _).2 ?_))
  refine (After.bind_iff _ _ _).2 ((After.bind_iff _ _ _).2 ((After.select_iff _ _ _).2 ?_))
  refine (After.pure_iff _).2 ((After.bind_iff _ _ _).2 ((forM_enqueue_iff _ _ _).2 ?_))
  refine (After.bind_iff _ _ _).2 ((After.select_iff _ _ _).2 ((After.pure_iff _).2 ?_))
  refine ⟨⟨_, rfl⟩, rfl, rfl,
    (((σ.db.select .rooms fun _ r => roomRepository.pendingCleanup σ.rest.now r).take 100).map
      toRoom).map fun room => .roomCleanup (some room.id),
    (((σ.db.select .files fun _ r => fileRepository.stalePending cutoff r).take 500).map
      toFile).map fun rec_ => .expireUploadSession (some rec_.id), ?_, ?_, ?_⟩
  · intro job hjob
    obtain ⟨room, -, rfl⟩ := List.mem_map.1 hjob
    rfl
  · intro job hjob
    obtain ⟨rec_, -, rfl⟩ := List.mem_map.1 hjob
    rfl
  · simp only [found, List.append_assoc, List.map_map]
    rfl

/-- What a scan enqueues. -/
theorem after_scanOnce : After (scheduler.scanOnce env) (fun r σ' =>
    r = .ok () ∧ σ'.db = σ.db.rollback ∧ σ'.rest.storage = σ.rest.storage ∧
      ((σ'.rest.queue.drop σ.rest.queue.length).filter isDelete) =
        (found σ).map fun key => .deleteFileObject (some key)) σ := by
  refine (After.bind_iff _ _ _).2 ((After.utcnow_iff _).2 ((After.tryCatch_iff _ _).2 ?_))
  refine (After.bind_iff _ _ _).2 ((after_scanRecords _).mono ?_)
  rintro r σ₁ ⟨⟨keys, rfl⟩, hdb, hs, early, late, hearly, hlate, hq⟩
  refine (After.bind_iff _ _ _).2 ((After.listKeys_iff _ _).2 ((forM_enqueue_iff _ _ _).2 ?_))
  refine ⟨rfl, hdb, hs, ?_⟩
  have hnone : ∀ jobs : List Job, (∀ job ∈ jobs, isDelete job = false) →
      jobs.filter isDelete = [] := by
    intro jobs hjobs
    refine List.filter_eq_nil_iff.2 fun job hjob => ?_
    rw [hjobs job hjob]
    exact Bool.false_ne_true
  have hall : ((found σ).map fun key => Job.deleteFileObject (some key)).filter isDelete =
      (found σ).map fun key => .deleteFileObject (some key) := by
    refine List.filter_eq_self.2 fun job hjob => ?_
    obtain ⟨key, -, rfl⟩ := List.mem_map.1 hjob
    rfl
  have horphans : ∀ keys : List Key, ((keys.map fun key => Job.cleanupOrphanedObject (some key)).filter
      isDelete) = [] := by
    intro keys
    refine hnone _ fun job hjob => ?_
    obtain ⟨key, -, rfl⟩ := List.mem_map.1 hjob
    rfl
  dsimp only
  rw [hq, List.append_assoc, List.drop_left, List.filter_append, List.filter_append,
    List.filter_append, hnone early hearly, hnone late hlate, hall, horphans]
  simp

/-- What the jobs do. -/
theorem forM_handler_iff (keys : List Key) (Q : Except Err PUnit → Serial → Prop) :
    After ((keys.map fun key => Job.deleteFileObject (some key)).forM Job.handler) Q σ ↔
      Q (.ok ⟨⟩) { σ with rest := { σ.rest with
        storage := σ.rest.storage.eraseAll (keys.filter (· ≠ [])) } } := by
  induction keys generalizing σ with
  | nil => exact Iff.rfl
  | cons key keys ih =>
    rw [List.map_cons]
    refine (After.bind_iff (Job.handler (.deleteFileObject (some key)))
      (fun _ => List.forM _ Job.handler) Q).trans ?_
    change After (if key = [] then pure () else storage.delete key) _ σ ↔ _
    by_cases h : key = []
    · rw [if_pos h, List.filter_cons, if_neg (by simpa using h)]
      exact ih
    · rw [if_neg h, List.filter_cons, if_pos (by simpa using h)]
      exact (After.delete_iff _ _).trans ih

end

/-! ## What is left after a scan -/

section

variable {env : Env} {w w' w'' : World}

/-- The keys are known from what is committed. -/
theorem deletedKeys_of_eq (h : Snapshot.of 0 w'.db = (Snapshot.of 0 w.db).rollback)
    (hw : w.db.Free) : deletedKeys w' = deletedKeys w := by
  have hrows : (Snapshot.of 0 w.db).rollback = Snapshot.of 0 w.db := by
    refine Snapshot.ext ?_ rfl rfl
    exact (Snapshot.rows_of_free hw).symm
  rw [deletedKeys, h, hrows, deletedKeys]

/-- The objects that a scan and its jobs delete are those of the first 500 `DELETED` records. -/
theorem Sweep.lookup (hw : w.db.Free) (h : Sweep env w w'') :
    w''.db.Free ∧ deletedKeys w'' = deletedKeys w ∧ ∀ key, w''.storage.lookup key =
      if key ∈ (deletedKeys w).take 500 ∧ key ≠ [] then none else w.storage.lookup key := by
  obtain ⟨w', hscan, hjobs⟩ := h
  obtain ⟨-, hdb, hs, hq⟩ := (@after_scanOnce env _).of_runs hscan (hw.alone 0)
  have hw' : w'.db.Free := (settles_scanOnce env).free calm_faithful hscan hw
  have hw'' : w''.db.Free :=
    (Settles.forM (fun job : Job => job.settles) _).free calm_faithful hjobs hw'
  replace hq : (w'.queue.drop w.queue.length).filter isDelete =
      (found (.of 0 w)).map fun key => .deleteFileObject (some key) := hq
  replace hs : w'.storage = w.storage := hs
  rw [hq] at hjobs
  have hend := (@forM_handler_iff (.of 0 w') (found (.of 0 w)) fun _ σ' => σ'.db = .of 0 w'.db ∧
    σ'.rest.storage = w'.storage.eraseAll ((found (.of 0 w)).filter (· ≠ []))).2 ⟨rfl, rfl⟩
  obtain ⟨hdb', hs'⟩ := After.of_runs hend hjobs (hw'.alone 0)
  replace hs' : w''.storage = w'.storage.eraseAll ((found (.of 0 w)).filter (· ≠ [])) := hs'
  refine ⟨hw'', deletedKeys_of_eq (Eq.trans hdb' hdb) hw, fun key => ?_⟩
  rw [hs', hs, Storage.lookup_eraseAll]
  have hmem : key ∈ (found (.of 0 w)).filter (· ≠ []) ↔
      (key ∈ (deletedKeys w).take 500 ∧ key ≠ []) ∧ w.storage.lookup key ≠ none := by
    rw [List.mem_filter, found, List.mem_filter, deletedKeys, ← List.map_take, decide_eq_true_iff,
      Option.isSome_iff_ne_none]
    exact and_right_comm
  by_cases hkey : key ∈ (deletedKeys w).take 500 ∧ key ≠ []
  · rw [if_pos hkey]
    by_cases hs : w.storage.lookup key = none
    · rw [hs, ite_self]
    · exact if_pos (hmem.2 ⟨hkey, hs⟩)
  · rw [if_neg hkey]
    exact if_neg fun h => hkey (hmem.1 h).1

/-- A scan and its jobs run to success. -/
theorem exists_sweep (env : Env) (hw : w.db.Free) : ∃ w'', Sweep env w w'' := by
  obtain ⟨r, w', hscan⟩ := calm_exists_runs (@only_scanOnce env) (by decide) (hw.alone 0)
  obtain ⟨rfl, -, -, hq⟩ := (@after_scanOnce env _).of_runs hscan (hw.alone 0)
  have hw' : w'.db.Free := (settles_scanOnce env).free calm_faithful hscan hw
  have honly : (((w'.queue.drop w.queue.length).filter isDelete).forM Job.handler).Only
      (Issued env (cleanupKinds ++ [.dropFile, .commit, .close])) := by
    refine only_forM (fun job => job.only_handler.mono fun c hc => hc.mono ?_) _
    cases job <;>
    · simp only [Job.kinds]
      decide
  obtain ⟨r, w'', hjobs⟩ := calm_exists_runs honly (by decide) (hw'.alone 0)
  replace hq : (w'.queue.drop w.queue.length).filter isDelete =
      (found (.of 0 w)).map fun key => .deleteFileObject (some key) := hq
  have hok : r = .ok ⟨⟩ := by
    rw [hq] at hjobs
    exact ((@forM_handler_iff (.of 0 w') _ fun r _ => r = .ok ⟨⟩).2 rfl).of_runs hjobs (hw'.alone 0)
  subst hok
  exact ⟨w'', w', hscan, hjobs⟩

/-- The database and the storage after scans and their jobs. -/
theorem Sweeps.lookup (hw : w.db.Free) {n : ℕ} (h : Sweeps env (n + 1) w w'') :
    w''.db.Free ∧ deletedKeys w'' = deletedKeys w ∧ ∀ key, w''.storage.lookup key =
      if key ∈ (deletedKeys w).take 500 ∧ key ≠ [] then none else w.storage.lookup key := by
  induction n generalizing w'' with
  | zero =>
    cases h with
    | more hstop hnext => cases hstop with | stop => exact hnext.lookup hw
  | succ n ih =>
    cases h with
    | more hmore hnext =>
      obtain ⟨hfree, hkeys, hlookup⟩ := ih hmore
      obtain ⟨hfree', hkeys', hlookup'⟩ := hnext.lookup hfree
      refine ⟨hfree', hkeys'.trans hkeys, fun key => ?_⟩
      rw [hlookup', hkeys, hlookup]
      split <;> rfl

end

end sweeps

open sweeps

/-- For every database and storage: one scan with its jobs deletes an object of a `DELETED` record, if
any is left, exactly when one of the first 500 `DELETED` records has an object; and repeated scans
leave none exactly when every object that is left belongs to one of the first 500. -/
theorem sweep_progresses_iff {env : Env} {w : World} (hw : w.db.Free) :
    (∃ w', Sweep env w w') ∧
    (∀ w', Sweep env w w' →
      (((∃ key, Left w key) → ∃ key, Left w key ∧ w'.storage.lookup key = none) ↔
        ((∃ key, Left w key) → ∃ key, Left w key ∧ key ∈ (deletedKeys w).take 500 ∧ key ≠ []))) ∧
    ∀ n w', Sweeps env (n + 1) w w' → ((∀ key, ¬Left w' key) ↔
      ∀ key, Left w key → key ∈ (deletedKeys w).take 500 ∧ key ≠ []) := by
  refine ⟨exists_sweep env hw, fun w' h => imp_congr_right fun _ => exists_congr fun key => ?_,
    fun n w' h => forall_congr' fun key => ?_⟩
  · obtain ⟨-, -, hlookup⟩ := h.lookup hw
    refine and_congr_right fun hleft => ?_
    rw [hlookup]
    constructor
    · intro hnone
      by_contra hkey
      rw [if_neg hkey] at hnone
      exact hleft.2 hnone
    · exact fun hkey => if_pos hkey
  · obtain ⟨-, hkeys, hlookup⟩ := h.lookup hw
    rw [Left, Left, hkeys, hlookup]
    split
    · tauto
    · tauto

namespace sweeps

/-- The `i`-th storage key. -/
def nthKey (i : ℕ) : Uuid := ⟨List.replicate (i + 1) 'a', fun h => by
  cases List.eq_of_mem_replicate h⟩

/-- A room with `n` deleted files, of which the last one still has its object. -/
def deletedFiles (n : ℕ) : World :=
  { World.holding [.plain] [] ((List.range n).map fun i =>
      { FileRow.plain with storage_key := nthKey i, status := .deleted }) with
    storage := AList.insert (nthKey (n - 1)).text [65] ∅ }

/-- The keys of the deleted records. -/
theorem deletedKeys_deletedFiles (n : ℕ) :
    deletedKeys (deletedFiles n) = (List.range n).map fun i => (nthKey i).text := by
  have hcount : (Snapshot.of 0 (deletedFiles n).db).count .files = n := by
    simp [Snapshot.of, deletedFiles, World.holding, committedRows]
  have hrows : ∀ i < n, (Snapshot.of 0 (deletedFiles n).db).rows .files i =
      some { FileRow.plain with storage_key := nthKey i, status := .deleted } := by
    intro i hi
    simp [Snapshot.of, Tables.get, Tables.cell, deletedFiles, World.holding, committedRows, hi,
      Cell.view]
  rw [deletedKeys, Snapshot.select, hcount, List.map_filterMap, ← List.filterMap_eq_map]
  refine List.filterMap_congr fun i hi => ?_
  rw [hrows i (List.mem_range.1 hi)]
  rfl

/-- Of a storage with one object the object is left if a `DELETED` record has its key. -/
theorem left_deletedFiles {n : ℕ} (hn : 0 < n) {key : Key} :
    Left (deletedFiles n) key ↔ key = (nthKey (n - 1)).text := by
  rw [Left, deletedKeys_deletedFiles]
  constructor
  · rintro ⟨-, hstored⟩
    by_contra hkey
    exact hstored (AList.lookup_insert_ne hkey)
  · rintro rfl
    refine ⟨List.mem_map.2 ⟨n - 1, List.mem_range.2 (by omega), rfl⟩, ?_⟩
    rw [deletedFiles, AList.lookup_insert]
    exact Option.some_ne_none _

/-- The keys are told apart by their numbers. -/
theorem nthKey_text_inj {i j : ℕ} (h : (nthKey i).text = (nthKey j).text) : i = j := by
  have hlen := congrArg List.length h
  simp only [nthKey, List.length_replicate] at hlen
  omega

end sweeps

/-- Two deleted files, the second of which still has its object: the scan and its job delete it. -/
theorem sweep_progresses_two :
    ∃ w', Sweep .plain (deletedFiles 2) w' ∧ (nthKey 1).text ∈ deletedKeys (deletedFiles 2) ∧
      w'.storage.lookup (nthKey 1).text = none := by
  obtain ⟨⟨w', h⟩, hone, hall⟩ := @sweep_progresses_iff .plain (deletedFiles 2) World.holding_free
  have hleft : Left (deletedFiles 2) (nthKey 1).text := (left_deletedFiles (by decide)).2 rfl
  have hfirst : (nthKey 1).text ∈ (deletedKeys (deletedFiles 2)).take 500 := by
    rw [deletedKeys_deletedFiles]
    decide
  obtain ⟨key, hkey, hnone⟩ := (hone w' h).2 (fun _ => ⟨_, hleft, hfirst, by decide⟩) ⟨_, hleft⟩
  rw [(left_deletedFiles (by decide)).1 hkey] at hnone
  exact ⟨w', h, hleft.1, hnone⟩

/-- Behind 500 deleted files whose objects are gone, the object of one more is never deleted, however
many scans there are. -/
theorem sweep_starves :
    ∃ w, w.db.Free ∧ Left w (nthKey 500).text ∧ (∃ w', Sweep .plain w w') ∧
      (∀ w', Sweep .plain w w' → ∀ key, Left w key → w'.storage.lookup key ≠ none) ∧
      ∀ n w', Sweeps .plain (n + 1) w w' → Left w' (nthKey 500).text := by
  have hfree : (deletedFiles 501).db.Free := World.holding_free
  have hleft : ∀ {key}, Left (deletedFiles 501) key ↔ key = (nthKey 500).text :=
    left_deletedFiles (by decide)
  have hbehind : (nthKey 500).text ∉ (deletedKeys (deletedFiles 501)).take 500 := by
    rw [deletedKeys_deletedFiles, ← List.map_take, List.take_range, List.mem_map]
    rintro ⟨i, hi, hkey⟩
    have hlt := List.mem_range.1 hi
    have heq := nthKey_text_inj hkey
    omega
  refine ⟨deletedFiles 501, hfree, hleft.2 rfl, exists_sweep _ hfree, fun w' h key hkey => ?_,
    fun n w' h => ?_⟩
  · obtain ⟨-, -, hlookup⟩ := h.lookup hfree
    obtain rfl := hleft.1 hkey
    rw [hlookup, if_neg fun h => hbehind h.1]
    exact hkey.2
  · obtain ⟨-, hkeys, hlookup⟩ := h.lookup hfree
    rw [Left, hkeys, hlookup, if_neg fun h => hbehind h.1]
    exact hleft.2 rfl

end DropRoom
