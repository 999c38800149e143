import DropRoom.Files.Custody

/-!
# What may be done to the vault

What each task is allowed (`Allowed`), by the checks that it makes and the jobs that are queued; how
the changes of rows that the services commit are steps of the vault; and which objects each service
writes and deletes (`Handles`).
-/

namespace DropRoom

open Effect Store Prog uploadService

/-- What a member of the room may do to its files by a request. -/
inductive MemberMay (room_token : Token) (room : Room) (actor : SessionRecord) :
    Route → Vault.Act → Prop
  | reserveUpload (h : MayUpload room actor) (name type chunks f) :
      MemberMay room_token room actor (.upload room_token name type chunks) (.reserve room.id f)
  | confirmUpload (h : MayUpload room actor) (name type chunks f) :
      MemberMay room_token room actor (.upload room_token name type chunks) (.confirm room.id f)
  | reserve (h : MayUpload room actor) (body f) :
      MemberMay room_token room actor (.createUploadSession room_token body) (.reserve room.id f)
  | stage (f : ℕ) (index body) :
      MemberMay room_token room actor (.uploadChunk room_token f index body) (.stage room.id f)
  | confirm (h : MayUpload room actor) (f : ℕ) (body) :
      MemberMay room_token room actor (.completeUploadSession room_token f body)
        (.confirm room.id f)
  | abort (f : ℕ) :
      MemberMay room_token room actor (.abortUploadSession room_token f) (.abort room.id f)
  | release (h : actor.role = .owner) (f : ℕ) :
      MemberMay room_token room actor (.deleteFile room_token f) (.release room.id f)
  | lose (h : actor.role = .owner) (f : ℕ) :
      MemberMay room_token room actor (.deleteFile room_token f) (.lose room.id f)
  | close (h : actor.role = .owner) :
      MemberMay room_token room actor (.deleteRoom room_token) (.close room.id)
  | loseAll (h : actor.role = .owner) (f : ℕ) :
      MemberMay room_token room actor (.deleteRoom room_token) (.lose room.id f)

/-- What a task may do to the vault. -/
inductive Allowed (env : Env) (σ : Serial) : Task → Vault.Act → Prop
  | scratch (task) : Allowed env σ task .scratch
  | opens (body request) : Allowed env σ (.request (.createRoom body) request) .opens
  | member {room_token request session room route act}
      (hm : After.Member env room_token request σ session room)
      (hmay : MemberMay room_token room session route act) :
      Allowed env σ (.request route request) act
  | expire {jobs ρ f} (h : .expireUploadSession (some f) ∈ σ.rest.queue) :
      Allowed env σ (.worker jobs) (.expire ρ f)
  | close {jobs ρ} (h : .roomCleanup (some ρ) ∈ σ.rest.queue) :
      Allowed env σ (.worker jobs) (.close ρ)
  | lose {jobs ρ f} (h : .roomCleanup (some ρ) ∈ σ.rest.queue) :
      Allowed env σ (.worker jobs) (.lose ρ f)

/-! ## Confirmed records -/

section

variable {env : Env} {σ σ' : Serial} {ok : Vault.Act → Prop} {ρ f : ℕ} {v : FileRow} {data : Bytes}

/-- The room that is charged for a confirmed record. -/
theorem Confirms.charges {b b' : Books} {room : Room} (hc : Confirms env b b' room f v) :
    ∃ row, b .rooms room.id = some row ∧ row.status = .active ∧
      ((claimOf env v.size_bytes).set row).account = row.account.add v.size_bytes 1 := by
  obtain ⟨row, hrow, happlies⟩ := hc.active
  refine ⟨row, hrow, ?_, rfl⟩
  simp only [claimOf, RoomUpdate.applies, Bool.and_eq_true, beq_iff_eq] at happlies
  exact happlies.1.1

/-- A pending record is confirmed. -/
theorem refines_confirm {room : Room} (hscratch : ok .scratch) (hok : ok (.confirm room.id f))
    (hd : σ.Draws σ') (hs : σ.Scratches σ') {old : FileRow} (hrow : σ.db.saved .files f = some old)
    (hpending : old.status = .pending) (hroom : old.room_id = room.id)
    (hc : Confirms env σ.db.saved σ'.db.saved room f v) (hkey : v.storage_key = old.storage_key)
    (hlength : v.size_bytes = data.length)
    (hdata : σ'.rest.storage.lookup old.storage_key.text = some data) : Refines ok σ σ' := by
  obtain ⟨row, hcharged, hactive, haccount⟩ := hc.charges
  refine refines_change hscratch hok hd hc.change hs (fun r' hr' => ?_) fun h h' => ?_
  · cases hr'
    exact .inl ⟨old, hrow, hkey, hc.room_id.trans hroom.symm, fun hdeleted => by
      rw [hpending] at hdeleted
      cases hdeleted⟩
  · have hentry : (σ.vault h).entries.entry f = some old.entry := congrArg (Option.map _) hrow
    have hnew : v.entry = { old.entry with status := .confirmed, size_bytes := data.length } := by
      unfold FileRow.entry
      rw [hc.room_id, hkey, hc.status, hlength, hroom]
    rw [← hroom]
    refine .confirm (e := old.entry) (a := row.account) hentry hpending ?_ hactive
      hdata ?_ ?_ rfl
    · rw [← hroom] at hcharged
      exact congrArg (Option.map _) hcharged
    · have hafter := account_of_change hc.change hcharged h h'
      rw [haccount, hlength, ← hroom] at hafter
      exact hafter
    · have hafter := entry_of_change hc.change h h'
      rw [Option.map_some, hnew] at hafter
      exact hafter

/-- A record is made and confirmed at once. -/
theorem refines_upload {room : Room} (hscratch : ok .scratch) (hreserve : ok (.reserve room.id f))
    (hok : ok (.confirm room.id f)) (hd : σ.Draws σ') (hs : σ.Scratches σ')
    (hf : f = σ.db.count .files) (hc : Confirms env σ.db.saved σ'.db.saved room f v)
    (hkey : v.storage_key = σ.rest.uuids σ.rest.uuidsUsed)
    (hused : σ.rest.uuidsUsed < σ'.rest.uuidsUsed) (hlength : v.size_bytes = data.length)
    (hdata : σ'.rest.storage.lookup v.storage_key.text = some data) : Refines ok σ σ' := by
  intro h
  obtain ⟨row, hcharged, hactive, haccount⟩ := hc.charges
  have h' : Sound σ' := h.change hd hc.change (hs.unused h hd) fun r' hr' => by
    cases hr'
    exact .inr ⟨hused, hkey, row, hc.room_id ▸ hcharged⟩
  refine ⟨h', Vault.Run.upload (f := f) (e := ⟨room.id, v.storage_key, .pending, 0⟩)
    (a := row.account) hscratch hreserve hok hf.ge rfl ?_ hactive ?_ hdata ?_ ?_
    fun i e => objects_of_scratches hs h h'⟩
  · exact congrArg (Option.map _) hcharged
  · -- The key was drawn just now.
    intro g e' he'
    obtain ⟨r, hr, rfl⟩ := Option.map_eq_some_iff.1 he'
    obtain ⟨n, hn, hdrawn⟩ := h.drawn g r hr
    intro hsame
    have heq := h.injective (hdrawn.symm.trans (hsame.trans hkey))
    omega
  · have hafter := account_of_change hc.change hcharged h h'
    rw [haccount, hlength] at hafter
    exact hafter
  · have hafter := entry_of_change hc.change h h'
    have hnew : v.entry = ⟨room.id, v.storage_key, .confirmed, data.length⟩ := by
      unfold FileRow.entry
      rw [hc.room_id, hc.status, hlength]
    rw [Option.map_some, hnew] at hafter
    exact hafter

/-- A pending record is made. -/
theorem refines_reserve {room_id : ℕ} (hscratch : ok .scratch) (hok : ok (.reserve room_id f))
    (hd : σ.Draws σ') (hs : σ.Scratches σ') (hf : f = σ.db.count .files)
    (hroom : v.room_id = room_id) (hpending : v.status = .pending)
    (hexists : ∃ room, σ.db.saved .rooms room_id = some room)
    (hkey : v.storage_key = σ.rest.uuids σ.rest.uuidsUsed)
    (hused : σ.rest.uuidsUsed < σ'.rest.uuidsUsed)
    (hc : Change σ.db.saved σ'.db.saved f (some v) ρ id) : Refines ok σ σ' := by
  refine refines_change hscratch hok hd hc hs (fun r' hr' => ?_) fun h h' => ?_
  · cases hr'
    exact .inr ⟨hused, hkey, hroom ▸ hexists⟩
  · rw [← hroom]
    exact .reserve (e := v.entry) hf.ge hpending (account_of_id hc h h') (entry_of_change hc h h') rfl

/-- More of a pending record is there. -/
theorem refines_stage (hscratch : ok .scratch) (hok : ok (.stage v.room_id f)) (hd : σ.Draws σ')
    (hs : σ.Scratches σ') (hrow : σ.db.saved .files f = some v) (hpending : v.status = .pending)
    {n : ℕ} (hc : Change σ.db.saved σ'.db.saved f (some { v with size_bytes := n }) ρ id) :
    Refines ok σ σ' := by
  refine refines_change hscratch hok hd hc hs (fun r' hr' => ?_) fun h h' => ?_
  · cases hr'
    exact .inl ⟨v, hrow, rfl, rfl, id⟩
  · exact .stage (e := v.entry) (congrArg (Option.map _) hrow) hpending (account_of_id hc h h')
      (entry_of_change hc h h') rfl

/-- A record is struck out. -/
theorem refines_abort (hscratch : ok .scratch) (hok : ok (.abort v.room_id f)) (hd : σ.Draws σ')
    (hs : σ.Scratches σ') (hrow : σ.db.saved .files f = some v)
    (hc : Change σ.db.saved σ'.db.saved f none ρ id) : Refines ok σ σ' := by
  refine refines_change hscratch hok hd hc hs (fun r' hr' => by cases hr') fun h h' => ?_
  exact .abort (e := v.entry) (congrArg (Option.map _) hrow) (account_of_id hc h h')
    (entry_of_change hc h h') rfl

/-- A pending record is struck out. -/
theorem refines_expire (hscratch : ok .scratch) (hok : ok (.expire v.room_id f)) (hd : σ.Draws σ')
    (hs : σ.Scratches σ') (hrow : σ.db.saved .files f = some v) (hpending : v.status = .pending)
    (hc : Change σ.db.saved σ'.db.saved f none ρ id) : Refines ok σ σ' := by
  refine refines_change hscratch hok hd hc hs (fun r' hr' => by cases hr') fun h h' => ?_
  exact .expire (e := v.entry) (congrArg (Option.map _) hrow) hpending (account_of_id hc h h')
    (entry_of_change hc h h') rfl

/-! ## Objects that are deleted -/

/-- Objects of records of a room are deleted, and nothing is committed. -/
theorem refines_erased (keys : List Key) (hscratch : ok .scratch) (hd : σ.Draws σ')
    (hsaved : σ'.db.saved = σ.db.saved)
    (hkeys : ∀ key ∈ keys, ∃ f r, σ.db.saved .files f = some r ∧ ok (.lose r.room_id f) ∧
      key = r.storage_key.text)
    (hs : ∀ key, σ'.rest.storage.lookup key = (σ.rest.storage.eraseAll keys).lookup key) :
    Refines ok σ σ' := by
  induction keys generalizing σ with
  | nil =>
    refine refines_scratch hscratch hd ⟨fun f r _ _ => hs _, fun n _ => hs _⟩ ?_ ?_
    · exact fun _ => by rw [hsaved]
    · exact fun _ => by rw [hsaved]
  | cons key keys ih =>
    obtain ⟨f, r, hrow, hlose, rfl⟩ := hkeys key List.mem_cons_self
    -- The first object goes, then the others.
    let σ₁ : Serial := { σ with rest := { σ.rest with
      storage := σ.rest.storage.erase r.storage_key.text } }
    have hrest : Refines ok σ₁ σ' := ih ⟨hd.uuids, hd.uuidsUsed, hd.count, hd.queue⟩ hsaved
      (fun k hk => hkeys k (List.mem_cons_of_mem _ hk)) hs
    refine .trans (fun h => ?_) hrest
    have hd₁ : σ.Draws σ₁ := .of_eq rfl rfl rfl rfl
    have hlookup : ∀ k, k ≠ r.storage_key.text →
        σ₁.rest.storage.lookup k = σ.rest.storage.lookup k := fun k hk => AList.lookup_erase_ne hk
    have hself : σ₁.rest.storage.lookup r.storage_key.text = none := AList.lookup_erase ..
    have h₁ : Sound σ₁ := by
      refine h.of_entries hd₁ (fun n hn => ?_) (fun _ hroom => hroom) fun _ => rfl
      by_cases hkey : (σ.rest.uuids n).text = r.storage_key.text
      · rw [hkey, hself]
      · rw [hlookup _ hkey, h.unused n hn]
    by_cases hconfirmed : r.status = .confirmed
    · refine ⟨h₁, .single hlose ⟨le_rfl, .lose (e := r.entry) (congrArg (Option.map _) hrow)
        hconfirmed rfl rfl ?_⟩⟩
      funext k
      change _ = Function.update (σ.vault h).objects r.storage_key.text none k
      by_cases hk : k = r.storage_key.text
      · rw [hk, Function.update_self]
        exact hself
      · rw [Function.update_of_ne hk]
        exact hlookup k hk
    · refine ⟨h₁, .single hscratch ⟨le_rfl, .scratch rfl rfl fun g e he hc => ?_⟩⟩
      obtain ⟨r', hrow', rfl⟩ := Option.map_eq_some_iff.1 he
      refine hlookup _ fun htext => hconfirmed ?_
      obtain rfl := h.distinct g f r' r hrow' hrow (Uuid.eq_of_text htext)
      obtain rfl := Option.some.inj (hrow'.symm.trans hrow)
      exact hc

/-- A confirmed record is marked DELETED, its room is credited, and its object is deleted. -/
theorem refines_release (hscratch : ok .scratch) (hok : ok (.release v.room_id f)) (hd : σ.Draws σ')
    (hrow : σ.db.saved .files f = some v) (hconfirmed : v.status = .confirmed)
    (hc : Change σ.db.saved σ'.db.saved f (some { v with status := .deleted }) v.room_id
      (releaseOf v.size_bytes).set)
    (hs : ∀ key, key ≠ v.storage_key.text →
      σ'.rest.storage.lookup key = σ.rest.storage.lookup key) : Refines ok σ σ' := by
  intro h
  obtain ⟨row, hroom⟩ := h.owned f v hrow
  have h' : Sound σ' := by
    refine h.change hd hc (fun n hn => ?_) fun r' hr' => ?_
    · have hle := hd.uuidsUsed
      refine (hs _ fun htext => ?_).trans (h.unused n (hle.trans hn))
      obtain ⟨m, hm, hdrawn⟩ := h.drawn f v hrow
      have heq := h.injective ((Uuid.eq_of_text htext).trans hdrawn)
      omega
    · cases hr'
      exact .inl ⟨v, hrow, rfl, rfl, fun _ => rfl⟩
  have hentry := entry_of_change hc h h'
  have haccount := account_of_change hc hroom h h'
  refine ⟨h', .scratch_last hscratch hok (hd.count .files) (fun g e he hce => ?_)
    (.release (e := v.entry) (a := row.account) (congrArg (Option.map _) hrow) hconfirmed
      (congrArg (Option.map _) hroom) haccount hentry rfl)⟩
  -- A record that is still confirmed is another one, and has another key.
  obtain ⟨r, hr, rfl⟩ := Option.map_eq_some_iff.1 he
  refine hs _ fun htext => ?_
  rw [hc.files] at hr
  split at hr
  · cases hr
    cases hce
  · next hg => exact hg (h.distinct g f r v hr hrow (Uuid.eq_of_text htext))

/-- A room is wiped with its records, and their objects are deleted. -/
theorem refines_close (hscratch : ok .scratch) (hok : ok (.close ρ)) (hd : σ.Draws σ') {row : RoomRow}
    (hrow : σ.db.saved .rooms ρ = some row)
    (hsaved : ∀ t i, σ'.db.saved t i = wiped ρ t i (σ.db.saved t i))
    (hs : ∀ key, (∀ f r, σ.db.saved .files f = some r → r.room_id = ρ →
      key ≠ r.storage_key.text) → σ'.rest.storage.lookup key = σ.rest.storage.lookup key) :
    Refines ok σ σ' := by
  intro h
  have hfiles : ∀ i r, σ'.db.saved .files i = some r →
      σ.db.saved .files i = some r ∧ r.room_id ≠ ρ := by
    intro i r hr
    rw [hsaved] at hr
    obtain ⟨hr, hroom⟩ := Option.filter_eq_some_iff.1 hr
    exact ⟨hr, by simpa using hroom⟩
  -- The keys that are still to be drawn are not those of the room.
  have hfresh : ∀ n, σ.rest.uuidsUsed ≤ n → ∀ f r, σ.db.saved .files f = some r → r.room_id = ρ →
      (σ.rest.uuids n).text ≠ r.storage_key.text := by
    intro n hn f r hr _ htext
    obtain ⟨m, hm, hdrawn⟩ := h.drawn f r hr
    have heq := h.injective ((Uuid.eq_of_text htext).trans hdrawn)
    omega
  have hle := hd.uuidsUsed
  -- The rows are sound: none is new, and no room is gone.
  have h' : Sound σ' := by
    refine h.step (f := 0) hd (fun n hn => ?_) ?_ (fun i r hr => ?_) fun i r hr hkey => ?_
    · rw [hs _ (hfresh n (hle.trans hn)), h.unused n (hle.trans hn)]
    · rintro i ⟨room, hroom⟩
      rw [hsaved]
      by_cases hi : i = ρ
      · exact ⟨{ room with status := .deleted }, by simp only [wiped, if_pos hi, hroom, Option.map_some]⟩
      · exact ⟨room, by simp only [wiped, if_neg hi, hroom]⟩
    · exact .inl ⟨r, (hfiles i r hr).1, rfl, rfl, id⟩
    · obtain ⟨m, hm, hdrawn⟩ := h.drawn i r (hfiles i r hr).1
      have heq := h.injective (hdrawn.symm.trans hkey)
      omega
  refine ⟨h', .scratch_last hscratch hok (hd.count .files) (fun g e he hce => ?_)
    (.close (a := row.account) (congrArg (Option.map _) hrow) ?_ (fun i => ?_) rfl)⟩
  · -- A record that is left belongs to another room, so its key is another.
    obtain ⟨r, hr, rfl⟩ := Option.map_eq_some_iff.1 he
    obtain ⟨hr, hroom⟩ := hfiles g r hr
    refine hs _ fun f r' hr' hroom' htext => hroom ?_
    obtain rfl := h.distinct g f r r' hr hr' (Uuid.eq_of_text htext)
    obtain rfl := Option.some.inj (hr.symm.trans hr')
    exact hroom'
  -- The account of the room is closed, and the others stay.
  · funext i
    change (σ'.db.saved .rooms i).map RoomRow.account = _
    rw [hsaved]
    by_cases hi : i = ρ
    · subst hi
      rw [Function.update_self, hrow]
      simp only [wiped, if_true, Option.map_some]
      rfl
    · rw [Function.update_of_ne hi]
      simp only [wiped, if_neg hi]
      rfl
  -- The entries of the room go with it.
  · change (σ'.db.saved .files i).map FileRow.entry =
      ((σ.db.saved .files i).map FileRow.entry).filter fun e => e.room_id != ρ
    rw [hsaved]
    cases σ.db.saved .files i with
    | none => rfl
    | some r =>
      by_cases hr : r.room_id = ρ
      · simp [wiped, Option.filter, FileRow.entry, hr]
      · simp [wiped, Option.filter, FileRow.entry, hr]

/-- Rooms are opened, and nothing else changes. -/
theorem refines_opens (hok : ok .opens) (hd : σ.Draws σ')
    (hrooms : ∀ i, (σ'.db.saved .rooms i).map RoomRow.account =
        (σ.db.saved .rooms i).map RoomRow.account ∨
      σ.db.saved .rooms i = none ∧
        (σ'.db.saved .rooms i).map RoomRow.account = some ⟨.active, 0, 0⟩)
    (hfiles : ∀ i, (σ'.db.saved .files i).map FileRow.entry =
      (σ.db.saved .files i).map FileRow.entry)
    (hs : σ'.rest.storage = σ.rest.storage) : Refines ok σ σ' := by
  intro h
  have h' : Sound σ' := by
    refine h.of_entries hd (fun n hn => ?_) ?_ hfiles
    · rw [hs]
      exact h.unused n (hd.uuidsUsed.trans hn)
    · rintro i ⟨room, hroom⟩
      rcases hrooms i with hkept | ⟨hnone, -⟩
      · rw [hroom, Option.map_some] at hkept
        obtain ⟨room', hroom', -⟩ := Option.map_eq_some_iff.1 hkept
        exact ⟨room', hroom'⟩
      · rw [hroom] at hnone
        cases hnone
  refine ⟨h', .single hok ⟨hd.count .files, .opens (fun i => ?_) (funext hfiles) ?_⟩⟩
  · rcases hrooms i with hkept | ⟨hnone, hopened⟩
    · exact .inl hkept
    · exact .inr ⟨congrArg (Option.map _) hnone, hopened⟩
  · funext key
    change σ'.rest.storage.lookup key = _
    rw [hs]
    rfl

end

/-! ## What the services write and delete -/

section

variable {env : Env} {T : Key → Prop} {room : Room} {actor : SessionRecord} {rec_ : FileRecord}

/-- Deleting a record touches no object. -/
theorem handles_deleteRecord {i : ℕ} : Handles T (fileRepository.deleteRecord i) :=
  .of_only Env.plain [.dropFile] (only_deleteRecord (by decide) _) (by decide) (by decide) (by decide)

/-- Claiming quota touches no object. -/
theorem handles_claimQuota {i n : ℕ} : Handles T (claimQuota env i n) :=
  .of_only env [.claim] (only_claimQuota (by decide) _ _) (by decide) (by decide) (by decide)

/-- Writing a record back touches no object. -/
theorem handles_fileFlush {loaded new : FileRecord} : Handles T (fileRepository.flush loaded new) :=
  .of_only Env.plain [.flushFile] (only_fileFlush (by decide) _ _) (by decide) (by decide)
    (by decide)

/-- An audit event touches no object. -/
theorem handles_createAuditEvent {room_id : Option ℕ} {event_type : String} :
    Handles T (roomRepository.createAuditEvent room_id event_type) :=
  .of_only Env.plain [.newAudit] (only_createAuditEvent (by decide) _ _) (by decide) (by decide)
    (by decide)

/-- A new record touches no object. -/
theorem handles_createFileRecord {ρ : ℕ} {name : String} {key : Uuid} {type : Option String}
    {by_ : Option ℕ} {at_ : Time} :
    Handles T (fileRepository.createFileRecord ρ name key type by_ at_) :=
  .of_only Env.plain [.newFile] (only_createFileRecord (by decide) _ _ _ _ _ _) (by decide)
    (by decide) (by decide)

/-- The cleanup of a failed upload deletes its object. -/
theorem handles_cleanupFailedUpload {i : ℕ} {key : Uuid} (hkey : T key.text) :
    Handles T (fileService.cleanupFailedUpload i key) :=
  .bind (.delete hkey) fun _ => .bind handles_deleteRecord fun _ => .pure _

/-- `upload_file` writes and deletes only the object of its new record. -/
theorem handles_uploadFile {name type : Option String} {chunks : fileService.Source} :
    Handles (fun _ => False) (fileService.uploadFile env room actor name type chunks) := by
  unfold fileService.uploadFile
  refine .bind (.bind .require fun _ => .require) fun _ => .uuid4_bind fun u => ?_
  refine .bind handles_createFileRecord fun rec_ => .bind (.tryCatch ?_ fun e => ?_) fun s => ?_
  · unfold fileService.putSource
    split
    · exact .raise _
    · refine .bind .require fun _ => .bind (.put (.inr rfl)) fun _ => ?_
      split
      · exact .pure _
      · exact .raise _
  · refine .bind (handles_cleanupFailedUpload (.inr rfl)) fun _ => ?_
    split <;> exact .raise _
  · refine .bind .require fun _ => .bind handles_claimQuota fun claimed => ?_
    split
    · exact .bind handles_fileFlush fun _ => .bind handles_createAuditEvent fun _ => .pure _
    · exact .bind (handles_cleanupFailedUpload (.inr rfl)) fun _ => .raise _

/-- `create_upload_session` writes and deletes no object. -/
theorem handles_createUploadSession {name type : Option String} {size chunks : ℕ} :
    Handles T (createUploadSession env room actor name type size chunks) :=
  .of_only env [.newFile, .flushFile] (only_createUploadSession (by decide) (by decide) _ _ _ _ _ _)
    (by decide) (by decide) (by decide)

/-- `store_chunk` writes a part. -/
theorem handles_storeChunk {index : ℕ} {chunk : Bytes} :
    Handles Key.OfPart (storeChunk env rec_ index chunk) := by
  unfold storeChunk
  refine .bind .require fun _ => .bind .require fun _ => .bind .require fun _ => ?_
  refine .bind (.put ⟨rec_.storage_key, partPrefix_isPrefix_partKey _ _⟩) fun _ => ?_
  exact .bind handles_fileFlush fun _ => .pure _

/-- Deleting parts, and the object of a record. -/
theorem handles_cleanupUploadParts (hpart : ∀ key, Key.OfPart key → T key) :
    Handles T (cleanupUploadParts rec_) :=
  .listKeys_bind fun _ hkeys => .forM_delete fun key hkey => hpart key ⟨_, hkeys key hkey⟩

/-- `complete_upload_session` writes the object of its record, and deletes parts. -/
theorem handles_completeUploadSession {n : ℕ} :
    Handles (fun key => Key.OfPart key ∨ key = rec_.storage_key.text ∧ rec_.status = .pending)
      (completeUploadSession env room actor rec_ n) := by
  unfold completeUploadSession
  refine .bind .require fun _ => .bind (.bind .require fun _ => .require) fun _ => ?_
  refine .require_bind fun hpending => ?_
  have hself : Key.OfPart rec_.storage_key.text ∨
      rec_.storage_key.text = rec_.storage_key.text ∧ rec_.status = .pending := .inr ⟨rfl, hpending⟩
  refine .listKeys_bind fun keys hkeys => .bind .require fun _ => ?_
  have hparts : ∀ key ∈ parts keys n, Key.OfPart key ∨
      key = rec_.storage_key.text ∧ rec_.status = .pending := fun key hkey =>
    .inl ⟨_, hkeys key (mem_of_mem_parts hkey)⟩
  unfold assembleUpload
  refine .bind (.tryCatch ?_ fun _ => .bind (.delete hself) fun _ => .raise _) fun s => ?_
  · refine .bind (.of_only env [] (only_merged _) (by decide) (by decide) (by decide)) fun data => ?_
    refine .bind (.put hself) fun _ => .bind (.of_only env [] (only_getStream _) (by decide) (by decide)
      (by decide)) fun _ => .pure _
  · obtain ⟨total, first⟩ := s
    dsimp only
    split
    · exact .bind (.delete hself) fun _ => .raise _
    split
    · exact .bind (.delete hself) fun _ => .raise _
    unfold confirmUpload
    refine .bind handles_claimQuota fun claimed => ?_
    split
    · refine .bind handles_fileFlush fun _ => .bind handles_createAuditEvent fun _ => ?_
      exact .bind (.forM_delete hparts) fun _ => .pure _
    · exact .bind (.delete hself) fun _ => .bind (.forM_delete hparts) fun _ => .raise _

/-- `abort_upload_session` deletes parts. -/
theorem handles_abortUploadSession : Handles Key.OfPart (abortUploadSession room rec_) := by
  unfold abortUploadSession
  refine .bind .require fun _ => .bind (handles_cleanupUploadParts fun _ h => h) fun _ => ?_
  exact .bind handles_deleteRecord fun _ => .bind handles_createAuditEvent fun _ => .pure _

end

end DropRoom
