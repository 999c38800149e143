import DropRoom.Rooms.Forgery

/-!
# The switch for guest uploads

While a room has `guest_upload_enabled` off, `_authorize_upload` and `_authorize_chunked_upload`
refuse its guests; `store_chunk` asks neither. So the guests add nothing to the files as long as none
of their requests is a chunk that is accepted.
-/

namespace DropRoom

open Effect Store Prog uploadService

namespace guests

/-- The request comes with the cookie of a guest of the room. -/
def ByGuest (env : Env) (room_id : ℕ) (request : Request)
    (rows : (t : Table) → ℕ → Option (Row t)) : Prop :=
  ∃ token i row, roomService.truthy request.session_cookie = some token ∧
    rows .sessions i = some row ∧ row.session_token_hash = env.hash_token token ∧
    row.room_id = room_id ∧ row.role = .guest

/-- The room does not let guests upload. -/
def Off (room_id : ℕ) (rows : (t : Table) → ℕ → Option (Row t)) : Prop :=
  ∃ row, rows .rooms room_id = some row ∧ row.guest_upload_enabled = false

/-- What the requests of a guest may make of a row: the switch stays as it is, and no file is added,
confirmed or changed in size. -/
def Bounded : (t : Table) → ℕ → Option (Row t) → Option (Row t) → Prop
  | .files, _, v, v' => ∀ row', v' = some row' → ∃ row, v = some row ∧
      row'.size_bytes = row.size_bytes ∧ (row'.status = .confirmed → row.status = .confirmed)
  | .rooms, _, v, v' => ∀ row, v = some row → ∃ row', v' = some row' ∧
      row'.guest_upload_enabled = row.guest_upload_enabled
  | .sessions, _, _, _ => True
  | .messages, _, _, _ => True
  | .auditEvents, _, _, _ => True

/-- A row that stays. -/
theorem Bounded.refl (t : Table) (i : ℕ) (v : Option (Row t)) : Bounded t i v v := by
  cases t with
  | files => exact fun row hrow => ⟨row, hrow, rfl, id⟩
  | rooms => exact fun row hrow => ⟨row, hrow, rfl⟩
  | _ => trivial

/-- Two changes within the bounds. -/
theorem Bounded.trans {t : Table} {i : ℕ} {v₁ v₂ v₃ : Option (Row t)} (h : Bounded t i v₁ v₂)
    (h' : Bounded t i v₂ v₃) : Bounded t i v₁ v₃ := by
  cases t with
  | files =>
    intro row₃ hrow₃
    obtain ⟨row₂, hrow₂, hsize', hconfirmed'⟩ := h' row₃ hrow₃
    obtain ⟨row₁, hrow₁, hsize, hconfirmed⟩ := h row₂ hrow₂
    exact ⟨row₁, hrow₁, hsize'.trans hsize, fun hc => hconfirmed (hconfirmed' hc)⟩
  | rooms =>
    intro row₁ hrow₁
    obtain ⟨row₂, hrow₂, hflag⟩ := h row₁ hrow₁
    obtain ⟨row₃, hrow₃, hflag'⟩ := h' row₂ hrow₂
    exact ⟨row₃, hrow₃, hflag'.trans hflag⟩
  | _ => trivial

/-- The kinds of commands that add to the files, or turn the switch. -/
def adding : List Kind := [.put, .newFile, .flushFile, .fields]

section

variable {env : Env} {K : List Kind}

/-- A statement that adds nothing. -/
theorem confined_bounded (hK : ∀ k ∈ adding, k ∉ K) : Confined (Issued env K) Bounded where
  refl := Bounded.refl
  trans _ _ _ _ _ := Bounded.trans
  updateAt t i u r hc hu := by
    have hnew : ∀ k ∈ K, k ∉ adding := fun k hk hadding => hK k hadding hk
    cases hc with
    | flushFile hk => exact absurd (by decide) (hnew _ hk)
    | fields hk => exact absurd (by decide) (hnew _ hk)
    | markFileDeleted =>
      rintro row' ⟨⟩
      exact ⟨r, rfl, rfl, fun hconfirmed => by cases hconfirmed⟩
    | countDownload =>
      rintro row' ⟨⟩
      exact ⟨r, rfl, rfl, id⟩
    | renewSession => trivial
    | expireSession => trivial
    | _ =>
      rintro row ⟨⟩
      exact ⟨_, rfl, rfl⟩
  deleteWhere t d i r hc hd := by
    cases hc with
    | dropFile => rintro row' ⟨⟩
    | dropFiles => rintro row' ⟨⟩
    | _ => trivial
  insert t i r hc := by
    cases hc with
    | newFile hk => exact absurd hk (hK _ (by decide))
    | newRoom => rintro row ⟨⟩
    | _ => trivial

/-- The files are those of before, or fewer, and the switches are where they were. -/
def Kept (σ σ' : Serial) : Prop :=
  (∀ t i, Bounded t i (σ.db.saved t i) (σ'.db.saved t i)) ∧
    ∀ key data, σ'.rest.storage.lookup key = some data → σ.rest.storage.lookup key = some data

/-- Nothing was committed and no object has changed. -/
theorem kept_of_eq {σ σ' : Serial} (hsaved : σ'.db.saved = σ.db.saved)
    (hs : σ'.rest.storage = σ.rest.storage) : Kept σ σ' := by
  refine ⟨fun t i => ?_, fun key data h => hs ▸ h⟩
  rw [hsaved]
  exact Bounded.refl _ _ _

variable {σ : Serial}

/-- A program that issues no command that adds. -/
theorem ends_of_not_adding {α : Type} {prog : Op α} (h : prog.Only (Issued env K))
    (hK : ∀ k ∈ adding, k ∉ K) (hσ : σ.db.rows = σ.db.saved) :
    Ends prog (fun _ σ' => Kept σ σ') σ :=
  (Ends.confined h (confined_bounded hK) hσ fun _ _ h => h).and
    (Ends.storesNothing h (hK _ (by decide)) fun _ _ h => h)

variable {request : Request} {room_id : ℕ}

/-- The member that a guest's request finds is a guest of a room that is off. -/
theorem of_member (hu : UniqueColumns σ.db.rows) (hguest : ByGuest env room_id request σ.db.rows)
    (hoff : Off room_id σ.db.rows) {room_token : Token} {session : SessionRecord} {room : Room}
    (h : σ.member env room_token request = .ok (session, room)) :
    session.role = .guest ∧ room.guest_upload_enabled = false := by
  have hmember := Serial.of_member h
  obtain ⟨token, i, row, htoken, hrow, hhash, hroom, hrole⟩ := hguest
  obtain ⟨token', htoken', hhash'⟩ := hmember.token
  obtain rfl : token' = token := Option.some.inj (htoken'.symm.trans htoken)
  have hid : session.id = i := hu.session_token_hash _ _ _ _ hmember.session_row hrow
    (hhash'.trans hhash.symm)
  have hsession := hmember.session_row
  rw [hid, hrow] at hsession
  obtain rfl := Option.some.inj hsession
  refine ⟨hrole, ?_⟩
  obtain ⟨roomRow, hroomRow, hflag⟩ := hoff
  have hroom' := hmember.room_row
  rw [← hmember.room_id, hroom, hroomRow] at hroom'
  obtain rfl := Option.some.inj hroom'
  exact hflag

/-- A guest is refused what asks for the permission to upload. -/
theorem ends_member {α : Type} (hu : UniqueColumns σ.db.rows)
    (hguest : ByGuest env room_id request σ.db.rows) (hoff : Off room_id σ.db.rows)
    {room_token : Token} {f : SessionRecord × Room → Op α}
    (hf : ∀ session room, session.role = .guest → room.guest_upload_enabled = false →
      Ends (f (session, room)) (fun _ σ' => Kept σ { σ' with db := σ'.db.rollback }) σ) :
    Ends (withSession (requireMember env room_token request >>= f)) (fun _ σ' => Kept σ σ') σ := by
  refine .withSession (.bind (.requireMember hu (fun session room h => ?_) fun _ => ?_))
  · obtain ⟨hrole, hflag⟩ := of_member hu hguest hoff h
    exact hf session room hrole hflag
  · exact kept_of_eq rfl rfl

/-- A guest is refused by `_authorize_upload`. -/
theorem ends_authorizeUpload {α : Type} {session : SessionRecord} {room : Room}
    (hrole : session.role = .guest) (hflag : room.guest_upload_enabled = false) {f : Unit → Op α}
    {Q : Except Err α → Serial → Prop} (herr : ∀ e, Q (.error e) σ) :
    Ends (fileService.authorizeUpload room session >>= f) Q σ := by
  refine .bind (.require_bind (fun _ => ?_) fun _ => herr _)
  refine .require (fun h => ?_) fun _ => herr _
  rw [hrole, hflag] at h
  exact absurd h (by decide)

/-- A guest is refused by `_authorize_chunked_upload`. -/
theorem ends_authorizeChunkedUpload {α : Type} {session : SessionRecord} {room : Room}
    (hrole : session.role = .guest) (hflag : room.guest_upload_enabled = false) {f : Unit → Op α}
    {Q : Except Err α → Serial → Prop} (herr : ∀ e, Q (.error e) σ) :
    Ends (authorizeChunkedUpload room session >>= f) Q σ :=
  ends_authorizeUpload hrole hflag herr

/-- A request of a guest, in a room that does not let guests upload, that stores no chunk. -/
theorem ends_of_guest (hσ : σ.db.rows = σ.db.saved) (hu : UniqueColumns σ.db.rows)
    (hguest : ByGuest env room_id request σ.db.rows) (hoff : Off room_id σ.db.rows) (route : Route)
    (hchunk : ¬StoresChunk env route request σ) :
    Ends (route.handle env request) (fun _ σ' => Kept σ σ') σ := by
  -- Most routes neither store an object nor write a record that is new or confirmed.
  have hadding : (∀ k ∈ adding, k ∉ route.kinds) →
      Ends (route.handle env request) (fun _ σ' => Kept σ σ') σ := fun hK =>
    ends_of_not_adding (@Route.only_handle env request route) hK hσ
  cases route with
  -- The sender is a guest, so it is refused.
  | patchRoom room_token body =>
    refine .map (.withSession (.bind (.requireRoomOwner hu (fun session room h howner => ?_)
      fun _ => kept_of_eq rfl rfl)))
    rw [(of_member hu hguest hoff h).1] at howner
    cases howner
  -- An upload is authorised before anything is stored.
  | upload room_token filename content_type chunks =>
    refine .map (ends_member hu hguest hoff fun session room hrole hflag => ?_)
    refine .bind (.validateCsrf ?_ fun _ => kept_of_eq rfl rfl)
    refine .bind (.limiterCheck fun r σ' hσ' => ?_)
    obtain ⟨_, _, _, rfl⟩ := hσ'
    rcases r with e | _
    · exact kept_of_eq rfl rfl
    · exact .bind (ends_authorizeUpload hrole hflag fun _ => kept_of_eq rfl rfl)
  | createUploadSession room_token body =>
    refine .map (ends_member hu hguest hoff fun session room hrole hflag => ?_)
    refine .bind (.validateCsrf ?_ fun _ => kept_of_eq rfl rfl)
    refine .bind (.limiterCheck fun r σ' hσ' => ?_)
    obtain ⟨_, _, _, rfl⟩ := hσ'
    rcases r with e | _
    · exact kept_of_eq rfl rfl
    · exact .bind (ends_authorizeChunkedUpload hrole hflag fun _ => kept_of_eq rfl rfl)
  | completeUploadSession room_token upload_id body =>
    refine .map (ends_member hu hguest hoff fun session room hrole hflag => ?_)
    refine .bind (.validateCsrf ?_ fun _ => kept_of_eq rfl rfl)
    refine .bind (.pendingSession (fun rec_ hrec hid => ?_) fun _ => kept_of_eq rfl rfl)
    refine .bind (.require_bind (fun _ => ?_) fun _ => kept_of_eq rfl rfl)
    exact ends_authorizeChunkedUpload hrole hflag fun _ => kept_of_eq rfl rfl
  -- A chunk is not authorised: the condition says that none is stored.
  | uploadChunk room_token upload_id index body =>
    refine .map ((ends_uploadChunk_of_not hu fun rec_ chunk h => hchunk ?_).mono fun r σ' h => ?_)
    · exact ⟨room_token, upload_id, index, body, rec_, chunk, rfl, h⟩
    · exact kept_of_eq h.1 h.2
  | deleteRoom room_token =>
    exact hadding (by simp [adding, Route.kinds, cleanupKinds, contentKinds])
  | deleteFile room_token file_id => exact hadding (by simp [adding, Route.kinds, deleteFileKinds])
  | _ => exact hadding (by simp [adding, Route.kinds])

end

/-- A sequence of requests of guests of a room, of which none stores a chunk, while time passes in
between. The database keeps its columns unique. -/
inductive Run (env : Env) (room_id : ℕ) (w : World) : World → Prop
  | start : Run env room_id w w
  | tick {w₁ w₂ : World} (h : Run env room_id w w₁) (ht : w₁.Tick w₂) : Run env room_id w w₂
  | request {w₁ w₂ : World} {p : ℕ} {route : Route} {request : Request} {r : Except Err Unit}
      (h : Run env room_id w w₁) (hu : UniqueColumns w₁.db.committed)
      (hguest : ByGuest env room_id request w₁.db.committed)
      (hchunk : ¬StoresChunk env route request (.of p w₁))
      (hr : server.Runs p (route.handle env request) w₁ r w₂) : Run env room_id w w₂

end guests

open guests

/-- While guests may not upload, no sequence of their requests without an accepted chunk adds to the
storage, changes the size of a file record, or creates or confirms one. -/
theorem guest_upload_switch {env : Env} {room_id : ℕ} {w w' : World} (hfree : w.db.Free)
    (hoff : Off room_id w.db.committed) (h : Run env room_id w w') :
    (∀ key data, w'.storage.lookup key = some data → w.storage.lookup key = some data) ∧
    ∀ i row', w'.db.committed .files i = some row' → ∃ row,
      w.db.committed .files i = some row ∧ row'.size_bytes = row.size_bytes ∧
      (row'.status = .confirmed → row.status = .confirmed) := by
  suffices hkept : w'.db.Free ∧ (∀ t i, Bounded t i (w.db.committed t i) (w'.db.committed t i)) ∧
      ∀ key data, w'.storage.lookup key = some data → w.storage.lookup key = some data from
    ⟨hkept.2.2, hkept.2.1 .files⟩
  induction h with
  | start => exact ⟨hfree, fun t i => .refl t i _, fun _ _ h => h⟩
  | tick _ ht ih =>
    obtain ⟨_, _, rfl⟩ := ht
    exact ih
  | @request w₁ w₂ p route request r _ hu hguest hchunk hr ih =>
    obtain ⟨hfree₁, hrows, hstorage⟩ := ih
    have hclean : (Serial.of p w₁).db.rows = w₁.db.committed := Snapshot.rows_of_free hfree₁
    have hoff₁ : Off room_id w₁.db.committed := by
      obtain ⟨row, hrow, hflag⟩ := hoff
      obtain ⟨row₁, hrow₁, hsame⟩ := hrows .rooms room_id row hrow
      exact ⟨row₁, hrow₁, hsame.trans hflag⟩
    rw [← hclean] at hu hguest hoff₁
    obtain ⟨hrows₂, hstorage₂⟩ :=
      (ends_of_guest hclean hu hguest hoff₁ route hchunk).of_runs hr (hfree₁.alone p)
    refine ⟨(route.settles env request).free server_faithful hr hfree₁, fun t i => ?_, ?_⟩
    · exact (hrows t i).trans (hrows₂ t i)
    · exact fun key data hdata => hstorage key data (hstorage₂ key data hdata)

namespace guests

/-- A session of a guest, and a request of it. -/
def visitor : SessionRow := { SessionRow.owner with session_token_hash := "g", role := .guest }

/-- A request of that guest. -/
def visit : Request := { Request.owner with session_cookie := some "g" }

/-- A room with its owner and a guest. -/
def shared (room : RoomRow) : World := .holding [room] [.owner, visitor] []

/-- The room while it does not let guests upload. -/
def closed : RoomRow := { RoomRow.plain with guest_upload_enabled := false }

/-- The world after the guest has begun an upload, and after the owner has then turned the switch
off. -/
def begun : World :=
  calm.endWorld 0 (uploads.createUploadSession .plain "a" chunks.oneByte visit) (shared .plain)

/-- The world after the owner has turned the switch off. -/
def turnedOff : World :=
  calm.endWorld 0 (rooms.patchRoom .plain "a" ⟨none, some false, none, none⟩ .owner) begun

end guests

/-- A guest asks for an upload while the switch is off, and is refused. -/
theorem guest_upload_switch_closed : ∃ w', Run .plain 0 (shared closed) w' ∧
    w'.db.committed .files 0 = none := by
  have hr := calm.runs_error 0 (Route.handle .plain visit (.createUploadSession "a" chunks.oneByte))
    (shared closed) (e := error .permissionDenied "Guest uploads are disabled in this room")
    (by decide)
  have hrun := Run.request .start (World.holding_unique (by decide) (by decide) (by decide))
    ⟨"g", 1, visitor, rfl, rfl, rfl, rfl, rfl⟩ ?_ (server_of_calm hr)
  · refine ⟨_, hrun, ?_⟩
    have hfiles := (guest_upload_switch World.holding_free ⟨closed, rfl, rfl⟩ hrun).2 0
    refine Option.eq_none_iff_forall_ne_some.2 fun row hrow => ?_
    obtain ⟨_, hbefore, -⟩ := hfiles row hrow
    cases hbefore
  · rintro ⟨_, _, _, _, _, _, ⟨⟩, -⟩

/-- A guest stores a chunk of an upload that it began before the owner turned the switch off. -/
theorem guest_chunk_is_stored : ∃ r w',
    (∃ r₁, calm.Runs 0 (uploads.createUploadSession .plain "a" chunks.oneByte visit) (shared .plain)
      r₁ begun) ∧
    (∃ r₂, calm.Runs 0 (rooms.patchRoom .plain "a" ⟨none, some false, none, none⟩ .owner) begun
      r₂ turnedOff) ∧
    Off 0 turnedOff.db.committed ∧ ByGuest .plain 0 visit turnedOff.db.committed ∧
    server.Runs 0 (Route.handle .plain visit (.uploadChunk "a" 0 0 (.ok [65]))) turnedOff r w' ∧
    turnedOff.storage.lookup (partKey (turnedOff.uuids 0) 0) = none ∧
    w'.storage.lookup (partKey (turnedOff.uuids 0) 0) = some [65] ∧
    (turnedOff.db.committed .files 0).map FileRow.size_bytes = some 0 ∧
    (w'.db.committed .files 0).map FileRow.size_bytes = some 1 := by
  obtain ⟨r₁, hr₁⟩ := calm.exists_runs_endWorld 0
    (uploads.createUploadSession .plain "a" chunks.oneByte visit) (shared .plain) (by decide)
  obtain ⟨r₂, hr₂⟩ := calm.exists_runs_endWorld 0
    (rooms.patchRoom .plain "a" ⟨none, some false, none, none⟩ .owner) begun (by decide)
  obtain ⟨r, hr⟩ := calm.exists_runs_endWorld 0
    (Route.handle .plain visit (.uploadChunk "a" 0 0 (.ok [65]))) turnedOff (by decide)
  have hroom : turnedOff.db.committed .rooms 0 = some closed := by decide
  have hsession : turnedOff.db.committed .sessions 1 = some visitor := by decide
  refine ⟨r, _, ⟨r₁, hr₁⟩, ⟨r₂, hr₂⟩, ⟨closed, hroom, rfl⟩,
    ⟨"g", 1, visitor, rfl, hsession, rfl, rfl, rfl⟩, server_of_calm hr, ?_, ?_, ?_, ?_⟩
  · decide
  · decide
  · decide
  · decide

end DropRoom
