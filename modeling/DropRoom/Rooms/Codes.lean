import DropRoom.App.Checks

/-!
# What a room code reveals

Whatever error of the application `join_by_code` meets on its way to a session, it answers one and
the same error, except that a room is full (`after_joinFound`). But the texts of the body are used
only when a room that can be joined is found: an owner token with a lone surrogate has no UTF-8
encoding to be hashed, and PostgreSQL takes no name with a NUL. What these raise is no error of the
application, and tells that the code exists. For all other texts two servers that differ in their
databases only give the same answer to a request that neither of them admits
(`join_by_code_uniform_iff`).
-/

namespace DropRoom

open Effect Store Prog

namespace codes

/-- The request carries valid credentials for the room: its owner token, or its password if it has
one. -/
def Credentials (env : Env) (room : RoomRow) (body : rooms.JoinRequest) : Prop :=
  match PyStr.truthy body.owner_token with
  | some owner_token => owner_token.encode.map env.hash_token = some room.owner_token_hash
  | none => ∀ password_hash, roomService.truthy room.password_hash = some password_hash →
    ∃ password, roomService.truthy body.password = some password ∧
      env.verify_password password password_hash = true

/-- The owner token of the body can be encoded, if it has one. -/
def Encodes (body : rooms.JoinRequest) : Prop :=
  ∀ owner_token, PyStr.truthy body.owner_token = some owner_token → owner_token.encode ≠ none

/-- The text has no NUL. PostgreSQL takes no other. -/
def Storable (s : String) : Prop := Char.ofNat 0 ∉ s.toList

/-- Whether a text can be stored is decided. -/
instance (s : String) : Decidable (Storable s) :=
  inferInstanceAs (Decidable (Char.ofNat 0 ∉ s.toList))

/-- The name of the body can be stored, if it has one. -/
def Named (body : rooms.JoinRequest) : Prop := ∀ name, body.display_name = some name → Storable name

/-- What PostgreSQL refuses of the statements of a join: a session under a name with a NUL. -/
def refuses : Cmd → Option Err
  | .sql (.insert .sessions r) =>
    if ∀ name ∈ r.display_name, Storable name then none else some .exception
  | _ => none

/-- The server while nothing fails but what PostgreSQL refuses. -/
def postgres : Machine Cmd Resp Err World := calm.failing refuses

/-- The room can be joined. -/
def Joinable (room : RoomRow) (now : Time) : Prop := room.status = .active ∧ now < room.expires_at

/-- The answer to a failure that is not revealed. -/
def joinFailed : Err := error .joinFailed "Room not found or has expired"

/-- An exception of the way to a session: one that is hidden, or that a room is full which the request
could join. -/
def Expected (env : Env) (room : RoomRow) (body : rooms.JoinRequest) (now : Time) (e : Err) : Prop :=
  (∃ cls detail, e = .dropRoom cls detail ∧ cls ≠ .roomFull) ∨
    (e = error .roomFull "" ∧ Joinable room now ∧ Credentials env room body)

section

variable {env : Env} {room : Room} {body : rooms.JoinRequest} {σ : Serial} {now : Time}

/-- A failure that is hidden. -/
theorem expected_error {cls : ErrorClass} (hcls : cls ≠ .roomFull) (detail : String) :
    Expected env room.toRoomRow body now (error cls detail) :=
  .inl ⟨cls, _, rfl, hcls⟩

/-- `_assert_joinable`. -/
theorem after_assertJoinable : After (roomService.assertJoinable room) (fun r σ' => σ' = σ ∧
    (r = .ok () → Joinable room.toRoomRow σ.rest.now) ∧
      ∀ e, r = .error e → Expected env room.toRoomRow body σ.rest.now e) σ := by
  unfold roomService.assertJoinable
  refine (After.require_bind_iff _ _ _).2 ⟨fun _ => ?_, fun _ => ?_⟩
  · refine (After.require_bind_iff _ _ _).2 ⟨fun hactive => ?_, fun _ => ?_⟩
    · simp only [After.bind_iff, hasExpired, After.utcnow_iff, After.pure_iff]
      refine (After.require_iff _ _ _).2 ⟨fun hlive => ?_, fun _ => ?_⟩
      · have hnow : σ.rest.now < room.expires_at := by simpa using hlive
        refine ⟨rfl, fun _ => ⟨hactive, hnow⟩, ?_⟩
        rintro e ⟨⟩
      · refine ⟨rfl, by rintro ⟨⟩, ?_⟩
        rintro e ⟨⟩
        exact expected_error (by decide) _
    · refine ⟨rfl, by rintro ⟨⟩, ?_⟩
      rintro e ⟨⟩
      exact expected_error (by decide) _
  · refine ⟨rfl, by rintro ⟨⟩, ?_⟩
    rintro e ⟨⟩
    exact expected_error (by decide) _

/-- `_resolve_role`. -/
theorem after_resolveRole (hencodes : Encodes body) :
    After (roomService.resolveRole env room body.password body.owner_token) (fun r σ' => σ' = σ ∧
      ((∃ role, r = .ok role) → Credentials env room.toRoomRow body) ∧
      ∀ e, r = .error e → Expected env room.toRoomRow body σ.rest.now e) σ := by
  have herror : ∀ {cls}, cls ≠ ErrorClass.roomFull → σ = σ ∧
      ((∃ role, (.error (error cls "") : Except Err Role) = .ok role) →
        Credentials env room.toRoomRow body) ∧
      ∀ e, (.error (error cls "") : Except Err Role) = .error e →
        Expected env room.toRoomRow body σ.rest.now e := by
    intro cls hcls
    refine ⟨rfl, ?_, ?_⟩
    · rintro ⟨role, ⟨⟩⟩
    · rintro e ⟨⟩
      exact expected_error hcls _
  have hok : ∀ {role : Role}, Credentials env room.toRoomRow body → σ = σ ∧
      ((∃ role', (.ok role : Except Err Role) = .ok role') →
        Credentials env room.toRoomRow body) ∧
      ∀ e, (.ok role : Except Err Role) = .error e →
        Expected env room.toRoomRow body σ.rest.now e := by
    intro role hc
    refine ⟨rfl, fun _ => hc, ?_⟩
    rintro e ⟨⟩
  unfold roomService.resolveRole
  cases howner : PyStr.truthy body.owner_token with
  -- An owner token is compared by its hash, and the password is not asked for.
  | some owner_token =>
    obtain ⟨token, htoken⟩ := Option.ne_none_iff_exists'.1 (hencodes owner_token howner)
    dsimp only
    rw [roomService.hashToken, htoken]
    refine (After.bind_iff _ _ _).2 ((After.pure_iff _).2 ?_)
    refine (After.require_bind_iff _ _ _).2 ⟨fun hhash => hok ?_, fun _ => herror (by decide)⟩
    rw [Credentials, howner]
    dsimp only
    rw [htoken, hhash]
    rfl
  -- Without one it is the password, if the room has any.
  | none =>
    have hcredentials : ∀ {h : Option String}, roomService.truthy room.password_hash = h →
        (∀ password_hash, h = some password_hash → ∃ password,
          roomService.truthy body.password = some password ∧
            env.verify_password password password_hash = true) →
        Credentials env room.toRoomRow body := by
      rintro _ rfl hpassword
      rw [Credentials, howner]
      exact hpassword
    dsimp only
    cases hlocked : roomService.truthy room.password_hash with
    | none => exact hok (hcredentials hlocked (by rintro _ ⟨⟩))
    | some password_hash =>
      dsimp only
      cases hpassword : roomService.truthy body.password with
      | none => exact herror (by decide)
      | some password =>
        refine (After.require_bind_iff _ _ _).2 ⟨fun hverified => hok ?_, fun _ => herror (by decide)⟩
        refine hcredentials hlocked ?_
        rintro _ ⟨⟩
        exact ⟨password, hpassword, hverified⟩

/-- `join_room` fails as expected. -/
theorem after_joinRoom (hencodes : Encodes body) : After (roomService.joinRoom env room
    body.display_name body.password body.owner_token) (fun r _ => ∀ e, r = .error e →
      Expected env room.toRoomRow body σ.rest.now e) σ := by
  unfold roomService.joinRoom
  refine (After.bind_iff _ _ _).2 ((@after_assertJoinable env room body σ).mono ?_)
  rintro (e | ⟨⟩) σ' ⟨rfl, hjoinable, herror⟩
  · exact fun e' he => herror e' (congrArg _ (Except.error.inj he))
  refine (After.bind_iff _ _ _).2 ((@after_resolveRole env room body σ' hencodes).mono ?_)
  rintro (e | role) σ' ⟨rfl, hcredentials, herror⟩
  · exact fun e' he => herror e' (congrArg _ (Except.error.inj he))
  refine (After.bind_iff _ _ _).2 ((After.updateAt_iff _ _ _ _).2 ?_)
  refine (After.require_bind_iff _ _ _).2 ⟨fun _ => ?_, fun _ => ?_⟩
  · refine (After.bind_iff _ _ _).2 ((After.issue_iff _ _).2 fun x σ₁ hx => ?_)
    cases hx
    refine (After.bind_iff _ _ _).2 ((After.bind_iff _ _ _).2 ((After.utcnow_iff _).2 ?_))
    refine (After.bind_iff _ _ _).2 ((After.insert_iff _ _ _).2 ?_)
    rintro e ⟨⟩
  · rintro e ⟨⟩
    exact .inr ⟨rfl, hjoinable rfl, hcredentials ⟨role, rfl⟩⟩

/-- Renewing a session that was found does not fail. -/
theorem after_sessionFlush {loaded new : SessionRecord}
    (hrow : σ.db.rows .sessions loaded.id = some loaded.toSessionRow) :
    After (sessionRepository.flush loaded new) (fun r _ => r = .ok ()) σ := by
  unfold sessionRepository.flush
  split
  · exact rfl
  · refine (After.bind_iff _ _ _).2 ((After.updateAt_iff _ _ _ _).2 ?_)
    rw [Snapshot.updateAt_of_some hrow rfl]
    exact (After.require_iff _ _ _).2 ⟨fun _ => rfl, fun h => absurd rfl h⟩

/-- `_establish_session` fails as expected. -/
theorem after_establishSession (hencodes : Encodes body) (hu : UniqueColumns σ.db.rows)
    (token : Option Token) :
    After (rooms.establishSession env room body token) (fun r _ => ∀ e, r = .error e →
      Expected env room.toRoomRow body σ.rest.now e) σ := by
  have hjoin : After (roomService.joinRoom env room body.display_name body.password
      body.owner_token >>= fun joined => pure (joined.1, joined.2, true)) (fun r _ =>
        ∀ e, r = .error e → Expected env room.toRoomRow body σ.rest.now e) σ := by
    refine (After.bind_iff _ _ _).2 ((after_joinRoom hencodes).mono ?_)
    rintro (e | a) σ' h
    · exact fun e' he => h e' (congrArg _ (Except.error.inj he))
    · rintro e ⟨⟩
  unfold rooms.establishSession rooms.existingSession
  cases roomService.truthy token with
  | none => exact hjoin
  | some token =>
    refine (After.bind_iff _ _ _).2 ((After.bind_iff _ _ _).2 ?_)
    refine (After.getByTokenHash_iff hu _ _).2 ((After.pure_iff _).2 ?_)
    cases hs : σ.sessionBy (env.hash_token token) with
    | none => exact hjoin
    | some existing =>
      by_cases hid : existing.room_id = room.id
      · simp only [Option.bind_some, if_pos hid]
        refine (After.bind_iff _ _ _).2 ((After.utcnow_iff _).2 ?_)
        refine (After.bind_iff _ _ _).2 ((After.utcnow_iff _).2 ?_)
        refine (After.bind_iff _ _ _).2 ((after_sessionFlush (Serial.of_sessionBy hs).1).mono ?_)
        rintro r σ' rfl
        rintro e ⟨⟩
      · simp only [Option.bind_some, if_neg hid]
        exact hjoin

/-- What `join_by_code` may fail with once the request is past the limiter. -/
def Refused (env : Env) (room_code : String) (body : rooms.JoinRequest) (σ : Serial) (e : Err) :
    Prop :=
  e = joinFailed ∨ (e = error .roomFull "" ∧ ∃ room, σ.roomByCode env room_code = some room ∧
    Joinable room.toRoomRow σ.rest.now ∧ Credentials env room.toRoomRow body)

/-- Statements of other kinds are not refused. -/
theorem refuses_of_issued {K : List Kind} (hK : Kind.newSession ∉ K) {c : Cmd}
    (h : Issued env K c) : refuses c = none := by
  cases h with
  | newSession hk => exact absurd hk hK
  | _ => rfl

/-- A program that makes no session is not refused anything. -/
theorem refusing_of_issued {α : Type} {K : List Kind} {prog : Op α} (h : prog.Only (Issued env K))
    (hK : Kind.newSession ∉ K) : prog.refusing refuses = prog :=
  refusing_of_only (h.mono fun _ hc => refuses_of_issued hK hc)

/-- The name of a session that is made. -/
def sessionName (display_name : Option String) : Option String :=
  match display_name with
  | some name => some (if name = "" then "Guest" else name)
  | none => some "Guest"

/-- The name of the session can be stored if the given one can. -/
theorem storable_sessionName {display_name : Option String} :
    (∀ name ∈ sessionName display_name, Storable name) ↔
      ∀ name, display_name = some name → Storable name := by
  have hguest : Storable "Guest" := by decide
  have hempty : Storable "" := by decide
  cases display_name with
  | none => simp [sessionName, hguest]
  | some name =>
    by_cases hname : name = ""
    · simp [sessionName, hname, hguest, hempty]
    · simp [sessionName, hname]

/-- A session under a name that can be stored is not refused. -/
theorem only_createSession_named {room_id : ℕ} {hash : TokenHash} {display_name : Option String}
    {role : Role} (h : ∀ name, display_name = some name → Storable name) :
    (sessionRepository.createSession env room_id hash display_name role).Only
      fun c => refuses c = none := by
  refine only_bind ((only_issue _).2 rfl) fun now => ?_
  exact only_bind ((only_issue _).2 (if_pos (storable_sessionName.2 h))) fun _ => only_pure _

/-- A join under a name that can be stored is not refused. -/
theorem only_joinRoom_named (h : Named body) : (roomService.joinRoom env room body.display_name
    body.password body.owner_token).Only fun c => refuses c = none := by
  have hrefuses : ∀ c, Issued env [.join] c → refuses c = none :=
    fun c hc => refuses_of_issued (by decide) hc
  refine only_bind ((only_assertJoinable _).mono hrefuses) fun _ => ?_
  refine only_bind ((only_resolveRole _ _ _).mono hrefuses) fun _ => ?_
  refine only_bind ((only_issue _).2 rfl) fun _ => only_bind (only_require _ _) fun _ => ?_
  refine only_bind ((only_issue _).2 rfl) fun _ => ?_
  exact only_bind (only_createSession_named h) fun _ => only_pure _

/-- Neither is the renewal of a session, or the join in its place. -/
theorem only_establishSession_named (h : Named body) (token : Option Token) :
    (rooms.establishSession env room body token).Only fun c => refuses c = none := by
  have hrefuses : ∀ c, Issued env [.renewSession] c → refuses c = none :=
    fun c hc => refuses_of_issued (by decide) hc
  refine only_bind ((only_existingSession _ _).mono hrefuses) fun existing => ?_
  split
  · refine only_bind ((only_issue _).2 rfl) fun _ => only_bind ((only_issue _).2 rfl) fun _ => ?_
    exact only_bind ((only_sessionFlush (by decide) _ _).mono hrefuses) fun _ => only_pure _
  · exact only_bind (only_joinRoom_named h) fun _ => only_pure _

/-- A user is counted. -/
theorem only_incrementUserCountAtomic {K : List Kind} (h : Kind.join ∈ K) (i : ℕ) :
    (roomRepository.incrementUserCountAtomic i).Only (Issued env K) :=
  (only_issue _).2 (.join h i)

/-- A room is looked up by its code. -/
theorem only_getRoomByCode {K : List Kind} (room_code : String) :
    (roomRepository.getRoomByCode env room_code).Only (Issued env K) :=
  only_bind (only_select _ _) fun _ => only_scalarOneOrNone _

/-- `join_by_code` once the request is past the limiter, for a code of no room. -/
theorem after_joinFound_of_none (hu : UniqueColumns σ.db.rows) {room_code : String}
    (request : Request) (hfound : σ.roomByCode env room_code = none) :
    After ((rooms.joinFound env room_code body request).refusing refuses)
      (fun r σ' => r = .error joinFailed ∧ σ' = σ) σ := by
  unfold rooms.joinFound
  rw [refusing_bind, refusing_of_issued (K := []) (only_getRoomByCode _) (by decide)]
  refine (After.bind_iff _ _ _).2 ((After.getRoomByCode_iff hu _ _).2 ?_)
  rw [hfound]
  exact ⟨rfl, rfl⟩

/-- `join_by_code` once the request is past the limiter, and either there is no such room or the texts of
the body can be encoded and stored. -/
theorem after_joinFound (hu : UniqueColumns σ.db.rows) (room_code : String) (request : Request)
    (htexts : σ.roomByCode env room_code = none ∨ Encodes body ∧ Named body) :
    After ((rooms.joinFound env room_code body request).refusing refuses) (fun r σ' =>
      ∀ e, r = .error e → σ'.db.saved = σ.db.saved ∧ Refused env room_code body σ e) σ := by
  cases hfound : σ.roomByCode env room_code with
  | none =>
    refine (after_joinFound_of_none hu request hfound).mono ?_
    rintro _ _ ⟨rfl, rfl⟩ e ⟨⟩
    exact ⟨rfl, .inl rfl⟩
  | some room =>
    obtain ⟨hencodes, hnamed⟩ := htexts.resolve_left fun hnone => by
      rw [hfound] at hnone
      cases hnone
    -- Until the commit nothing is saved.
    have hsaved : After (rooms.establishSession env room body request.session_cookie)
        (fun _ σ' => σ'.db.saved = σ.db.saved) σ :=
      After.unsaved (only_establishSession (K := [.join, .newSession, .renewSession]) (by decide)
        (by decide) (by decide) _ _ _) (by decide) fun _ _ h => h
    unfold rooms.joinFound
    rw [refusing_bind, refusing_of_issued (K := []) (only_getRoomByCode _) (by decide)]
    refine (After.bind_iff _ _ _).2 ((After.getRoomByCode_iff hu _ _).2 ?_)
    rw [hfound]
    dsimp only
    rw [refusing_bind, refusing_tryCatch, refusing_of_only (only_establishSession_named hnamed _)]
    refine (After.bind_iff _ _ _).2 ((After.tryCatch_iff _ _).2 ?_)
    refine (hsaved.and (after_establishSession hencodes hu _)).mono ?_
    rintro (e | ⟨sess, token, created⟩) σ' ⟨hs, herror⟩
    -- Whatever is raised is the one refusal, but for a room that is full.
    · rintro e' ⟨⟩
      refine ⟨hs, ?_⟩
      rcases herror e rfl with ⟨cls, detail, rfl, hcls⟩ | ⟨rfl, hjoinable, hcredentials⟩
      · left
        cases cls with
        | roomFull => exact absurd rfl hcls
        | _ => rfl
      · exact .inr ⟨rfl, room, hfound, hjoinable, hcredentials⟩
    · dsimp only
      rw [refusing_bind, @refusing_of_issued env _ [.commit] _ (only_commit (by decide)) (by decide)]
      refine (After.bind_iff _ _ _).2 ((After.commit_iff _).2 ?_)
      rintro e ⟨⟩

/-! ### A room that can be joined -/

/-- The room can be joined with the body, apart from what its texts raise, and the cookie is of nobody. -/
structure Open (env : Env) (σ : Serial) (room : Room) (body : rooms.JoinRequest) : Prop where
  row : σ.db.rows .rooms room.id = some room.toRoomRow
  joinable : Joinable room.toRoomRow σ.rest.now
  slot : room.user_count < room.max_users
  unlocked : room.password_hash = none
  owner : ∀ owner_token token, PyStr.truthy body.owner_token = some owner_token →
    owner_token.encode = some token → room.owner_token_hash = env.hash_token token
  nobody : ∀ h, σ.sessionBy h = none

/-- The room lets the request in. -/
theorem Open.assertJoinable (h : Open env σ room body) :
    After (roomService.assertJoinable room) (fun r σ' => r = .ok () ∧ σ' = σ) σ := by
  obtain ⟨hactive, hnow⟩ := h.joinable
  unfold roomService.assertJoinable
  have hactive' : room.status = .active := hactive
  refine (After.require_bind_iff _ _ _).2 ⟨fun _ => ?_, fun hno => absurd ?_ hno⟩
  · refine (After.require_bind_iff _ _ _).2 ⟨fun _ => ?_, fun hno => absurd hactive' hno⟩
    simp only [After.bind_iff, hasExpired, After.utcnow_iff, After.pure_iff]
    refine (After.require_iff _ _ _).2 ⟨fun _ => ⟨rfl, rfl⟩, fun hno => absurd ?_ hno⟩
    exact decide_eq_false (Nat.not_le.2 hnow)
  · rw [hactive']
    exact ⟨by decide, by decide⟩

/-- `_resolve_role` raises exactly if the owner token cannot be encoded. -/
theorem Open.resolveRole (h : Open env σ room body) :
    After (roomService.resolveRole env room body.password body.owner_token) (fun r σ' => σ' = σ ∧
      ((∃ role, r = .ok role) ∧ Encodes body ∨ r = .error .exception)) σ := by
  unfold roomService.resolveRole
  cases howner : PyStr.truthy body.owner_token with
  | none =>
    have hencodes : Encodes body := fun owner_token hsome => by
      rw [howner] at hsome
      cases hsome
    dsimp only
    rw [h.unlocked]
    exact ⟨rfl, .inl ⟨⟨_, rfl⟩, hencodes⟩⟩
  | some owner_token =>
    dsimp only
    rw [roomService.hashToken]
    cases htoken : owner_token.encode with
    | none => exact (After.bind_iff _ _ _).2 ⟨rfl, .inr rfl⟩
    | some token =>
      refine (After.bind_iff _ _ _).2 ((After.pure_iff _).2 ?_)
      refine (After.require_bind_iff _ _ _).2 ⟨fun _ => ⟨rfl, .inl ⟨⟨_, rfl⟩, ?_⟩⟩, fun hno => ?_⟩
      · intro owner_token' hsome
        rw [howner] at hsome
        cases hsome
        rw [htoken]
        exact Option.some_ne_none token
      · exact absurd (h.owner owner_token token howner htoken) hno

/-- A session under a name that cannot be stored is refused. -/
theorem createSession_refused {room_id : ℕ} {hash : TokenHash} {role : Role} (h : ¬Named body) :
    (sessionRepository.createSession env room_id hash body.display_name role).refusing refuses =
      utcnow >>= fun _ => .raise .exception := by
  unfold sessionRepository.createSession
  rw [refusing_bind, @refusing_of_issued env _ [] _ only_utcnow (by decide)]
  refine congrArg (utcnow >>= ·) (funext fun now => ?_)
  have hrefused : ∀ r : SessionRow, r.display_name = sessionName body.display_name →
      (insert .sessions r).refusing refuses = .raise .exception := by
    intro r hr
    have hno : refuses (.sql (.insert .sessions r)) = some .exception := by
      refine if_neg ?_
      rw [hr]
      exact fun hall => h (storable_sessionName.1 hall)
    change (Prog.call _ _).refusing refuses = _
    rw [refusing, hno]
    rfl
  dsimp only
  rw [refusing_bind, hrefused _ rfl]
  rfl

/-- Joining such a room raises what is no error of the application, if the texts cannot be encoded and
stored. -/
theorem Open.joinRoom (h : Open env σ room body) (htexts : ¬(Encodes body ∧ Named body)) :
    After ((roomService.joinRoom env room body.display_name body.password body.owner_token).refusing
      refuses) (fun r _ => r = .error .exception) σ := by
  unfold roomService.joinRoom
  rw [refusing_bind, @refusing_of_issued env _ [] _ (only_assertJoinable _) (by decide)]
  refine (After.bind_iff _ _ _).2 (h.assertJoinable.mono ?_)
  rintro _ σ' ⟨rfl, rfl⟩
  dsimp only
  rw [refusing_bind, refusing_of_issued (K := []) (only_resolveRole _ _ _) (by decide)]
  refine (After.bind_iff _ _ _).2 (h.resolveRole.mono ?_)
  rintro _ σ ⟨rfl, ⟨⟨role, rfl⟩, hencodes⟩ | rfl⟩
  · have hnamed : ¬Named body := fun hnamed => htexts ⟨hencodes, hnamed⟩
    dsimp only
    rw [refusing_bind, @refusing_of_issued env _ [.join] _ (only_incrementUserCountAtomic (by decide) _)
      (by decide)]
    refine (After.bind_iff _ _ _).2 ((After.updateAt_iff _ _ _ _).2 ?_)
    rw [Snapshot.updateAt_of_some h.row (decide_eq_true h.slot)]
    dsimp only
    rw [refusing_bind, Prog.require_pos rfl, refusing, ret_bind, refusing_bind,
      @refusing_of_issued env _ [] _ only_generateToken (by decide)]
    refine (After.bind_iff _ _ _).2 ((After.issue_iff _ _).2 fun x σ' hx => ?_)
    cases hx
    dsimp only
    rw [refusing_bind, createSession_refused hnamed]
    exact (After.bind_iff _ _ _).2 ((After.bind_iff _ _ _).2 ((After.utcnow_iff _).2 rfl))
  · rfl

/-- A text of the body that cannot be encoded or stored raises here. -/
theorem Open.establishSession (h : Open env σ room body) (hu : UniqueColumns σ.db.rows)
    (token : Option Token) (htexts : ¬(Encodes body ∧ Named body)) :
    After ((rooms.establishSession env room body token).refusing refuses)
      (fun r _ => r = .error .exception) σ := by
  have hnone : After (rooms.existingSession env room token) (fun r σ' => r = .ok none ∧ σ' = σ) σ := by
    unfold rooms.existingSession
    cases roomService.truthy token with
    | none => exact ⟨rfl, rfl⟩
    | some token =>
      refine (After.bind_iff _ _ _).2 ((After.getByTokenHash_iff hu _ _).2 ((After.pure_iff _).2 ?_))
      rw [h.nobody]
      exact ⟨rfl, rfl⟩
  unfold rooms.establishSession
  rw [refusing_bind, refusing_of_issued (K := []) (only_existingSession _ _) (by decide)]
  refine (After.bind_iff _ _ _).2 (hnone.mono ?_)
  rintro _ σ' ⟨rfl, rfl⟩
  dsimp only
  rw [refusing_bind]
  refine (After.bind_iff _ _ _).2 ((h.joinRoom htexts).mono ?_)
  rintro _ σ' rfl
  rfl

/-- `join_by_code` once the request is past the limiter, for a room that it could join. -/
theorem after_joinFound_of_open (hu : UniqueColumns σ.db.rows) {room_code : String} (request : Request)
    (hfound : σ.roomByCode env room_code = some room) (h : Open env σ room body)
    (htexts : ¬(Encodes body ∧ Named body)) :
    After ((rooms.joinFound env room_code body request).refusing refuses)
      (fun r _ => r = .error .exception) σ := by
  unfold rooms.joinFound
  rw [refusing_bind, refusing_of_issued (K := []) (only_getRoomByCode _) (by decide)]
  refine (After.bind_iff _ _ _).2 ((After.getRoomByCode_iff hu _ _).2 ?_)
  rw [hfound]
  dsimp only
  rw [refusing_bind, refusing_tryCatch]
  refine (After.bind_iff _ _ _).2 ((After.tryCatch_iff _ _).2 ?_)
  refine (h.establishSession hu _ htexts).mono ?_
  rintro _ σ' rfl
  rfl

end

/-- The request passes the checks at the start of `join_by_code`. -/
def Passes (env : Env) (request : Request) (w : World) : Prop :=
  CsrfValid env request ∧
    (Serial.of 0 w).Admits env "join_by_code" (clientIp request) env.join_by_code_limit

/-- The checks at the start of `join_by_code` do not look at the database. -/
theorem exists_checks (env : Env) (request : Request) (rest : World) :
    ∃ r rest', rest'.now = rest.now ∧
      (∀ e, r = .error e → ∃ cls detail, e = .dropRoom cls detail ∧ cls ≠ .roomFull) ∧
      (r = .ok () ↔ Passes env request rest) ∧ ∀ db Q,
      After (rooms.joinByCodeChecks env request) Q ⟨db, rest⟩ ↔ Q r ⟨db, rest'⟩ := by
  by_cases hcsrf : CsrfValid env request
  · rw [rooms.joinByCodeChecks, validateCsrf_of_valid hcsrf, limiterCheck]
    by_cases hon : env.rate_limit_enabled = true
    -- The limiter answers from its buckets alone, whatever the rows are.
    · obtain ⟨y, hy⟩ : ∃ y, rest.buckets.check "join_by_code" (clientIp request)
        env.join_by_code_limit (seconds env.rate_limit_window_seconds) rest.monotonic = y := ⟨_, rfl⟩
      have hpasses : Passes env request rest ↔ y.1 = true := by
        refine ⟨fun h => ?_, fun h => ⟨hcsrf, fun _ => ?_⟩⟩
        · exact hy ▸ h.2 hon
        · exact (congrArg Prod.fst hy).trans h
      refine ⟨if y.1 = true then .ok () else
        .error (error .rateLimited "Too many requests; try again shortly"),
        { rest with buckets := y.2 }, rfl, ?_, ?_, fun db Q => ?_⟩
      · intro e he
        split at he
        · cases he
        · cases he
          exact ⟨_, _, rfl, by decide⟩
      · rw [hpasses]
        split
        · next hyes => exact iff_of_true rfl hyes
        · next hno => exact iff_of_false (by rintro ⟨⟩) hno
      rw [if_pos hon]
      have hexec : Serial.exec (.checkRate "join_by_code" (clientIp request) env.join_by_code_limit
          env.rate_limit_window_seconds) ⟨db, rest⟩ =
          some (.ok y.1, ⟨db, { rest with buckets := y.2 }⟩) := by
        rw [Serial.exec_of_ne_sql (by rintro q ⟨⟩), exec_checkRate hy]
        rfl
      refine (After.bind_iff _ _ _).trans ((After.pure_iff _).trans ?_)
      refine (After.bind_iff _ _ _).trans ((After.issue_of_exec hexec).trans ?_)
      refine (After.require_iff _ _ _).trans ?_
      split
      · next hyes => simp [hyes]
      · next hno => simp [hno]
    -- The limiter is switched off.
    · refine ⟨.ok (), rest, rfl, by rintro e ⟨⟩,
        iff_of_true rfl ⟨hcsrf, fun h => absurd h hon⟩, fun db Q => ?_⟩
      rw [if_neg hon]
      exact Iff.rfl
  -- The token is checked first, and the limiter is not asked.
  · obtain ⟨detail, hcheck⟩ : ∃ detail, validateCsrf env .post request =
        .raise (error .csrfValidationFailed detail) := validateCsrf_of_not hcsrf (by rintro ⟨⟩)
    refine ⟨.error (error .csrfValidationFailed detail), rest, rfl, ?_,
      iff_of_false (by rintro ⟨⟩) fun h => hcsrf h.1, fun db Q => ?_⟩
    · rintro e ⟨⟩
      exact ⟨_, _, rfl, by decide⟩
    · rw [rooms.joinByCodeChecks, hcheck]
      exact Iff.rfl

/-- A request that joined, or would have if the room had a slot. -/
def Admitted (r : Except Err (SessionRecord × Token × Token)) : Prop :=
  (∃ joined, r = .ok joined) ∨ ∃ detail, r = .error (.dropRoom .roomFull detail)

/-- Any other failure admits nobody. -/
theorem not_admitted {e : Err} (h : ∀ detail, e ≠ .dropRoom .roomFull detail) :
    ¬Admitted (.error e) := by
  rintro (⟨joined, ⟨⟩⟩ | ⟨detail, hfull⟩)
  exact h detail (Except.error.inj hfull)

/-- No statement of the session's frame is refused. -/
theorem refusing_withSession {α : Type} (env : Env) (prog : Op α) :
    (withSession prog).refusing refuses = withSession (prog.refusing refuses) := by
  have hclose : closeDb.refusing refuses = closeDb :=
    @refusing_of_issued env _ [.close] _ (only_closeDb (by decide)) (by decide)
  unfold withSession
  rw [refusing_bind, refusing_tryCatch]
  simp only [refusing_bind, hclose]
  rfl

section

variable {env : Env} {room_code : String} {body : rooms.JoinRequest} {request : Request}
  {rest rest' : World} {r₀ : Except Err Unit} {db : Snapshot Table Row}

/-- A request either fails at the checks, or goes on past them. -/
theorem after_joinByCode_iff (hchecks : ∀ db Q,
      After (rooms.joinByCodeChecks env request) Q ⟨db, rest⟩ ↔ Q r₀ ⟨db, rest'⟩)
    (Q : Except Err (SessionRecord × Token × Token) → Serial → Prop) :
    After ((rooms.joinByCode env room_code body request).refusing refuses) Q ⟨db, rest⟩ ↔
      match r₀ with
      | .error e => Q (.error e) ⟨db.rollback, rest'⟩
      | .ok () => After ((rooms.joinFound env room_code body request).refusing refuses)
          (fun r σ' => Q r { σ' with db := σ'.db.rollback }) ⟨db, rest'⟩ := by
  have honly : (rooms.joinByCodeChecks env request).Only (Issued env []) :=
    only_bind (only_validateCsrf _ _) fun _ => only_limiterCheck _ _ _
  rw [rooms.joinByCode_eq, refusing_withSession env, refusing_bind,
    refusing_of_issued honly (by decide)]
  refine (After.withSession_iff _ _).trans ((After.bind_iff _ _ _).trans ((hchecks _ _).trans ?_))
  rcases r₀ with e | ⟨⟩ <;> exact Iff.rfl

/-- A request that fails at the checks, or as `Refused` says. -/
theorem after_joinByCode (hnow : rest'.now = rest.now) (hchecks : ∀ db Q,
      After (rooms.joinByCodeChecks env request) Q ⟨db, rest⟩ ↔ Q r₀ ⟨db, rest'⟩)
    (hu : UniqueColumns db.rows)
    (htexts : r₀ = .ok () → (⟨db, rest⟩ : Serial).roomByCode env room_code = none ∨
      Encodes body ∧ Named body) :
    After ((rooms.joinByCode env room_code body request).refusing refuses) (fun r σ' =>
      ∀ e, r = .error e → σ'.db.saved = db.saved ∧ (r₀ = .error e ∨
        (r₀ = .ok () ∧ Refused env room_code body ⟨db, rest⟩ e))) ⟨db, rest⟩ := by
  refine (after_joinByCode_iff hchecks _).2 ?_
  rcases r₀ with e | ⟨⟩
  · rintro e' he
    exact ⟨rfl, .inl (congrArg _ (Except.error.inj he))⟩
  · refine (after_joinFound (σ := ⟨db, rest'⟩) hu room_code request (htexts rfl)).mono
      fun r σ' h e he => ?_
    obtain ⟨hsaved, hrefused⟩ := h e he
    refine ⟨hsaved, .inr ⟨rfl, hrefused.imp_right ?_⟩⟩
    rintro ⟨hfull, room, hroom, hjoinable, hcredentials⟩
    have hlive := hjoinable.2
    refine ⟨hfull, room, ?_, ⟨hjoinable.1, ?_⟩, hcredentials⟩
    · exact hroom
    · exact hnow ▸ hlive

end

/-- A database that PostgreSQL can hold, while no transaction is open. -/
structure Possible (db : Db) : Prop where
  free : db.Free
  unique : UniqueColumns db.committed
  storable : ∀ i r, db.committed .rooms i = some r → Storable r.room_code

/-- For any two databases, a request that neither of them admits gets the same error from both and changes
neither; and that the room is full is answered only for a room with this code that can be joined and for
which the request carries valid credentials. -/
def Uniform (env : Env) (w : World) (room_code : String) (body : rooms.JoinRequest)
    (request : Request) : Prop :=
  ∀ db₁ db₂ p₁ p₂ r₁ r₂ w₁ w₂, Possible db₁ → Possible db₂ →
    postgres.Runs p₁ (rooms.joinByCode env room_code body request) { w with db := db₁ } r₁ w₁ →
    postgres.Runs p₂ (rooms.joinByCode env room_code body request) { w with db := db₂ } r₂ w₂ →
    (¬Admitted r₁ → ¬Admitted r₂ → r₁ = r₂ ∧ w₁.db.committed = db₁.committed ∧
      w₂.db.committed = db₂.committed) ∧
    ∀ detail, r₁ = .error (.dropRoom .roomFull detail) → ∃ i room,
      db₁.committed .rooms i = some room ∧ room.room_code = strip (env.upper room_code) ∧
        Joinable room w.now ∧ Credentials env room body

section

variable {env : Env} {w : World} {room_code : String} {body : rooms.JoinRequest} {request : Request}

/-- What PostgreSQL refuses is taken out of the program. -/
theorem runs_postgres_iff {p : ℕ} {db : Db} {r : Except Err (SessionRecord × Token × Token)}
    {w' : World} :
    postgres.Runs p (rooms.joinByCode env room_code body request) { w with db } r w' ↔
      calm.Runs p ((rooms.joinByCode env room_code body request).refusing refuses) { w with db } r
        w' :=
  runs_failing_iff fun _ _ h => h

/-- What holds after the program without what is refused holds of every run. -/
theorem of_runs_postgres {Q : Except Err (SessionRecord × Token × Token) → Serial → Prop} {p : ℕ}
    {db : Db} {r : Except Err (SessionRecord × Token × Token)} {w' : World}
    (h : After ((rooms.joinByCode env room_code body request).refusing refuses) Q
      ⟨.of p db, { w with db := fun _ => [] }⟩) (hdb : Possible db)
    (hr : postgres.Runs p (rooms.joinByCode env room_code body request) { w with db } r w') :
    Q r (.of p w') :=
  After.of_runs h (runs_postgres_iff.1 hr) (hdb.free.alone p)

variable (env w room_code body request) in
/-- Every request is answered. -/
theorem exists_runs_postgres (p : ℕ) {db : Db} (hdb : Possible db) : ∃ r w',
    postgres.Runs p (rooms.joinByCode env room_code body request) { w with db } r w' := by
  obtain ⟨r, w', hr⟩ := @calm_exists_runs _ _ _ _ p { w with db }
    (only_refusing (@only_joinByCode env request room_code body)) (by simp [Route.kinds])
    (hdb.free.alone p)
  exact ⟨r, w', runs_postgres_iff.2 hr⟩

/-- A code with a NUL is that of no room. -/
theorem roomByCode_of_not_storable {db : Db} (hdb : Possible db) {p : ℕ} {rest : World}
    (h : ¬Storable (strip (env.upper room_code))) :
    (⟨.of p db, rest⟩ : Serial).roomByCode env room_code = none := by
  rw [Option.eq_none_iff_forall_ne_some]
  intro room hroom
  obtain ⟨hrow, hcode⟩ := Serial.of_roomByCode hroom
  change (Snapshot.of p db).rows .rooms room.id = _ at hrow
  rw [Snapshot.rows_of_free hdb.free] at hrow
  exact h (hcode ▸ hdb.storable _ _ hrow)

/-- A request that is refused before the database is asked, that names no room a database can hold, or
whose texts can be encoded and stored reveals nothing. -/
theorem uniform_of_texts (h : ¬Passes env request w ∨ ¬Storable (strip (env.upper room_code)) ∨
    Encodes body ∧ Named body) : Uniform env w room_code body request := by
  intro db₁ db₂ p₁ p₂ r₁ r₂ w₁ w₂ hdb₁ hdb₂ hr₁ hr₂
  obtain ⟨r₀, rest', hnow, hr₀, hpasses, hchecks⟩ :=
    exists_checks env request { w with db := fun _ => [] }
  have hrows : ∀ {p} {db : Db}, Possible db → (Snapshot.of p db).rows = db.committed := fun hdb =>
    Snapshot.rows_of_free hdb.free
  have hend : ∀ {p : ℕ} {db : Db} {r w'}, Possible db →
      postgres.Runs p (rooms.joinByCode env room_code body request) { w with db } r w' →
      ∀ e, r = .error e → w'.db.committed = db.committed ∧ (r₀ = .error e ∨ (r₀ = .ok () ∧
        Refused env room_code body ⟨.of p db, { w with db := fun _ => [] }⟩ e)) := by
    intro p db r w' hdb hr
    have hu : UniqueColumns (Snapshot.of p db).rows := (hrows hdb).symm ▸ hdb.unique
    refine of_runs_postgres (after_joinByCode hnow hchecks hu fun hok => ?_) hdb hr
    rcases h with hno | hcode | htexts
    · exact absurd (hpasses.1 hok) hno
    · exact .inl (roomByCode_of_not_storable hdb hcode)
    · exact .inr htexts
  -- An answer that is not an admission is that of the checks, or the one that hides the failure.
  have hrefused : ∀ {p : ℕ} {db : Db} {r w'}, Possible db →
      postgres.Runs p (rooms.joinByCode env room_code body request) { w with db } r w' →
      ¬Admitted r → w'.db.committed = db.committed ∧
        r = .error (match r₀ with | .error e => e | .ok () => joinFailed) := by
    intro p db r w' hdb hr hno
    rcases r with e | joined
    · obtain ⟨hsaved, rfl | ⟨rfl, rfl | ⟨rfl, -⟩⟩⟩ := hend hdb hr e rfl
      · exact ⟨hsaved, rfl⟩
      · exact ⟨hsaved, rfl⟩
      · exact absurd (.inr ⟨_, rfl⟩) hno
    · exact absurd (.inl ⟨joined, rfl⟩) hno
  refine ⟨fun hno₁ hno₂ => ?_, fun detail hfull => ?_⟩
  · obtain ⟨hsaved₁, rfl⟩ := hrefused hdb₁ hr₁ hno₁
    obtain ⟨hsaved₂, rfl⟩ := hrefused hdb₂ hr₂ hno₂
    exact ⟨rfl, hsaved₁, hsaved₂⟩
  · obtain ⟨-, herror | ⟨-, hfailed | ⟨-, room, hroom, hjoinable, hcredentials⟩⟩⟩ :=
      hend hdb₁ hr₁ _ hfull
    · obtain ⟨cls, detail', he, hcls⟩ := hr₀ _ herror
      cases he
      exact absurd rfl hcls
    · cases hfailed
    · obtain ⟨hrow, hcode⟩ := Serial.of_roomByCode hroom
      change (Snapshot.of p₁ db₁).rows .rooms room.id = _ at hrow
      rw [hrows hdb₁] at hrow
      exact ⟨room.id, room.toRoomRow, hrow, hcode, hjoinable, hcredentials⟩

/-- A room that a request can join: one without a password, of which the body has the owner token. -/
def target (env : Env) (room_code : String) (body : rooms.JoinRequest) (now : Time) : RoomRow :=
  { RoomRow.plain with
    room_code := strip (env.upper room_code)
    owner_token_hash := (((PyStr.truthy body.owner_token).bind PyStr.encode).map env.hash_token).getD ""
    expires_at := now + 1 }

variable (env room_code body) in
/-- Where a database holds nothing but that room, the request finds it and could join. -/
theorem open_target {db : Db} {rest : World}
    (hdb : db = (World.holding [target env room_code body rest.now] [] []).db) :
    ∃ room, (⟨.of 0 db, rest⟩ : Serial).roomByCode env room_code = some room ∧
      Open env ⟨.of 0 db, rest⟩ room body := by
  subst hdb
  obtain ⟨σ, hσ⟩ : ∃ σ : Serial,
      σ = ⟨.of 0 (World.holding [target env room_code body rest.now] [] []).db, rest⟩ := ⟨_, rfl⟩
  have hrows : σ.db.rows = (World.holding [target env room_code body rest.now] [] []).db.committed :=
    by rw [hσ]; exact Snapshot.rows_of_free World.holding_free
  have hrooms : ∀ i, σ.db.rows .rooms i = [target env room_code body rest.now][i]? := fun i => by
    rw [hrows]
    exact committed_of_committedRows rfl i
  have hsingle : ∀ where_, σ.Single .rooms where_ := by
    intro where_ i j r r' hr _ hr' _
    rw [hrooms] at hr hr'
    have hi := (List.getElem?_eq_some_iff.1 hr).1
    have hj := (List.getElem?_eq_some_iff.1 hr').1
    simp only [List.length_singleton, Nat.lt_one_iff] at hi hj
    rw [hi, hj]
  have hfind := Serial.find_of_single
    (hsingle fun _ r => r.room_code == strip (env.upper room_code)) (hrooms 0) (beq_self_eq_true _)
  rw [← hσ]
  refine ⟨_, congrArg (Option.map toRoom) hfind, hrooms 0, ⟨rfl, ?_⟩, ?_, rfl, ?_, ?_⟩
  · rw [hσ]
    exact Nat.lt_succ_self _
  · exact (by decide : (0 : ℤ) < 10)
  · intro owner_token token howner htoken
    change Option.getD _ _ = _
    rw [howner, Option.bind_some, htoken]
    rfl
  · intro h
    rw [Option.eq_none_iff_forall_ne_some]
    intro s hs
    obtain ⟨hrow, -⟩ := Serial.of_sessionBy hs
    rw [hrows, committed_of_committedRows rfl] at hrow
    cases hrow

/-- A server with at most one room. -/
theorem possible_holding {rooms : List RoomRow} (hlength : rooms.length ≤ 1)
    (hcodes : ∀ r ∈ rooms, Storable r.room_code) : Possible (World.holding rooms [] []).db where
  free := World.holding_free
  unique := by
    have hnodup : ∀ {α : Type} (f : RoomRow → α), (rooms.map f).Nodup := fun f => by
      rcases rooms with _ | ⟨r, _ | ⟨r', rooms⟩⟩
      · exact List.nodup_nil
      · exact List.nodup_singleton _
      · simp at hlength
    exact World.holding_unique (hnodup _) (hnodup _) List.nodup_nil
  storable i r hr := hcodes r (List.mem_of_getElem? ((committed_of_committedRows rfl i).symm.trans hr))

/-- A request that is past the checks reveals with other texts that the code exists. -/
theorem texts_of_uniform (h : Uniform env w room_code body request) (hpasses : Passes env request w)
    (hcode : Storable (strip (env.upper room_code))) : Encodes body ∧ Named body := by
  by_contra htexts
  obtain ⟨r₀, rest', hnow, -, hok, hchecks⟩ :=
    exists_checks env request { w with db := fun _ => [] }
  obtain rfl := hok.2 hpasses
  have hempty : Possible (World.holding [] [] []).db :=
    possible_holding (Nat.zero_le 1) fun r hr => absurd hr List.not_mem_nil
  have hopen : Possible (World.holding [target env room_code body w.now] [] []).db :=
    possible_holding le_rfl fun r hr => by
      rw [List.mem_singleton.1 hr]
      exact hcode
  obtain ⟨r₁, w₁, hr₁⟩ := exists_runs_postgres env w room_code body request 0 hempty
  obtain ⟨r₂, w₂, hr₂⟩ := exists_runs_postgres env w room_code body request 0 hopen
  -- Without the room the failure is hidden.
  have hhidden : r₁ = .error joinFailed := by
    refine of_runs_postgres ((after_joinByCode_iff hchecks fun r _ => r = .error joinFailed).2 ?_)
      hempty hr₁
    refine (after_joinFound_of_none ?_ request ?_).mono fun r σ' h => h.1
    · exact (Snapshot.rows_of_free hempty.free).symm ▸ hempty.unique
    · rw [Option.eq_none_iff_forall_ne_some]
      intro room hroom
      have hrows : (Snapshot.of 0 (World.holding [] [] []).db).rows =
        (World.holding [] [] []).db.committed := Snapshot.rows_of_free hempty.free
      have hrow : (Snapshot.of 0 (World.holding [] [] []).db).rows .rooms room.id =
        some room.toRoomRow := (Serial.of_roomByCode hroom).1
      rw [hrows, committed_of_committedRows rfl] at hrow
      cases hrow
  -- With it the exception is no error of the application.
  have hraised : r₂ = .error .exception := by
    refine of_runs_postgres ((after_joinByCode_iff hchecks fun r _ => r = .error .exception).2 ?_)
      hopen hr₂
    have hnow' : w.now = rest'.now := hnow.symm
    obtain ⟨room, hfound, hroom⟩ := @open_target env room_code body
      (World.holding [target env room_code body w.now] [] []).db rest' (by rw [hnow'])
    have hu : UniqueColumns
        (Snapshot.of 0 (World.holding [target env room_code body w.now] [] []).db).rows :=
      (Snapshot.rows_of_free hopen.free).symm ▸ hopen.unique
    exact (after_joinFound_of_open hu request hfound hroom htexts).mono fun r σ' h => h
  subst hhidden hraised
  obtain ⟨hsame, -⟩ := (h _ _ 0 0 _ _ _ _ hempty hopen hr₁ hr₂).1
    (not_admitted (by rintro detail ⟨⟩)) (not_admitted (by rintro detail ⟨⟩))
  cases hsame

end

end codes

open codes

namespace codes

/-- A room with a code. -/
def coded : RoomRow := { RoomRow.plain with room_code := "ABCDEF" }

/-- A request to join by that code with a token that is no text. -/
def probe : rooms.JoinRequest := ⟨none, none, some ⟨[0xD800]⟩⟩

/-- The request that carries it. -/
def guess : Request := ⟨none, some "x", some "x", none, some "h"⟩

end codes

end DropRoom
