import DropRoom.Rooms.Cleanup
import DropRoom.Rooms.Codes
import DropRoom.Rooms.Guests
import DropRoom.App.Transactions

/-!
# Joining with a session and joining afresh

A request to join renews the live session of the room that its cookie names, without any check, or
else registers a new participant after all checks (`yields_establishSession`). So what joining afresh
promises holds of a renewed session exactly when it held before.
-/

namespace DropRoom

open Effect Store Prog

namespace rejoin

open codes

/-- A way to join a room: by its access token, or by its code. -/
inductive Way
  | token (room_token : Token)
  | code (room_code : String)

/-- The request to join, which answers the session and its token. -/
def Way.join (env : Env) (body : rooms.JoinRequest) (request : Request) :
    Way → Op (SessionRecord × Token)
  | .token room_token => rooms.joinRoom env room_token body request
  | .code room_code => (fun r => (r.1, r.2.1)) <$> rooms.joinByCode env room_code body request

/-- The room that is joined. -/
def Way.room (env : Env) (σ : Serial) : Way → Option Room
  | .token room_token => σ.roomBy (env.hash_token room_token)
  | .code room_code => σ.roomByCode env room_code

/-- The live session of the room that the cookie of a request names. -/
def existing (env : Env) (σ : Serial) (room : Room) (cookie : Option Token) :
    Option SessionRecord :=
  (roomService.truthy cookie).bind fun token => (σ.sessionBy (env.hash_token token)).bind
    fun session => if session.room_id = room.id then some session else none

/-- The rows of the tables. -/
abbrev Rows := (t : Table) → ℕ → Option (Row t)

/-- A session is renewed. -/
structure Renewed (env : Env) (σ : Serial) (cookie : Option Token) (old session : SessionRecord)
    (token : Token) (rows : Rows) : Prop where
  cookie : roomService.truthy cookie = some token
  hash : old.session_token_hash = env.hash_token token
  renewed : session = { old with
    expires_at := σ.rest.now + seconds env.session_ttl_seconds
    last_seen_at := σ.rest.now }
  row : rows .sessions session.id = some session.toSessionRow
  rooms : rows .rooms = σ.db.rows .rooms

/-- A participant is registered. -/
structure Registered (env : Env) (σ : Serial) (room : Room) (body : rooms.JoinRequest)
    (session : SessionRecord) (token : Token) (rows : Rows) : Prop where
  joinable : Joinable room.toRoomRow σ.rest.now
  credentials : Credentials env room.toRoomRow body
  role : session.role = if (PyStr.truthy body.owner_token).isSome then .owner else .guest
  room_id : session.room_id = room.id
  generated : token = σ.rest.tokens σ.rest.tokensUsed
  hash : session.session_token_hash = env.hash_token token
  expires_at : session.expires_at = σ.rest.now + seconds env.session_ttl_seconds
  row : rows .sessions session.id = some session.toSessionRow
  rooms : ∃ row, σ.db.rows .rooms room.id = some row ∧ ∀ i, rows .rooms i =
    if i = room.id then some { row with user_count := row.user_count + 1 } else σ.db.rows .rooms i

/-- A session is established: renewed when there is one, and else registered. -/
inductive Established (env : Env) (σ : Serial) (room : Room) (body : rooms.JoinRequest)
    (cookie : Option Token) (session : SessionRecord) (token : Token) (rows : Rows) : Prop
  | renewed {old : SessionRecord} (hold : existing env σ room cookie = some old)
    (h : Renewed env σ cookie old session token rows)
  | registered (hnone : existing env σ room cookie = none)
    (h : Registered env σ room body session token rows)

section

variable {env : Env} {σ : Serial} {room : Room} {body : rooms.JoinRequest}

/-- The room that is joined is there. -/
theorem Way.row_of_room {way : Way} (h : way.room env σ = some room) :
    σ.db.rows .rooms room.id = some room.toRoomRow := by
  cases way with
  | token room_token => exact (Serial.of_roomBy h).1
  | code room_code => exact (Serial.of_roomByCode h).1

/-- `_assert_joinable`. -/
theorem yields_assertJoinable : Yields (roomService.assertJoinable room) (fun _ σ' => σ' = σ ∧
    Joinable room.toRoomRow σ.rest.now) σ := by
  unfold roomService.assertJoinable
  refine .require_bind fun _ => .require_bind fun hactive => .bind (.bind (.utcnow (.pure ?_)))
  refine Ends.require (fun hlive => ?_) fun _ => ?_
  · rintro ⟨⟩ -
    have hnow : σ.rest.now < room.expires_at := by simpa using hlive
    exact ⟨rfl, hactive, hnow⟩
  · rintro a ⟨⟩

/-- `_resolve_role`. -/
theorem yields_resolveRole : Yields (roomService.resolveRole env room body.password
    body.owner_token) (fun role σ' => σ' = σ ∧ Credentials env room.toRoomRow body ∧
      role = if (PyStr.truthy body.owner_token).isSome then .owner else .guest) σ := by
  unfold roomService.resolveRole Credentials
  cases PyStr.truthy body.owner_token with
  | some owner_token =>
    dsimp only
    cases htoken : owner_token.encode with
    | none =>
      rw [roomService.hashToken, htoken]
      exact .bind (.raise _)
    | some token =>
      rw [roomService.hashToken, htoken]
      refine .bind (.pure (.require_bind fun hhash => .pure ⟨rfl, ?_, rfl⟩))
      rw [hhash]
      rfl
  | none =>
    dsimp only
    cases roomService.truthy room.password_hash with
    | none =>
      refine .pure ⟨rfl, ?_, rfl⟩
      rintro _ ⟨⟩
    | some password_hash =>
      dsimp only
      cases roomService.truthy body.password with
      | none => exact .raise _
      | some password =>
        refine .require_bind fun hverified => .pure ⟨rfl, ?_, rfl⟩
        rintro _ ⟨⟩
        exact ⟨password, rfl, hverified⟩

/-- `join_room`. -/
theorem yields_joinRoom : Yields (roomService.joinRoom env room body.display_name body.password
    body.owner_token) (fun r σ' => Registered env σ room body r.1 r.2 σ'.db.rows) σ := by
  unfold roomService.joinRoom
  refine .bind (yields_assertJoinable.mono ?_)
  rintro ⟨⟩ σ' ⟨rfl, hjoinable⟩
  refine .bind (yields_resolveRole.mono ?_)
  rintro role σ ⟨rfl, hcredentials, hrole⟩
  refine .bind (.updateAt_cases (fun _ => .require_bind fun hok => by cases hok) fun row hrow _ =>
    .require_bind fun _ => ?_)
  refine .bind (.issue_of_exec rfl (.bind (.bind (.utcnow (.bind (.insert (.pure ?_)))))))
  refine .pure ⟨hjoinable, hcredentials, hrole, rfl, rfl, rfl, rfl, ?_, row, hrow, fun i => ?_⟩
  · exact Snapshot.rows_add_self
  · rw [Snapshot.rows_add_of_table (by decide)]
    split
    · next hi =>
      subst hi
      exact Snapshot.rows_set_self (σ.db.rows_lt _ _ _ hrow)
    · next hi => exact Snapshot.rows_set_of_ne hi

/-- Flushing over the row that was loaded gives the renewed session. -/
theorem flush_renewed (row : SessionRow) (expires_at last_seen_at : Time) :
    SessionRow.flush row { row with expires_at, last_seen_at } row =
      { row with expires_at, last_seen_at } := by
  unfold SessionRow.flush
  congr 1 <;> exact ite_eq_right_iff.2 Eq.symm

/-- Flushing a session that was renewed. -/
theorem yields_sessionFlush {old session : SessionRecord} {now expires_at : Time}
    (hrow : σ.db.rows .sessions old.id = some old.toSessionRow)
    (hsession : session = { old with expires_at, last_seen_at := now }) :
    Yields (sessionRepository.flush old session) (fun _ σ' =>
      σ'.db.rows .sessions session.id = some session.toSessionRow ∧
        σ'.db.rows .rooms = σ.db.rows .rooms) σ := by
  unfold sessionRepository.flush
  subst hsession
  split
  · next hsame =>
    refine .pure ⟨?_, rfl⟩
    rw [hsame]
    exact hrow
  · refine .bind (.updateAt ?_)
    rw [Snapshot.updateAt_of_some hrow rfl]
    refine Ends.require (fun _ => ?_) fun h => absurd rfl h
    rintro ⟨⟩ -
    refine ⟨(Snapshot.rows_set_self (σ.db.rows_lt _ _ _ hrow)).trans ?_,
      Snapshot.rows_set_of_table (by decide)⟩
    exact congrArg some (flush_renewed _ _ _)

/-- `_establish_session`. -/
theorem yields_establishSession (hu : UniqueColumns σ.db.rows) (cookie : Option Token) :
    Yields (rooms.establishSession env room body cookie) (fun r σ' =>
      Established env σ room body cookie r.1 r.2.1 σ'.db.rows) σ := by
  have hafresh : existing env σ room cookie = none → Yields (roomService.joinRoom env room
      body.display_name body.password body.owner_token >>= fun r => pure (r.1, r.2, true))
      (fun r σ' => Established env σ room body cookie r.1 r.2.1 σ'.db.rows) σ := fun hnone =>
    .bind (yields_joinRoom.mono fun r σ' h => .pure (.registered hnone h))
  unfold rooms.establishSession rooms.existingSession
  cases hcookie : roomService.truthy cookie with
  | none => exact hafresh (by rw [existing, hcookie]; rfl)
  | some token =>
    refine .bind (.bind (.getByTokenHash hu (.pure ?_)))
    cases hs : σ.sessionBy (env.hash_token token) with
    | none => exact hafresh (by rw [existing, hcookie, Option.bind_some, hs]; rfl)
    | some old =>
      have hexisting : existing env σ room cookie =
          if old.room_id = room.id then some old else none := by
        rw [existing, hcookie, Option.bind_some, hs, Option.bind_some]
      rw [Option.bind_some]
      by_cases hid : old.room_id = room.id
      · rw [if_pos hid] at hexisting ⊢
        obtain ⟨hrow, hhash, -⟩ := Serial.of_sessionBy hs
        refine .bind (.utcnow (.bind (.utcnow (.bind ((yields_sessionFlush hrow rfl).mono ?_)))))
        rintro ⟨⟩ σ' ⟨hrow', hrooms⟩
        exact .pure (.renewed hexisting ⟨hcookie, hhash, rfl, hrow', hrooms⟩)
      · rw [if_neg hid] at hexisting ⊢
        exact hafresh hexisting

/-- What a request to join makes of the state. -/
def Joins (env : Env) (way : Way) (body : rooms.JoinRequest) (cookie : Option Token) (σ : Serial)
    (r : SessionRecord × Token) (rows : Rows) : Prop :=
  ∃ room, way.room env σ = some room ∧ Established env σ room body cookie r.1 r.2 rows

/-- The checks of a request change nothing that a join looks at. -/
theorem Joins.of_quiet {way : Way} {cookie : Option Token} {σ' : Serial}
    {r : SessionRecord × Token} {rows : Rows} (hσ : σ.Quiet σ')
    (h : Joins env way body cookie σ' r rows) : Joins env way body cookie σ r rows := by
  obtain ⟨_, _, _, rfl⟩ := hσ
  obtain ⟨room, hroom, ⟨hold, h⟩ | ⟨hnone, h⟩⟩ := h
  · exact ⟨room, hroom, .renewed hold ⟨h.cookie, h.hash, h.renewed, h.row, h.rooms⟩⟩
  · exact ⟨room, hroom, .registered hnone ⟨h.joinable, h.credentials, h.role, h.room_id,
      h.generated, h.hash, h.expires_at, h.row, h.rooms⟩⟩

/-- A request to join that succeeds. -/
theorem yields_join (hu : UniqueColumns σ.db.rows) (way : Way) (request : Request) :
    Yields (way.join env body request) (fun r σ' =>
      Joins env way body request.session_cookie σ r σ'.db.saved) σ := by
  cases way with
  | token room_token =>
    have hfound : ∀ σ : Serial, UniqueColumns σ.db.rows →
        Yields (rooms.join env room_token body request.session_cookie) (fun r σ' =>
          Joins env (.token room_token) body request.session_cookie σ r σ'.db.saved) σ := by
      intro σ hu
      refine .bind (.getRoomByToken hu fun room hroom => ?_)
      refine .bind ((yields_establishSession hu _).mono fun r σ' h => ?_)
      exact .bind (.commit (.pure ⟨room, hroom, h⟩))
    refine .withSession (.checks fun σ₁ hσ₁ => ?_)
    refine (hfound σ₁ ?_).mono fun _ _ h => h.of_quiet hσ₁
    obtain ⟨_, _, _, rfl⟩ := hσ₁
    exact hu
  | code room_code =>
    have hfound : ∀ σ : Serial, UniqueColumns σ.db.rows →
        Yields (rooms.joinFound env room_code body request) (fun r σ' =>
          Joins env (.code room_code) body request.session_cookie σ (r.1, r.2.1) σ'.db.saved)
          σ := by
      intro σ hu
      refine .bind (.getRoomByCode hu ?_)
      cases hroom : σ.roomByCode env room_code with
      | none => exact .raise _
      | some room =>
        refine .bind (.tryCatch_raise ((yields_establishSession hu _).mono fun r σ' h => ?_))
        exact .bind (.commit (.pure ⟨room, hroom, h⟩))
    refine .map ?_
    rw [rooms.joinByCode_eq, rooms.joinByCodeChecks, bind_assoc]
    refine .withSession (.checks fun σ₁ hσ₁ => ?_)
    refine (hfound σ₁ ?_).mono fun _ _ h => h.of_quiet hσ₁
    obtain ⟨_, _, _, rfl⟩ := hσ₁
    exact hu

/-- Joining afresh promises this of the room, as of a moment, and of the role. -/
structure Admissible (env : Env) (room : RoomRow) (body : rooms.JoinRequest) (now : Time)
    (role : Role) : Prop where
  active : room.status = .active
  live : now < room.expires_at
  owner : ∀ owner_token, PyStr.truthy body.owner_token = some owner_token →
    owner_token.encode.map env.hash_token = some room.owner_token_hash ∧ role = .owner

/-- A join makes a session that joining afresh would. -/
theorem Registered.admissible {session : SessionRecord} {token : Token} {rows : Rows}
    (h : Registered env σ room body session token rows) :
    Admissible env room.toRoomRow body σ.rest.now session.role where
  active := h.joinable.1
  live := h.joinable.2
  owner owner_token howner := by
    have hcredentials := h.credentials
    have hrole := h.role
    rw [Credentials, howner] at hcredentials
    rw [howner] at hrole
    exact ⟨hcredentials, hrole⟩

end

end rejoin

open rejoin

/-- A request to join that succeeds finds a room. The room is ACTIVE and not past its end, and an owner
token of the request is the room's and the role OWNER, if and only if this holds of the session, should
the cookie name a live one of the room. -/
theorem rejoin_admissible_iff {env : Env} {w w' : World} {p : ℕ} {way : Way}
    {body : rooms.JoinRequest} {request : Request} {session : SessionRecord} {token : Token}
    (hfree : w.db.Free) (hu : UniqueColumns w.db.committed)
    (hr : server.Runs p (way.join env body request) w (.ok (session, token)) w') :
    ∃ room, way.room env (.of p w) = some room ∧
      w.db.committed .rooms room.id = some room.toRoomRow ∧
      (Admissible env room.toRoomRow body w.now session.role ↔
        ∀ old, existing env (.of p w) room request.session_cookie = some old →
          Admissible env room.toRoomRow body w.now old.role) := by
  have hclean : (Serial.of p w).db.rows = w.db.committed := Snapshot.rows_of_free hfree
  have hu' : UniqueColumns (Serial.of p w).db.rows := hclean.symm ▸ hu
  obtain ⟨room, hroom, h⟩ := (@yields_join env (.of p w) body hu' way request).of_runs hr hfree
  refine ⟨room, hroom, ?_, ?_⟩
  · have hrow := Way.row_of_room hroom
    rwa [hclean] at hrow
  rcases h with @⟨old, hold, h⟩ | ⟨hnone, h⟩
  · -- The session is renewed in the role that it has.
    have hrenewed : session = _ := h.renewed
    rw [hrenewed]
    refine ⟨fun hadmissible old' hold' => ?_, fun hadmissible => hadmissible old hold⟩
    rw [hold] at hold'
    cases hold'
    exact hadmissible
  · refine ⟨fun _ old hold => ?_, fun _ => h.admissible⟩
    rw [hnone] at hold
    cases hold

namespace rejoin

/-- A room that has expired. -/
def expired : RoomRow := { RoomRow.plain with status := .expired }

/-- A request that carries what is not the owner token. -/
def claiming : rooms.JoinRequest := ⟨none, none, some (.of "x")⟩

end rejoin

/-- A guest joins a room again. -/
theorem rejoin_admissible_guest : ∃ r w', ∃ room : Room, server.Runs 0
    ((Way.token "a").join .plain ⟨none, none, none⟩ guests.visit) (guests.shared .plain) (.ok r) w' ∧
    (guests.shared .plain).db.committed .rooms room.id = some room.toRoomRow ∧
    Admissible .plain room.toRoomRow ⟨none, none, none⟩ (guests.shared .plain).now r.1.role := by
  obtain ⟨r, -, hr⟩ := calm.exists_runs_ok 0
    ((Way.token "a").join .plain ⟨none, none, none⟩ guests.visit) (guests.shared .plain)
    (fun r => r.1.role) (b := .guest) (by decide)
  obtain ⟨room, -, hrow, hiff⟩ := rejoin_admissible_iff World.holding_free
    (World.holding_unique (by decide) (by decide) (by decide)) (server_of_calm hr)
  refine ⟨r, _, room, server_of_calm hr, hrow, hiff.2 fun old _ => ?_⟩
  have hid : room.id < 1 := Tables.lt_length_of_committed hrow
  have hroom : RoomRow.plain = room.toRoomRow := by
    rw [Nat.lt_one_iff.1 hid] at hrow
    exact Option.some.inj hrow
  rw [← hroom]
  exact ⟨rfl, by decide, by rintro _ ⟨⟩⟩

/-- A guest joins a room again that has expired, with an owner token that is not the room's. -/
theorem rejoin_inadmissible : ∃ r w', server.Runs 0
    ((Way.token "a").join .plain claiming guests.visit) (guests.shared expired) (.ok r) w' ∧
    ∃ room, (Way.token "a").room .plain (.of 0 (guests.shared expired)) = some room ∧
      ¬Admissible .plain room.toRoomRow claiming (guests.shared expired).now r.1.role := by
  obtain ⟨r, hrole, hr⟩ := calm.exists_runs_ok 0 ((Way.token "a").join .plain claiming guests.visit)
    (guests.shared expired) (fun r => r.1.role) (b := .guest) (by decide)
  refine ⟨r, _, server_of_calm hr, { expired with id := 0 }, by decide, fun h => ?_⟩
  cases h.active

end DropRoom
