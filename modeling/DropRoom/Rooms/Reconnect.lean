import DropRoom.Rooms.Cleanup
import DropRoom.Rooms.Codes
import DropRoom.Rooms.Guests

/-!
# Joining again after the socket was lost

When the last socket of a session is gone, `room_ws` ends the session (`ends_leave`). So the client,
which joins again with an empty body and the cookie of that session, joins as if for the first time
(`after_establishSession`): without the owner token it is a guest, and without the password it is not
let into a room that has one.
-/

namespace DropRoom

open Effect Store Prog

namespace reconnect

/-- The body that `scheduleReconnect` sends. -/
def emptyBody : rooms.JoinRequest := ⟨none, none, none⟩

/-- The client is a member again, in the same role. -/
def Rejoined (role : Role) (r : Except Err (SessionRecord × Token)) : Prop :=
  ∃ session token, r = .ok (session, token) ∧ session.role = role

/-- What may happen until the client joins again: time passes and others change the database, but
nobody takes up the session with this token, which `w₁` holds under `session_id`. -/
structure Meanwhile (session_id : ℕ) (h : TokenHash) (w₁ w₂ : World) : Prop where
  free : w₂.db.Free
  unique : UniqueColumns w₂.db.committed
  now : w₁.now ≤ w₂.now
  session : ∀ i row, w₂.db.committed .sessions i = some row → row.session_token_hash = h →
    w₁.db.committed .sessions session_id = some row

/-- The socket is the last one of the session. -/
def Last (ws : ℕ) (session : SessionRecord) (room : Room) (manager : ConnectionManager) : Prop :=
  ((manager.disconnect (wsChannel room) session.id ws).isSessionConnected (wsChannel room)
    session.id).1 = false

/-- The row of a session that was ended. -/
def ended (row : SessionRow) (now : Time) : SessionRow :=
  { row with expires_at := now, last_seen_at := now }

section

variable {env : Env} {σ : Serial} {ws : ℕ} {session : SessionRecord} {room : Room}

/-- A `finally` block of `room_ws` that runs to the end for the last socket ends the session. -/
theorem ends_leave {row : SessionRow} (hlast : Last ws session room σ.rest.manager)
    (hrow : σ.db.rows .sessions session.id = some row) :
    Ends (websocket.leave ws session room) (fun r σ' => r = .ok () → σ'.rest.now = σ.rest.now ∧
      σ'.db.saved .sessions session.id = some (ended row σ.rest.now)) σ := by
  unfold websocket.leave
  refine .bind (.issue (fun x σ₁ hx => ?_) fun e he => he.elim)
  cases hx
  refine (congrArg (fun prog => Ends prog _ _) (if_neg (Bool.eq_false_iff.1 hlast))).mpr ?_
  refine .bind (.broadcast fun σ₂ hσ₂ => ?_)
  obtain ⟨_, _, _, rfl⟩ := hσ₂
  refine .bind (.updateAt ?_ fun e he => by cases he)
  -- The count of the room is in another table than the session.
  have hrow₂ : ((σ.db.updateAt .rooms room.id (dialect.applies (t := .rooms) .decrementUserCount)
      (dialect.set (t := .rooms) .decrementUserCount)).2).rows .sessions session.id = some row := by
    by_cases hroom : ∃ r, σ.db.rows .rooms room.id = some r ∧
        dialect.applies (t := .rooms) RoomUpdate.decrementUserCount r = true
    · obtain ⟨r, hr, happlies⟩ := hroom
      rw [Snapshot.updateAt_of_some hr happlies, Snapshot.rows_set_of_table (by decide)]
      exact hrow
    · rw [Snapshot.updateAt_of_none fun r hr => ?_]
      · exact hrow
      · exact Bool.eq_false_iff.2 fun happlies => hroom ⟨r, hr, happlies⟩
  refine .bind (.bind (.utcnow (.bind (.utcnow (.updateAt ?_ fun e he => by cases he)))))
  dsimp only
  rw [Snapshot.updateAt_of_some hrow₂ rfl]
  refine .commit ?_ fun e he => by cases he
  rintro -
  exact ⟨rfl, Snapshot.rows_set_self (Snapshot.rows_lt _ _ _ _ hrow₂)⟩

/-- Joining without a password and without the owner token, while the room has a slot. -/
theorem after_joinGuest (hactive : room.status = .active)
    (hlive : σ.rest.now < room.expires_at)
    (hrow : σ.db.rows .rooms room.id = some room.toRoomRow)
    (hslot : room.user_count < room.max_users) (role : Role) :
    After (roomService.joinRoom env room none none none) (fun r _ => Rejoined role r ↔
      role = .guest ∧ roomService.truthy room.password_hash = none) σ := by
  have hexpired : ¬room.expires_at ≤ σ.rest.now := Nat.not_le.2 hlive
  have hassert : ∀ Q, After (roomService.assertJoinable room) Q σ ↔ Q (.ok ()) σ := by
    intro Q
    simp [roomService.assertJoinable, hasExpired, After.bind_iff, hactive, hlive, hexpired]
  unfold roomService.joinRoom
  refine (After.bind_iff _ _ _).2 ((hassert _).2 ((After.bind_iff _ _ _).2 ?_))
  have howner : roomService.truthy none = none := rfl
  unfold roomService.resolveRole
  rw [howner]
  dsimp only
  cases hlocked : roomService.truthy room.password_hash with
  | some password_hash =>
    refine ⟨?_, ?_⟩
    · rintro ⟨_, _, ⟨⟩, -⟩
    · rintro ⟨-, ⟨⟩⟩
  | none =>
    have happlies : dialect.applies (t := .rooms) RoomUpdate.incrementUserCount room.toRoomRow =
        true := decide_eq_true hslot
    refine (After.bind_iff _ _ _).2 ((After.updateAt_iff _ _ _ _).2 ?_)
    rw [Snapshot.updateAt_of_some hrow happlies]
    refine (After.require_bind_iff _ _ _).2 ⟨fun _ => ?_, fun h => absurd rfl h⟩
    refine (After.bind_iff _ _ _).2 ((After.issue_iff _ _).2 fun x σ₁ hx => ?_)
    cases hx
    refine (After.bind_iff _ _ _).2 ((After.bind_iff _ _ _).2 ((After.utcnow_iff _).2 ?_))
    refine (After.bind_iff _ _ _).2 ((After.insert_iff _ _ _).2 ?_)
    refine ⟨?_, ?_⟩
    · rintro ⟨session, token, ⟨⟩, rfl⟩
      exact ⟨rfl, rfl⟩
    · rintro ⟨rfl, -⟩
      exact ⟨_, _, rfl, rfl⟩

variable {room_token token : Token} {request : Request}

/-- A request that joins with the cookie of a session that has ended. -/
theorem after_join (hu : UniqueColumns σ.db.rows)
    (hrow : σ.db.rows .rooms room.id = some room.toRoomRow)
    (haccess : room.access_token_hash = env.hash_token room_token)
    (hcookie : roomService.truthy request.session_cookie = some token)
    (hended : σ.sessionBy (env.hash_token token) = none) (hactive : room.status = .active)
    (hlive : σ.rest.now < room.expires_at) (hslot : room.user_count < room.max_users)
    (role : Role) :
    After (rooms.join env room_token emptyBody request.session_cookie) (fun r _ =>
      Rejoined role r ↔ role = .guest ∧ roomService.truthy room.password_hash = none) σ := by
  have hfound : σ.roomBy (env.hash_token room_token) = some room := by
    have hsingle : σ.Single .rooms fun _ r => r.access_token_hash == env.hash_token room_token := by
      intro i j r r' hr hw hr' hw'
      simp only [beq_iff_eq] at hw hw'
      exact hu.access_token_hash i j r r' hr hr' (hw.trans hw'.symm)
    rw [Serial.roomBy, Serial.find_of_single hsingle hrow (beq_iff_eq.2 haccess)]
    rfl
  unfold rooms.join
  refine (After.bind_iff _ _ _).2 ((After.getRoomByToken_iff hu _).2 ?_)
  rw [hfound]
  refine (After.bind_iff _ _ _).2 ?_
  unfold rooms.establishSession rooms.existingSession
  rw [hcookie]
  refine (After.bind_iff _ _ _).2 ((After.bind_iff _ _ _).2 ((After.getByTokenHash_iff hu _ _).2 ?_))
  rw [hended]
  refine (After.bind_iff _ _ _).2 ((after_joinGuest hactive hlive hrow hslot role).mono ?_)
  rintro (e | ⟨session, token⟩) σ' hjoined
  · refine ⟨?_, fun h => ?_⟩
    · rintro ⟨_, _, ⟨⟩, -⟩
    · obtain ⟨_, _, ⟨⟩, -⟩ := hjoined.2 h
  · refine (After.bind_iff _ _ _).2 ((After.commit_iff _).2 ?_)
    refine Iff.trans ⟨?_, ?_⟩ hjoined
    · rintro ⟨_, _, ⟨⟩, hrole⟩
      exact ⟨_, _, rfl, hrole⟩
    · rintro ⟨_, _, ⟨⟩, hrole⟩
      exact ⟨_, _, rfl, hrole⟩

/-- The whole request, with its checks. -/
theorem after_joinRoom (hu : UniqueColumns σ.db.rows)
    (hrow : σ.db.rows .rooms room.id = some room.toRoomRow)
    (haccess : room.access_token_hash = env.hash_token room_token)
    (hcookie : roomService.truthy request.session_cookie = some token)
    (hended : σ.sessionBy (env.hash_token token) = none) (hactive : room.status = .active)
    (hlive : σ.rest.now < room.expires_at) (hslot : room.user_count < room.max_users)
    (role : Role) :
    After (rooms.joinRoom env room_token emptyBody request) (fun r _ => Rejoined role r ↔
      CsrfValid env request ∧ σ.Admits env "join" (clientIp request) env.generic_limit ∧
        role = .guest ∧ roomService.truthy room.password_hash = none) σ := by
  have hrefused : ∀ {e}, ¬Rejoined role (.error e) := by
    rintro e ⟨_, _, ⟨⟩, -⟩
  refine (After.withSession_iff _ _).2 ((After.bind_iff _ _ _).2 ?_)
  by_cases hcsrf : CsrfValid env request
  · rw [validateCsrf_of_valid hcsrf]
    refine (After.pure_iff _).2 ((After.bind_iff _ _ _).2 ?_)
    by_cases hadmits : σ.Admits env "join" (clientIp request) env.generic_limit
    · refine After.limiter_of_admits hadmits fun σ' hσ' => ?_
      obtain ⟨buckets, manager, outbox, rfl⟩ := hσ'
      have hjoin := @after_join env
        { σ with rest := { σ.rest with buckets, manager, outbox } } room room_token token request
        hu hrow haccess hcookie hended hactive hlive hslot role
      refine hjoin.mono fun r σ' h => ?_
      exact h.trans ⟨fun h => ⟨hcsrf, hadmits, h⟩, fun h => h.2.2⟩
    · refine (Ends.limiter (fun h => absurd h hadmits) fun e σ' _ => ?_).after
      exact ⟨fun h => absurd h hrefused, fun h => absurd h.2.1 hadmits⟩
  · obtain ⟨detail, hcheck⟩ : ∃ detail, validateCsrf env .post request =
        .raise (error .csrfValidationFailed detail) := validateCsrf_of_not hcsrf (by rintro ⟨⟩)
    rw [hcheck]
    exact ⟨fun h => absurd h hrefused, fun h => absurd h.1 hcsrf⟩

end

end reconnect

open reconnect

/-- When the last socket of a session was lost and `room_ws` has run to the end, the client that joins
again with an empty body and the same cookie, while the room is ACTIVE and has a slot, is a member in
the same role again if and only if it was a guest and the room has no password, given that its request
passes the CSRF check and the limiter. -/
theorem reconnect_as_before {env : Env} {w w₁ w₂ w₃ : World} {p p' ws : ℕ} {session : SessionRecord}
    {room : Room} {row : SessionRow} {roomRow : RoomRow} {token room_token : Token}
    {request : Request} {r : Except Err (SessionRecord × Token)} (hfree : w.db.Free)
    (hrow : w.db.committed .sessions session.id = some row)
    (hlast : Last ws session room w.manager)
    (hleave : server.Runs p (withSession (websocket.leave ws session room)) w (.ok ()) w₁)
    (hmeanwhile : Meanwhile session.id row.session_token_hash w₁ w₂)
    (hcookie : roomService.truthy request.session_cookie = some token)
    (hhash : row.session_token_hash = env.hash_token token)
    (hroom : w₂.db.committed .rooms room.id = some roomRow)
    (haccess : roomRow.access_token_hash = env.hash_token room_token)
    (hactive : roomRow.status = .active) (hlive : w₂.now < roomRow.expires_at)
    (hslot : roomRow.user_count < roomRow.max_users)
    (hjoin : calm.Runs p' (rooms.joinRoom env room_token emptyBody request) w₂ r w₃) :
    Rejoined row.role r ↔ CsrfValid env request ∧
      (Serial.of p' w₂).Admits env "join" (clientIp request) env.generic_limit ∧
      row.role = .guest ∧ roomService.truthy roomRow.password_hash = none := by
  have hclean : (Serial.of p w).db.rows = w.db.committed := Snapshot.rows_of_free hfree
  have hrow' : (Serial.of p w).db.rows .sessions session.id = some row := by rw [hclean, hrow]
  have hends : Ends (withSession (websocket.leave ws session room)) (fun r σ' => r = .ok () →
      σ'.rest.now = w.now ∧ σ'.db.saved .sessions session.id = some (ended row w.now)) (.of p w) :=
    .withSession ((@ends_leave (.of p w) ws session room row hlast hrow').mono fun _ _ h => h)
  obtain ⟨hnow, hended⟩ := hends.of_runs hleave (hfree.alone p) rfl
  have hclean₂ : (Serial.of p' w₂).db.rows = w₂.db.committed :=
    Snapshot.rows_of_free hmeanwhile.free
  have hu := hmeanwhile.unique
  rw [← hclean₂] at hroom hu
  refine (@after_joinRoom env (.of p' w₂) { roomRow with id := room.id } room_token token request hu
    hroom haccess hcookie ?_ hactive hlive hslot row.role).of_runs hjoin (hmeanwhile.free.alone p')
  -- The session with the token of the cookie is the one that was ended, which is over by now.
  refine Option.eq_none_iff_forall_ne_some.2 fun s hs => ?_
  obtain ⟨hs, hsame, hover⟩ := Serial.of_sessionBy hs
  rw [hclean₂] at hs
  have hfound := hmeanwhile.session s.id s.toSessionRow hs (hsame.trans hhash.symm)
  have hrow₁ : w₁.db.committed .sessions session.id = some (ended row w.now) := hended
  have hsession : s.toSessionRow = ended row w.now := Option.some.inj (hfound.symm.trans hrow₁)
  have hexpires : s.expires_at = w.now := congrArg SessionRow.expires_at hsession
  have hw₁ : w₁.now = w.now := hnow
  have hlater : w₁.now ≤ w₂.now := hmeanwhile.now
  exact absurd hover (Nat.not_lt.2 (hexpires.trans_le (hw₁.symm.trans_le hlater)))

namespace reconnect

/-- A world with a room and a member of it. -/
def visited (room : RoomRow) (member : SessionRow) : World := .holding [room] [member] []

/-- The room as the handler has loaded it. -/
def loadedRoom : Room := { RoomRow.plain with id := 0 }

/-- The guest as the handler has loaded it. -/
def loadedGuest : SessionRecord := { guests.visitor with id := 0 }

end reconnect

/-- A guest of a room without a password gets back in. -/
theorem reconnect_as_before_guest : ∃ w₁ w₃ session token,
    server.Runs 0 (withSession (websocket.leave 7 loadedGuest loadedRoom))
      (visited .plain guests.visitor) (.ok ()) w₁ ∧
    calm.Runs 0 (rooms.joinRoom .plain "a" emptyBody guests.visit)
      (visited .plain (ended guests.visitor (seconds 1000))) (.ok (session, token)) w₃ ∧
    session.role = .guest := by
  obtain ⟨⟨⟩, -, hleave⟩ := calm.exists_runs_ok 0
    (withSession (websocket.leave 7 loadedGuest loadedRoom)) (visited .plain guests.visitor) id
    (b := ()) (by decide)
  obtain ⟨r, hjoin⟩ := calm.exists_runs_endWorld 0
    (rooms.joinRoom .plain "a" emptyBody guests.visit)
    (visited .plain (ended guests.visitor (seconds 1000))) (by decide)
  have hmeanwhile : Meanwhile loadedGuest.id guests.visitor.session_token_hash
      (calm.endWorld 0 (withSession (websocket.leave 7 loadedGuest loadedRoom))
        (visited .plain guests.visitor))
      (visited .plain (ended guests.visitor (seconds 1000))) := by
    refine ⟨World.holding_free, World.holding_unique (by decide) (by decide) (by decide),
      by decide, fun i row hrow _ => ?_⟩
    obtain rfl : i = 0 := Nat.lt_one_iff.1 (Tables.lt_length_of_committed hrow)
    cases hrow
    decide
  have hlast : Last 7 loadedGuest loadedRoom (visited .plain guests.visitor).manager := by
    unfold Last
    decide
  have hrow : (visited .plain guests.visitor).db.committed .sessions loadedGuest.id =
      some guests.visitor := rfl
  have hcookie : roomService.truthy guests.visit.session_cookie = some "g" := rfl
  obtain ⟨session, token, rfl, hrole⟩ := (reconnect_as_before World.holding_free hrow hlast
    (server_of_calm hleave) hmeanwhile hcookie rfl rfl rfl rfl (by decide) (by decide) hjoin).2
    ⟨⟨"x", rfl, rfl, rfl⟩, fun _ => by decide, rfl, rfl⟩
  exact ⟨_, _, session, token, server_of_calm hleave, hjoin, hrole⟩

/-- A room with a password. -/
def RoomRow.locked : RoomRow := { RoomRow.plain with password_hash := some "p" }

/-- The owner gets back in as a guest, and a guest of a room with a password does not get back in. -/
theorem reconnect_loses_membership :
    (∃ w₁ w₃ session token,
      calm.Runs 0 (websocket.roomWs .plain 7 ⟨none, some "s", "a"⟩ []) (visited .plain .owner)
        (.ok ()) w₁ ∧
      calm.Runs 0 (rooms.joinRoom .plain "a" emptyBody .owner) w₁ (.ok (session, token)) w₃ ∧
      SessionRow.owner.role = .owner ∧ session.role = .guest) ∧
    ∃ w₁ w₃,
      calm.Runs 0 (websocket.roomWs .plain 7 ⟨none, some "g", "a"⟩ [])
        (visited .locked guests.visitor) (.ok ()) w₁ ∧
      calm.Runs 0 (rooms.joinRoom .plain "a" emptyBody guests.visit) w₁
        (.error (error .wrongPassword "")) w₃ := by
  obtain ⟨⟨⟩, -, hleave⟩ := calm.exists_runs_ok 0
    (websocket.roomWs .plain 7 ⟨none, some "s", "a"⟩ []) (visited .plain .owner) id
    (b := ()) (by decide +kernel)
  obtain ⟨⟨session, token⟩, hrole, hjoin⟩ := calm.exists_runs_ok 0
    (rooms.joinRoom .plain "a" emptyBody .owner) (calm.endWorld 0
      (websocket.roomWs .plain 7 ⟨none, some "s", "a"⟩ []) (visited .plain .owner))
    (fun joined => joined.1.role) (b := .guest) (by decide +kernel)
  obtain ⟨⟨⟩, -, hleave'⟩ := calm.exists_runs_ok 0
    (websocket.roomWs .plain 7 ⟨none, some "g", "a"⟩ []) (visited .locked guests.visitor) id
    (b := ()) (by decide +kernel)
  have hjoin' := calm.runs_error 0 (rooms.joinRoom .plain "a" emptyBody guests.visit)
    (calm.endWorld 0 (websocket.roomWs .plain 7 ⟨none, some "g", "a"⟩ [])
      (visited .locked guests.visitor)) (e := error .wrongPassword "") (by decide +kernel)
  exact ⟨⟨_, _, session, token, hleave, hjoin, rfl, hrole⟩, _, _, hleave', hjoin'⟩

end DropRoom
