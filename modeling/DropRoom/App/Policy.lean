import DropRoom.App.Entitled
import DropRoom.App.Server

/-!
# Every task keeps to the policy

One rule for each function: what it is entitled to follows from what its checks have seen. The
theorems `plain_*` are about the functions that only look and tell; the other ones go through the
services and the endpoints bottom up, to `Task.acts`.
-/

namespace DropRoom

open Effect Store Prog uploadService

section

variable {α ι : Type} {P : Cmd → Prop}

/-- A loop over a list issues what its body does for the elements of the list. -/
theorem only_forM_mem {f : ι → Op PUnit} (l : List ι) (hf : ∀ i ∈ l, (f i).Only P) :
    (l.forM f).Only P := by
  induction l with
  | nil => exact only_ret _
  | cons i l ih =>
    refine only_bind (hf i List.mem_cons_self) fun _ => ih fun j hj => ?_
    exact hf j (List.mem_cons_of_mem i hj)

end

/-! ## Looking and telling -/

section

variable {env : Env}

/-- A `SELECT` needs nothing. -/
theorem plain_select (t : Table) (where_) : (select t where_).Only Cmd.Plain :=
  (only_issue _).2 trivial

/-- Reading the clock needs nothing. -/
theorem plain_utcnow : utcnow.Only Cmd.Plain := (only_issue _).2 trivial

/-- A commit needs nothing: what it makes durable was allowed before. -/
theorem plain_commit : commit.Only Cmd.Plain := (only_issue _).2 trivial

/-- `has_expired` compares with the clock. -/
theorem plain_hasExpired (at_ : Time) : (hasExpired at_).Only Cmd.Plain :=
  only_bind plain_utcnow fun _ => only_pure _

/-- Sending to a socket needs nothing. -/
theorem plain_sendJson (ws event) : (sendJson ws event).Only Cmd.Plain := (only_issue _).2 trivial

/-- A broadcast only sends. -/
theorem plain_broadcast (ch event exclude) : (broadcast ch event exclude).Only Cmd.Plain := by
  refine (broadcast_tells ch event exclude).mono fun c hc => ?_
  cases c <;> first | exact hc.elim | trivial

/-- The limiter needs no token. -/
theorem plain_limiterCheck (scope key limit) : (limiterCheck env scope key limit).Only Cmd.Plain := by
  unfold limiterCheck
  split
  · exact only_bind ((only_issue _).2 trivial) fun _ => only_require _ _
  · exact only_pure _

/-- `validate_csrf` only compares. -/
theorem plain_validateCsrf (method request) : (validateCsrf env method request).Only Cmd.Plain := by
  unfold validateCsrf
  split
  · exact only_pure _
  · split
    · exact only_bind (only_require _ _) fun _ => only_require _ _
    · exact only_raise _

/-- The life time is compared with what is admitted. -/
theorem plain_validateLifetime (lifetime) :
    (roomService.validateLifetime env lifetime).Only Cmd.Plain := by
  unfold roomService.validateLifetime
  split
  · exact only_pure _
  · exact only_bind (only_require _ _) fun _ => only_bind (only_require _ _) fun _ => only_pure _

/-- The state of the room is compared with the clock. -/
theorem plain_assertJoinable (room) : (roomService.assertJoinable room).Only Cmd.Plain :=
  only_bind (only_require _ _) fun _ => only_bind (only_require _ _) fun _ =>
    only_bind (plain_hasExpired _) fun _ => only_require _ _

/-- `_authorize_upload` reads the role and the switch of the room. -/
theorem plain_authorizeUpload (room actor) :
    (fileService.authorizeUpload room actor).Only Cmd.Plain :=
  only_bind (only_require _ _) fun _ => only_require _ _

/-- `_authorize_download` reads the role and the switch of the room. -/
theorem plain_authorizeDownload (room actor) :
    (fileService.authorizeDownload room actor).Only Cmd.Plain :=
  only_bind (only_require _ _) fun _ => only_require _ _

/-- `_authorize_chunked_upload` reads the role and the switch of the room. -/
theorem plain_authorizeChunkedUpload (room actor) :
    (authorizeChunkedUpload room actor).Only Cmd.Plain :=
  only_bind (only_require _ _) fun _ => only_require _ _

/-- The confirmed files are only read. -/
theorem plain_listConfirmedFiles (room_id) :
    (fileRepository.listConfirmedFiles room_id).Only Cmd.Plain :=
  only_bind (plain_select _ _) fun _ => only_pure _

/-- The sessions are only read. -/
theorem plain_getActiveSessions (room_id) :
    (sessionRepository.getActiveSessions room_id).Only Cmd.Plain :=
  only_bind plain_utcnow fun _ => only_bind (plain_select _ _) fun _ => only_pure _

/-- The messages are only read. -/
theorem plain_listMessages (room_id) : (messageService.listMessages env room_id).Only Cmd.Plain :=
  only_bind (plain_select _ _) fun _ => only_pure _

/-- The length of a message is checked. -/
theorem plain_validateBody (body) : (messageService.validateBody env body).Only Cmd.Plain :=
  only_bind (only_require _ _) fun _ => only_bind (only_require _ _) fun _ => only_pure _

/-- The progress of an upload is only told. -/
theorem plain_broadcastProgress (room rec_) :
    (uploads.broadcastProgress room rec_).Only Cmd.Plain := by
  unfold uploads.broadcastProgress
  dsimp only
  split
  · exact plain_broadcast _ _ _
  · exact only_pure _

/-- The state of the room is only read and told. -/
theorem plain_sendState (ws session room) :
    (websocket.sendState env ws session room).Only Cmd.Plain := by
  refine only_bind (plain_listConfirmedFiles _) fun files => ?_
  refine only_bind (plain_getActiveSessions _) fun sessions => ?_
  refine only_bind (plain_listMessages _) fun messages => only_bind plain_utcnow fun now => ?_
  refine only_bind ((only_issue _).2 trivial) fun sids => only_bind (plain_sendJson _ _) fun _ => ?_
  split
  · exact plain_sendJson _ _
  · exact only_pure _

/-- An error is only told. -/
theorem plain_sendError (ws code detail) : (websocket.sendError ws code detail).Only Cmd.Plain :=
  only_tryCatch (plain_sendJson _ _) fun _ => only_pure _

/-- A socket is registered and told the state of the room. -/
theorem plain_greet (ws session room) : (websocket.greet env ws session room).Only Cmd.Plain :=
  only_bind ((only_issue _).2 trivial) fun _ => only_bind ((only_issue _).2 trivial) fun _ =>
    only_bind (plain_sendState _ _ _) fun _ => plain_broadcast _ _ _

/-- What ends a socket is swallowed. -/
theorem plain_swallow (ws e) : (websocket.swallow ws e).Only Cmd.Plain := by
  unfold websocket.swallow
  split
  · exact only_pure _
  · exact only_tryCatch ((only_issue _).2 trivial) fun _ => only_pure _

/-- The limiter of the chat needs no token. -/
theorem plain_chatAllowed (ws session room) :
    (websocket.chatAllowed env ws session room).Only Cmd.Plain := by
  refine only_tryCatch (only_bind (plain_limiterCheck _ _ _) fun _ => only_pure _) fun e => ?_
  split
  · exact only_bind (plain_sendError _ _ _) fun _ => only_pure _
  · exact only_raise _

/-- A field of the payload is read. -/
theorem plain_payloadGet (payload key default) :
    (websocket.payloadGet payload key default).Only Cmd.Plain := by
  unfold websocket.payloadGet
  split
  · exact only_pure _
  · exact only_raise _

/-- A `with` block ends with a rollback, which needs nothing. -/
theorem plain_withSession {α : Type} {body : Op α} (h : body.Only Cmd.Plain) :
    (withSession body).Only Cmd.Plain := by
  have hclose : closeDb.Only Cmd.Plain := (only_issue _).2 trivial
  refine only_bind (only_tryCatch h fun e => only_bind hclose fun _ => only_raise _) fun a => ?_
  exact only_bind hclose fun _ => only_pure _

/-- A scan only reads the records. -/
theorem plain_scanRecords (cutoff) : (scheduler.scanRecords cutoff).Only Cmd.Plain := by
  have henqueue : ∀ job, (enqueue job).Only Cmd.Plain := fun job => (only_issue _).2 trivial
  refine plain_withSession (only_bind ?_ fun rooms => ?_)
  · exact only_bind plain_utcnow fun _ => only_bind (plain_select _ _) fun _ => only_pure _
  refine only_bind (only_forM (fun _ => henqueue _) _) fun _ => ?_
  refine only_bind (only_bind (plain_select _ _) fun _ => only_pure _) fun deleted => ?_
  refine only_bind (only_forM (fun rec_ => ?_) _) fun _ => ?_
  · refine only_bind ((only_issue _).2 trivial) fun there => ?_
    split
    · exact henqueue _
    · exact only_pure _
  refine only_bind (only_bind (plain_select _ _) fun _ => only_pure _) fun stale => ?_
  refine only_bind (only_forM (fun _ => henqueue _) _) fun _ => ?_
  exact only_bind (plain_select _ _) fun _ => only_pure _

/-- The scheduler looks at everything and enqueues jobs. -/
theorem plain_scanOnce : (scheduler.scanOnce env).Only Cmd.Plain := by
  refine only_bind plain_utcnow fun now => only_tryCatch ?_ fun _ => only_pure _
  refine only_bind (plain_scanRecords _) fun known => ?_
  refine only_bind ((only_issue _).2 trivial) fun keys => ?_
  exact only_forM (fun _ => (only_issue _).2 trivial) _

end

/-! ## Sessions and rooms -/

section

variable {α : Type} {env : Env} {cred : Keyring} {p : ℕ} {start : Past} {w : World}

namespace Acts

/-- The start state may be taken to be in order. -/
theorem good {prog : Op α} {Q : α → World → Prop}
    (h : start.Good w → Acts env cred start p prog Q w) : Acts env cred start p prog Q w :=
  fun hw => h hw.2 hw

/-- A check that only looks, before a program. -/
theorem plain_bind {β : Type} {prog : Op β} {f : β → Op α} {Q : α → World → Prop}
    (hp : prog.Only Cmd.Plain) (h : ∀ b w', start.Later w w' → Acts env cred start p (f b) Q w') :
    Acts env cred start p (prog >>= f) Q w := bind (plain hp h)

/-- `scalar_one_or_none` finds a row of the list, if any. -/
theorem scalarOneOrNone {l : List α} {Q : Option α → World → Prop}
    (hQ : ∀ found w', start.Later w w' → (∀ a, found = some a → a ∈ l) → Q found w') :
    Acts env cred start p (scalarOneOrNone l) Q w := by
  unfold DropRoom.scalarOneOrNone
  split
  · exact pure fun w' hw' => hQ _ w' hw' fun a ha => by cases ha
  · refine pure fun w' hw' => hQ _ w' hw' fun a ha => ?_
    cases ha
    exact List.mem_cons_self
  · exact raise _

/-- One row that a `SELECT` finds. -/
theorem find {t : Table} {where_ : ℕ → Row t → Bool} {f : ℕ × Row t → α}
    {Q : Option α → World → Prop}
    (hQ : ∀ found w', start.Later w w' → (∀ a, found = some a → ∃ i r, f (i, r) = a ∧
      start.Read w w' t where_ i r) → Q found w') : Acts env cred start p (do
        let rows ← DropRoom.select t where_
        DropRoom.scalarOneOrNone (rows.map f)) Q w := by
  refine bind (select fun rows w₁ h₁ hread => scalarOneOrNone fun found w₂ h₂ hmem => ?_)
  refine hQ found w₂ (h₁.trans h₂) fun a ha => ?_
  obtain ⟨⟨i, r⟩, hr, rfl⟩ := List.mem_map.1 (hmem a ha)
  obtain ⟨hseen, hwhere, hknown⟩ := hread i r hr
  exact ⟨i, r, rfl, h₂.known hseen, hwhere, hknown⟩

/-- A session that is found is a row with that hash. -/
theorem getByTokenHash {h : TokenHash} {Q : Option SessionRecord → World → Prop}
    (hQ : ∀ found w', start.Later w w' → (∀ session, found = some session →
      start.Known w' .sessions session.id session.toSessionRow ∧ session.session_token_hash = h) →
        Q found w') : Acts env cred start p (sessionRepository.getByTokenHash h) Q w := by
  refine plain_bind plain_utcnow fun now w₁ h₁ => find fun found w₂ h₂ hfound => ?_
  refine hQ found w₂ (h₁.trans h₂) fun session hs => ?_
  obtain ⟨i, r, rfl, hseen, hwhere, -⟩ := hfound session hs
  rw [Bool.and_eq_true, beq_iff_eq] at hwhere
  exact ⟨hseen, hwhere.1⟩

/-- The request holds the session that `require_session` finds. -/
theorem requireSession {request : Request} {Q : SessionRecord → World → Prop}
    (ht : cred.session_token = roomService.truthy request.session_cookie)
    (hQ : ∀ session w', start.Later w w' → HoldsSession env cred start w' session → Q session w') :
    Acts env cred start p (requireSession env request) Q w := by
  unfold DropRoom.requireSession
  split
  · next token htoken =>
    refine bind (getByTokenHash fun found w₁ h₁ hfound => ?_)
    split
    · next session =>
      obtain ⟨hseen, hhash⟩ := hfound session rfl
      refine plain_bind (plain_hasExpired _) fun expired w₂ h₂ => require_bind fun _ => ?_
      refine pure fun w₃ h₃ => hQ session w₃ (h₁.trans (h₂.trans h₃)) ⟨?_, token, ?_, hhash⟩
      · exact (h₂.trans h₃).known hseen
      · rw [ht, htoken]
    · exact raise _
  · exact raise _

/-- A room that is found by its access token. -/
theorem getRoomByAccessToken {room_token : Token} {Q : Option Room → World → Prop}
    (ht : cred.room_token = some room_token)
    (hQ : ∀ found w', start.Later w w' → (∀ room, found = some room →
      NamesRoom env cred start w' room.id ∧ start.Known w' .rooms room.id room.toRoomRow) →
      Q found w') :
    Acts env cred start p (roomRepository.getRoomByAccessToken env room_token) Q w := by
  refine find fun found w₁ h₁ hfound => hQ found w₁ h₁ fun room hroom => ?_
  obtain ⟨i, r, rfl, hseen, hwhere, -⟩ := hfound room hroom
  exact ⟨.token hseen ht (eq_of_beq hwhere), hseen⟩

/-- The request names the room that `get_room_by_token` finds. -/
theorem getRoomByToken {room_token : Token} {Q : Room → World → Prop}
    (ht : cred.room_token = some room_token)
    (hQ : ∀ room w', start.Later w w' → NamesRoom env cred start w' room.id →
      start.Known w' .rooms room.id room.toRoomRow → Q room w') :
    Acts env cred start p (getRoomByToken env room_token) Q w := by
  refine bind (getRoomByAccessToken ht fun found w₁ h₁ hfound => ?_)
  split
  · next room =>
    obtain ⟨hnames, hseen⟩ := hfound room rfl
    exact pure fun w₂ h₂ => hQ room w₂ (h₁.trans h₂) (hnames.later h₂) (h₂.known hseen)
  · exact raise _

/-- The request attends the room that `require_member` finds. -/
theorem requireMember {room_token : Token} {request : Request} {Q : SessionRecord × Room → World → Prop}
    (hroom : cred.room_token = some room_token)
    (hsession : cred.session_token = roomService.truthy request.session_cookie)
    (hQ : ∀ session room w', start.Later w w' → Attends env cred start w' session →
      session.room_id = room.id → Q (session, room) w') :
    Acts env cred start p (requireMember env room_token request) Q w := by
  refine bind (requireSession hsession fun session w₁ h₁ hholds => ?_)
  refine bind (getRoomByToken hroom fun room w₂ h₂ hnames hseen => require_bind fun heq => ?_)
  refine pure fun w₃ h₃ => hQ session room w₃ (h₁.trans (h₂.trans h₃)) ⟨?_, ?_⟩ heq
  · exact hholds.later (h₂.trans h₃)
  · rw [heq]
    exact hnames.later h₃

/-- The same with the session of an owner. -/
theorem requireRoomOwner {room_token : Token} {request : Request}
    {Q : SessionRecord × Room → World → Prop} (hroom : cred.room_token = some room_token)
    (hsession : cred.session_token = roomService.truthy request.session_cookie)
    (hQ : ∀ session room w', start.Later w w' → Attends env cred start w' session →
      session.room_id = room.id → session.role = .owner → Q (session, room) w') :
    Acts env cred start p (requireRoomOwner env room_token request) Q w := by
  refine bind (requireSession hsession fun session w₁ h₁ hholds => ?_)
  refine bind (getRoomByToken hroom fun room w₂ h₂ hnames hseen => require_bind fun heq => ?_)
  refine require_bind fun howner => ?_
  refine pure fun w₃ h₃ => hQ session room w₃ (h₁.trans (h₂.trans h₃)) ⟨?_, ?_⟩ heq howner
  · exact hholds.later (h₂.trans h₃)
  · rw [heq]
    exact hnames.later h₃

/-! ## Joining -/

/-- Only the owner token of the room gives the role of the owner. -/
theorem resolveRole {room : Room} {password : Option String} {owner_token : Option PyStr}
    {Q : Role → World → Prop}
    (hown : ∀ token, (PyStr.truthy owner_token).bind PyStr.encode = some token →
      room.owner_token_hash = env.hash_token token → MayOwn env cred start w room.id)
    (hQ : ∀ role w', start.Later w w' → (role = .owner → MayOwn env cred start w' room.id) → Q role w') :
    Acts env cred start p (roomService.resolveRole env room password owner_token) Q w := by
  have hguest : ∀ w', start.Later w w' → Q .guest w' := fun w' hw' => hQ _ w' hw' fun h => by cases h
  unfold roomService.resolveRole
  split
  · next owner_token howner =>
    cases htoken : owner_token.encode with
    | none =>
      rw [roomService.hashToken, htoken]
      exact bind (raise _)
    | some token =>
      rw [roomService.hashToken, htoken]
      refine bind (pure fun w₁ h₁ => require_bind fun hhash => pure fun w' hw' => ?_)
      refine hQ _ w' (h₁.trans hw') fun _ => (hown token ?_ hhash).later (h₁.trans hw')
      rw [howner, Option.bind_some, htoken]
  · split
    · split
      · exact require_bind fun _ => pure hguest
      · exact raise _
    · exact pure hguest

/-- A join inserts a session of the room that it names, as OWNER only with the token of the owner.
-/
theorem joinRoom {room : Room} {name password : Option String} {owner_token : Option PyStr}
    {Q : SessionRecord × Token → World → Prop} (hnames : NamesRoom env cred start w room.id)
    (hown : ∀ token, (PyStr.truthy owner_token).bind PyStr.encode = some token →
      room.owner_token_hash = env.hash_token token → MayOwn env cred start w room.id)
    (hQ : ∀ a w', start.Later w w' → Q a w') :
    Acts env cred start p (roomService.joinRoom env room name password owner_token) Q w := by
  refine plain_bind (plain_assertJoinable _) fun _ w₁ h₁ => ?_
  have hown₁ : ∀ token, (PyStr.truthy owner_token).bind PyStr.encode = some token →
      room.owner_token_hash = env.hash_token token → MayOwn env cred start w₁ room.id :=
    fun token ht hh => (hown token ht hh).later h₁
  refine bind (resolveRole hown₁ fun role w₂ h₂ hrole => ?_)
  have hnames₂ := hnames.later (h₁.trans h₂)
  refine of_only ?_ fun a w₃ h₃ => hQ a w₃ (h₁.trans (h₂.trans h₃))
  refine only_bind ((only_issue _).2 (.join hnames₂)) fun _ => only_bind (only_require _ _) fun _ => ?_
  refine only_bind ((only_issue _).2 (.plain trivial)) fun token => only_bind ?_ fun _ => only_pure _
  refine only_bind ((only_issue _).2 (.plain trivial)) fun now => ?_
  exact only_bind ((only_issue _).2 (.newSession hnames₂ hrole)) fun _ => only_pure _

/-- A request may renew the session that it holds. -/
theorem sessionFlush {session new : SessionRecord} {Q : Unit → World → Prop}
    (hs : Attends env cred start w session) (hQ : ∀ a w', start.Later w w' → Q a w') :
    Acts env cred start p (sessionRepository.flush session new) Q w := by
  unfold sessionRepository.flush
  split
  · exact pure fun w' hw' => hQ _ w' hw'
  · refine of_only ?_ hQ
    exact only_bind ((only_issue _).2 (.updateSession hs _)) fun _ => only_require _ _

/-- A request holds the session of its cookie, or makes one by a join. -/
theorem establishSession {room : Room} {join : rooms.JoinRequest} {cookie : Option Token}
    {Q : SessionRecord × Token × Bool → World → Prop} (hnames : NamesRoom env cred start w room.id)
    (hseen : start.Known w .rooms room.id room.toRoomRow)
    (hsession : cred.session_token = roomService.truthy cookie)
    (howner : cred.owner_token = (PyStr.truthy join.owner_token).bind PyStr.encode)
    (hQ : ∀ a w', start.Later w w' → Q a w') :
    Acts env cred start p (rooms.establishSession env room join cookie) Q w := by
  refine bind ?_
  have hexisting : Acts env cred start p (rooms.existingSession env room cookie) (fun found w' =>
      start.Later w w' ∧ ∀ session token, found = some (session, token) →
        Attends env cred start w' session) w := by
    unfold rooms.existingSession
    split
    · next token htoken =>
      refine bind (getByTokenHash fun found w₁ h₁ hfound => pure fun w₂ h₂ => ⟨h₁.trans h₂, ?_⟩)
      intro session token' hused
      obtain ⟨session', rfl, hroom⟩ := Option.bind_eq_some_iff.1 hused
      obtain ⟨hseen', hhash⟩ := hfound session' rfl
      split at hroom
      · next heq =>
        cases hroom
        refine ⟨⟨h₂.known hseen', token, hsession.trans htoken, hhash⟩, ?_⟩
        rw [heq]
        exact hnames.later (h₁.trans h₂)
      · cases hroom
    · exact pure fun w₁ h₁ => ⟨h₁, fun session token heq => by cases heq⟩
  refine hexisting.mono fun found w₁ _ hfound => ?_
  obtain ⟨h₁, hholds⟩ := hfound
  split
  · next session token =>
    refine plain_bind plain_utcnow fun now w₂ h₂ => plain_bind plain_utcnow fun seen w₃ h₃ => ?_
    refine bind (sessionFlush ((hholds session token rfl).later (h₂.trans h₃)) fun _ w₄ h₄ => ?_)
    exact pure fun w₅ h₅ => hQ _ w₅ (h₁.trans (h₂.trans (h₃.trans (h₄.trans h₅))))
  · refine bind (joinRoom (hnames.later h₁) ?_ fun a w₂ h₂ => ?_)
    · exact fun token ht hh => .token (h₁.known hseen) (howner.trans ht) hh
    · exact pure fun w₃ h₃ => hQ _ w₃ (h₁.trans (h₂.trans h₃))

/-- Making a room needs nothing. -/
theorem createRoom (body : roomService.RoomCreate) (request : Request) :
    Acts env cred start p (rooms.createRoom env body request) (fun _ _ => True) w := by
  refine withSession ?_ fun _ _ _ _ h => h
  refine plain_bind (plain_validateCsrf _ _) fun _ w₁ _ => ?_
  refine plain_bind (plain_limiterCheck _ _ _) fun _ w₂ _ => bind ?_
  refine plain_bind (plain_validateLifetime _) fun lifetime w₃ _ => ?_
  refine plain_bind ((only_issue _).2 trivial) fun access_token w₄ _ => ?_
  refine plain_bind ((only_issue _).2 trivial) fun owner_token w₅ _ => ?_
  refine plain_bind ((only_issue _).2 trivial) fun room_code w₆ _ => ?_
  refine plain_bind plain_utcnow fun now w₇ _ => good fun hgood => ?_
  refine bind (insert (.newRoom _) fun id w₈ _ hseen hid => ?_)
  -- The new room is none of those that the policy is about.
  have hnew : (start.world.db .rooms).length ≤ id := hgood.rooms.trans hid
  refine bind (insert (.newAudit fun ρ hρ => ?_) fun _ w₉ _ _ _ => pure fun w₁₀ _ => ?_)
  · cases hρ
    exact .new hnew
  refine bind (joinRoom (.new hnew) (fun _ _ _ => .new hnew) fun _ w₁₁ _ => ?_)
  exact plain_bind plain_commit fun _ w₁₂ _ => pure fun _ _ => trivial

/-- Reading a room needs its token. -/
theorem getRoom (room_token : Token) (ht : cred.room_token = some room_token) :
    Acts env cred start p (rooms.getRoom env room_token) (fun _ _ => True) w := by
  refine withSession ?_ fun _ _ _ _ h => h
  refine bind (getRoomByToken ht fun room w₁ _ _ _ => plain_bind plain_utcnow fun _ w₂ _ => ?_)
  exact pure fun _ _ => trivial

/-- A join by the token of the room. -/
theorem rooms_joinRoom (room_token : Token) (body : rooms.JoinRequest) (request : Request)
    (ht : cred.room_token = some room_token)
    (hsession : cred.session_token = roomService.truthy request.session_cookie)
    (howner : cred.owner_token = (PyStr.truthy body.owner_token).bind PyStr.encode) :
    Acts env cred start p (rooms.joinRoom env room_token body request) (fun _ _ => True) w := by
  refine withSession ?_ fun _ _ _ _ h => h
  refine plain_bind (plain_validateCsrf _ _) fun _ w₁ _ => ?_
  refine plain_bind (plain_limiterCheck _ _ _) fun _ w₂ _ => ?_
  refine bind (getRoomByToken ht fun room w₃ _ hnames hseen => ?_)
  refine bind (establishSession hnames hseen hsession howner fun _ w₄ _ => ?_)
  exact plain_bind plain_commit fun _ w₅ _ => pure fun _ _ => trivial

/-- A join by the code of the room. -/
theorem joinByCode (room_code : String) (body : rooms.JoinRequest) (request : Request)
    (hc : cred.room_code = some room_code)
    (hsession : cred.session_token = roomService.truthy request.session_cookie)
    (howner : cred.owner_token = (PyStr.truthy body.owner_token).bind PyStr.encode) :
    Acts env cred start p (rooms.joinByCode env room_code body request) (fun _ _ => True) w := by
  refine withSession ?_ fun _ _ _ _ h => h
  refine plain_bind (plain_validateCsrf _ _) fun _ w₁ _ => ?_
  refine plain_bind (plain_limiterCheck _ _ _) fun _ w₂ _ => ?_
  refine bind (find fun found w₃ _ hfound => ?_)
  split
  · next room =>
    obtain ⟨i, r, rfl, hseen, hwhere, -⟩ := hfound room rfl
    have hnames : NamesRoom env cred start w₃ (toRoom (i, r)).id := .code hseen hc (eq_of_beq hwhere)
    refine bind (tryCatch (establishSession hnames hseen hsession howner fun _ w₄ _ => ?_)
      fun e w₄ _ => raise _)
    exact plain_bind plain_commit fun _ w₅ _ => pure fun _ _ => trivial
  · exact raise _

/-! ## Settings and teardown -/

/-- The settings are written by an owner. -/
theorem patchRoom (room_token : Token) (body : roomService.RoomPatch) (request : Request)
    (ht : cred.room_token = some room_token)
    (hsession : cred.session_token = roomService.truthy request.session_cookie) :
    Acts env cred start p (rooms.patchRoom env room_token body request) (fun _ _ => True) w := by
  refine withSession ?_ fun _ _ _ _ h => h
  refine bind (requireRoomOwner ht hsession fun session room w₁ _ hs heq howner => ?_)
  refine plain_bind (plain_validateCsrf _ _) fun _ w₂ h₂ => bind (of_only ?_ fun updated w₃ _ => ?_)
  · refine only_bind ((plain_assertJoinable _).mono fun _ hc => .plain hc) fun _ => ?_
    split
    · exact only_pure _
    · have hrule := Entitled.rule (hs.later h₂) howner (body.values env)
      rw [heq] at hrule
      refine only_bind (only_bind ((only_issue _).2 hrule) fun _ => only_bind ?_ fun _ =>
        only_pure _) fun _ => only_pure _
      exact only_bind ((only_issue _).2 (.plain trivial)) fun _ => only_scalarOneOrNone _
  · refine plain_bind plain_commit fun _ w₄ _ => plain_bind (plain_broadcast _ _ _) fun _ w₅ _ => ?_
    exact pure fun _ _ => trivial

/-- The content of a room is deleted by an owner. -/
theorem deleteContent {session : SessionRecord} {Q : Unit → World → Prop}
    (hs : Attends env cred start w session) (howner : session.role = .owner)
    (hQ : ∀ a w', start.Later w w' → Q a w') :
    Acts env cred start p (cleanupService.deleteContent session.room_id) Q w := by
  refine bind (bind (select fun rows w₁ h₁ hrows => pure fun w₂ h₂ => ?_))
  have hs₂ := hs.later (h₁.trans h₂)
  refine of_only ?_ fun a w₃ h₃ => hQ a w₃ (h₁.trans (h₂.trans h₃))
  refine only_bind (only_forM_mem _ fun key hkey => (only_issue _).2 ?_) fun _ => ?_
  · obtain ⟨⟨f, r⟩, hr, rfl⟩ := List.mem_map.1 hkey
    obtain ⟨hseen, hroom, -⟩ := hrows f r hr
    exact .deleteObject hs₂ (h₂.known hseen) (eq_of_beq hroom) (.inl rfl)
  refine only_bind ((only_issue _).2 (.wipe hs₂ howner fun i r hd => ?_)) fun _ => ?_
  · exact congrArg some (eq_of_beq hd)
  refine only_bind ((only_issue _).2 (.wipe hs₂ howner fun i r hd => ?_)) fun _ => ?_
  · exact congrArg some (eq_of_beq hd)
  refine only_bind ((only_issue _).2 (.wipe hs₂ howner fun i r hd => ?_)) fun _ => ?_
  · exact congrArg some (eq_of_beq hd)
  refine only_bind ((only_issue _).2 (.wipe hs₂ howner fun i r hd => ?_)) fun _ => only_pure _
  exact eq_of_beq hd

/-- A room is torn down by an owner. -/
theorem cleanupRoom {session : SessionRecord} {room : Room} {Q : Bool → World → Prop}
    (hs : Attends env cred start w session) (heq : session.room_id = room.id)
    (howner : session.role = .owner) (hQ : ∀ a w', start.Later w w' → Q a w') :
    Acts env cred start p (cleanupService.cleanupRoom room) Q w := by
  have hmark : ∀ u w', start.Later w w' →
      (updateAt .rooms room.id u).Only (Entitled env cred start w') := fun u w' hw' => by
    rw [← heq]
    exact (only_issue _).2 (.rule (hs.later hw') howner u)
  have hrest : ∀ w', start.Later w w' → Acts env cred start p (do
      if ← roomRepository.markRoomDeleting room.id then
        cleanupService.deleteContent room.id
        let _ ← roomRepository.markRoomDeleted room.id
        Pure.pure true
      else Pure.pure false) Q w' := by
    intro w' hw'
    refine bind (of_only (hmark _ w' hw') fun marked w₁ h₁ => ?_)
    split
    · rw [← heq]
      refine bind (deleteContent (hs.later (hw'.trans h₁)) howner fun _ w₂ h₂ => ?_)
      rw [heq]
      refine bind (of_only (hmark _ w₂ (hw'.trans (h₁.trans h₂))) fun _ w₃ h₃ => ?_)
      exact pure fun w₄ h₄ => hQ _ w₄ (hw'.trans (h₁.trans (h₂.trans (h₃.trans h₄))))
    · exact pure fun w₄ h₄ => hQ _ w₄ (hw'.trans (h₁.trans h₄))
  unfold cleanupService.cleanupRoom
  split
  · exact bind (of_only (hmark _ w (.refl w)) fun _ w₁ h₁ => hrest w₁ h₁)
  · exact hrest w (.refl w)

/-- `DELETE /rooms/{room_token}`. -/
theorem deleteRoom (room_token : Token) (request : Request) (ht : cred.room_token = some room_token)
    (hsession : cred.session_token = roomService.truthy request.session_cookie) :
    Acts env cred start p (rooms.deleteRoom env room_token request) (fun _ _ => True) w := by
  refine withSession ?_ fun _ _ _ _ h => h
  refine bind (requireRoomOwner ht hsession fun session room w₁ _ hs heq howner => ?_)
  refine plain_bind (plain_validateCsrf _ _) fun _ w₂ h₂ => ?_
  refine bind (cleanupRoom (hs.later h₂) heq howner fun _ w₃ _ => ?_)
  refine plain_bind plain_commit fun _ w₄ _ => ?_
  exact plain (plain_broadcast _ _ _) fun _ _ _ => trivial

/-! ## Files -/

/-- A record that is read by its number. -/
theorem getFileById {file_id : ℤ} {Q : Option FileRecord → World → Prop}
    (hQ : ∀ found w', start.Later w w' → (∀ rec_, found = some rec_ →
      start.Read w w' .files (fun i _ => (i : ℤ) == file_id) rec_.id rec_.toFileRow) → Q found w') :
    Acts env cred start p (fileRepository.getFileById file_id) Q w := by
  refine find fun found w₁ h₁ hfound => hQ found w₁ h₁ fun rec_ hrec => ?_
  obtain ⟨f, r, rfl, hread⟩ := hfound rec_ hrec
  exact hread

/-- A record that is found is a record of the room. -/
theorem getFile {room : Room} {file_id : ℤ} {Q : FileRecord → World → Prop}
    (hQ : ∀ rec_ w', start.Later w w' → start.Known w' .files rec_.id rec_.toFileRow →
      rec_.room_id = room.id → Q rec_ w') :
    Acts env cred start p (fileService.getFile room file_id) Q w := by
  refine bind (getFileById fun found w₁ h₁ hfound => ?_)
  split
  · next rec_ =>
    refine require_bind fun h => pure fun w₂ h₂ => ?_
    exact hQ rec_ w₂ (h₁.trans h₂) (h₂.known (hfound rec_ rfl).known) h.1
  · exact raise _

/-- An upload that is found is a record of the room. -/
theorem pendingSession {room : Room} {upload_id : ℤ} {Q : FileRecord → World → Prop}
    (hQ : ∀ rec_ w', start.Later w w' → start.Known w' .files rec_.id rec_.toFileRow →
      rec_.room_id = room.id → Q rec_ w') :
    Acts env cred start p (uploads.pendingSession room upload_id) Q w := by
  refine bind (getFileById fun found w₁ h₁ hfound => ?_)
  split
  · next rec_ =>
    refine require_bind fun h => pure fun w₂ h₂ => ?_
    exact hQ rec_ w₂ (h₁.trans h₂) (h₂.known (hfound rec_ rfl).known) h
  · exact raise _

/-- A record that was just made. -/
theorem createFileRecord {session : SessionRecord} {room_id : ℕ} {name type key expires_at}
    {Q : FileRecord → World → Prop} (hs : Attends env cred start w session)
    (heq : session.room_id = room_id)
    (hQ : ∀ rec_ w', start.Later w w' → start.Known w' .files rec_.id rec_.toFileRow →
      rec_.room_id = room_id → rec_.storage_key = key → rec_.status = .pending → Q rec_ w') :
    Acts env cred start p
      (fileRepository.createFileRecord room_id name key type (some session.id) expires_at) Q w := by
  refine plain_bind plain_utcnow fun now w₁ h₁ => ?_
  refine bind (insert (.newFile (hs.later h₁) heq.symm rfl) fun id w₂ h₂ hseen _ => ?_)
  exact pure fun w₃ h₃ => hQ _ w₃ (h₁.trans (h₂.trans h₃)) (h₃.known hseen) rfl rfl rfl

variable {session : SessionRecord} {room : Room} {rec_ : FileRecord}

/-- A member may note an event of its room. -/
theorem only_audit {type : String} (hs : Attends env cred start w session)
    (heq : session.room_id = room.id) :
    (roomRepository.createAuditEvent (some room.id) type).Only (Entitled env cred start w) := by
  refine (only_issue _).2 (.newAudit fun ρ hρ => ?_)
  cases hρ
  rw [← heq]
  exact hs.names

/-- A member may claim quota of its room. -/
theorem only_claim {size : ℕ} (hs : Attends env cred start w session) (heq : session.room_id = room.id) :
    (claimQuota env room.id size).Only (Entitled env cred start w) := by
  rw [← heq]
  exact (only_issue _).2 (.claim hs _ _ _)

/-- A member may write back a record of its room, as far as `FileUpdate.ByMember` goes. -/
theorem only_flush {new : FileRecord} (hs : Attends env cred start w session)
    (hr : start.Known w .files rec_.id rec_.toFileRow) (hroom : rec_.room_id = session.room_id)
    (hnew : (FileUpdate.flush rec_.toFileRow new.toFileRow).ByMember) :
    (fileRepository.flush rec_ new).Only (Entitled env cred start w) := by
  unfold fileRepository.flush
  split
  · exact only_pure _
  · exact only_bind ((only_issue _).2 (.updateFile hs hr hroom hnew)) fun _ => only_require _ _

/-- A member may delete an object or a part of a file of its room. -/
theorem only_deleteOwned {key : Key} (hs : Attends env cred start w session)
    (hr : start.Known w .files rec_.id rec_.toFileRow) (hroom : rec_.room_id = session.room_id)
    (hkey : rec_.storage_key.Owns key) :
    (storage.delete key).Only (Entitled env cred start w) :=
  (only_issue _).2 (.deleteObject hs hr hroom hkey)

/-- A member may delete a record of its room. -/
theorem only_dropRecord (hs : Attends env cred start w session)
    (hr : start.Known w .files rec_.id rec_.toFileRow) (hroom : rec_.room_id = session.room_id) :
    (fileRepository.deleteRecord rec_.id).Only (Entitled env cred start w) :=
  (only_issue _).2 (.dropFile hs hr hroom)

/-- What needs nothing is entitled. -/
theorem only_plain {prog : Op α} (h : prog.Only Cmd.Plain) : prog.Only (Entitled env cred start w) :=
  h.mono fun _ hc => .plain hc

/-- A member may store the object of a record of its room. -/
theorem only_putSource {chunks : fileService.Source} (hs : Attends env cred start w session)
    (hr : start.Known w .files rec_.id rec_.toFileRow) (hroom : rec_.room_id = session.room_id) :
    (fileService.putSource env rec_.storage_key chunks).Only (Entitled env cred start w) := by
  unfold fileService.putSource
  split
  · exact only_raise _
  · refine only_bind (only_require _ _) fun _ => ?_
    refine only_bind ((only_issue _).2 (.put hs hr hroom (.inl rfl) _)) fun _ => ?_
    split
    · exact only_pure _
    · exact only_raise _

/-- An upload by a member. -/
theorem uploadFile {filename type : Option String} {chunks : fileService.Source}
    {Q : FileRecord → World → Prop} (hs : Attends env cred start w session)
    (heq : session.room_id = room.id) (hQ : ∀ a w', start.Later w w' → Q a w') :
    Acts env cred start p (fileService.uploadFile env room session filename type chunks) Q w := by
  refine plain_bind (plain_authorizeUpload _ _) fun _ w₁ h₁ => ?_
  refine plain_bind ((only_issue _).2 trivial) fun storage_key w₂ h₂ => ?_
  refine bind (createFileRecord (hs.later (h₁.trans h₂)) heq fun rec_ w₃ h₃ hr hroom hkey hnew => ?_)
  have h₁₃ := h₁.trans (h₂.trans h₃)
  have hs₃ := hs.later h₁₃
  have hroom₃ : rec_.room_id = session.room_id := hroom.trans heq.symm
  subst hkey
  -- What is left works on the record that was made.
  refine of_only ?_ fun a w₄ h₄ => hQ a w₄ (h₁₃.trans h₄)
  have hfail : (fileService.cleanupFailedUpload rec_.id rec_.storage_key).Only
      (Entitled env cred start w₃) :=
    only_bind (only_deleteOwned hs₃ hr hroom₃ (.inl rfl)) fun _ =>
      only_bind (only_dropRecord hs₃ hr hroom₃) fun _ => only_pure _
  refine only_bind (only_tryCatch (only_putSource hs₃ hr hroom₃) fun e => ?_) fun stored => ?_
  · refine only_bind hfail fun _ => ?_
    split
    · exact only_raise _
    · exact only_raise _
  refine only_bind (only_require _ _) fun _ => only_bind (only_claim hs₃ heq) fun claimed => ?_
  split
  · refine only_bind (only_flush hs₃ hr hroom₃ (.confirmed hnew rfl)) fun _ => ?_
    exact only_bind (only_audit hs₃ heq) fun _ => only_pure _
  · exact only_bind hfail fun _ => only_raise _

/-- `POST /rooms/{room_token}/files`. -/
theorem upload (room_token : Token) (name type : Option String) (chunks : fileService.Source)
    (request : Request) (ht : cred.room_token = some room_token)
    (hsession : cred.session_token = roomService.truthy request.session_cookie) :
    Acts env cred start p (files.upload env room_token name type chunks request) (fun _ _ => True)
      w := by
  refine withSession ?_ fun _ _ _ _ h => h
  refine bind (requireMember ht hsession fun session room w₁ _ hs heq => ?_)
  refine plain_bind (plain_validateCsrf _ _) fun _ w₂ h₂ => ?_
  refine plain_bind (plain_limiterCheck _ _ _) fun _ w₃ h₃ => ?_
  refine bind (uploadFile (hs.later (h₂.trans h₃)) heq fun _ w₄ _ => ?_)
  refine plain_bind plain_commit fun _ w₅ _ => plain_bind (plain_broadcast _ _ _) fun _ w₆ _ => ?_
  exact pure fun _ _ => trivial

/-- `GET /rooms/{room_token}/files`. -/
theorem listFiles (room_token : Token) (request : Request) (ht : cred.room_token = some room_token)
    (hsession : cred.session_token = roomService.truthy request.session_cookie) :
    Acts env cred start p (files.listFiles env room_token request) (fun _ _ => True) w := by
  refine withSession ?_ fun _ _ _ _ h => h
  refine bind (requireMember ht hsession fun session room w₁ _ hs heq => ?_)
  exact plain_bind (plain_listConfirmedFiles _) fun _ w₂ _ => pure fun _ _ => trivial

/-- The record is read again by its number, and then its object. -/
theorem download (room_token : Token) (file_id : ℤ) (request : Request)
    (ht : cred.room_token = some room_token)
    (hsession : cred.session_token = roomService.truthy request.session_cookie) :
    Acts env cred start p (files.download env room_token file_id request) (fun _ _ => True) w := by
  refine bind ((withSession (Q := fun rec_ w' => ∃ session, Attends env cred start w' session ∧
    start.Known w' .files rec_.id rec_.toFileRow ∧ rec_.room_id = session.room_id) ?_ ?_).mono ?_)
  · refine bind (requireMember ht hsession fun session room w₁ _ hs heq => bind ?_)
    refine plain_bind (plain_authorizeDownload _ _) fun _ w₂ h₂ => ?_
    refine bind (getFile fun rec_ w₃ h₃ hr hroom => ?_)
    have hs₃ := hs.later (h₂.trans h₃)
    have hroom₃ : rec_.room_id = session.room_id := hroom.trans heq.symm
    refine bind (of_only ((only_issue _).2 (.updateFile hs₃ hr hroom₃ .counted))
      fun _ w₄ h₄ => pure fun w₅ h₅ => ?_)
    have h₃₅ := h₄.trans h₅
    refine plain_bind plain_commit fun _ w₆ h₆ => ?_
    have hs₆ := hs₃.later (h₃₅.trans h₆)
    refine bind (of_only (only_audit hs₆ heq) fun _ w₇ h₇ => ?_)
    refine plain_bind plain_commit fun _ w₈ h₈ => bind (getFileById fun found w₉ h₉ hfound => ?_)
    have h₆₉ := h₇.trans (h₈.trans h₉)
    split
    · next again =>
      obtain ⟨hseen, hwhere, hknown⟩ := hfound again rfl
      have hid : again.id = rec_.id := Int.ofNat.inj (eq_of_beq hwhere)
      have hsame : fixed .files again.toFileRow = fixed .files rec_.toFileRow :=
        hknown _ (hid ▸ (h₃₅.trans (h₆.trans (h₇.trans h₈))).known hr)
      refine plain_bind (plain_broadcast _ _ _) fun _ w₁₀ h₁₀ => pure fun w₁₁ h₁₁ => ?_
      refine ⟨session, hs₆.later (h₆₉.trans (h₁₀.trans h₁₁)), (h₁₀.trans h₁₁).known hseen, ?_⟩
      exact (congrArg Prod.fst hsame).trans hroom₃
    · exact raise _
  · rintro rec_ w' w'' h ⟨session, hs, hr, hroom⟩
    exact ⟨session, hs.later h, h.known hr, hroom⟩
  · rintro rec_ w' - ⟨session, hs, hr, hroom⟩
    refine bind (of_only ((only_issue _).2 (.getStream hs hr hroom (.inl rfl))) fun _ w₂ _ => ?_)
    exact pure fun _ _ => trivial

/-- Only an owner passes the check of `delete_file`. -/
theorem deleteFile {file_id : ℤ} {Q : FileRecord → World → Prop} (hs : Attends env cred start w session)
    (heq : session.room_id = room.id) (hQ : ∀ a w', start.Later w w' → Q a w') :
    Acts env cred start p (fileService.deleteFile room session file_id) Q w := by
  refine require_bind fun howner => bind (getFile fun rec_ w₁ h₁ hr hroom => ?_)
  have hs₁ := hs.later h₁
  have hroom₁ : rec_.room_id = session.room_id := hroom.trans heq.symm
  have hrule := Entitled.rule hs₁ howner (.addStorageAndFiles (-rec_.size_bytes) (-1))
  rw [heq] at hrule
  refine of_only ?_ fun a w₂ h₂ => hQ a w₂ (h₁.trans h₂)
  refine only_bind ((only_issue _).2 (.removeFile hs₁ howner hr hroom₁)) fun _ => ?_
  refine only_bind ((only_issue _).2 hrule) fun _ => only_bind (only_audit hs₁ heq) fun _ => ?_
  exact only_bind (only_deleteOwned hs₁ hr hroom₁ (.inl rfl)) fun _ => only_pure _

/-- `DELETE /rooms/{room_token}/files/{file_id}`. -/
theorem delete (room_token : Token) (file_id : ℤ) (request : Request)
    (ht : cred.room_token = some room_token)
    (hsession : cred.session_token = roomService.truthy request.session_cookie) :
    Acts env cred start p (files.delete env room_token file_id request) (fun _ _ => True) w := by
  refine withSession ?_ fun _ _ _ _ h => h
  refine bind (requireMember ht hsession fun session room w₁ _ hs heq => ?_)
  refine plain_bind (plain_validateCsrf _ _) fun _ w₂ h₂ => ?_
  refine bind (deleteFile (hs.later h₂) heq fun _ w₃ _ => ?_)
  refine plain_bind plain_commit fun _ w₄ _ => plain_bind (plain_broadcast _ _ _) fun _ w₅ _ => ?_
  exact pure fun _ _ => trivial

/-! ## Uploads in chunks -/

/-- `POST /rooms/{room_token}/uploads`. -/
theorem createUploadSession (room_token : Token) (body : uploads.UploadSessionCreate)
    (request : Request) (ht : cred.room_token = some room_token)
    (hsession : cred.session_token = roomService.truthy request.session_cookie) :
    Acts env cred start p (uploads.createUploadSession env room_token body request) (fun _ _ => True)
      w := by
  refine withSession ?_ fun _ _ _ _ h => h
  refine bind (requireMember ht hsession fun session room w₁ _ hs heq => ?_)
  refine plain_bind (plain_validateCsrf _ _) fun _ w₂ h₂ => ?_
  refine plain_bind (plain_limiterCheck _ _ _) fun _ w₃ h₃ => bind ?_
  refine plain_bind (plain_authorizeChunkedUpload _ _) fun _ w₄ h₄ => ?_
  refine require_bind fun _ => require_bind fun _ => ?_
  refine plain_bind ((only_issue _).2 trivial) fun storage_key w₅ h₅ => ?_
  have hs₅ := hs.later (h₂.trans (h₃.trans (h₄.trans h₅)))
  refine bind (createFileRecord hs₅ heq fun rec_ w₆ h₆ hr hroom _ _ => ?_)
  have hroom₆ : rec_.room_id = session.room_id := hroom.trans heq.symm
  refine bind (of_only (only_flush (hs₅.later h₆) hr hroom₆ (.same rfl)) fun _ w₇ _ => ?_)
  exact pure fun w₈ _ => plain_bind plain_commit fun _ w₉ _ => pure fun _ _ => trivial

/-- `GET /rooms/{room_token}/uploads/{upload_id}`. -/
theorem getUploadStatus (room_token : Token) (upload_id : ℤ) (request : Request)
    (ht : cred.room_token = some room_token)
    (hsession : cred.session_token = roomService.truthy request.session_cookie) :
    Acts env cred start p (uploads.getUploadStatus env room_token upload_id request) (fun _ _ => True)
      w := by
  refine withSession ?_ fun _ _ _ _ h => h
  refine bind (requireMember ht hsession fun session room w₁ _ _ _ => ?_)
  exact pendingSession fun _ _ _ _ _ => trivial

/-- A member may store a chunk of an upload of its room. -/
theorem only_storeChunk {index : ℕ} {chunk : Bytes} (hs : Attends env cred start w session)
    (hr : start.Known w .files rec_.id rec_.toFileRow) (hroom : rec_.room_id = session.room_id) :
    (storeChunk env rec_ index chunk).Only (Entitled env cred start w) := by
  refine only_bind (only_require _ _) fun _ => only_bind (only_require _ _) fun _ => ?_
  refine only_bind (only_require _ _) fun _ => ?_
  have hkey : rec_.storage_key.Owns (partKey rec_.storage_key index) :=
    .inr (partPrefix_isPrefix_partKey _ _)
  refine only_bind ((only_issue _).2 (.put hs hr hroom hkey _)) fun _ => ?_
  exact only_bind (only_flush hs hr hroom (.same rfl)) fun _ => only_pure _

/-- `PUT /rooms/{room_token}/uploads/{upload_id}/chunks/{index}`. -/
theorem uploadChunk (room_token : Token) (upload_id index : ℤ) (body : Except Err Bytes)
    (request : Request) (ht : cred.room_token = some room_token)
    (hsession : cred.session_token = roomService.truthy request.session_cookie) :
    Acts env cred start p (uploads.uploadChunk env room_token upload_id index body request)
      (fun _ _ => True) w := by
  refine withSession ?_ fun _ _ _ _ h => h
  refine bind (requireMember ht hsession fun session room w₁ _ hs heq => ?_)
  refine plain_bind (plain_limiterCheck _ _ _) fun _ w₂ h₂ => ?_
  refine bind (pendingSession fun rec_ w₃ h₃ hr hroom => ?_)
  split
  · exact raise _
  · refine require_bind fun _ => require_bind fun _ => ?_
    have hs₃ := hs.later (h₂.trans h₃)
    refine bind (of_only (only_storeChunk hs₃ hr (hroom.trans heq.symm)) fun _ w₄ h₄ => ?_)
    refine bind (of_only (only_audit (hs₃.later h₄) heq) fun _ w₅ _ => ?_)
    refine plain_bind plain_commit fun _ w₆ _ => ?_
    exact plain_bind (plain_broadcastProgress _ _) fun _ w₇ _ => pure fun _ _ => trivial

/-- The parts that are read belong to the upload. -/
theorem only_merged {keys : List Key}
    (hkeys : ∀ key ∈ keys, Entitled env cred start w (.getStream key)) :
    (merged keys).Only (Entitled env cred start w) := by
  induction keys with
  | nil => exact only_pure _
  | cons key keys ih =>
    refine only_bind ((only_issue _).2 (hkeys key List.mem_cons_self)) fun _ => ?_
    refine only_bind (ih fun key' hkey' => hkeys key' (List.mem_cons_of_mem _ hkey')) fun _ => ?_
    exact only_pure _

/-- Once the chunks are listed, an upload works on its own objects. -/
theorem only_assembleUpload {keys : List Key} (hs : Attends env cred start w session)
    (heq : session.room_id = room.id) (hr : start.Known w .files rec_.id rec_.toFileRow)
    (hroom : rec_.room_id = session.room_id) (hnew : rec_.status = .pending)
    (hkeys : ∀ key ∈ keys, rec_.storage_key.Owns key) :
    (assembleUpload env room rec_ keys).Only (Entitled env cred start w) := by
  have hdelete := only_deleteOwned hs hr hroom (.inl rfl)
  have hparts : (keys.forM storage.delete).Only (Entitled env cred start w) :=
    only_forM_mem _ fun key hkey => only_deleteOwned hs hr hroom (hkeys key hkey)
  refine only_bind (only_tryCatch ?_ fun e => only_bind hdelete fun _ => only_raise _) fun _ => ?_
  · refine only_bind (only_merged fun key hkey => .getStream hs hr hroom (hkeys key hkey)) fun _ => ?_
    refine only_bind ((only_issue _).2 (.put hs hr hroom (.inl rfl) _)) fun _ => ?_
    exact only_bind ((only_issue _).2 (.getStream hs hr hroom (.inl rfl))) fun _ => only_pure _
  · dsimp only
    split
    · exact only_bind hdelete fun _ => only_raise _
    · split
      · exact only_bind hdelete fun _ => only_raise _
      · refine only_bind (only_claim hs heq) fun claimed => ?_
        split
        · refine only_bind (only_flush hs hr hroom (.confirmed hnew rfl)) fun _ => ?_
          refine only_bind (only_audit hs heq) fun _ => only_bind hparts fun _ => only_pure _
        · exact only_bind hdelete fun _ => only_bind hparts fun _ => only_raise _

/-- `POST /rooms/{room_token}/uploads/{upload_id}/complete`. -/
theorem completeUploadSession (room_token : Token) (upload_id : ℤ)
    (body : uploads.UploadSessionComplete) (request : Request)
    (ht : cred.room_token = some room_token)
    (hsession : cred.session_token = roomService.truthy request.session_cookie) :
    Acts env cred start p (uploads.completeUploadSession env room_token upload_id body request)
      (fun _ _ => True) w := by
  refine withSession ?_ fun _ _ _ _ h => h
  refine bind (requireMember ht hsession fun session room w₁ _ hs heq => ?_)
  refine plain_bind (plain_validateCsrf _ _) fun _ w₂ h₂ => ?_
  refine bind (pendingSession fun rec_ w₃ h₃ hr hroom => bind (require_bind fun _ => ?_))
  refine plain_bind (plain_authorizeChunkedUpload _ _) fun _ w₄ h₄ => require_bind fun hnew => ?_
  refine bind (listKeys fun keys w₅ h₅ hkeys => require_bind fun _ => ?_)
  have hs₅ := hs.later (h₂.trans (h₃.trans (h₄.trans h₅)))
  have hparts : ∀ key ∈ parts keys body.totalChunks, rec_.storage_key.Owns key := fun key hkey =>
    .inr (hkeys key (mem_of_mem_parts hkey))
  refine of_only (only_assembleUpload hs₅ heq ((h₄.trans h₅).known hr) (hroom.trans heq.symm)
    hnew hparts) fun confirmed w₆ _ => ?_
  refine plain_bind plain_commit fun _ w₇ _ => plain_bind (plain_broadcast _ _ _) fun _ w₈ _ => ?_
  exact pure fun _ _ => trivial

/-- `DELETE /rooms/{room_token}/uploads/{upload_id}`. -/
theorem abortUploadSession (room_token : Token) (upload_id : ℤ) (request : Request)
    (ht : cred.room_token = some room_token)
    (hsession : cred.session_token = roomService.truthy request.session_cookie) :
    Acts env cred start p (uploads.abortUploadSession env room_token upload_id request) (fun _ _ => True)
      w := by
  refine withSession ?_ fun _ _ _ _ h => h
  refine bind (requireMember ht hsession fun session room w₁ _ hs heq => ?_)
  refine plain_bind (plain_validateCsrf _ _) fun _ w₂ h₂ => ?_
  refine bind (pendingSession fun rec_ w₃ h₃ hr hroom => bind (require_bind fun _ => ?_))
  refine bind (bind (listKeys fun keys w₄ h₄ hkeys => ?_))
  have hs₄ := hs.later (h₂.trans (h₃.trans h₄))
  have hr₄ := h₄.known hr
  have hroom₄ : rec_.room_id = session.room_id := hroom.trans heq.symm
  have hdelete : (keys.forM storage.delete).Only (Entitled env cred start w₄) :=
    only_forM_mem _ fun key hkey => only_deleteOwned hs₄ hr₄ hroom₄ (.inr (hkeys key hkey))
  refine of_only hdelete fun _ w₅ h₅ => ?_
  have hs₅ := hs₄.later h₅
  refine bind (of_only (only_dropRecord hs₅ (h₅.known hr₄) hroom₄) fun _ w₆ h₆ => ?_)
  refine bind (of_only (only_audit (hs₅.later h₆) heq) fun _ w₇ _ => pure fun w₈ _ => ?_)
  exact plain plain_commit fun _ _ _ => trivial

/-! ## Messages -/

/-- `GET /rooms/{room_token}/messages`. -/
theorem listMessages (room_token : Token) (request : Request)
    (ht : cred.room_token = some room_token)
    (hsession : cred.session_token = roomService.truthy request.session_cookie) :
    Acts env cred start p (messages.listMessages env room_token request) (fun _ _ => True) w := by
  refine withSession ?_ fun _ _ _ _ h => h
  refine bind (requireMember ht hsession fun session room w₁ _ _ _ => ?_)
  exact plain_bind (plain_listMessages _) fun _ w₂ _ => pure fun _ _ => trivial

/-- Only an owner deletes a message, and only of its room. -/
theorem deleteMessageAs {message_id : ℤ} {Q : Bool → World → Prop}
    (hs : Attends env cred start w session) (heq : session.room_id = room.id)
    (hQ : ∀ a w', start.Later w w' → Q a w') :
    Acts env cred start p (messageService.deleteMessage room session message_id) Q w := by
  refine require_bind fun howner => of_only ?_ hQ
  refine only_bind ((only_issue _).2 (.wipe hs howner fun i r hd => ?_)) fun _ => only_pure _
  have hd : ((i : ℤ) == message_id && r.room_id == room.id) = true := hd
  rw [Bool.and_eq_true] at hd
  rw [heq]
  exact congrArg some (eq_of_beq hd.2)

/-- `DELETE /rooms/{room_token}/messages/{message_id}`. -/
theorem deleteMessage (room_token : Token) (message_id : ℤ) (request : Request)
    (ht : cred.room_token = some room_token)
    (hsession : cred.session_token = roomService.truthy request.session_cookie) :
    Acts env cred start p (messages.deleteMessage env room_token message_id request) (fun _ _ => True)
      w := by
  refine withSession ?_ fun _ _ _ _ h => h
  refine bind (requireMember ht hsession fun session room w₁ _ hs heq => ?_)
  refine plain_bind (plain_validateCsrf _ _) fun _ w₂ h₂ => ?_
  refine bind (deleteMessageAs (hs.later h₂) heq fun ok w₃ _ => ?_)
  refine plain_bind plain_commit fun _ w₄ _ => ?_
  split
  · exact plain_bind (plain_broadcast _ _ _) fun _ w₅ _ => pure fun _ _ => trivial
  · exact pure fun _ _ => trivial

/-! ## Sockets -/

/-- A loop whose turns all keep to the policy, whenever they begin. -/
theorem forM {ι : Type} {f : ι → Op PUnit} (l : List ι)
    (hf : ∀ i w', start.Later w w' → Acts env cred start p (f i) (fun _ _ => True) w') :
    Acts env cred start p (l.forM f) (fun _ _ => True) w := by
  induction l generalizing w with
  | nil => exact pure fun _ _ => trivial
  | cons i l ih =>
    refine bind ((hf i w (.refl w)).mono fun _ w₁ h₁ _ => ih fun j w' hw' => ?_)
    exact hf j w' (h₁.trans hw')

/-- A socket attends the room that its handshake names. -/
theorem wsAuth {handshake : Handshake} {Q : Option (SessionRecord × Room) → World → Prop}
    (ht : cred.room_token = some handshake.room_token)
    (hsession : cred.session_token = handshake.sessionToken)
    (hQ : ∀ auth w', start.Later w w' → (∀ session room, auth = some (session, room) →
      Attends env cred start w' session ∧ session.room_id = room.id) → Q auth w') :
    Acts env cred start p (websocket.wsAuth env handshake) Q w := by
  have hnone : ∀ w', start.Later w w' → Q none w' := fun w' hw' => hQ none w' hw' fun _ _ h => by cases h
  unfold websocket.wsAuth
  split
  · exact pure hnone
  · next token htoken =>
    refine bind (getByTokenHash fun found w₁ h₁ hfound => ?_)
    split
    · exact pure fun w₂ h₂ => hnone w₂ (h₁.trans h₂)
    · next session =>
      obtain ⟨hseen, hhash⟩ := hfound session rfl
      refine plain_bind (plain_hasExpired _) fun expired w₂ h₂ => ?_
      split
      · exact pure fun w₃ h₃ => hnone w₃ (h₁.trans (h₂.trans h₃))
      split
      · exact pure fun w₃ h₃ => hnone w₃ (h₁.trans (h₂.trans h₃))
      refine bind (getRoomByAccessToken ht fun found' w₃ h₃ hfound' => ?_)
      have h₁₃ := h₁.trans (h₂.trans h₃)
      split
      · exact pure fun w₄ h₄ => hnone w₄ (h₁₃.trans h₄)
      · next room =>
        obtain ⟨hnames, -⟩ := hfound' room rfl
        split
        · next heq =>
          refine pure fun w₄ h₄ => hQ _ w₄ (h₁₃.trans h₄) fun session' room' hauth => ?_
          cases hauth
          refine ⟨⟨⟨(h₂.trans (h₃.trans h₄)).known hseen, token, ?_, hhash⟩, ?_⟩, heq.1.symm⟩
          · rw [hsession, htoken]
          · rw [← heq.1]
            exact hnames.later h₄
        · exact pure fun w₄ h₄ => hnone w₄ (h₁₃.trans h₄)

/-- A handshake that is accepted attends its room. -/
theorem authenticate {ws : ℕ} {handshake : Handshake}
    {Q : Option (SessionRecord × Room) → World → Prop}
    (ht : cred.room_token = some handshake.room_token)
    (hsession : cred.session_token = handshake.sessionToken)
    (hQ : ∀ auth w', start.Later w w' → (∀ session room, auth = some (session, room) →
      Attends env cred start w' session ∧ session.room_id = room.id) → Q auth w') :
    Acts env cred start p (websocket.authenticate env ws handshake) Q w := by
  have hnone : ∀ w', start.Later w w' → Q none w' := fun w' hw' => hQ none w' hw' fun _ _ h => by cases h
  refine tryCatch (bind (wsAuth ht hsession fun auth w₁ h₁ hauth => ?_)) fun e w₁ h₁ => ?_
  · split
    · next auth =>
      refine pure fun w₂ h₂ => hQ _ w₂ (h₁.trans h₂) fun session room heq => ?_
      exact ⟨(hauth session room heq).1.later h₂, (hauth session room heq).2⟩
    · exact plain_bind ((only_issue _).2 trivial) fun _ w₂ h₂ => pure fun w₃ h₃ =>
        hnone w₃ (h₁.trans (h₂.trans h₃))
  · exact plain_bind (plain_swallow _ _) fun _ w₂ h₂ => pure fun w₃ h₃ =>
      hnone w₃ (h₁.trans (h₂.trans h₃))

/-- A handler whose errors are told to the socket. -/
theorem orSendError {ws : ℕ} {body : Op α} {Q : Option α → World → Prop}
    (h : Acts env cred start p body (fun _ _ => True) w) (hQ : ∀ a w', start.Later w w' → Q a w') :
    Acts env cred start p (websocket.orSendError ws body) Q w := by
  refine tryCatch (map (h.mono fun a w' hw' _ => hQ _ w' hw')) fun e w₁ h₁ => ?_
  split
  · exact plain_bind (plain_sendError _ _ _) fun _ w₂ h₂ => pure fun w₃ h₃ =>
      hQ _ w₃ (h₁.trans (h₂.trans h₃))
  · exact raise _

/-- A member may store a message in its room. -/
theorem chatStore {payload : Json} (hs : Attends env cred start w session)
    (heq : session.room_id = room.id) :
    Acts env cred start p (websocket.chatStore env session room payload) (fun _ _ => True) w := by
  refine plain_bind (plain_payloadGet _ _ _) fun body w₁ h₁ => ?_
  refine bind (plain_bind (plain_validateBody _) fun clean w₂ h₂ => ?_)
  refine plain_bind plain_utcnow fun now w₃ h₃ => ?_
  have hs₃ := hs.later (h₁.trans (h₂.trans h₃))
  refine bind (insert (.newMessage hs₃ heq.symm rfl) fun id w₄ h₄ _ _ => pure fun w₅ h₅ => ?_)
  refine plain_bind plain_commit fun _ w₆ h₆ => ?_
  refine bind (of_only (only_audit (hs₃.later (h₄.trans (h₅.trans h₆))) heq) fun _ w₇ _ => ?_)
  exact plain_bind plain_commit fun _ w₈ _ => pure fun _ _ => trivial

/-- One message of a socket. -/
theorem handleMessage {ws : ℕ} {channel : Channel} {type payload : Json}
    (hs : Attends env cred start w session) (heq : session.room_id = room.id) :
    Acts env cred start p (websocket.handleMessage env ws channel session room type payload)
      (fun _ _ => True) w := by
  have hchat : ∀ payload, Acts env cred start p (websocket.chatSend env ws channel session room payload)
      (fun _ _ => True) w := by
    intro payload
    refine plain_bind (plain_chatAllowed _ _ _) fun ok w₁ h₁ => ?_
    split
    · refine bind (orSendError (chatStore (hs.later h₁) heq) fun msg w₂ _ => ?_)
      split
      · exact plain (plain_broadcast _ _ _) fun _ _ _ => trivial
      · exact pure fun _ _ => trivial
    · exact pure fun _ _ => trivial
  have hdelete : ∀ payload, Acts env cred start p
      (websocket.chatDelete env ws channel session room payload) (fun _ _ => True) w := by
    intro payload
    refine bind (orSendError ?_ fun deleted w₁ _ => ?_)
    · refine plain_bind (plain_payloadGet _ _ _) fun value w₁ h₁ => ?_
      split
      · refine bind (deleteMessageAs (hs.later h₁) heq fun ok w₂ _ => ?_)
        exact plain_bind plain_commit fun _ w₃ _ => pure fun _ _ => trivial
      · exact raise _
    · split
      · exact plain (plain_broadcast _ _ _) fun _ _ _ => trivial
      · exact pure fun _ _ => trivial
  unfold websocket.handleMessage
  dsimp only
  split
  · exact plain (plain_sendJson _ _) fun _ _ _ => trivial
  · exact hchat _
  · exact hdelete _
  · exact plain (plain_sendError _ _ _) fun _ _ _ => trivial
  · exact plain (plain_sendError _ _ _) fun _ _ _ => trivial

/-- One frame of a socket. -/
theorem receive {ws : ℕ} {channel : Channel} {frame : Frame} (hs : Attends env cred start w session)
    (heq : session.room_id = room.id) :
    Acts env cred start p (websocket.receive env ws channel session room frame) (fun _ _ => True) w := by
  refine plain_bind (websocket.only_receiveJson _) fun data w₁ h₁ => ?_
  split
  · split
    · exact handleMessage (hs.later h₁) heq
    · exact pure fun _ _ => trivial
  · exact pure fun _ _ => trivial

/-- A socket counts its own user down and expires its own session. -/
theorem leave {ws : ℕ} (hs : Attends env cred start w session) (heq : session.room_id = room.id) :
    Acts env cred start p (websocket.leave ws session room) (fun _ _ => True) w := by
  refine plain_bind ((only_issue _).2 trivial) fun connected w₁ h₁ => ?_
  split
  · exact pure fun _ _ => trivial
  · refine plain_bind (plain_broadcast _ _ _) fun _ w₂ h₂ => ?_
    have hs₂ := hs.later (h₁.trans h₂)
    have hleave := Entitled.leave hs₂
    rw [heq] at hleave
    refine of_only (only_bind ((only_issue _).2 hleave) fun _ => only_bind ?_ fun _ => ?_)
      fun _ _ _ => trivial
    · refine only_bind (only_plain plain_utcnow) fun _ => only_bind (only_plain plain_utcnow) fun _ => ?_
      exact (only_issue _).2 (.updateSession hs₂ _)
    · exact only_plain plain_commit

/-- The whole life of a socket. -/
theorem roomWs (ws : ℕ) (handshake : Handshake) (frames : List Frame)
    (ht : cred.room_token = some handshake.room_token)
    (hsession : cred.session_token = handshake.sessionToken) :
    Acts env cred start p (websocket.roomWs env ws handshake frames) (fun _ _ => True) w := by
  refine withSession ?_ fun _ _ _ _ h => h
  refine bind (authenticate ht hsession fun auth w₁ _ hauth => ?_)
  split
  · next session room =>
    obtain ⟨hs, heq⟩ := hauth session room rfl
    -- However the socket ends, the session leaves.
    refine bind (tryCatch ?_ fun e w₂ h₂ => ?_)
    · refine plain_bind (plain_greet _ _ _) fun _ w₂ h₂ => bind ((forM frames ?_).mono ?_)
      · exact fun frame w' hw' => receive (hs.later (h₂.trans hw')) heq
      · exact fun _ _ _ _ => raise _
    · exact plain (plain_swallow _ _) fun _ w₃ h₃ => leave (hs.later (h₂.trans h₃)) heq
  · exact pure fun _ _ => trivial

end Acts

end

/-! ## Tasks -/

/-- What a request presents. -/
def Route.keyring (request : Request) : Route → Keyring
  | .createRoom _ => ⟨none, none, none, none⟩
  | .joinRoom room_token body =>
    ⟨some room_token, none, roomService.truthy request.session_cookie,
      (PyStr.truthy body.owner_token).bind PyStr.encode⟩
  | .joinByCode room_code body =>
    ⟨none, some room_code, roomService.truthy request.session_cookie,
      (PyStr.truthy body.owner_token).bind PyStr.encode⟩
  | .getRoom room_token | .patchRoom room_token _ | .deleteRoom room_token
  | .upload room_token _ _ _ | .listFiles room_token | .download room_token _
  | .deleteFile room_token _ | .createUploadSession room_token _ | .getUploadStatus room_token _
  | .uploadChunk room_token _ _ _ | .completeUploadSession room_token _ _
  | .abortUploadSession room_token _ | .listMessages room_token | .deleteMessage room_token _ =>
    ⟨some room_token, none, roomService.truthy request.session_cookie, none⟩

/-- What a task presents. -/
def Task.keyring : Task → Keyring
  | .request route req => route.keyring req
  | .socket _ handshake _ => ⟨some handshake.room_token, none, handshake.sessionToken, none⟩
  | .worker _ | .scan | .idle => ⟨none, none, none, none⟩

section

variable {env : Env} {p : ℕ} {start : Past} {w : World}

/-- The result may be dropped. -/
theorem Acts.discard {α : Type} {cred : Keyring} {prog : Op α}
    (h : Acts env cred start p prog (fun _ _ => True) w) :
    Acts env cred start p (discard prog) (fun _ _ => True) w := map h

/-- Every request acts within what its tokens entitle it to. -/
theorem Route.acts (route : Route) (request : Request) :
    Acts env (route.keyring request) start p (route.handle env request) (fun _ _ => True) w := by
  cases route with
  | createRoom body => exact (Acts.createRoom body request).discard
  | getRoom room_token => exact (Acts.getRoom room_token rfl).discard
  | joinRoom room_token body => exact (Acts.rooms_joinRoom room_token body request rfl rfl rfl).discard
  | joinByCode room_code body => exact (Acts.joinByCode room_code body request rfl rfl rfl).discard
  | patchRoom room_token body => exact (Acts.patchRoom room_token body request rfl rfl).discard
  | deleteRoom room_token => exact Acts.deleteRoom room_token request rfl rfl
  | upload room_token name type chunks =>
    exact (Acts.upload room_token name type chunks request rfl rfl).discard
  | listFiles room_token => exact (Acts.listFiles room_token request rfl rfl).discard
  | download room_token file_id =>
    exact (Acts.download room_token file_id request rfl rfl).discard
  | deleteFile room_token file_id =>
    exact (Acts.delete room_token file_id request rfl rfl).discard
  | createUploadSession room_token body =>
    exact (Acts.createUploadSession room_token body request rfl rfl).discard
  | getUploadStatus room_token upload_id =>
    exact (Acts.getUploadStatus room_token upload_id request rfl rfl).discard
  | uploadChunk room_token upload_id index body =>
    exact (Acts.uploadChunk room_token upload_id index body request rfl rfl).discard
  | completeUploadSession room_token upload_id body =>
    exact (Acts.completeUploadSession room_token upload_id body request rfl rfl).discard
  | abortUploadSession room_token upload_id =>
    exact Acts.abortUploadSession room_token upload_id request rfl rfl
  | listMessages room_token => exact (Acts.listMessages room_token request rfl rfl).discard
  | deleteMessage room_token message_id =>
    exact (Acts.deleteMessage room_token message_id request rfl rfl).discard

/-- Every task but a worker keeps to the policy. -/
theorem Task.acts {task : Task} (htask : ∀ jobs, task ≠ .worker jobs) :
    Acts env task.keyring start p (task.program env) (fun _ _ => True) w := by
  cases task with
  | request route request => exact route.acts request
  | socket ws handshake frames => exact Acts.roomWs ws handshake frames rfl rfl
  | worker jobs => exact absurd rfl (htask jobs)
  | scan => exact Acts.plain plain_scanOnce fun _ _ _ => trivial
  | idle => exact Acts.pure fun _ _ => trivial

end

end DropRoom
