import DropRoom.App.Footprint
import DropRoom.App.Checks

/-!
# The way back from a room code

A room keeps its access token in signed form only, so that `join_by_code` can answer it. The signature
is good for the longest lifetime of a room and an hour, but a session that is renewed keeps the code
usable for longer: then `join_by_code` answers the code in place of the access token. A session that is
registered afresh needs a room that is alive, so its answer leads back (`fresh_link_leads_back`).
-/

namespace DropRoom

open Effect Store Prog

namespace links

/-! ## The signature of an access token -/

/-- `URLSafeTimedSerializer`: what it dumps under a secret at a moment, and what it loads under a
secret and with a maximal age at a moment, unless it raises. -/
structure Serializer where
  dumps (secret : String) (now : Time) (access_token : Token) : String
  loads (secret : String) (max_age : ℕ) (now : Time) (signed : String) : Option Token

/-- The time stamp of a signature, in whole seconds. -/
def stamp (now : Time) : ℕ := now / 1000000

/-- A moment within some seconds bears a stamp within as many. -/
theorem stamp_le {made now : Time} {n : ℕ} (h : now ≤ made + seconds n) :
    stamp now ≤ stamp made + n := by
  unfold stamp
  unfold seconds Time at h
  unfold Time
  omega

/-- A room that is joined while it is alive is younger than its longest lifetime and an hour, when what
was read of the clock is within half an hour of both requests. -/
theorem le_add_hour {made joined now now' expires_at : Time} {n : ℕ}
    (h₁ : joined ≤ now + seconds 1800) (h₂ : now < expires_at) (h₃ : expires_at ≤ now' + seconds n)
    (h₄ : now' ≤ made + seconds 1800) : joined ≤ made + seconds (n + 3600) := by
  have hsum : seconds (n + 3600) = seconds n + (seconds 1800 + seconds 1800) := by
    unfold seconds
    rw [Nat.add_mul]
  calc joined ≤ now + seconds 1800 := h₁
    _ ≤ now' + seconds n + seconds 1800 := Nat.add_le_add_right (h₂.le.trans h₃) _
    _ ≤ made + seconds 1800 + seconds n + seconds 1800 :=
      Nat.add_le_add_right (Nat.add_le_add_right h₄ _) _
    _ = made + seconds (n + 3600) := by rw [hsum]; ac_rfl

/-- The serializer loads what it dumped under the same secret exactly while the age is at most the
maximal one. -/
structure Serializer.Lawful (z : Serializer) : Prop where
  dumps_ne : ∀ secret now access_token, z.dumps secret now access_token ≠ ""
  loads_dumps : ∀ secret max_age now later access_token,
    z.loads secret max_age later (z.dumps secret now access_token) =
      if stamp later ≤ stamp now + max_age then some access_token else none

/-- `sign_access_token`, which makes no use of the maximal age. -/
def signAccessToken (z : Serializer) (now : Time) (access_token : Token) (secret : String)
    (_max_age_seconds : ℕ) : String := z.dumps secret now access_token

/-- `unsign_access_token`. -/
def unsignAccessToken (z : Serializer) (now : Time) (signed secret : String)
    (max_age_seconds : ℕ) : Option Token := z.loads secret max_age_seconds now signed

/-- The environment of a program that signs or unsigns an access token at a moment. -/
def signing (env : Env) (z : Serializer) (csrf_secret : String) (now : Time) : Env :=
  { env with
    sign_access_token := fun access_token =>
      signAccessToken z now access_token csrf_secret (env.max_room_lifetime_seconds + 3600)
    unsign_access_token := fun signed =>
      unsignAccessToken z now signed csrf_secret (env.max_room_lifetime_seconds + 3600) }

/-! ## Requests with their answers -/

/-- What a process runs: a request for a new room, a request to join by code, or another task. -/
inductive Call
  | create (body : roomService.RoomCreate) (request : Request)
  | byCode (room_code : String) (body : rooms.JoinRequest) (request : Request)
  | other (task : Task)

/-- What a client is told: its room with the access token; or the token of its session with the
access token. -/
inductive Reply
  | created (room : Room) (access_token : Token)
  | joined (token access_token : Token)
  | nothing
  deriving DecidableEq

/-- The program of a process. -/
def Call.program (env : Env) : Call → Op Reply
  | .create body request => (fun r => .created r.1 r.2.1) <$> rooms.createRoom env body request
  | .byCode room_code body request =>
    (fun r => .joined r.2.1 r.2.2) <$> rooms.joinByCode env room_code body request
  | .other task => (fun _ => .nothing) <$> task.program env

/-- A server on which process `p` runs `calls p`, and signs or unsigns at `moment p`. -/
def started (env : Env) (z : Serializer) (csrf_secret : String) (moment : ℕ → Time)
    (calls : ℕ → Call) (w : World) : Conf Cmd Resp Err Reply World Unit :=
  .start w () fun p => (calls p).program (signing env z csrf_secret (moment p))

/-- What a request to create or to join reads of the clock is within half an hour of the moment at which
it signs or unsigns. -/
def Near (calls : ℕ → Call) (moment : ℕ → Time) (p : ℕ) (now : Time) : Prop :=
  match calls p with
  | .other _ => True
  | _ => moment p ≤ now + seconds 1800 ∧ now ≤ moment p + seconds 1800

/-- The clock is read near the moments. -/
def timely {L : Type} (calls : ℕ → Call) (moment : ℕ → Time) : Guard Cmd World L := fun p c w _ =>
  match c with
  | .utcnow => Near calls moment p w.now
  | _ => True

/-! ## What a process knows of a room -/

/-- The columns of a room that no statement updates. -/
def ident (r : RoomRow) : String × TokenHash × Option String × Time :=
  (r.room_code, r.access_token_hash, r.access_token_signed, r.expires_at)

/-- An `UPDATE` leaves these columns. -/
theorem ident_set (u : RoomUpdate) (r : RoomRow) : ident (u.set r) = ident r := by
  cases u <;> rfl

/-- The room that a process has inserted, or selected first and by which condition: its transaction
sees it, or it is committed. -/
inductive Held
  | nothing
  | saw (where_ : ℕ → RoomRow → Bool) (i : ℕ) (r : RoomRow)
  | has (where_ : ℕ → RoomRow → Bool) (i : ℕ) (r : RoomRow)

/-- A room that is selected counts only if the process holds none. -/
def Held.orSaw : Held → (ℕ → RoomRow → Bool) → ℕ → RoomRow → Held
  | .nothing, where_, i, r => .saw where_ i r
  | held, _, _, _ => held

/-- A commit makes what is seen committed. -/
def Held.commit : Held → Held
  | .saw where_ i r => .has where_ i r
  | held => held

/-- A rollback takes away what was only seen. -/
def Held.rollback : Held → Held
  | .saw .. => .nothing
  | held => held

/-- What a process holds after a command was answered. -/
def Held.next (held : Held) : (c : Cmd) → Except Err (Resp c) → Held
  | .sql (.insert .rooms r), .ok i => .saw (fun _ _ => true) i r
  | .sql (.select .rooms where_), .ok [(i, r)] => held.orSaw where_ i r
  | .sql .commit, .ok _ => held.commit
  | .sql .rollback, _ => held.rollback
  | _, _ => held

/-- What a process has read of the clock. -/
def reading : (c : Cmd) → Except Err (Resp c) → List Time
  | .utcnow, .ok now => [now]
  | _, _ => []

/-- What a process runs, the moment at which it signs or unsigns, the room that it holds, and what it
has read of the clock. -/
structure Phase where
  call : Call
  moment : Time
  held : Held
  clock : List Time

/-- A command and its answer. -/
def Phase.next (l : Phase) (c : Cmd) (x : Except Err (Resp c)) : Phase :=
  { l with
    held := l.held.next c x
    clock := reading c x ++ l.clock }

/-- A monitor that only looks on. -/
def monitor : Monitor Cmd Resp Err Phase := ⟨fun _ _ => True, Phase.next⟩

/-- The commands after which a process may hold another room. -/
def Moves : Cmd → Prop
  | .sql (.insert .rooms _) => True
  | .sql .commit => True
  | .sql .rollback => True
  | _ => False

/-- The process still holds its room. -/
structure Later (l l' : Phase) : Prop where
  call : l'.call = l.call
  moment : l'.moment = l.moment
  held : l'.held = l.held
  clock : ∀ now ∈ l.clock, now ∈ l'.clock

/-- The process holds its room. -/
theorem Later.refl (l : Phase) : Later l l := ⟨rfl, rfl, rfl, fun _ h => h⟩

/-- The process has held its room all along. -/
theorem Later.trans {l₁ l₂ l₃ : Phase} (h : Later l₁ l₂) (h' : Later l₂ l₃) : Later l₁ l₃ :=
  ⟨h'.call.trans h.call, h'.moment.trans h.moment, h'.held.trans h.held,
    fun _ hnow => h'.clock _ (h.clock _ hnow)⟩

/-- A room that is selected does not replace the one that is held. -/
theorem Held.orSaw_of_ne {held : Held} (hheld : held ≠ .nothing) (where_ : ℕ → RoomRow → Bool)
    (i : ℕ) (r : RoomRow) : held.orSaw where_ i r = held := by
  cases held with
  | nothing => exact absurd rfl hheld
  | saw => rfl
  | has => rfl

/-- The room that is held stays, but for a commit, a rollback and a new room. -/
theorem Held.next_of_not_moves {held : Held} (hheld : held ≠ .nothing) {c : Cmd} (hc : ¬Moves c)
    (x : Except Err (Resp c)) : held.next c x = held := by
  unfold Held.next
  split
  · exact absurd trivial hc
  · exact Held.orSaw_of_ne hheld _ _ _
  · exact absurd trivial hc
  · exact absurd trivial hc
  · rfl

/-- A command that moves no room leaves a process the one that it holds. -/
theorem Phase.later_next {l : Phase} (hheld : l.held ≠ .nothing) {c : Cmd} (hc : ¬Moves c)
    (x : Except Err (Resp c)) : Later l (l.next c x) :=
  ⟨rfl, rfl, Held.next_of_not_moves hheld hc x, fun _ hnow => List.mem_append_right _ hnow⟩

/-! ## What the requests come to know -/

section

variable {α : Type} {env : Env} {l : Phase} {K : List Kind}

/-- The kinds of the commands that move a room. -/
def movers : List Kind := [.newRoom, .commit, .close]

/-- A program without these kinds moves no room. -/
theorem not_moves_of_issued (hK : ∀ k ∈ movers, k ∉ K) {c : Cmd} (hc : Issued env K c) :
    ¬Moves c := by
  intro hmoves
  cases hc with
  | newRoom h => exact hK _ (by decide) h
  | commit h => exact hK _ (by decide) h
  | close h => exact hK _ (by decide) h
  | _ => exact hmoves

/-- A program that returns a value ends in `Q`. -/
def Learns (prog : Op α) (Q : α → Phase → Prop) (l : Phase) : Prop :=
  prog.wp monitor.trans (fun r l' => ∀ a, r = .ok a → Q a l') l

variable {β : Type} {prog : Op α} {f : α → Op β} {P Q : α → Phase → Prop} {R : β → Phase → Prop}

/-- A value. -/
theorem Learns.pure {a : α} (h : Q a l) : Learns (pure a) Q l := by
  rintro _ ⟨⟩
  exact h

/-- A program that raises does not return. -/
theorem Learns.raise (e : Err) : Learns (.raise e) Q l := by
  rintro _ ⟨⟩

/-- One program after the other. -/
theorem Learns.bind (h : Learns prog (fun a l' => Learns (f a) R l') l) :
    Learns (prog >>= f) R l := by
  refine (Prog.wp_bind _ _ _ _).2 (Prog.wp_mono monitor.trans_monotone ?_ h)
  rintro (e | a) l' ha
  · rintro _ ⟨⟩
  · exact ha a rfl

/-- The postcondition may be made weaker. -/
theorem Learns.mono (h : Learns prog P l) (hQ : ∀ a l', P a l' → Q a l') : Learns prog Q l :=
  Prog.wp_mono monitor.trans_monotone (fun _ l' hr a ha => hQ a l' (hr a ha)) h

/-- The result may be changed. -/
theorem Learns.map {g : α → β} (h : Learns prog (fun a l' => R (g a) l') l) :
    Learns (g <$> prog) R l := by
  rw [← bind_pure_comp]
  exact .bind (h.mono fun a l' ha => .pure ha)

/-- One command. -/
theorem Learns.issue {c : Cmd} {Q : Resp c → Phase → Prop}
    (h : ∀ a, Q a (l.next c (.ok a))) : Learns (issue c) Q l := by
  refine (wp_issue monitor.trans_monotone c _ l).2 ⟨trivial, fun x => ?_⟩
  rintro a rfl
  exact h a

/-- A check that has passed. -/
theorem Learns.require {b : Prop} [Decidable b] {e : Err} {Q : Unit → Phase → Prop}
    (h : b → Q () l) : Learns (Prog.require b e) Q l := by
  refine (Prog.wp_require _ _ _ _).2 ⟨fun hb => ?_, fun _ => Learns.raise e⟩
  rintro ⟨⟩ -
  exact h hb

/-- What follows a check that has passed. -/
theorem Learns.require_bind {b : Prop} [Decidable b] {e : Err} {f : Unit → Op β}
    (h : b → Learns (f ()) R l) : Learns (Prog.require b e >>= f) R l :=
  (Prog.wp_require_bind _ _ _ _ _).2 ⟨h, fun _ => Learns.raise e⟩

/-- A program that moves no room leaves a process the one that it holds. -/
theorem Learns.of_only (env : Env) (h : prog.Only (Issued env K)) (hK : ∀ k ∈ movers, k ∉ K)
    (hheld : l.held ≠ .nothing) : Learns prog (fun _ l' => Later l l') l := by
  refine Prog.wp_mono monitor.trans_monotone (fun _ _ hl _ _ => hl) ?_
  refine h.wp (M := monitor) (I := fun l' => Later l l') (fun c l' hc hl' => ?_) (.refl l)
  refine ⟨trivial, fun x => hl'.trans (Phase.later_next ?_ (not_moves_of_issued hK hc) x)⟩
  rw [hl'.held]
  exact hheld

/-- The end of a database session leaves the room that is committed. -/
theorem Learns.withSession (h : Learns prog (fun a l' => Q a (l'.next (.sql .rollback) (.ok ()))) l) :
    Learns (withSession prog) Q l := by
  refine wp_withSession monitor.trans_monotone ?_
  refine Prog.wp_mono monitor.trans_monotone (fun r l' hr => ⟨trivial, ?_⟩) h
  rintro (e | u)
  · rintro _ ⟨⟩
  · exact hr

/-- An exception that is raised again as another one. -/
theorem Learns.tryCatch_raise {g : Err → Err} (h : Learns prog Q l) :
    Learns (prog.tryCatch fun e => .raise (g e)) Q l := by
  refine (Prog.wp_tryCatch _ _ _ _).2 (Prog.wp_mono monitor.trans_monotone ?_ h)
  rintro (e | a) l' ha
  · exact Learns.raise (g e)
  · exact ha

/-- The checks at the start of a request look at no room, and do not read the clock. -/
theorem Learns.checks_bind {method : Method} {request : Request} {scope key : String} {limit : ℕ}
    {f : Unit → Op β} (h : Learns (f ()) R l) :
    Learns (validateCsrf env method request >>= fun _ =>
      limiterCheck env scope key limit >>= f) R l := by
  have hchecked : Learns (limiterCheck env scope key limit >>= f) R l := by
    unfold limiterCheck
    split
    · rw [bind_assoc]
      exact .bind (.issue fun _ => .require_bind fun _ => h)
    · exact h
  unfold validateCsrf
  split
  · exact hchecked
  · split
    · rw [bind_assoc]
      exact .require_bind fun _ => .require_bind fun _ => hchecked
    · exact .raise _

/-! ### A new room -/

/-- What `create_room` fixes of a room. -/
structure Made (env : Env) (room : Room) (access_token : Token) (l : Phase) : Prop where
  hash : room.access_token_hash = env.hash_token access_token
  signed : room.access_token_signed = some (env.sign_access_token access_token)
  expires : env.default_room_lifetime_seconds ≤ env.max_room_lifetime_seconds →
    ∃ now ∈ l.clock, room.expires_at ≤ now + seconds env.max_room_lifetime_seconds

/-- A lifetime that is accepted is at most the maximal one, if the default is. -/
theorem learns_validateLifetime (lifetime_seconds : Option ℕ) :
    Learns (roomService.validateLifetime env lifetime_seconds) (fun lifetime l' => l' = l ∧
      (env.default_room_lifetime_seconds ≤ env.max_room_lifetime_seconds →
        lifetime ≤ env.max_room_lifetime_seconds)) l := by
  unfold roomService.validateLifetime
  cases lifetime_seconds with
  | none => exact .pure ⟨rfl, id⟩
  | some lifetime_seconds =>
    exact .require_bind fun _ => .require_bind fun hmax => .pure ⟨rfl, fun _ => hmax⟩

/-- `create_room` of the service inserts the room that it answers. -/
theorem learns_createRoom (data : roomService.RoomCreate) :
    Learns (roomService.createRoom env data) (fun r l' =>
      l'.held = .saw (fun _ _ => true) r.1.id r.1.toRoomRow ∧ Made env r.1 r.2.1 l') l := by
  unfold roomService.createRoom roomRepository.createRoom
  refine .bind ((learns_validateLifetime data.lifetime_seconds).mono ?_)
  rintro lifetime l' ⟨rfl, hlifetime⟩
  refine .bind (.issue fun access_token => .bind (.issue fun owner_token => ?_))
  refine .bind (.issue fun room_code => .bind (.issue fun now => ?_))
  refine .bind (.issue fun id => .bind (.issue fun event => .pure ⟨rfl, rfl, rfl, ?_⟩))
  intro hdefault
  refine ⟨now, List.mem_cons_self, ?_⟩
  exact Nat.add_le_add_left (Nat.mul_le_mul_right _ (hlifetime hdefault)) now

/-- A request for a room that succeeds has committed the room that it answers. -/
theorem learns_rooms_createRoom (body : roomService.RoomCreate) (request : Request) :
    Learns (rooms.createRoom env body request) (fun r l' =>
      l'.held = .has (fun _ _ => true) r.1.id r.1.toRoomRow ∧ Made env r.1 r.2.1 l') l := by
  unfold rooms.createRoom
  refine .withSession (.checks_bind (.bind ((learns_createRoom body).mono ?_)))
  rintro ⟨room, access_token, owner_token, room_code⟩ l₁ ⟨hheld, hmade⟩
  have hjoin : Learns (roomService.joinRoom env room (some "Owner") none
      (some (.of owner_token))) (fun _ l' => Later l₁ l') l₁ :=
    .of_only env (only_joinRoom (K := [.join, .newSession]) (by decide) (by decide) _ _ _ _) (by decide)
      (by rw [hheld]; rintro ⟨⟩)
  refine .bind (hjoin.mono fun joined l₂ hlater => .bind (.issue fun _ => .pure ⟨?_, ?_⟩))
  · show l₂.held.commit.rollback = _
    rw [hlater.held, hheld]
    rfl
  · refine ⟨hmade.hash, hmade.signed, fun hdefault => ?_⟩
    obtain ⟨now, hnow, hexpires⟩ := hmade.expires hdefault
    exact ⟨now, hlater.clock now hnow, hexpires⟩

/-! ### Joining by code -/

/-- What a process comes to know that joins by code: which room it is, which access token it answers,
and that the room was alive, unless the session is the one that the cookie names. -/
structure Joined (env : Env) (room_code : String) (cookie : Option Token)
    (token access_token : Token) (i : ℕ) (r : RoomRow) (l : Phase) : Prop where
  held : l.held = .has (fun _ r => r.room_code == strip (env.upper room_code)) i r
  answer : access_token =
    (roomService.truthy (roomRepository.recoverAccessToken env (toRoom (i, r)))).getD r.room_code
  alive : cookie ≠ some token → ∃ now ∈ l.clock, now < r.expires_at

/-- `_assert_joinable` reads the clock before the end of the room. -/
theorem learns_assertJoinable {room : Room} :
    Learns (roomService.assertJoinable room) (fun _ l' => Later l l' ∧
      ∃ now ∈ l'.clock, now < room.expires_at) l := by
  unfold roomService.assertJoinable hasExpired
  refine .require_bind fun _ => .require_bind fun _ => ?_
  rw [bind_assoc]
  refine .bind (.issue fun now => .require fun hlive => ⟨?_, now, List.mem_cons_self, ?_⟩)
  · exact ⟨rfl, rfl, rfl, fun _ h => List.mem_append_right _ h⟩
  · simpa using hlive

/-- A session that is used again is the one of the cookie. -/
theorem learns_existingSession {room : Room} {cookie : Option Token} (hheld : l.held ≠ .nothing) :
    Learns (rooms.existingSession env room cookie) (fun r l' => Later l l' ∧
      ∀ session token, r = some (session, token) → cookie = some token) l := by
  unfold rooms.existingSession
  cases hcookie : roomService.truthy cookie with
  | none =>
    refine .pure ⟨.refl l, ?_⟩
    rintro _ _ ⟨⟩
  | some token =>
    have hread : Learns (sessionRepository.getByTokenHash (env.hash_token token))
        (fun _ l' => Later l l') l := .of_only env (only_getByTokenHash (K := []) _)
      (by decide) hheld
    refine .bind (hread.mono fun existing l' hlater => .pure ⟨hlater, fun session token' h => ?_⟩)
    obtain ⟨found, -, h⟩ := Option.bind_eq_some_iff.1 h
    split at h
    · cases h
      exact (roomService.truthy_eq_some.1 hcookie).1
    · cases h

/-- `join_room` registers a session only while the room is alive. -/
theorem learns_joinRoom {room : Room} {display_name password : Option String}
    {owner_token : Option PyStr} (hheld : l.held ≠ .nothing) :
    Learns (roomService.joinRoom env room display_name password owner_token) (fun _ l' =>
      Later l l' ∧ ∃ now ∈ l'.clock, now < room.expires_at) l := by
  unfold roomService.joinRoom
  refine .bind (learns_assertJoinable.mono ?_)
  rintro ⟨⟩ l₁ ⟨h₁, now, hnow, hlive⟩
  refine .mono (.of_only env (K := [.join, .newSession]) ?_ (by decide) ?_) fun _ l₂ h₂ =>
    ⟨h₁.trans h₂, now, h₂.clock now hnow, hlive⟩
  · refine only_bind (only_resolveRole _ _ _) fun _ => ?_
    refine only_bind ((only_issue _).2 (.join (by decide) _)) fun _ => only_bind (only_require _ _) ?_
    refine fun _ => only_bind only_generateToken fun _ => ?_
    exact only_bind (only_createSession (by decide) _ _ _ _) fun _ => only_pure _
  · rw [h₁.held]
    exact hheld

/-- `_establish_session` answers the token of the cookie, or the room was alive. -/
theorem learns_establishSession {room : Room} {body : rooms.JoinRequest} {cookie : Option Token}
    (hheld : l.held ≠ .nothing) :
    Learns (rooms.establishSession env room body cookie) (fun r l' => Later l l' ∧
      (cookie ≠ some r.2.1 → ∃ now ∈ l'.clock, now < room.expires_at)) l := by
  unfold rooms.establishSession
  refine .bind ((learns_existingSession hheld).mono ?_)
  rintro existing l₁ ⟨h₁, hcookie⟩
  have hheld₁ : l₁.held ≠ .nothing := by
    rw [h₁.held]
    exact hheld
  cases existing with
  | none =>
    exact .bind ((learns_joinRoom hheld₁).mono fun r l' h => .pure ⟨h₁.trans h.1, fun _ => h.2⟩)
  | some found =>
    obtain ⟨session, token⟩ := found
    refine .bind (.issue fun now => .bind (.issue fun last_seen_at => ?_))
    refine .bind (.mono (.of_only env (only_sessionFlush (K := [.renewSession]) (by decide)
      _ _) (by decide) hheld₁) fun _ l₂ h₂ => .pure ⟨?_, fun hne => ?_⟩)
    · have hread : Later l₁ ((l₁.next .utcnow (.ok now)).next .utcnow (.ok last_seen_at)) :=
        (Phase.later_next (c := .utcnow) hheld₁ id _).trans
          (Phase.later_next (l := l₁.next .utcnow (.ok now)) (c := .utcnow) hheld₁ id _)
      exact h₁.trans (hread.trans h₂)
    · exact absurd (hcookie _ _ rfl) hne

/-- A request to join by code that succeeds. -/
theorem learns_joinByCode (room_code : String) (body : rooms.JoinRequest) (request : Request)
    (hheld : l.held = .nothing) :
    Learns (rooms.joinByCode env room_code body request) (fun r l' => ∃ i row,
      Joined env room_code request.session_cookie r.2.1 r.2.2 i row l') l := by
  unfold rooms.joinByCode
  refine .withSession (.checks_bind ?_)
  unfold roomRepository.getRoomByCode
  rw [bind_assoc]
  refine .bind (.issue fun rows => ?_)
  rcases rows with - | ⟨⟨i, row⟩, - | ⟨second, rest⟩⟩
  · exact .raise _
  · -- The room that is found is the one that the process holds from here on.
    obtain ⟨l₁, hl₁⟩ : ∃ l₁, l.next (.sql (.select .rooms fun _ r =>
        r.room_code == strip (env.upper room_code))) (.ok [(i, row)]) = l₁ := ⟨_, rfl⟩
    have hsaw : l₁.held = .saw (fun _ r => r.room_code == strip (env.upper room_code)) i row := by
      rw [← hl₁]
      show l.held.orSaw _ _ _ = _
      rw [hheld]
      rfl
    rw [hl₁]
    have hjoin : Learns (rooms.establishSession env (toRoom (i, row)) body request.session_cookie)
        (fun r l' => Later l₁ l' ∧ (request.session_cookie ≠ some r.2.1 →
          ∃ now ∈ l'.clock, now < row.expires_at)) l₁ :=
      learns_establishSession (by rw [hsaw]; rintro ⟨⟩)
    refine .bind (.pure (.bind (.tryCatch_raise (hjoin.mono ?_))))
    rintro ⟨session, token, created⟩ l₂ ⟨hlater, halive⟩
    refine .bind (.issue fun _ => .pure ⟨i, row, ?_, rfl, halive⟩)
    show l₂.held.commit.rollback = _
    rw [hlater.held, hsaw]
    rfl
  · exact .raise _

/-! ### Every process -/

/-- Watching forbids nothing, and changes neither what a process runs nor its moment. -/
theorem wp_fixed {Q : Except Err α → Phase → Prop} (h : prog.wp monitor.trans Q l) :
    prog.wp monitor.trans (fun r l' => Q r l' ∧ l'.call = l.call ∧ l'.moment = l.moment) l := by
  induction prog generalizing l with
  | ret a => exact ⟨h, rfl, rfl⟩
  | raise e => exact ⟨h, rfl, rfl⟩
  | call c k ih => exact ⟨trivial, fun x => ih x (h.2 x)⟩

/-- The monitor admits every program. -/
theorem wp_trivial (prog : Op α) : prog.wp monitor.trans (fun _ _ => True) l := by
  induction prog generalizing l with
  | ret a => trivial
  | raise e => trivial
  | call c k ih => exact ⟨trivial, fun x => ih x⟩

end

/-- What a process knows that has told a client something. -/
def Knows (env : Env) (z : Serializer) (csrf_secret : String) (l : Phase) : Reply → Prop
  | .created room access_token => (∃ body request, l.call = .create body request) ∧
    l.held = .has (fun _ _ => true) room.id room.toRoomRow ∧
      Made (signing env z csrf_secret l.moment) room access_token l
  | .joined token access_token => ∃ room_code body request i row,
    l.call = .byCode room_code body request ∧
      Joined (signing env z csrf_secret l.moment) room_code request.session_cookie token access_token
        i row l
  | .nothing => True

/-- Every process knows what it tells. -/
theorem knows_program (env : Env) (z : Serializer) (csrf_secret : String) {l : Phase}
    (hheld : l.held = .nothing) : Learns (l.call.program (signing env z csrf_secret l.moment))
      (fun reply l' => Knows env z csrf_secret l' reply) l := by
  have hfixed : ∀ {prog : Op Reply}, Learns prog (fun reply l' => l'.call = l.call →
      l'.moment = l.moment → Knows env z csrf_secret l' reply) l →
      Learns prog (fun reply l' => Knows env z csrf_secret l' reply) l := fun h =>
    Prog.wp_mono monitor.trans_monotone (fun _ l' hr a ha => hr.1 a ha hr.2.1 hr.2.2) (wp_fixed h)
  refine hfixed ?_
  cases hcall : l.call with
  | create body request =>
    refine .map ((learns_rooms_createRoom body request).mono fun r l' h hcall' hmoment => ?_)
    refine ⟨⟨body, request, hcall'⟩, h.1, ?_⟩
    rw [hmoment]
    exact h.2
  | byCode room_code body request =>
    refine .map ((learns_joinByCode room_code body request hheld).mono ?_)
    rintro r l' ⟨i, row, h⟩ hcall' hmoment
    refine ⟨room_code, body, request, i, row, hcall', ?_⟩
    rw [hmoment]
    exact h
  | other task =>
    exact .map (Prog.wp_mono monitor.trans_monotone (fun _ _ _ _ _ _ _ => trivial)
      (wp_trivial (l := l) _))

/-! ## What no statement changes of a room -/

/-- The version is one of the room `r`. -/
def Same (v : Option RoomRow) (r : RoomRow) : Prop := ∃ r', v = some r' ∧ ident r' = ident r

/-- A draft of a room that is committed is a version of it. -/
def Stable (cl : Cell RoomRow) : Prop :=
  ∀ r, cl.committed = some r → ∀ q v, cl.lock = some (q, v) → Same v r

/-- What a process may do to the row of a room: it ends its transaction without a commit only where
`E` holds. -/
inductive Touch (p : ℕ) (E : Prop) (cl : Cell RoomRow) : Cell RoomRow → Prop
  | keep : Touch p E cl cl
  | update (r r' : RoomRow) (hv : cl.view p = some r) (hr : ident r' = ident r)
      (hl : cl.heldByOther p = false) : Touch p E cl (cl.write p (some r'))
  | insert (r : RoomRow) (hc : cl = Cell.empty) : Touch p E cl (cl.write p (some r))
  | commit : Touch p E cl (cl.commit p)
  | rollback (he : E) : Touch p E cl (cl.rollback p)

section

variable {p q : ℕ} {E : Prop} {cl cl' : Cell RoomRow} {r : RoomRow}

/-- What a transaction sees of a committed room is a version of it. -/
theorem Stable.view (h : Stable cl) (hr : cl.committed = some r) (q : ℕ) : Same (cl.view q) r := by
  by_cases hl : ∃ v, cl.lock = some (q, v)
  · obtain ⟨v, hl⟩ := hl
    rw [Cell.view_of_lock hl]
    exact h r hr q v hl
  · rw [Cell.view_of_ne fun v hv => hl ⟨v, hv⟩]
    exact ⟨r, hr, rfl⟩

/-- Versions of one room agree. -/
theorem Same.trans {v : Option RoomRow} {r r' : RoomRow} (h : Same v r) (hr : ident r = ident r') :
    Same v r' := by
  obtain ⟨r₁, hv, h₁⟩ := h
  exact ⟨r₁, hv, h₁.trans hr⟩

/-- Every change of the row leaves its versions in agreement. -/
theorem Touch.stable (h : Touch p E cl cl') (hs : Stable cl) : Stable cl' := by
  cases h with
  | keep => exact hs
  | update r r' hv hr hl =>
    intro r₀ hr₀ q v hlock
    cases hlock
    obtain ⟨r₁, hv₁, h₁⟩ := hs.view hr₀ p
    rw [hv] at hv₁
    cases hv₁
    exact ⟨r', rfl, hr.trans h₁⟩
  | insert r hc =>
    subst hc
    rintro r₀ ⟨⟩
  | commit =>
    intro r₀ hr₀ q v hlock
    rcases Cell.lock_commit (p := p) cl with hl | ⟨q', v', -, -, hc⟩
    · rw [hl] at hlock
      cases hlock
    · rw [hc] at hr₀ hlock
      exact hs r₀ hr₀ q v hlock
  | rollback he =>
    intro r₀ hr₀ q v hlock
    by_cases hl : ∃ v, cl.lock = some (p, v)
    · obtain ⟨v', hl⟩ := hl
      rw [Cell.rollback_of_lock hl] at hlock
      cases hlock
    · rw [Cell.rollback_of_ne fun v hv => hl ⟨v, hv⟩] at hr₀ hlock
      exact hs r₀ hr₀ q v hlock

/-- A room that is committed stays committed. -/
theorem Touch.committed (h : Touch p E cl cl') (hs : Stable cl) (hr : Same cl.committed r) :
    Same cl'.committed r := by
  obtain ⟨r₀, hr₀, h₀⟩ := hr
  cases h with
  | commit =>
    rw [Cell.committed_commit]
    exact (hs.view hr₀ p).trans h₀
  | rollback he =>
    rw [Cell.committed_rollback]
    exact ⟨r₀, hr₀, h₀⟩
  | _ => exact ⟨r₀, hr₀, h₀⟩

/-- A room that another process sees stays in its sight. -/
theorem Touch.view_of_ne (h : Touch p E cl cl') (hs : Stable cl) (hq : q ≠ p)
    (hr : Same (cl.view q) r) : Same (cl'.view q) r := by
  cases h with
  | keep => exact hr
  | update r₁ r₂ hv h₂ hl =>
    rw [Cell.view_write_of_ne _ hq hl]
    exact hr
  | insert r₁ hc =>
    subst hc
    obtain ⟨r₀, ⟨⟩, -⟩ := hr
  | commit =>
    by_cases hl : ∃ v, cl.lock = some (p, v)
    · obtain ⟨v, hl⟩ := hl
      rw [Cell.view_of_ne (by simp [hl, hq.symm])] at hr
      obtain ⟨r₀, hr₀, h₀⟩ := hr
      rw [Cell.commit_of_lock hl]
      exact (hs r₀ hr₀ p v hl).trans h₀
    · rw [Cell.commit_of_ne fun v hv => hl ⟨v, hv⟩]
      exact hr
  | rollback he =>
    by_cases hl : ∃ v, cl.lock = some (p, v)
    · obtain ⟨v, hl⟩ := hl
      rw [Cell.view_of_ne (by simp [hl, hq.symm])] at hr
      rw [Cell.rollback_of_lock hl]
      exact hr
    · rw [Cell.rollback_of_ne fun v hv => hl ⟨v, hv⟩]
      exact hr

/-- A room that the process itself sees stays in its sight until a rollback. -/
theorem Touch.view (h : Touch p E cl cl') (hE : ¬E) (hr : Same (cl.view p) r) :
    Same (cl'.view p) r := by
  cases h with
  | keep => exact hr
  | update r₁ r₂ hv h₂ hl =>
    obtain ⟨r₀, hr₀, h₀⟩ := hr
    rw [hv] at hr₀
    cases hr₀
    rw [Cell.view_write]
    exact ⟨r₂, rfl, h₂.trans h₀⟩
  | insert r₁ hc =>
    subst hc
    obtain ⟨r₀, ⟨⟩, -⟩ := hr
  | commit =>
    by_cases hl : ∃ v, cl.lock = some (p, v)
    · obtain ⟨v, hl⟩ := hl
      rw [Cell.view_of_lock hl] at hr
      rw [Cell.commit_of_lock hl]
      exact hr
    · rw [Cell.commit_of_ne fun v hv => hl ⟨v, hv⟩]
      exact hr
  | rollback he => exact absurd he hE

end

/-! ## Every step keeps the invariant -/

/-- What a process holds is there. -/
def Held.Holds (db : Db) (p : ℕ) : Held → Prop
  | .nothing => True
  | .saw where_ i r => where_ i r = true ∧ Same (db.get p .rooms i) r
  | .has where_ i r => where_ i r = true ∧ Same (db.committed .rooms i) r

/-- The invariant of the rooms and of what the processes know, where `P p now` holds of what process `p`
reads of the clock. -/
structure Inv (P : ℕ → Time → Prop) (calls : ℕ → Call) (moment : ℕ → Time) (w : World)
    (φ : ℕ → Phase) : Prop where
  stable : ∀ i, Stable (w.db.cell .rooms i)
  holds : ∀ p, (φ p).held.Holds w.db p
  call : ∀ p, (φ p).call = calls p
  moment : ∀ p, (φ p).moment = moment p
  clock : ∀ p, ∀ now ∈ (φ p).clock, P p now

section

variable {m : Machine Cmd Resp Err World} {p : ℕ} {c : Cmd} {w w' : World} {x : Except Err (Resp c)}

/-- What a command may do to the row of a room. -/
theorem touch (hm : Faithful m) (hx : m.Answer p c w x w') (i : ℕ) :
    Touch p (c = .sql .rollback) (w.db.cell .rooms i) (w'.db.cell .rooms i) := by
  refine hm.row_elim hx .rooms i (motive := fun c _ cl' =>
    Touch p (c = .sql .rollback) (w.db.cell .rooms i) cl') ?_ ?_ ?_ ?_ ?_ ?_ ?_ ?_ ?_ ?_
  · exact fun _ _ _ => .keep
  · exact fun _ _ _ => .keep
  · exact fun _ _ => .keep
  · exact fun u r hr _ hl => .update r _ hr (ident_set u r) hl
  · exact fun _ _ _ => .keep
  · exact fun d => d.elim
  · exact fun _ _ _ => .keep
  · intro r _ hc
    rw [hc]
    exact .insert r rfl
  · exact .commit
  · exact .rollback rfl

/-- What another process holds stays there. -/
theorem Held.Holds.other {held : Held} {q : ℕ} (h : held.Holds w.db q) (hm : Faithful m)
    (hx : m.Answer p c w x w') (hs : ∀ i, Stable (w.db.cell .rooms i)) (hq : q ≠ p) :
    held.Holds w'.db q := by
  cases held with
  | nothing => trivial
  | saw where_ i r => exact ⟨h.1, (touch hm hx i).view_of_ne (hs i) hq h.2⟩
  | has where_ i r => exact ⟨h.1, (touch hm hx i).committed (hs i) h.2⟩

/-- What a process holds after a command is there. -/
theorem Held.Holds.next {held : Held} (h : held.Holds w.db p) (hm : Faithful m)
    (hx : m.Answer p c w x w') (hs : ∀ i, Stable (w.db.cell .rooms i)) :
    (held.next c x).Holds w'.db p := by
  -- A room that is committed is the same room after the step.
  have hhas : ∀ {where_ i r}, (Held.has where_ i r).Holds w.db p →
      (Held.has where_ i r).Holds w'.db p := fun {where_ i r} h =>
    ⟨h.1, (touch hm hx i).committed (hs i) h.2⟩
  unfold Held.next
  split
  · next r i =>
    rcases hm.insert hx with ⟨hi, rfl⟩ | ⟨e, he, -⟩
    · cases hi
      refine ⟨rfl, r, ?_, rfl⟩
      have hcell := @Tables.cell_insert_self _ _ w.db p _ .rooms r
      exact Cell.view_of_lock (congrArg Cell.lock hcell)
    · cases he
  · next where_ i r =>
    obtain ⟨rfl, hrows⟩ := hm.select hx
    cases held with
    | nothing =>
      have hmem : (i, r) ∈ w'.db.select p .rooms where_ := by
        rw [← hrows _ rfl]
        exact List.mem_singleton_self _
      obtain ⟨hr, hw⟩ := Tables.mem_select.1 hmem
      exact ⟨hw, r, hr, rfl⟩
    | saw => exact h
    | has => exact h
  · cases held with
    | nothing => trivial
    | saw where_ i r =>
      rcases hm.commit hx with ⟨-, rfl⟩ | ⟨e, he, -⟩
      · refine ⟨h.1, ?_⟩
        rw [Tables.committed_commit]
        exact h.2
      · cases he
    | has => exact hhas h
  · cases held with
    | nothing => trivial
    | saw => trivial
    | has => exact hhas h
  · next hrollback =>
    cases held with
    | nothing => trivial
    | saw where_ i r =>
      exact ⟨h.1, (touch hm hx i).view (fun hc => by subst hc; exact hrollback x rfl HEq.rfl) h.2⟩
    | has => exact hhas h

/-- What is read of the clock is the time. -/
theorem of_reading (hm : Faithful m) (hx : m.Answer p c w x w') {now : Time}
    (hnow : now ∈ reading c x) : c = .utcnow ∧ now = w.now := by
  unfold reading at hnow
  split at hnow
  · next now' =>
    refine ⟨rfl, ?_⟩
    cases hx with
    | exec hexec =>
      rw [hm.exec_eq] at hexec
      cases hexec
      exact List.mem_singleton.1 hnow
  · cases hnow

/-- Every command keeps the invariant. -/
theorem Inv.step {P : ℕ → Time → Prop} {calls : ℕ → Call} {moment : ℕ → Time} {φ : ℕ → Phase}
    (I : Inv P calls moment w φ) (hm : Faithful m) (hx : m.Answer p c w x w')
    (hP : c = .utcnow → P p w.now) :
    Inv P calls moment w' (Function.update φ p ((φ p).next c x)) where
  stable i := (touch hm hx i).stable (I.stable i)
  holds q := by
    by_cases hq : q = p
    · subst hq
      rw [Function.update_self]
      exact (I.holds q).next hm hx I.stable
    · rw [Function.update_of_ne hq]
      exact (I.holds q).other hm hx I.stable hq
  call q := by
    by_cases hq : q = p
    · subst hq
      rw [Function.update_self]
      exact I.call q
    · rw [Function.update_of_ne hq]
      exact I.call q
  moment q := by
    by_cases hq : q = p
    · subst hq
      rw [Function.update_self]
      exact I.moment q
    · rw [Function.update_of_ne hq]
      exact I.moment q
  clock q now hnow := by
    by_cases hq : q = p
    · subst hq
      rw [Function.update_self] at hnow
      rcases List.mem_append.1 hnow with hread | hold
      · obtain ⟨hc, hw⟩ := of_reading hm hx hread
        rw [hw]
        exact hP hc
      · exact I.clock q now hold
    · rw [Function.update_of_ne hq] at hnow
      exact I.clock q now hnow

end

/-- A run, and what every process knows of it. -/
theorem invariant {env : Env} {z : Serializer} {csrf_secret : String} {moment : ℕ → Time}
    {calls : ℕ → Call} {w : World} {ok : Guard Cmd World Unit}
    {s : Conf Cmd Resp Err Reply World Unit} (hfree : w.db.Free) {P : ℕ → Time → Prop}
    (hP : ∀ p w φ, ok p .utcnow w φ → P p w.now)
    (h : server.Reaches (.only fun _ => True) ok (started env z csrf_secret moment calls w) s) :
    ∃ φ, Inv P calls moment s.world φ ∧ ∀ p reply, (s.proc p).outcome = some (.ok reply) →
      Knows env z csrf_secret (φ p) reply := by
  obtain ⟨φ, hr⟩ := Machine.reaches_watched monitor (fun p c w _ => ok p c w fun _ => ())
    (fun p c w φ φ' hok => hok) h fun p => ⟨calls p, moment p, .nothing, []⟩
  have hstart : Inv P calls moment w fun p => ⟨calls p, moment p, .nothing, []⟩ := by
    refine ⟨fun i r _ q v hl => ?_, fun _ => trivial, fun _ => rfl, fun _ => rfl, ?_⟩
    · rw [hfree] at hl
      cases hl
    · rintro p now ⟨⟩
  have htick : ∀ (w : World) (φ : ℕ → Phase) (w' : World), Inv P calls moment w φ →
      server.env w w' → Inv P calls moment w' φ := by
    intro w φ w' I ht
    have hdb : w'.db = w.db := World.Tick.db_eq ht
    refine ⟨fun i => ?_, fun p => ?_, I.call, I.moment, I.clock⟩
    · rw [hdb]
      exact I.stable i
    · rw [hdb]
      exact I.holds p
  obtain ⟨I, hC⟩ := Machine.invariant (I := Inv P calls moment)
    (Q := fun r l => ∀ reply, r = .ok reply → Knows env z csrf_secret l reply)
    (fun w φ p c x w' I _ hok hx => I.step server_faithful hx fun hc => by
      subst hc
      exact hP p w _ hok) htick hr hstart
    fun p => knows_program env z csrf_secret (l := ⟨calls p, moment p, .nothing, []⟩) rfl
  exact ⟨φ, I, fun p reply hreply => Prog.wp_outcome hreply (hC p) reply rfl⟩

/-! ## Where an access token leads -/

/-- A transaction of process `k` finds the room by the access token. -/
def LeadsTo (env : Env) (k : ℕ) (w : World) (access_token : Token) (room_id : ℕ) : Prop :=
  ∃ found : Room, calm.eval k (roomRepository.getRoomByAccessToken env access_token) w =
    some (.ok (some found), w) ∧ found.id = room_id

/-- `scalar_one_or_none` that returns a row has found one. -/
theorem eq_singleton_of_eval {α : Type} {k : ℕ} {w : World} {rows : List α} {a : α}
    (h : calm.eval k (scalarOneOrNone rows) w = some (.ok (some a), w)) : rows = [a] := by
  rcases rows with - | ⟨b, - | ⟨c, rest⟩⟩
  · cases h
  · cases h
    rfl
  · cases h

/-- A transaction that has written no room finds the committed one with the hash of the token. -/
theorem leadsTo_iff {env : Env} {k : ℕ} {w : World} {access_token : Token} {room_id : ℕ}
    (hk : ∀ i v, (w.db.cell .rooms i).lock ≠ some (k, v)) (hu : UniqueColumns w.db.committed) :
    LeadsTo env k w access_token room_id ↔ ∃ r, w.db.committed .rooms room_id = some r ∧
      r.access_token_hash = env.hash_token access_token := by
  have hget : ∀ i, w.db.get k .rooms i = w.db.committed .rooms i := fun i =>
    Cell.view_of_ne (hk i)
  have heval : calm.eval k (roomRepository.getRoomByAccessToken env access_token) w =
      calm.eval k (scalarOneOrNone ((w.db.select k .rooms fun _ r =>
        r.access_token_hash == env.hash_token access_token).map toRoom)) w := rfl
  rw [LeadsTo, heval]
  constructor
  · rintro ⟨found, hfound, rfl⟩
    obtain ⟨⟨i, r⟩, hrow, hroom⟩ := List.map_eq_singleton_iff.1 (eq_singleton_of_eval hfound)
    subst hroom
    have hmem : (i, r) ∈ w.db.select k .rooms fun _ r =>
        r.access_token_hash == env.hash_token access_token := by
      rw [hrow]
      exact List.mem_singleton_self _
    obtain ⟨hr, hhash⟩ := Tables.mem_select.1 hmem
    exact ⟨r, (hget i).symm.trans hr, beq_iff_eq.1 hhash⟩
  · rintro ⟨r, hr, hhash⟩
    have hselect : (w.db.select k .rooms fun _ r =>
        r.access_token_hash == env.hash_token access_token) = [(room_id, r)] :=
      Tables.select_eq_singleton ((hget room_id).trans hr) (beq_iff_eq.2 hhash) fun j r' hr' hw =>
        hu.access_token_hash j room_id r' r ((hget j).symm.trans hr') hr
          ((beq_iff_eq.1 hw).trans hhash.symm)
    rw [hselect]
    exact ⟨toRoom (room_id, r), rfl, rfl⟩

/-- What is answered for the access token of a room that was made at `made`. -/
theorem answer_eq {env : Env} {z : Serializer} (hz : z.Lawful) {csrf_secret : String}
    {made now : Time} {access_token : Token} (htoken : access_token ≠ "") {i : ℕ} {r : RoomRow}
    (hsigned : r.access_token_signed = some (z.dumps csrf_secret made access_token)) :
    (roomService.truthy (roomRepository.recoverAccessToken (signing env z csrf_secret now)
      (toRoom (i, r)))).getD r.room_code =
        if stamp now ≤ stamp made + (env.max_room_lifetime_seconds + 3600) then access_token
        else r.room_code := by
  have hrecover : roomRepository.recoverAccessToken (signing env z csrf_secret now) (toRoom (i, r)) =
      if stamp now ≤ stamp made + (env.max_room_lifetime_seconds + 3600) then some access_token
      else none := by
    unfold roomRepository.recoverAccessToken toRoom
    dsimp only
    rw [hsigned]
    dsimp only
    rw [if_neg (hz.dumps_ne _ _ _)]
    exact hz.loads_dumps _ _ _ _ _
  rw [hrecover]
  split
  · rw [roomService.truthy, if_neg htoken]
    rfl
  · rfl

/-- The room of a request to join by code is the one that was made with the code. -/
theorem eq_of_code {env : Env} {z : Serializer} {csrf_secret : String} {P : ℕ → Time → Prop}
    {calls : ℕ → Call} {moment : ℕ → Time} {w : World} {φ : ℕ → Phase}
    (I : Inv P calls moment w φ) (hu : UniqueColumns w.db.committed) {p q : ℕ} {room : Room}
    {access_token : Token} (hp : Knows env z csrf_secret (φ p) (.created room access_token))
    {env' : Env} {room_code : String} {cookie : Option Token} {token answer : Token} {i : ℕ}
    {r : RoomRow} (hq : Joined env' room_code cookie token answer i r (φ q))
    (hcode : strip (env'.upper room_code) = room.room_code) :
    i = room.id ∧ ident r = ident room.toRoomRow ∧ ∃ row,
      w.db.committed .rooms room.id = some row ∧ ident row = ident room.toRoomRow := by
  obtain ⟨-, hheld, -⟩ := hp
  have hroom := I.holds p
  have hjoined := I.holds q
  rw [hheld] at hroom
  rw [hq.held] at hjoined
  obtain ⟨-, row, hrow, hident⟩ := hroom
  obtain ⟨hmatch, row', hrow', hident'⟩ := hjoined
  have hsame : row'.room_code = row.room_code := by
    have h₁ : r.room_code = room.room_code := (beq_iff_eq.1 hmatch).trans hcode
    have h₂ : row'.room_code = r.room_code := congrArg Prod.fst hident'
    have h₃ : row.room_code = room.room_code := congrArg Prod.fst hident
    rw [h₂, h₁, h₃]
  obtain rfl := hu.room_code i room.id row' row hrow' hrow hsame
  rw [hrow] at hrow'
  cases hrow'
  exact ⟨rfl, hident'.symm.trans hident, row, hrow, hident⟩

section

variable {env : Env} {z : Serializer} {csrf_secret : String} {moment : ℕ → Time} {calls : ℕ → Call}
  {w : World} {s : Conf Cmd Resp Err Reply World Unit} {p q k : ℕ} {room : Room}
  {access_token token answer : Token} {room_code : String} {body : rooms.JoinRequest}
  {request : Request}

/-- What a request to join by code answers, and that it is joined afresh only while the room is
alive. -/
theorem answered (hz : z.Lawful) {P : ℕ → Time → Prop} {φ : ℕ → Phase}
    (I : Inv P calls moment s.world φ) (hu : UniqueColumns s.world.db.committed)
    (hp : Knows env z csrf_secret (φ p) (.created room access_token)) (htoken : access_token ≠ "")
    (hq : Knows env z csrf_secret (φ q) (.joined token answer))
    (hcall : calls q = .byCode room_code body request)
    (hcode : strip (env.upper room_code) = room.room_code) :
    (answer = if stamp (moment q) ≤ stamp (moment p) + (env.max_room_lifetime_seconds + 3600)
      then access_token else room.room_code) ∧
    (∃ row, s.world.db.committed .rooms room.id = some row ∧
      row.access_token_hash = env.hash_token access_token) ∧
    (request.session_cookie ≠ some token → ∃ now, P q now ∧ now < room.expires_at) := by
  obtain ⟨room_code', body', request', i, r, hcall', hjoined⟩ := hq
  rw [I.call q, hcall] at hcall'
  cases hcall'
  obtain ⟨rfl, hident, row, hrow, hident'⟩ := eq_of_code I hu hp hjoined hcode
  obtain ⟨-, -, hmade⟩ := hp
  have hsigned : r.access_token_signed = some (z.dumps csrf_secret (moment p) access_token) := by
    have hsame : r.access_token_signed = room.access_token_signed :=
      congrArg (fun x => x.2.2.1) hident
    rw [hsame, hmade.signed, I.moment p]
    rfl
  refine ⟨?_, ⟨row, hrow, ?_⟩, fun hfresh => ?_⟩
  · have hanswer := hjoined.answer
    rw [I.moment q, answer_eq hz htoken hsigned] at hanswer
    rw [hanswer, show r.room_code = room.room_code from congrArg Prod.fst hident]
  · have hsame : row.access_token_hash = room.access_token_hash :=
      congrArg (fun x => x.2.1) hident'
    rw [hsame, hmade.hash]
    rfl
  · obtain ⟨now, hnow, hlive⟩ := hjoined.alive hfresh
    have hsame : r.expires_at = room.expires_at := congrArg (fun x => x.2.2.2) hident
    exact ⟨now, I.clock q now hnow, hsame ▸ hlive⟩

end

end links

open links

/-- A request to join by code that succeeds answers an access token by which the room is found, if and
only if it comes at most the longest lifetime of a room and an hour after the room was made. -/
theorem link_leads_back_iff {env : Env} {z : Serializer} (hz : z.Lawful) {csrf_secret : String}
    {moment : ℕ → Time} {calls : ℕ → Call} {w : World} {s : Conf Cmd Resp Err Reply World Unit}
    (hfree : w.db.Free)
    (h : server.Reaches (.only fun _ => True) .all (started env z csrf_secret moment calls w) s)
    (hu : UniqueColumns s.world.db.committed) {p q k : ℕ} {room : Room} {access_token : Token}
    (hp : (s.proc p).outcome = some (.ok (.created room access_token)))
    (htoken : access_token ≠ "")
    (hhash : env.hash_token room.room_code ≠ env.hash_token access_token)
    {room_code : String} {body : rooms.JoinRequest} {request : Request}
    (hcall : calls q = .byCode room_code body request)
    (hcode : strip (env.upper room_code) = room.room_code) {token answer : Token}
    (hq : (s.proc q).outcome = some (.ok (.joined token answer)))
    (hk : ∀ i v, (s.world.db.cell .rooms i).lock ≠ some (k, v)) :
    LeadsTo env k s.world answer room.id ↔
      stamp (moment q) ≤ stamp (moment p) + (env.max_room_lifetime_seconds + 3600) := by
  obtain ⟨φ, I, hknows⟩ := invariant hfree (P := fun _ _ => True) (fun _ _ _ _ => trivial) h
  obtain ⟨rfl, ⟨row, hrow, hfound⟩, -⟩ := answered hz I hu (hknows p _ hp) htoken (hknows q _ hq)
    hcall hcode
  rw [leadsTo_iff hk hu]
  constructor
  · rintro ⟨row', hrow', hfound'⟩
    rw [hrow] at hrow'
    cases hrow'
    by_contra hold
    rw [if_neg hold, hfound] at hfound'
    exact hhash hfound'.symm
  · intro hyoung
    rw [if_pos hyoung]
    exact ⟨row, hrow, hfound⟩

/-- A request that joins afresh and takes less than an hour answers an access token by which the room is
found. -/
theorem fresh_link_leads_back {env : Env} {z : Serializer} (hz : z.Lawful) {csrf_secret : String}
    {moment : ℕ → Time} {calls : ℕ → Call} {w : World} {s : Conf Cmd Resp Err Reply World Unit}
    (hdefault : env.default_room_lifetime_seconds ≤ env.max_room_lifetime_seconds)
    (hfree : w.db.Free)
    (h : server.Reaches (.only fun _ => True) (timely calls moment)
      (started env z csrf_secret moment calls w) s)
    (hu : UniqueColumns s.world.db.committed) {p q k : ℕ} {room : Room} {access_token : Token}
    (hp : (s.proc p).outcome = some (.ok (.created room access_token)))
    (htoken : access_token ≠ "") {room_code : String} {body : rooms.JoinRequest} {request : Request}
    (hcall : calls q = .byCode room_code body request)
    (hcode : strip (env.upper room_code) = room.room_code) {token answer : Token}
    (hq : (s.proc q).outcome = some (.ok (.joined token answer)))
    (hfresh : request.session_cookie ≠ some token)
    (hk : ∀ i v, (s.world.db.cell .rooms i).lock ≠ some (k, v)) :
    LeadsTo env k s.world answer room.id := by
  obtain ⟨φ, I, hknows⟩ := invariant hfree (P := Near calls moment) (fun _ _ _ hok => hok) h
  have hmade := hknows p _ hp
  obtain ⟨rfl, ⟨row, hrow, hfound⟩, hlive⟩ := answered hz I hu hmade htoken (hknows q _ hq)
    hcall hcode
  obtain ⟨now, hnow, hlive⟩ := hlive hfresh
  obtain ⟨⟨body', request', hcall'⟩, -, hmade⟩ := hmade
  obtain ⟨now', hnow', hexpires⟩ := hmade.expires hdefault
  have hjoining : moment q ≤ now + seconds 1800 ∧ now ≤ moment q + seconds 1800 := by
    rw [Near, hcall] at hnow
    exact hnow
  have hmaking : moment p ≤ now' + seconds 1800 ∧ now' ≤ moment p + seconds 1800 := by
    have hnear := I.clock p now' hnow'
    rw [I.call p] at hcall'
    rw [Near, hcall'] at hnear
    exact hnear
  have hyoung : stamp (moment q) ≤ stamp (moment p) + (env.max_room_lifetime_seconds + 3600) :=
    stamp_le (le_add_hour hjoining.1 hlive hexpires hmaking.2)
  rw [leadsTo_iff hk hu, if_pos hyoung]
  exact ⟨row, hrow, hfound⟩

namespace links

/-! ## A concrete serializer -/

/-- A serializer that writes the time stamp in strokes, and the secret for a signature. -/
def strokes : Serializer where
  dumps secret now access_token :=
    String.ofList (List.replicate (stamp now) '1' ++ '.' :: (secret.toList ++ access_token.toList))
  loads secret max_age now signed :=
    let stamped := (signed.toList.takeWhile (· = '1')).length
    let payload := (signed.toList.dropWhile (· = '1')).tail
    if secret.toList.isPrefixOf payload ∧ stamp now ≤ stamped + max_age then
      some (String.ofList (payload.drop secret.toList.length))
    else none

/-- These functions sign and unsign as the serializer promises. -/
theorem strokes_lawful : strokes.Lawful where
  dumps_ne secret now access_token h := by
    have hlist := congrArg String.toList h
    simp [strokes] at hlist
  loads_dumps secret max_age now later access_token := by
    have hstrokes : ∀ a ∈ List.replicate (stamp now) '1', (decide (a = '1')) = true := fun a ha =>
      decide_eq_true (List.mem_replicate.1 ha).2
    have htake : (List.replicate (stamp now) '1' ++ '.' :: (secret.toList ++
        access_token.toList)).takeWhile (· = '1') = List.replicate (stamp now) '1' := by
      rw [List.takeWhile_append_of_pos hstrokes]
      simp
    have hdrop : (List.replicate (stamp now) '1' ++ '.' :: (secret.toList ++
        access_token.toList)).dropWhile (· = '1') = '.' :: (secret.toList ++ access_token.toList) := by
      rw [List.dropWhile_append_of_pos hstrokes]
      simp
    have hsigned : secret.toList.isPrefixOf (secret.toList ++ access_token.toList) = true := by
      simp
    simp only [strokes, String.toList_ofList, htake, hdrop, List.tail_cons, hsigned,
      List.length_replicate, true_and, List.drop_left, String.ofList_toList]

/-! ## A room that is joined after its signature has expired -/

/-- The request of the owner, whose session has the third token that was generated. -/
def again : Request := ⟨some "ttt", some "x", some "x", none, none⟩

/-- The owner of a room that lives for a day comes back by its code, three times. -/
def comings : ℕ → Call
  | 0 => .create ⟨none, none, true, true, some 86400⟩ again
  | 1 => .byCode "c" ⟨none, none, none⟩ again
  | 2 => .byCode "c" ⟨none, none, none⟩ again
  | 3 => .byCode "c" ⟨none, none, none⟩ again
  | _ => .other .idle

/-- The last time is a second after the signature has expired. -/
def moments : ℕ → Time
  | 1 => seconds 40000
  | 2 => seconds 80000
  | 3 => seconds 90001
  | _ => 0

/-- A server that is started at the time zero. -/
def genesis : World := { World.initial with now := 0 }

/-- Whether the clock is read in time is decided. -/
instance {L : Type} (calls : ℕ → Call) (moment : ℕ → Time) (p : ℕ) (c : Cmd) (w : World)
    (φ : ℕ → L) : Decidable (timely calls moment p c w φ) := by
  unfold timely Near
  split
  · split <;> infer_instance
  · infer_instance

/-- The commands of a process, with nothing in between. -/
def runs (p n : ℕ) (s : Conf Cmd Resp Err Reply World Unit) :
    Option (Conf Cmd Resp Err Reply World Unit) :=
  server.play (.only fun _ => True) (timely comings moments) (List.replicate n p) s

/-- Some seconds pass. -/
def wait (d : ℕ) (s : Conf Cmd Resp Err Reply World Unit) : Conf Cmd Resp Err Reply World Unit :=
  { s with world := { s.world with
      now := s.world.now + seconds d
      monotonic := s.world.monotonic + seconds d } }

/-- The runs from the start to a state, in which the clock is read near the moments. -/
abbrev Leads (s : Conf Cmd Resp Err Reply World Unit) : Prop :=
  server.Reaches (.only fun _ => True) (timely comings moments)
    (started .plain strokes "k" moments comings genesis) s

/-- Some seconds pass, and a process runs. -/
theorem Leads.wait_runs {s s' : Conf Cmd Resp Err Reply World Unit} (h : Leads s) {d p n : ℕ}
    (hr : runs p n (wait d s) = some s') : Leads s' :=
  (h.tail (.env ⟨seconds d, seconds d, rfl⟩)).trans (Machine.play_reaches hr)

/-- What a client was told. -/
def told (s : Conf Cmd Resp Err Reply World Unit) (p : ℕ) : Option Reply :=
  (s.proc p).outcome.bind Except.toOption

/-- A client that was told something has its answer. -/
theorem outcome_of_told {s : Conf Cmd Resp Err Reply World Unit} {p : ℕ} {reply : Reply}
    (h : told s p = some reply) : (s.proc p).outcome = some (.ok reply) := by
  obtain ⟨x, hx, hreply⟩ := Option.bind_eq_some_iff.1 h
  cases x with
  | error e => cases hreply
  | ok a =>
    cases hreply
    exact hx

/-- The room that is made. -/
def made : Room :=
  { RoomRow.plain with
    room_code := "c"
    access_token_hash := "t"
    access_token_signed := some ".kt"
    owner_token_hash := "tt"
    user_count := 0
    created_at := 0
    expires_at := seconds 86400
    id := 0 }

/-- The room is made, and its owner comes back once. -/
def once : Option (Conf Cmd Resp Err Reply World Unit) :=
  (runs 0 14 (started .plain strokes "k" moments comings genesis)).bind fun s =>
    runs 1 9 (wait 40000 s)

/-- The first return is such a run. -/
theorem leads_of_once {s : Conf Cmd Resp Err Reply World Unit} (h : once = some s) : Leads s := by
  obtain ⟨s₀, h₀, h₁⟩ := Option.bind_eq_some_iff.1 h
  exact Leads.wait_runs (Machine.play_reaches h₀) h₁

/-- The owner comes back three times. -/
def thrice : Option (Conf Cmd Resp Err Reply World Unit) :=
  once.bind fun s => (runs 2 9 (wait 40000 s)).bind fun s => runs 3 9 (wait 10001 s)

/-- So are the three. -/
theorem leads_of_thrice {s : Conf Cmd Resp Err Reply World Unit} (h : thrice = some s) :
    Leads s := by
  obtain ⟨s₁, h₁, h₂⟩ := Option.bind_eq_some_iff.1 h
  obtain ⟨s₂, h₂, h₃⟩ := Option.bind_eq_some_iff.1 h₂
  exact ((leads_of_once h₁).wait_runs h₂).wait_runs h₃

/-- Where each table has at most one row, no value is shared. -/
theorem uniqueColumns_of_length {db : Db} (hrooms : (db .rooms).length ≤ 1)
    (hsessions : (db .sessions).length ≤ 1) : UniqueColumns db.committed := by
  have hsame : ∀ {t : Table}, (db t).length ≤ 1 → ∀ {i j : ℕ} {r r' : Row t},
      db.committed t i = some r → db.committed t j = some r' → i = j := by
    intro t ht i j r r' hr hr'
    have hi := Tables.lt_length_of_committed hr
    have hj := Tables.lt_length_of_committed hr'
    omega
  exact ⟨fun i j r r' hr hr' _ => hsame hrooms hr hr',
    fun i j r r' hr hr' _ => hsame hrooms hr hr', fun i j r r' hr hr' _ => hsame hsessions hr hr'⟩

/-- Where no lock is held on the rooms, no process holds one. -/
theorem lock_ne_of_all {db : Db} (h : ((db .rooms).all fun cl => cl.lock.isNone) = true) (i k : ℕ)
    (v : Option RoomRow) : (db.cell .rooms i).lock ≠ some (k, v) := by
  intro hl
  cases hi : (db .rooms)[i]? with
  | none =>
    rw [Tables.cell, hi] at hl
    cases hl
  | some cl =>
    have hfree := List.all_eq_true.1 h cl (List.mem_of_getElem? hi)
    rw [Tables.cell, hi, Option.getD_some] at hl
    rw [hl] at hfree
    cases hfree

end links

/-- A room that its owner joins again within a day. -/
theorem link_leads_back_once : ∃ s, Leads s ∧ told s 1 = some (.joined "ttt" "t") ∧
    LeadsTo .plain 4 s.world "t" made.id := by
  have hrun : (once.map fun s => (told s 0, told s 1, (s.world.db .rooms).length,
      (s.world.db .sessions).length, (s.world.db .rooms).all fun cl => cl.lock.isNone)) =
      some (some (.created made "t"), some (.joined "ttt" "t"), 1, 1, true) := by
    decide +kernel
  obtain ⟨s, hs, hfacts⟩ := Option.map_eq_some_iff.1 hrun
  simp only [Prod.mk.injEq] at hfacts
  obtain ⟨hmade, hjoined, hrooms, hsessions, hfree⟩ := hfacts
  have hleads := leads_of_once hs
  refine ⟨s, hleads, hjoined, ?_⟩
  have hall : server.Reaches (.only fun _ => True) .all
      (started .plain strokes "k" moments comings genesis) s :=
    Machine.reaches_mono (fun _ _ _ _ _ => trivial) hleads
  exact (link_leads_back_iff (q := 1) strokes_lawful (fun t i => rfl) hall
    (uniqueColumns_of_length hrooms.le hsessions.le) (outcome_of_told hmade) (by decide) (by decide)
    rfl rfl (outcome_of_told hjoined) fun i v => lock_ne_of_all hfree i 4 v).2 (by decide)

/-- A room whose owner comes back until the signature has expired: the answer is the code, by which no
room is found. -/
theorem link_leads_nowhere : ∃ s, Leads s ∧ told s 0 = some (.created made "t") ∧
    told s 3 = some (.joined "ttt" "c") ∧ ¬LeadsTo .plain 4 s.world "c" made.id := by
  have hrun : (thrice.map fun s => (told s 0, told s 3,
      (calm.eval 4 (roomRepository.getRoomByAccessToken .plain "c") s.world).map fun x =>
        x.1.toOption.map Option.isSome)) =
      some (some (.created made "t"), some (.joined "ttt" "c"), some (some false)) := by
    decide +kernel
  obtain ⟨s, hs, hfacts⟩ := Option.map_eq_some_iff.1 hrun
  simp only [Prod.mk.injEq] at hfacts
  obtain ⟨hmade, hjoined, hnone⟩ := hfacts
  refine ⟨s, leads_of_thrice hs, hmade, hjoined, ?_⟩
  rintro ⟨found, hfound, -⟩
  rw [hfound] at hnone
  cases hnone

end DropRoom
