import DropRoom.Rooms.Guests

/-!
# Who receives a broadcast

`manager.broadcast` hands its event to each socket of the channel in turn and passes over what raises:
so an event that is JSON reaches every socket that works (`delivers_of_isJson`), and one that is not
reaches none. `broadcast_settings` is the only caller with an event that is not.
-/

namespace DropRoom

open Effect Store Prog

/-- A socket of a session on a channel. -/
def ConnectionManager.Connected (m : ConnectionManager) (ch : Channel) (sid ws : ℕ) : Prop :=
  ∃ sessions set, m.rooms.lookup ch = some sessions ∧ sessions.lookup sid = some set ∧
    ws ∈ set.members

namespace audience

/-- The server while all it depends on works but some sockets. -/
def flaky (broken : Set ℕ) : Machine Cmd Resp Err World where
  exec := exec
  fault c e := c.Raises e ∧ ∃ ws ∈ broken, ∃ event, c = .sendJson ws event
  env := World.Tick

/-- A broadcast returns, and every socket that is connected, not excluded and not broken receives the
event. -/
def Delivers (p : ℕ) (ch : Channel) (event : Event) (exclude : List ℕ) (w : World) : Prop :=
  ∀ broken r w', (flaky broken).Runs p (broadcast ch event exclude) w r w' → r = .ok () ∧
    ∃ sent, w'.outbox = w.outbox ++ sent ∧ ∀ sid ws, w.manager.Connected ch sid ws →
      sid ∉ exclude → ws ∉ broken → (ws, event) ∈ sent

/-- In the course of the program, whatever its commands are answered, the event is broadcast. -/
def Calls {α : Type} (prog : Op α) (ch : Channel) (event : Event) (exclude : List ℕ) : Prop :=
  ∃ k, prog.Leads ((broadcast ch event exclude).andThen k)

/-! ## Delivery -/

/-- What `items` lists for a channel that is there or not leaves the sockets as they are. -/
theorem socketsOf_items (m : ConnectionManager) (ch ch' : Channel) (sid ident : ℕ) :
    (m.items ch).2.socketsOf ch' sid ident = m.socketsOf ch' sid ident := by
  unfold ConnectionManager.items ConnectionManager.touch
  cases hch : m.rooms.lookup ch with
  | some sessions => rfl
  | none =>
    unfold ConnectionManager.socketsOf
    dsimp only
    by_cases hsame : ch' = ch
    · subst hsame
      rw [AList.lookup_insert, hch]
      rfl
    · rw [AList.lookup_insert_ne hsame]

/-- A connected socket is among those that a broadcast goes through. -/
theorem exists_item {m : ConnectionManager} {ch : Channel} {sid ws : ℕ}
    (h : m.Connected ch sid ws) :
    ∃ ident, (sid, ident) ∈ (m.items ch).1 ∧ ws ∈ m.socketsOf ch sid ident := by
  obtain ⟨sessions, set, hch, hsid, hws⟩ := h
  refine ⟨set.ident, ?_, ?_⟩
  · unfold ConnectionManager.items ConnectionManager.touch
    rw [hch]
    have hentry : ⟨sid, set⟩ ∈ sessions.entries := AList.mem_lookup_iff.1 hsid
    exact List.mem_map.2 ⟨⟨sid, set⟩, hentry, rfl⟩
  · rw [ConnectionManager.socketsOf, hch, Option.bind_some, hsid]
    dsimp only
    rw [if_pos rfl]
    exact hws

section

variable {broken : Set ℕ} {p : ℕ} {ch : Channel} {event : Event} {exclude : List ℕ}
  {w₀ w : World} {sent : List (ℕ × Event)}

/-- The messages `sent` have gone out since `w₀`, and the sockets are those of `w₀`. -/
structure Sent (w₀ w : World) (sent : List (ℕ × Event)) : Prop where
  outbox : w.outbox = w₀.outbox ++ sent
  sockets : ∀ ch sid ident, w.manager.socketsOf ch sid ident = w₀.manager.socketsOf ch sid ident

/-- A program that returns, and sends the event to all sockets in `need`. -/
def Tells (broken : Set ℕ) (p : ℕ) (event : Event) (w₀ : World) (need : ℕ → Prop)
    (prog : Op PUnit) : Prop :=
  ∀ w sent, Sent w₀ w sent → prog.wp ((flaky broken).trans p) (fun r w' => r = .ok ⟨⟩ ∧
    ∃ sent', Sent w₀ w' (sent ++ sent') ∧ ∀ ws, need ws → (ws, event) ∈ sent') w

/-- A loop tells whom one of its rounds tells. -/
theorem tells_forM {ι : Type} {f : ι → Op PUnit} {need : ι → ℕ → Prop}
    (hf : ∀ i, Tells broken p event w₀ (need i) (f i)) (l : List ι) :
    Tells broken p event w₀ (fun ws => ∃ i ∈ l, need i ws) (l.forM f) := by
  induction l with
  | nil =>
    intro w sent hsent
    refine ⟨rfl, [], by rwa [List.append_nil], ?_⟩
    rintro ws ⟨i, hi, -⟩
    cases hi
  | cons i l ih =>
    intro w sent hsent
    refine (Prog.wp_bind _ _ _ _).2 (Prog.wp_mono (Machine.trans_monotone _ _) ?_ (hf i w sent hsent))
    rintro r w₁ ⟨rfl, sent₁, hsent₁, hneed₁⟩
    refine Prog.wp_mono (Machine.trans_monotone _ _) ?_ (ih w₁ _ hsent₁)
    rintro r w₂ ⟨rfl, sent₂, hsent₂, hneed₂⟩
    refine ⟨rfl, sent₁ ++ sent₂, by rwa [← List.append_assoc], ?_⟩
    rintro ws ⟨j, hj, hneed⟩
    rcases List.mem_cons.1 hj with rfl | hj
    · exact List.mem_append_left _ (hneed₁ ws hneed)
    · exact List.mem_append_right _ (hneed₂ ws ⟨j, hj, hneed⟩)

/-- One socket. -/
theorem tells_sendJson (hjson : event.message.isJson = true) (ws : ℕ) :
    Tells broken p event w₀ (fun ws' => ws' = ws ∧ ws ∉ broken)
      ((sendJson ws event).tryCatch fun _ => pure ()) := by
  intro w sent hsent
  refine (Prog.wp_tryCatch _ _ _ _).2 ((wp_issue (Machine.trans_monotone _ _) _ _ _).2 ?_)
  intro x w' ha
  cases ha with
  | exec hx =>
    cases hx
    rw [if_pos hjson, if_pos hjson]
    refine ⟨rfl, [(ws, event)], ⟨?_, hsent.sockets⟩, ?_⟩
    · dsimp only
      rw [hsent.outbox, List.append_assoc]
    · rintro _ ⟨rfl, -⟩
      exact List.mem_singleton.2 rfl
  | fault hf =>
    obtain ⟨-, ws', hbroken, _, hc⟩ := hf
    cases hc
    refine ⟨rfl, [], by rwa [List.append_nil], ?_⟩
    rintro _ ⟨-, hhealthy⟩
    exact absurd hbroken hhealthy

/-- The sockets of one session. -/
theorem tells_session (hjson : event.message.isJson = true) (item : ℕ × ℕ) :
    Tells broken p event w₀ (fun ws => item.1 ∉ exclude ∧
        ws ∈ w₀.manager.socketsOf ch item.1 item.2 ∧ ws ∉ broken)
      (if item.1 ∈ exclude then pure () else do
        let sockets ← issue (.socketsOf ch item.1 item.2)
        sockets.forM fun ws => (sendJson ws event).tryCatch fun _ => pure ()) := by
  intro w sent hsent
  by_cases hexcluded : item.1 ∈ exclude
  · rw [if_pos hexcluded]
    refine ⟨rfl, [], by rwa [List.append_nil], ?_⟩
    rintro ws ⟨hincluded, -⟩
    exact absurd hexcluded hincluded
  · rw [if_neg hexcluded]
    refine (Prog.wp_bind _ _ _ _).2 ((wp_issue (Machine.trans_monotone _ _) _ _ _).2 ?_)
    intro x w' ha
    cases ha with
    | exec hx =>
      cases hx
      refine Prog.wp_mono (Machine.trans_monotone _ _) ?_
        (tells_forM (fun ws => tells_sendJson hjson ws) _ w sent hsent)
      rintro r w₁ ⟨rfl, sent₁, hsent₁, hneed⟩
      refine ⟨rfl, sent₁, hsent₁, fun ws hws => hneed ws ⟨ws, ?_, rfl, hws.2.2⟩⟩
      rw [hsent.sockets]
      exact hws.2.1
    | fault hf =>
      obtain ⟨hno, -⟩ := hf
      exact hno.elim

/-- An event that is JSON reaches everyone. -/
theorem delivers_of_isJson (hjson : event.message.isJson = true) :
    Delivers p ch event exclude w := by
  intro broken r w' hr
  refine ((flaky broken).wp_iff_runs p _ (fun r w' => r = .ok () ∧ ∃ sent,
    w'.outbox = w.outbox ++ sent ∧ ∀ sid ws, w.manager.Connected ch sid ws → sid ∉ exclude →
      ws ∉ broken → (ws, event) ∈ sent) w).1 ?_ r w' hr
  unfold broadcast
  refine (Prog.wp_bind _ _ _ _).2 ((wp_issue (Machine.trans_monotone _ _) _ _ _).2 ?_)
  intro x w₁ ha
  cases ha with
  | exec hx =>
    cases hx
    have hsent : Sent w { w with manager := (w.manager.items ch).2 } [] :=
      ⟨(List.append_nil _).symm, fun _ _ _ => socketsOf_items _ _ _ _ _⟩
    refine Prog.wp_mono (Machine.trans_monotone _ _) ?_
      (tells_forM (fun item => tells_session hjson item) _ _ [] hsent)
    rintro r w₂ ⟨rfl, sent, hsent, hneed⟩
    refine ⟨rfl, sent, hsent.outbox, fun sid ws hws hincluded hhealthy => ?_⟩
    obtain ⟨ident, hitem, hws⟩ := exists_item hws
    exact hneed ws ⟨(sid, ident), hitem, hincluded, hws, hhealthy⟩
  | fault hf =>
    obtain ⟨hno, -⟩ := hf
    exact hno.elim

end

/-! ## The events of a program -/

/-- A command that sends no other events than these. -/
def Sends (S : Event → Prop) : Cmd → Prop
  | .sendJson _ event => S event
  | _ => True

/-- Some session is not excluded. -/
theorem exists_not_mem (exclude : List ℕ) : ∃ sid, sid ∉ exclude := by
  suffices h : ∃ n, ∀ sid ∈ exclude, sid < n by
    obtain ⟨n, hn⟩ := h
    exact ⟨n, fun hmem => Nat.lt_irrefl n (hn n hmem)⟩
  induction exclude with
  | nil => exact ⟨0, fun sid hsid => by cases hsid⟩
  | cons sid exclude ih =>
    obtain ⟨n, hn⟩ := ih
    refine ⟨max (sid + 1) n, fun sid' hsid' => ?_⟩
    rcases List.mem_cons.1 hsid' with rfl | hmem
    · omega
    · have hlt := hn sid' hmem
      omega

/-- The events that a program broadcasts are among those that it sends. -/
theorem of_calls {α : Type} {S : Event → Prop} {prog : Op α} (h : prog.Only (Sends S))
    {ch : Channel} {event : Event} {exclude : List ℕ} (hc : Calls prog ch event exclude) :
    S event := by
  obtain ⟨k, hk⟩ := hc
  have honly : (broadcast ch event exclude).Only (Sends S) := (h.leads hk).of_andThen
  -- It goes on to send the event as soon as one session with one socket is listed.
  obtain ⟨sid, hsid⟩ := exists_not_mem exclude
  unfold broadcast at honly
  have hitem := (honly.of_perform_bind.2 [(sid, 0)]).of_bind
  dsimp only at hitem
  rw [if_neg hsid] at hitem
  have hsocket := (hitem.of_perform_bind.2 [0]).of_bind
  exact (only_issue _).1 hsocket.of_tryCatch

section

variable {env : Env}

/-- A program that may not send `ROOM_SETTINGS_CHANGED`. -/
theorem only_sends {K : List Kind} {α : Type} {prog : Op α} (h : prog.Only (Issued env K))
    (hK : Kind.tellSettings ∉ K) : prog.Only (Sends fun event => ¬event.ChangesSettings) := by
  refine h.mono fun c hc => ?_
  cases hc with
  | sendJson ws event hsettings => exact fun hchanges => hK (hsettings hchanges)
  | _ => trivial

/-! ### `PATCH /rooms/{room_token}` -/

/-- The program sends no event. -/
abbrev Silent {α : Type} (prog : Op α) : Prop := prog.Only (Sends fun _ => False)

/-- A `SELECT` sends nothing. -/
theorem silent_select (t : Table) (where_) : Silent (select t where_) := (only_issue _).2 trivial

/-- Reading the clock sends nothing. -/
theorem silent_utcnow : Silent utcnow := (only_issue _).2 trivial

/-- `has_expired` sends nothing. -/
theorem silent_hasExpired (t : Time) : Silent (hasExpired t) :=
  only_bind silent_utcnow fun _ => only_pure _

/-- `require_session` sends nothing. -/
theorem silent_requireSession (request : Request) : Silent (requireSession env request) := by
  unfold requireSession sessionRepository.getByTokenHash
  split
  · refine only_bind (only_bind silent_utcnow fun _ =>
      only_bind (silent_select _ _) fun _ => only_scalarOneOrNone _) fun session => ?_
    split
    · exact only_bind (silent_hasExpired _) fun _ => only_bind (only_require _ _) fun _ => only_pure _
    · exact only_raise _
  · exact only_raise _

/-- `get_room_by_token` sends nothing. -/
theorem silent_getRoomByToken (room_token : Token) : Silent (getRoomByToken env room_token) := by
  unfold getRoomByToken roomRepository.getRoomByAccessToken
  refine only_bind (only_bind (silent_select _ _) fun _ => only_scalarOneOrNone _) fun room => ?_
  split
  · exact only_pure _
  · exact only_raise _

/-- `require_room_owner` sends nothing. -/
theorem silent_requireRoomOwner (room_token : Token) (request : Request) :
    Silent (requireRoomOwner env room_token request) := by
  refine only_bind (silent_requireSession request) fun session => ?_
  refine only_bind (silent_getRoomByToken room_token) fun room => ?_
  exact only_bind (only_require _ _) fun _ => only_bind (only_require _ _) fun _ => only_pure _

/-- `validate_csrf` sends nothing. -/
theorem silent_validateCsrf (method : Method) (request : Request) :
    Silent (validateCsrf env method request) := by
  unfold validateCsrf
  split
  · exact only_pure _
  · split
    · exact only_bind (only_require _ _) fun _ => only_require _ _
    · exact only_raise _

/-- `patch_room` sends nothing: the route does. -/
theorem silent_patchRoom (room : Room) (body : roomService.RoomPatch) :
    Silent (roomService.patchRoom env room body) := by
  unfold roomService.patchRoom roomService.assertJoinable
  refine only_bind (only_bind (only_require _ _) fun _ => only_bind (only_require _ _) fun _ =>
    only_bind (silent_hasExpired _) fun _ => only_require _ _) fun _ => ?_
  split
  · exact only_pure _
  · refine only_bind (only_bind ((only_issue _).2 trivial) fun _ => ?_) fun _ => only_pure _
    exact only_bind (only_bind (silent_select _ _) fun _ => only_scalarOneOrNone _) fun _ =>
      only_pure _

/-- A `with` block sends what its body does. -/
theorem sends_withSession {S : Event → Prop} {α : Type} {body : Op α} (h : body.Only (Sends S)) :
    (withSession body).Only (Sends S) := by
  have hclose : closeDb.Only (Sends S) := (only_issue _).2 trivial
  refine only_bind (only_tryCatch h fun e => ?_) fun view => ?_
  · exact only_bind hclose fun _ => only_raise _
  · exact only_bind hclose fun _ => only_pure _

/-- A settings change sends `ROOM_SETTINGS_CHANGED`, and nothing else. -/
theorem settings_patchRoom (room_token : Token) (body : roomService.RoomPatch) (request : Request) :
    (rooms.patchRoom env room_token body request).Only (Sends Event.ChangesSettings) := by
  have hsilent : ∀ {α : Type} {prog : Op α}, Silent prog →
      prog.Only (Sends Event.ChangesSettings) := by
    refine fun h => h.mono fun c hc => ?_
    cases c with
    | sendJson ws event => exact hc.elim
    | _ => trivial
  refine sends_withSession ?_
  refine only_bind (hsilent (silent_requireRoomOwner room_token request)) fun auth => ?_
  refine only_bind (hsilent (silent_validateCsrf .patch request)) fun _ => ?_
  refine only_bind (hsilent (silent_patchRoom auth.2 body)) fun updated => ?_
  refine only_bind ((only_issue _).2 trivial) fun _ => only_bind ?_ fun _ => only_pure _
  refine only_bind ((only_issue _).2 trivial) fun items => only_forM (fun item => ?_) items
  split
  · exact only_pure _
  · refine only_bind ((only_issue _).2 trivial) fun sockets => only_forM (fun ws => ?_) sockets
    exact only_tryCatch ((only_issue _).2 trivial) fun _ => only_pure _

end

end audience

/-- The task changes the settings of a room. -/
def Task.ChangesSettings : Task → Prop
  | .request (.patchRoom _ _) _ => True
  | _ => False

open audience

/-- In every task, whatever its commands are answered, an event that is broadcast is JSON, and so
reaches every socket of the channel that works and is not excluded, if and only if the task is not a
change of settings. -/
theorem broadcast_reaches_audience {env : Env} (task : Task) {ch : Channel} {event : Event}
    {exclude : List ℕ} (h : Calls (task.program env) ch event exclude) (p : ℕ) (w : World) :
    (event.message.isJson = true ∧ Delivers p ch event exclude w) ↔ ¬task.ChangesSettings := by
  constructor
  · rintro ⟨hjson, -⟩ hpatch
    cases task with
    | request route request =>
      cases route with
      | patchRoom room_token body =>
        have hchanges : event.ChangesSettings :=
          of_calls (only_discard (settings_patchRoom room_token body request)) h
        exact (event.isJson_message_iff.1 hjson) hchanges
      | _ => exact hpatch
    | _ => exact hpatch
  · intro hpatch
    have hkinds : Kind.tellSettings ∉ task.kinds := by
      cases task with
      | request route request =>
        cases route with
        | patchRoom room_token body => exact absurd trivial hpatch
        | _ =>
          simp [Task.kinds, Route.kinds, cleanupKinds, contentKinds, uploadKinds, deleteFileKinds,
            completeKinds]
      | socket ws handshake frames =>
        change Kind.tellSettings ∉ websocket.kinds
        decide
      | worker jobs =>
        change Kind.tellSettings ∉ workerKinds
        decide
      | scan => decide
      | idle => decide
    have hjson := event.isJson_message_iff.2 (of_calls (only_sends task.only_program hkinds) h)
    exact ⟨hjson, delivers_of_isJson hjson⟩

namespace audience

/-- A broadcast in the course of the first part of a program. -/
theorem Calls.andThen {α β : Type} {prog : Op α} {ch : Channel} {event : Event} {exclude : List ℕ}
    (h : Calls prog ch event exclude) (f : Except Err α → Op β) :
    Calls (prog.andThen f) ch event exclude := by
  obtain ⟨k, hk⟩ := h
  refine ⟨fun x => (k x).andThen f, ?_⟩
  rw [← andThen_andThen]
  exact hk.andThen f

/-- A broadcast before the rest of a program. -/
theorem Calls.bind {α β : Type} {prog : Op α} {ch : Channel} {event : Event} {exclude : List ℕ}
    (h : Calls prog ch event exclude) (f : α → Op β) : Calls (prog >>= f) ch event exclude := by
  rw [bind_eq_andThen]
  exact h.andThen _

/-- A broadcast under a handler. -/
theorem Calls.tryCatch {α : Type} {prog : Op α} {ch : Channel} {event : Event} {exclude : List ℕ}
    (h : Calls prog ch event exclude) (f : Err → Op α) :
    Calls (prog.tryCatch f) ch event exclude := by
  rw [tryCatch_eq_andThen]
  exact h.andThen _

/-- A broadcast calls itself. -/
theorem calls_broadcast (ch : Channel) (event : Event) (exclude : List ℕ) :
    Calls (broadcast ch event exclude) ch event exclude := by
  have hself : broadcast ch event exclude >>= .ret = broadcast ch event exclude := bind_ret _
  rw [bind_eq_andThen] at hself
  obtain ⟨k, hk⟩ : ∃ k, (broadcast ch event exclude).andThen k = broadcast ch event exclude :=
    ⟨_, hself⟩
  exact ⟨k, by rw [hk]; exact .refl _⟩

/-- A worker that takes a `SEND_ROOM_EXPIRATION_EVENT` off the queue broadcasts it. -/
theorem calls_worker (room_id : ℕ) :
    Calls (Task.program .plain (.worker 1)) (.room room_id) .roomExpired [] := by
  have hhandler := calls_broadcast (.room room_id) .roomExpired []
  obtain ⟨k, hk⟩ := (hhandler.tryCatch fun _ => jobQueue.runWithRetries
    (Job.handler (.sendRoomExpirationEvent (some room_id))) 2).bind fun _ => jobQueue.worker .plain 0
  exact ⟨k, .call (.ok (.sendRoomExpirationEvent (some room_id))) hk⟩

/-- A room with a guest whose socket is connected. -/
def watched : World :=
  { guests.shared .plain with manager := World.initial.manager.add (.room 0) 1 9 }

end audience

/-- The event that a room has expired reaches everyone. -/
theorem broadcast_reaches_audience_expired : Event.roomExpired.message.isJson = true ∧
    Delivers 0 (.room 0) .roomExpired [] watched :=
  (broadcast_reaches_audience (.worker 1) (calls_worker 0) 0 watched).2 id

/-- The owner changes the settings of the room while nothing fails, and the guest is told nothing. -/
theorem settings_reach_nobody : ∃ view w',
    calm.Runs 0 (rooms.patchRoom .plain "a" ⟨none, some false, none, none⟩ .owner) watched
      (.ok view) w' ∧
    watched.manager.Connected (.room 0) 1 9 ∧ w'.outbox = [] ∧
    (Event.roomSettingsChanged view).message.isJson = false := by
  obtain ⟨view, hview, hr⟩ := calm.exists_runs_ok 0
    (rooms.patchRoom .plain "a" ⟨none, some false, none, none⟩ .owner) watched
    (fun view => (Event.roomSettingsChanged view).message.isJson) (b := false) (by decide +kernel)
  exact ⟨view, _, hr, ⟨_, ⟨0, [9]⟩, rfl, rfl, by decide⟩, by decide +kernel, hview⟩

end DropRoom
