import DropRoom.App.Checks

/-!
# Frames that end a session

`room_ws` skips what is not an object with a type and answers a type that it does not know. But
`_handle_message` takes the payload of a chat message for a `dict` and its `messageId` for a number, and
catches only a `DropRoomError`: any other exception ends the loop (`frame_survives_iff`), and with it
the session.
-/

namespace DropRoom

open Effect Store Prog

namespace malformed

/-- `data.get("payload") or {}`. -/
def payloadOf (fields : List (String × Json)) : Json :=
  let payload := (Json.member fields "payload").getD .null
  if payload.falsy then .obj [] else payload

/-- What `payload.get(key, default)` answers of a `dict`. -/
def got (payload : Json) (key : String) (default : Json) : Option Json :=
  match payload with
  | .obj fields => some ((Json.member fields key).getD default)
  | _ => none

/-- The limiter admits a chat message of the session. -/
def Admitted (env : Env) (σ : Serial) (session : SessionRecord) (room : Room) : Prop :=
  σ.Admits env s!"chat:{room.id}" s!"s{session.id}" env.chat_limit

/-- The frames that `_handle_message` does not survive. -/
inductive Breaks (env : Env) (σ : Serial) (session : SessionRecord) (room : Room) : Json → Prop
  /-- A chat message that the limiter admits, whose payload is not a `dict`. -/
  | send {fields : List (String × Json)} (htype : Json.member fields "type" = some (.str "CHAT_SEND"))
    (hadmits : Admitted env σ session room)
    (hpayload : got (payloadOf fields) "body" (.str "") = none) :
    Breaks env σ session room (.obj fields)
  /-- A deletion whose payload is not a `dict`, or whose `messageId` is not a number to `int`. -/
  | delete {fields : List (String × Json)}
    (htype : Json.member fields "type" = some (.str "CHAT_DELETE"))
    (hid : (got (payloadOf fields) "messageId" (.int 0)).bind env.intOf = none) :
    Breaks env σ session room (.obj fields)

section

variable {env : Env} {σ : Serial} {ws : ℕ} {channel : Channel} {session : SessionRecord} {room : Room}
  {payload : Json} {α : Type}

/-- The limiter refuses a request. -/
theorem after_limiter_of_not {scope key : String} {limit : ℕ} (h : ¬σ.Admits env scope key limit)
    {Q : Except Err Unit → Serial → Prop} (hQ : ∀ σ', σ.Quiet σ' →
      Q (.error (error .rateLimited "Too many requests; try again shortly")) σ') :
    After (limiterCheck env scope key limit) Q σ := by
  unfold limiterCheck
  obtain ⟨hon, hno⟩ := Classical.not_imp.1 h
  rw [if_pos hon]
  refine (After.bind_iff _ _ _).2 ((After.issue_iff _ _).2 fun x σ' hx => ?_)
  obtain ⟨y, hy⟩ : ∃ y, σ.rest.buckets.check scope key limit
      (seconds env.rate_limit_window_seconds) σ.rest.monotonic = y := ⟨_, rfl⟩
  rw [hy] at hno
  rw [Serial.exec_of_ne_sql (by rintro q ⟨⟩), exec_checkRate hy] at hx
  cases hx
  exact (After.require_iff _ _ _).2 ⟨fun hyes => absurd hyes hno, fun _ => hQ _ ⟨_, _, _, rfl⟩⟩

/-- `_send_error` never fails. -/
theorem after_sendError {code detail : String} {Q : Except Err Unit → Serial → Prop}
    (hQ : ∀ σ', Q (.ok ()) σ') : After (websocket.sendError ws code detail) Q σ := by
  refine (After.tryCatch_iff _ _).2 ((After.issue_iff _ _).2 fun x σ' _ => ?_)
  cases x with
  | ok u => exact hQ σ'
  | error e => exact hQ σ'

/-- What is left of the exceptions of a program when those of the application are sent. -/
theorem after_orSendError {body : Op α} {Q : Except Err (Option α) → Serial → Prop}
    (h : After body (fun r σ' => match r with
      | .ok a => Q (.ok (some a)) σ'
      | .error (.dropRoom _ _) => ∀ σ'', Q (.ok none) σ''
      | .error e => Q (.error e) σ') σ) : After (websocket.orSendError ws body) Q σ := by
  unfold websocket.orSendError
  refine (After.tryCatch_iff _ _).2 ((After.map_iff _ _ _).2 (h.mono ?_))
  rintro (e | a) σ' h
  · cases e with
    | dropRoom cls detail =>
      exact (After.bind_iff _ _ _).2 (after_sendError fun σ'' => h σ'')
    | _ => exact h
  · exact h

/-- `payload.get`. -/
theorem after_payloadGet {key : String} {default : Json} {Q : Except Err Json → Serial → Prop} :
    After (websocket.payloadGet payload key default) Q σ ↔ Q (match got payload key default with
      | some value => .ok value
      | none => .error .exception) σ := by
  cases payload <;> exact Iff.rfl

/-- Whether a chat message is admitted. -/
theorem after_chatAllowed {Q : Except Err Bool → Serial → Prop}
    (hok : Admitted env σ session room → ∀ σ', Q (.ok true) σ')
    (hno : ¬Admitted env σ session room → ∀ σ', Q (.ok false) σ') :
    After (websocket.chatAllowed env ws session room) Q σ := by
  unfold websocket.chatAllowed
  refine (After.tryCatch_iff _ _).2 ((After.bind_iff _ _ _).2 ?_)
  by_cases hadmits : σ.Admits env s!"chat:{room.id}" s!"s{session.id}" env.chat_limit
  · exact After.limiter_of_admits hadmits fun σ' _ => hok hadmits σ'
  · refine after_limiter_of_not hadmits fun σ' _ => ?_
    exact (After.bind_iff _ _ _).2 (after_sendError fun σ'' => hno hadmits σ'')

/-- `validate_body` answers a text or raises a `DropRoomError`. -/
theorem after_validateBody {body : String} {Q : Except Err String → Serial → Prop}
    (hok : ∀ clean, Q (.ok clean) σ) (herr : ∀ cls detail, Q (.error (error cls detail)) σ) :
    After (messageService.validateBody env body) Q σ := by
  unfold messageService.validateBody
  rw [After.require_bind_iff]
  refine ⟨fun _ => ?_, fun _ => herr _ _⟩
  rw [After.require_bind_iff]
  exact ⟨fun _ => hok _, fun _ => herr _ _⟩

/-- `send_message`. -/
theorem after_sendMessage {body : String} {Q : Except Err Message → Serial → Prop}
    (hok : ∀ msg σ', Q (.ok msg) σ') (herr : ∀ cls detail, Q (.error (error cls detail)) σ) :
    After (messageService.sendMessage env room session body) Q σ := by
  unfold messageService.sendMessage messageRepository.createMessage
  rw [After.bind_iff]
  apply after_validateBody
  · intro clean
    refine (After.bind_iff _ _ _).2 ((After.utcnow_iff _).2 ?_)
    exact (After.bind_iff _ _ _).2 ((After.insert_iff _ _ _).2 ((After.pure_iff _).2 (hok _ _)))
  · exact herr

/-- Storing a message answers it or raises a `DropRoomError`, if the payload is a `dict`. -/
theorem after_chatStore {Q : Except Err Message → Serial → Prop}
    (hok : got payload "body" (.str "") ≠ none → ∀ msg σ', Q (.ok msg) σ')
    (herr : got payload "body" (.str "") ≠ none → ∀ cls detail, Q (.error (error cls detail)) σ)
    (hraise : got payload "body" (.str "") = none → Q (.error .exception) σ) :
    After (websocket.chatStore env session room payload) Q σ := by
  unfold websocket.chatStore
  rw [After.bind_iff, after_payloadGet]
  cases hgot : got payload "body" (.str "") with
  | none => exact hraise hgot
  | some body =>
    have hsome : got payload "body" (.str "") ≠ none := by
      rw [hgot]
      exact Option.some_ne_none _
    dsimp only
    rw [After.bind_iff]
    apply after_sendMessage
    · intro msg σ'
      refine (After.bind_iff _ _ _).2 ((After.commit_iff _).2 ?_)
      refine (After.bind_iff _ _ _).2 ((After.insert_iff _ _ _).2 ?_)
      refine (After.bind_iff _ _ _).2 ((After.commit_iff _).2 ((After.pure_iff _).2 ?_))
      exact hok hsome _ _
    · exact herr hsome

/-- `CHAT_SEND` raises at a payload that is not a `dict`, when it is admitted. -/
theorem after_chatSend {Q : Except Err Unit → Serial → Prop}
    (hok : ¬(Admitted env σ session room ∧ got payload "body" (.str "") = none) →
      ∀ σ', Q (.ok ()) σ')
    (hraise : Admitted env σ session room → got payload "body" (.str "") = none →
      ∀ σ', Q (.error .exception) σ') :
    After (websocket.chatSend env ws channel session room payload) Q σ := by
  unfold websocket.chatSend
  rw [After.bind_iff]
  apply after_chatAllowed
  · intro hadmits σ'
    dsimp only
    rw [if_pos rfl, After.bind_iff]
    apply after_orSendError
    apply after_chatStore
    · intro hgot msg σ''
      exact After.broadcast fun σ₁ _ => hok (fun h => hgot h.2) σ₁
    · intro hgot cls detail σ''
      exact hok (fun h => hgot h.2) σ''
    · intro hgot
      exact hraise hadmits hgot σ'
  · intro hno σ'
    exact hok (fun h => hno h.1) σ'

/-- Deleting a message raises where its payload is not a `dict` or the number not one. -/
theorem after_chatDelete {Q : Except Err Unit → Serial → Prop}
    (hok : (got payload "messageId" (.int 0)).bind env.intOf ≠ none → ∀ σ', Q (.ok ()) σ')
    (hraise : (got payload "messageId" (.int 0)).bind env.intOf = none →
      Q (.error .exception) σ) :
    After (websocket.chatDelete env ws channel session room payload) Q σ := by
  unfold websocket.chatDelete
  rw [After.bind_iff]
  apply after_orSendError
  rw [After.bind_iff, after_payloadGet]
  cases hgot : got payload "messageId" (.int 0) with
  | none => exact hraise (by rw [hgot]; rfl)
  | some value =>
    rw [hgot, Option.bind_some] at hok hraise
    dsimp only
    cases hid : env.intOf value with
    | none => exact hraise hid
    | some message_id =>
      have hsome : env.intOf value ≠ none := by
        rw [hid]
        exact Option.some_ne_none _
      unfold messageService.deleteMessage messageRepository.deleteMessage
      dsimp only
      rw [After.bind_iff, After.require_bind_iff]
      refine ⟨fun _ => ?_, fun _ => fun σ' => hok hsome σ'⟩
      refine (After.bind_iff _ _ _).2 ((After.deleteWhere_iff _ _ _).2 ((After.pure_iff _).2 ?_))
      refine (After.bind_iff _ _ _).2 ((After.commit_iff _).2 ((After.pure_iff _).2 ?_))
      dsimp only
      split
      · exact After.broadcast fun σ₁ _ => hok hsome σ₁
      · exact hok hsome _

/-- `_handle_message` raises exactly at the frames that break it. -/
theorem after_handleMessage {fields : List (String × Json)} {type : Json}
    (htype : Json.member fields "type" = some type) :
    After (websocket.handleMessage env ws channel session room type
      ((Json.member fields "payload").getD .null))
      (fun r _ => r = .ok () ↔ ¬Breaks env σ session room (.obj fields)) σ := by
  -- Only the two kinds of chat message can break the session.
  have hother : type ≠ .str "CHAT_SEND" → type ≠ .str "CHAT_DELETE" →
      ¬Breaks env σ session room (.obj fields) := by
    rintro hsend hdelete (⟨h, -, -⟩ | ⟨h, -⟩)
    · exact hsend (Option.some.inj (htype.symm.trans h))
    · exact hdelete (Option.some.inj (htype.symm.trans h))
  have hsurvives : type ≠ .str "CHAT_SEND" → type ≠ .str "CHAT_DELETE" →
      ((.ok () : Except Err Unit) = .ok () ↔ ¬Breaks env σ session room (.obj fields)) :=
    fun hsend hdelete => iff_of_true rfl (hother hsend hdelete)
  unfold websocket.handleMessage
  dsimp only
  split
  · -- `PONG` is JSON, so it is sent.
    refine (After.issue_iff _ _).2 fun x σ' hx => ?_
    cases hx
    exact hsurvives (by simp) (by simp)
  · apply after_chatSend
    · intro hno σ'
      refine iff_of_true rfl ?_
      rintro (⟨-, hadmits, hgot⟩ | ⟨h, -⟩)
      · exact hno ⟨hadmits, hgot⟩
      · exact absurd (htype.symm.trans h) (by simp)
    · intro hadmits hgot σ'
      exact iff_of_false (by rintro ⟨⟩) fun h => h (.send htype hadmits hgot)
  · apply after_chatDelete
    · intro hid σ'
      refine iff_of_true rfl ?_
      rintro (⟨h, -, -⟩ | ⟨-, hnone⟩)
      · exact absurd (htype.symm.trans h) (by simp)
      · exact hid hnone
    · intro hid
      exact iff_of_false (by rintro ⟨⟩) fun h => h (.delete htype hid)
  -- Another type is answered with an error message, and so is a type that is no text.
  · next hping hsend hdelete =>
    refine after_sendError fun σ' => hsurvives ?_ ?_
    · exact fun h => hsend (Json.str.inj h)
    · exact fun h => hdelete (Json.str.inj h)
  · next hstr => exact after_sendError fun σ' => hsurvives (hstr _) (hstr _)

/-- What is done with a value that was received. -/
theorem after_received {data : Json} :
    After (match data with
      | .obj fields => match Json.member fields "type" with
        | some type => websocket.handleMessage env ws channel session room type
          ((Json.member fields "payload").getD .null)
        | none => pure ()
      | _ => pure ())
      (fun r _ => r = .ok () ↔ ¬Breaks env σ session room data) σ := by
  cases data with
  | obj fields =>
    dsimp only
    cases htype : Json.member fields "type" with
    | some type => exact after_handleMessage htype
    | none =>
      refine iff_of_true rfl ?_
      rintro (⟨h, -, -⟩ | ⟨h, -⟩)
      · cases htype.symm.trans h
      · cases htype.symm.trans h
  | _ => exact iff_of_true rfl (by rintro ⟨⟩)

/-- One turn of the loop. -/
theorem after_receive {frame : Frame} :
    After (websocket.receive env ws channel session room frame)
      (fun r _ => r = .ok () ↔ ∃ data, frame = .json data ∧ data.loads env.json_depth = true ∧
        ¬Breaks env σ session room data) σ := by
  unfold websocket.receive
  cases frame with
  | malformed => exact iff_of_false (by rintro ⟨⟩) (by rintro ⟨data, h, -⟩; cases h)
  | json data =>
    rw [After.bind_iff]
    unfold websocket.receiveJson
    rw [After.require_bind_iff]
    refine ⟨fun hloads => ?_, fun hloads => ?_⟩
    · refine (After.pure_iff _).2 (after_received.mono fun r σ' h => h.trans ?_)
      refine ⟨fun hbreaks => ⟨data, rfl, hloads, hbreaks⟩, ?_⟩
      rintro ⟨data', hdata, -, hbreaks⟩
      cases hdata
      exact hbreaks
    · refine iff_of_false (by rintro ⟨⟩) ?_
      rintro ⟨data', hdata, hloads', -⟩
      cases hdata
      exact hloads hloads'

end

end malformed

open malformed

namespace malformed

/-- A member, and its room. -/
def member : SessionRecord := { SessionRow.owner with id := 0 }

/-- The room of the socket. -/
def room : Room := { RoomRow.plain with id := 0 }

end malformed

end DropRoom
