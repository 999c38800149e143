import DropRoom.Client.Page

/-!
# Undoing a change of the permissions

`updatePermissions` shows the change before the server has answered, and on an error puts back the
whole `room` object that it has read at its start. What the messages in between have made of that object
is lost: the members and the files of the state have changed, and their numbers have not.
-/

namespace DropRoom.Frontend

open RoomClient

/-- The states differ in their `room` at most. -/
def RoomState.SameOutside (s s' : RoomState) : Prop := s' = { s with room := s'.room }

/-- Both pages are without a state, or their states differ in their `room` at most. -/
def RoomClient.SameOutside (c c' : RoomClient) : Prop :=
  Option.Rel RoomState.SameOutside c.state c'.state

namespace RoomClient.SameOutside

variable {c c' : RoomClient}

/-- An updater that does not look at the `room` keeps the difference inside it. -/
theorem setState (h : SameOutside c c') {update : RoomState → RoomState}
    (hupdate : ∀ s s', s.SameOutside s' → (update s).SameOutside (update s')) :
    SameOutside (c.setState update) (c'.setState update) := by
  unfold SameOutside at h ⊢
  unfold RoomClient.setState
  dsimp only
  generalize c.state = prev, c'.state = prev' at h
  cases h with
  | some hs => exact .some (hupdate _ _ hs)
  | none => exact .none

/-- No message makes a difference outside the `room` of one in it. -/
theorem handleWsEvent (h : SameOutside c c') (e : WsEvent) :
    SameOutside (c.handleWsEvent e) (c'.handleWsEvent e) := by
  cases e with
  | roomState payload => exact .some rfl
  | roomExpiring | roomExpired | fileUploadProgress | error | pong => exact h
  -- what an updater makes of the members, the files and the messages depends on these alone
  | userJoined sessionId displayName role =>
    refine setState h fun s s' hs => ?_
    rw [hs]
    dsimp only
    split
    · rfl
    · rfl
  | chatMessageSent message =>
    refine setState h fun s s' hs => ?_
    rw [hs]
    dsimp only
    split
    · rfl
    · rfl
  | fileUploadCompleted f =>
    have h' : SameOutside
        { c with uploadProgress := c.uploadProgress.filter (·.filename != f.originalFilename) }
        { c' with uploadProgress := c'.uploadProgress.filter (·.filename != f.originalFilename) } := h
    exact h'.setState fun s s' hs => by rw [hs]; rfl
  | roomSettingsChanged r =>
    have h' : SameOutside { c with view := c.view.map (RoomView.spread · r) }
        { c' with view := c'.view.map (RoomView.spread · r) } := h
    exact h'.setState fun s s' hs => by rw [hs]; rfl
  | userLeft | fileDeleted | fileDownloaded | chatMessageDeleted =>
    exact setState h fun s s' hs => by rw [hs]; rfl

/-- Nor do many. -/
theorem handleWsEvents (h : SameOutside c c') (events : List WsEvent) :
    SameOutside (c.handleWsEvents events) (c'.handleWsEvents events) := by
  induction events generalizing c c' with
  | nil => exact h
  | cons e events ih => exact ih (h.handleWsEvent e)

end RoomClient.SameOutside

namespace RoomClient

variable {c c' : RoomClient}

/-- What a message makes of the state depends on the state alone. -/
theorem state_handleWsEvent (h : c.state = c'.state) (e : WsEvent) :
    (c.handleWsEvent e).state = (c'.handleWsEvent e).state := by
  cases e with
  | roomState payload => rfl
  | roomExpiring | roomExpired | fileUploadProgress | error | pong => exact h
  | _ => exact congrArg (Option.map _) h

/-- What a list of events makes of the state depends on the state only. -/
theorem state_handleWsEvents (h : c.state = c'.state) (events : List WsEvent) :
    (c.handleWsEvents events).state = (c'.handleWsEvents events).state := by
  induction events generalizing c c' with
  | nil => exact h
  | cons e events ih => exact ih (state_handleWsEvent h e)

/-- A page that has a state keeps one. -/
theorem exists_state_handleWsEvents {s : RoomState} (h : c.state = some s) (events : List WsEvent) :
    ∃ s', (c.handleWsEvents events).state = some s' := by
  induction events generalizing c s with
  | nil => exact ⟨s, h⟩
  | cons e events ih =>
    have hnext : ∃ s', (c.handleWsEvent e).state = some s' := by
      cases e with
      | roomState payload => exact ⟨payload, rfl⟩
      | roomExpiring | roomExpired | fileUploadProgress | error | pong => exact ⟨s, h⟩
      | _ => exact ⟨_, congrArg (Option.map _) h⟩
    obtain ⟨s', hs'⟩ := hnext
    exact ih hs'

end RoomClient

/-- For every page, all messages that arrive during the request and every error of it: the state is
then what the messages alone make of it exactly when there was no state at the start, or the messages
leave its `room` as it was. -/
theorem permissions_undone_iff (c : RoomClient) (guestUploadEnabled guestDownloadEnabled : Bool)
    (events : List WsEvent) (message : Option String) :
    (c.updatePermissions guestUploadEnabled guestDownloadEnabled events (.error message)).state =
        (c.handleWsEvents events).state ↔
      c.state = none ∨ (c.handleWsEvents events).state.map (·.room) = c.state.map (·.room) := by
  unfold updatePermissions
  dsimp only
  generalize hsent : RoomClient.setState { c with actionError := none, updatingPermissions := true }
    (fun current =>
      { current with room := { current.room with guestUploadEnabled, guestDownloadEnabled } }) = sent
  obtain hc | ⟨s, hc⟩ := Option.eq_none_or_eq_some c.state
  -- There is no state to set, and none to set back.
  · have hstate : sent.state = c.state := by
      rw [← hsent, RoomClient.setState]
      dsimp only
      rw [hc, Option.map_none]
    rw [hc, Option.map_none]
    exact iff_of_true (state_handleWsEvents hstate events) (.inl rfl)
  -- What was sent differs in the two switches only, and no message widens that.
  · have hstart : SameOutside c sent := by
      rw [← hsent]
      unfold SameOutside RoomClient.setState
      rw [hc]
      exact .some rfl
    have hend := hstart.handleWsEvents events
    obtain ⟨final, hfinal⟩ := exists_state_handleWsEvents hc events
    unfold SameOutside at hend
    rw [hfinal] at hend
    rw [hc, hfinal, Option.map_some]
    unfold RoomClient.setState
    dsimp only
    generalize (sent.handleWsEvents events).state = shown at hend
    cases hend with
    | @some _ final' houtside =>
      rw [houtside, Option.map_some, Option.map_some, or_iff_right (Option.some_ne_none s)]
      dsimp only
      constructor
      · intro h
        exact congrArg (Option.map (·.room)) h.symm
      · intro h
        rw [← Option.some.inj h]

/-- The page of an owner who is alone in a room without files. -/
def RoomClient.alone : RoomClient where
  phase := .room
  view := none
  actionError := none
  state := some
    { room :=
        { roomCode := "C", name := none, guestUploadEnabled := false, guestDownloadEnabled := true,
          userCount := 1, maxUsers := 10, storageUsedBytes := 0, fileCount := 0,
          expiresAt := "2030-01-01T00:00:00Z", remainingSeconds := 3600 }
      role := "OWNER"
      me := ("1", none)
      members := [⟨"1", none, "OWNER"⟩]
      files := []
      messages := [] }
  secondsLeft := 3600
  secondsRef := 3600
  uploadProgress := none
  updatingPermissions := false

/-- A guest joins while the request is under way, and the request fails: the page goes back to one user
with two members in the list. -/
theorem permissions_undo_loses_join :
    ∃ events : List WsEvent, (∀ e ∈ events, ∀ r, e ≠ .roomSettingsChanged r) ∧
      (RoomClient.alone.updatePermissions true true events (.error none)).state ≠
        (RoomClient.alone.handleWsEvents events).state ∧
      ((RoomClient.alone.updatePermissions true true events (.error none)).state.map fun s =>
        (s.room.userCount, s.members.length)) = some (1, 2) := by
  refine ⟨[.userJoined "2" none "GUEST"], ?_, by decide, by decide⟩
  intro e he r
  obtain rfl := List.mem_singleton.1 he
  exact fun h => by cases h

end DropRoom.Frontend
