import DropRoom.Rooms.Registry

/-!
# A broadcast among connects and disconnects

`broadcast` notes the sessions of its room, with their set objects, when it is called, and the sockets
of a session when it comes to it. In between sockets come and go. A session that keeps a socket keeps
its set object, so a socket that is there all the time is found; and as a socket belongs to one session
and a session is noted once, it is found once.
-/

namespace DropRoom

open Effect Store Prog

namespace delivery

open registry

/-- What a process that broadcasts is doing: it has noted the sessions, those that are left and not
excluded are `todo`, the sockets left of the present one are `now`, and `sent` are those that the event
was sent to, whether the send failed or not. -/
structure Tally where
  telling : Bool
  begun : Bool
  todo : List (ℕ × ℕ)
  now : List ℕ
  sent : List ℕ

/-- Every socket that is connected belongs to one session of one room. -/
def Owned (owner : ℕ → Channel × ℕ) : Cmd → Prop
  | .register ch sid ws => owner ws = (ch, sid)
  | _ => True

/-- The next command of a broadcast. -/
inductive Broadcasts (ch : Channel) (event : Event) (l : Tally) : Cmd → Prop
  | items (hbegun : l.begun = false) : Broadcasts ch event l (.items ch)
  | session {sid ident todo} (hbegun : l.begun = true) (hnow : l.now = [])
      (htodo : l.todo = (sid, ident) :: todo) : Broadcasts ch event l (.socketsOf ch sid ident)
  | send {ws now} (hbegun : l.begun = true) (hnow : l.now = ws :: now) :
      Broadcasts ch event l (.sendJson ws event)

/-- What a process has done after a command. Where a look-up raised, the broadcast would be over. -/
def Tally.next (exclude : List ℕ) (l : Tally) : (c : Cmd) → Except Err (Resp c) → Tally
  | .items _, .ok items =>
    { l with begun := true, todo := items.filter fun item => item.1 ∉ exclude }
  | .items _, .error _ => { l with telling := false }
  | .socketsOf .., .ok sockets => { l with todo := l.todo.tail, now := sockets }
  | .socketsOf .., .error _ => { l with telling := false }
  | .sendJson ws _, _ => { l with now := l.now.tail, sent := l.sent ++ [ws] }
  | _, _ => l

/-- One process broadcasts, and the others do anything with the sockets of each session. -/
def tally (owner : ℕ → Channel × ℕ) (ch : Channel) (event : Event) (exclude : List ℕ) :
    Monitor Cmd Resp Err Tally where
  allowed l c := if l.telling then Broadcasts ch event l c else Owned owner c
  next := Tally.next exclude

/-- The start: the process 0 is the one that broadcasts. -/
def start (w : World) (proc : ℕ → Op Unit) : Conf Cmd Resp Err Unit World Tally where
  world := w
  phase p := ⟨p == 0, false, [], [], []⟩
  proc := proc

/-- The socket is connected when the broadcast is called, and at every later command. -/
def Stays (ch : Channel) (sid ws : ℕ) : Guard Cmd World Tally :=
  fun p _ w φ => p = 0 ∨ (φ 0).begun = true → w.manager.Connected ch sid ws

/-- The look-up that decides whether a socket is connected. -/
theorem any_iff_connected {m : ConnectionManager} {ch : Channel} {sid ws : ℕ} :
    ((m.rooms.lookup ch).bind (AList.lookup sid)).any (fun set => set.members.contains ws) = true ↔
      m.Connected ch sid ws := by
  rw [Option.any_eq_true]
  constructor
  · rintro ⟨set, hset, hws⟩
    obtain ⟨s, hch, hsid⟩ := Option.bind_eq_some_iff.1 hset
    exact ⟨s, set, hch, hsid, List.contains_iff_mem.1 hws⟩
  · rintro ⟨s, set, hch, hsid, hws⟩
    exact ⟨set, Option.bind_eq_some_iff.2 ⟨s, hch, hsid⟩, List.contains_iff_mem.2 hws⟩

/-- Whether a socket is connected is decided. -/
instance (m : ConnectionManager) (ch : Channel) (sid ws : ℕ) :
    Decidable (m.Connected ch sid ws) :=
  decidable_of_iff _ any_iff_connected

/-- Whether a socket stays connected is decided. -/
instance (ch : Channel) (sid ws p : ℕ) (c : Cmd) (w : World) (φ : ℕ → Tally) :
    Decidable (Stays ch sid ws p c w φ) :=
  inferInstanceAs (Decidable (_ → _))

/-! ## The sets of the sessions -/

/-- A socket is in the set of the session that it belongs to, once. -/
def Sound (owner : ℕ → Channel × ℕ) (m : ConnectionManager) : Prop :=
  ∀ ch sid set, (sessions m ch).lookup sid = some set →
    set.members.Nodup ∧ ∀ ws ∈ set.members, owner ws = (ch, sid)

/-- A connected socket is in the set of its session. -/
theorem connected_iff {m : ConnectionManager} {ch : Channel} {sid ws : ℕ} :
    m.Connected ch sid ws ↔ ∃ set, (sessions m ch).lookup sid = some set ∧ ws ∈ set.members := by
  unfold ConnectionManager.Connected sessions
  cases m.rooms.lookup ch with
  | some s => simp
  | none => simp

/-- The sockets of a session, if its set is still the same one. -/
theorem socketsOf_eq (m : ConnectionManager) (ch : Channel) (sid ident : ℕ) :
    m.socketsOf ch sid ident = match (sessions m ch).lookup sid with
      | some set => if set.ident = ident then set.members else []
      | none => [] := by
  unfold ConnectionManager.socketsOf sessions
  cases m.rooms.lookup ch <;> rfl

section

variable {owner : ℕ → Channel × ℕ} {m : ConnectionManager} {ch ch' : Channel} {sid sid' ws : ℕ}
  {set set' : SocketSet}

/-- A session that keeps a socket keeps its set object when another socket is connected. -/
theorem ident_add (h : (sessions m ch).lookup sid = some set)
    (h' : (sessions (m.add ch' sid' ws) ch).lookup sid = some set') : set'.ident = set.ident := by
  obtain ⟨n, hadd⟩ := @add_eq m ch' sid' ws
  rw [hadd, sessions_insert] at h'
  by_cases hch : ch = ch'
  · subst hch
    rw [if_pos rfl] at h'
    by_cases hsid : sid = sid'
    · subst hsid
      rw [AList.lookup_insert, joined, h] at h'
      cases h'
      rfl
    · rw [AList.lookup_insert_ne hsid, h] at h'
      cases h'
      rfl
  · rw [if_neg hch, h] at h'
    cases h'
    rfl

/-- And when one is disconnected. -/
theorem ident_disconnect (h : (sessions m ch).lookup sid = some set)
    (h' : (sessions (m.disconnect ch' sid' ws) ch).lookup sid = some set') :
    set'.ident = set.ident := by
  rw [sessions_disconnect] at h'
  by_cases hch : ch = ch'
  · subst hch
    rw [if_pos rfl] at h'
    by_cases hsid : sid = sid'
    · subst hsid
      rw [lookup_without, h, Option.bind_some] at h'
      split at h'
      · cases h'
      · cases h'
        rfl
    · rw [lookup_without_of_ne hsid, h] at h'
      cases h'
      rfl
  · rw [if_neg hch, h] at h'
    cases h'
    rfl

/-- A socket is added to the session that it belongs to. -/
theorem Sound.add (h : Sound owner m) (howner : owner ws = (ch', sid')) :
    Sound owner (m.add ch' sid' ws) := by
  obtain ⟨n, hadd⟩ := @add_eq m ch' sid' ws
  rw [hadd]
  intro ch sid set hset
  rw [sessions_insert] at hset
  by_cases hch : ch = ch'
  · subst hch
    rw [if_pos rfl] at hset
    by_cases hsid : sid = sid'
    · subst hsid
      rw [AList.lookup_insert] at hset
      cases hset
      refine ⟨?_, fun ws' hws => ?_⟩
      · unfold joined
        cases hold : (sessions m ch).lookup sid with
        | some old =>
          have hnodup := (h ch sid old hold).1
          dsimp only
          split
          · exact hnodup
          · next hmem =>
            exact hnodup.append (List.nodup_singleton ws) (List.disjoint_singleton.2 hmem)
        | none => exact List.nodup_singleton ws
      · rcases mem_joined.1 hws with rfl | ⟨old, hold, hws⟩
        · exact howner
        · exact (h ch sid old hold).2 ws' hws
    · rw [AList.lookup_insert_ne hsid] at hset
      exact h ch sid set hset
  · rw [if_neg hch] at hset
    exact h ch sid set hset

/-- A socket is removed. -/
theorem Sound.disconnect (h : Sound owner m) : Sound owner (m.disconnect ch' sid' ws) := by
  intro ch sid set hset
  rw [sessions_disconnect] at hset
  by_cases hch : ch = ch'
  · subst hch
    rw [if_pos rfl] at hset
    by_cases hsid : sid = sid'
    · subst hsid
      rw [lookup_without] at hset
      obtain ⟨old, hold, hset⟩ := Option.bind_eq_some_iff.1 hset
      obtain ⟨hnodup, howned⟩ := h ch sid old hold
      split at hset
      · cases hset
      · cases hset
        exact ⟨hnodup.filter _, fun ws' hws => howned ws' (List.mem_filter.1 hws).1⟩
    · rw [lookup_without_of_ne hsid] at hset
      exact h ch sid set hset
  · rw [if_neg hch] at hset
    exact h ch sid set hset

end

/-! ## The commands -/

section

variable {owner : ℕ → Channel × ℕ} {c : Cmd} {p : ℕ} {w w' : World} {x : Except Err (Resp c)}

/-- Asking for a session leaves the sessions. -/
theorem sessions_isSessionConnected (m : ConnectionManager) (ch : Channel) (sid : ℕ) :
    sessions (m.isSessionConnected ch sid).2 = sessions m := by
  funext ch'
  unfold ConnectionManager.isSessionConnected
  dsimp only
  split <;> exact sessions_touch

/-- Asking for several sessions leaves the sessions. -/
theorem sessions_connectedAmong (m : ConnectionManager) (ch : Channel) (sids : List ℕ) :
    sessions (m.connectedAmong ch sids).2 = sessions m := by
  induction sids generalizing m with
  | nil => rfl
  | cons sid sids ih => exact (ih _).trans (sessions_isSessionConnected m ch sid)

/-- What a command does to the sockets: it connects one, or disconnects one, or does not change
them. -/
theorem sessions_answer (h : server.Answer p c w x w') :
    (∃ ch sid ws, c = .register ch sid ws ∧ w'.manager = w.manager.add ch sid ws) ∨
    (∃ ch sid ws, sessions w'.manager = sessions (w.manager.disconnect ch sid ws)) ∨
    sessions w'.manager = sessions w.manager := by
  cases h with
  | fault => exact .inr (.inr rfl)
  | exec hx =>
    replace hx : DropRoom.exec p c w = some (x, w') := hx
    cases c with
    | sql q =>
      obtain ⟨⟨a, db⟩, -, hx⟩ := Option.map_eq_some_iff.1 hx
      cases hx
      exact .inr (.inr rfl)
    | put key data =>
      cases data <;> cases hx <;> exact .inr (.inr rfl)
    | dequeue =>
      simp only [DropRoom.exec] at hx
      split at hx
      · cases hx
        exact .inr (.inr rfl)
      · cases hx
    | checkRate scope key limit window =>
      -- The result has a name, so that nothing computes with the width of the window.
      obtain ⟨y, hy⟩ : ∃ y, w.buckets.check scope key limit (seconds window) w.monotonic = y :=
        ⟨_, rfl⟩
      rw [exec_checkRate hy] at hx
      cases hx
      exact .inr (.inr rfl)
    | register ch sid ws =>
      cases hx
      exact .inl ⟨ch, sid, ws, rfl, rfl⟩
    | unregister ch sid ws =>
      cases hx
      exact .inr (.inl ⟨ch, sid, ws, sessions_isSessionConnected _ _ _⟩)
    | connectedAmong ch sids =>
      cases hx
      exact .inr (.inr (sessions_connectedAmong _ _ _))
    | items ch =>
      cases hx
      exact .inr (.inr (funext fun ch' => sessions_touch))
    | getStream | deleteObject | objectExists | listKeys | utcnow | uuid4 | generateToken
      | generateRoomCode | enqueue | accept | socketsOf | sendJson | closeSocket =>
      cases hx
      exact .inr (.inr rfl)

/-- The sets stay sound. -/
theorem Sound.answer (hs : Sound owner w.manager) (howned : Owned owner c)
    (h : server.Answer p c w x w') : Sound owner w'.manager := by
  rcases sessions_answer h with ⟨ch, sid, ws, rfl, hw⟩ | ⟨ch, sid, ws, hw⟩ | hw
  · rw [hw]
    exact hs.add howned
  · unfold Sound
    rw [hw]
    exact hs.disconnect
  · unfold Sound
    rw [hw]
    exact hs

/-- A session that keeps a socket keeps its set object. -/
theorem ident_answer (h : server.Answer p c w x w') {ch : Channel} {sid : ℕ} {set set' : SocketSet}
    (hset : (sessions w.manager ch).lookup sid = some set)
    (hset' : (sessions w'.manager ch).lookup sid = some set') : set'.ident = set.ident := by
  rcases sessions_answer h with ⟨ch', sid', ws, -, hw⟩ | ⟨ch', sid', ws, hw⟩ | hw
  · rw [hw] at hset'
    exact ident_add hset hset'
  · rw [hw] at hset'
    exact ident_disconnect hset hset'
  · rw [hw, hset] at hset'
    cases hset'
    rfl

end

/-! ## The broadcast -/

section

variable {owner : ℕ → Channel × ℕ} {ch : Channel} {event : Event} {exclude : List ℕ}

/-- How a process ends that broadcasts: it has sent to all. -/
def Told (x : Except Err Unit) (l : Tally) : Prop :=
  l.telling = false ∨ (x = .ok () ∧ l.begun = true ∧ l.todo = [] ∧ l.now = [])

/-- The sockets of one session. -/
theorem wp_sockets (todo : List (ℕ × ℕ)) (now sent : List ℕ) :
    (now.forM fun ws => (sendJson ws event).tryCatch fun _ => pure () : Op PUnit).wp
      (tally owner ch event exclude).trans
      (fun x l => x = .ok ⟨⟩ ∧ ∃ sent', l = ⟨true, true, todo, [], sent'⟩)
      ⟨true, true, todo, now, sent⟩ := by
  induction now generalizing sent with
  | nil => exact ⟨rfl, sent, rfl⟩
  | cons ws now ih =>
    refine (Prog.wp_bind _ _ _ _).2 ?_
    refine (Prog.wp_tryCatch _ _ _ _).2 ⟨.send rfl rfl, fun x => ?_⟩
    cases x with
    | ok _ => exact ih _
    | error e => exact ih _

/-- The sessions. -/
theorem wp_items (items : List (ℕ × ℕ)) (sent : List ℕ) :
    (items.forM fun item => if item.1 ∈ exclude then pure () else do
        let sockets ← issue (.socketsOf ch item.1 item.2)
        sockets.forM fun ws => (sendJson ws event).tryCatch fun _ => pure () : Op PUnit).wp
      (tally owner ch event exclude).trans
      Told
      ⟨true, true, items.filter fun item => item.1 ∉ exclude, [], sent⟩ := by
  induction items generalizing sent with
  | nil => exact .inr ⟨rfl, rfl, rfl, rfl⟩
  | cons item items ih =>
    refine (Prog.wp_bind _ _ _ _).2 ?_
    dsimp only
    by_cases hmem : item.1 ∈ exclude
    · rw [if_pos hmem, List.filter_cons_of_neg (by simpa using hmem)]
      exact ih sent
    · rw [if_neg hmem, List.filter_cons_of_pos (by simpa using hmem)]
      refine (Prog.wp_bind _ _ _ _).2 ⟨.session rfl rfl rfl, fun x => ?_⟩
      cases x with
      | error e => exact .inl rfl
      | ok sockets =>
        have hsockets := @wp_sockets owner ch event exclude
          (items.filter fun item => item.1 ∉ exclude) sockets sent
        change Prog.wp _ (sockets.forM _) _ _
        refine Prog.wp_mono (Monitor.trans_monotone _) ?_ hsockets
        rintro x l ⟨rfl, sent', rfl⟩
        exact ih sent'

/-- The whole broadcast. -/
theorem wp_broadcast : (broadcast ch event exclude).wp (tally owner ch event exclude).trans Told
    ⟨true, false, [], [], []⟩ := by
  refine (Prog.wp_bind _ _ _ _).2 ⟨.items rfl, fun x => ?_⟩
  cases x with
  | error e => exact .inl rfl
  | ok items => exact wp_items items []

/-- The other processes. -/
theorem wp_others {prog : Op Unit} (h : prog.Only (Owned owner)) {l : Tally}
    (hl : l.telling = false) : prog.wp (tally owner ch event exclude).trans Told l := by
  refine Prog.wp_mono (Monitor.trans_monotone _) (fun _ _ => Or.inl) (h.wp ?_ hl)
  intro c l hc hl
  have hother : ¬l.telling = true := by rw [hl]; decide
  refine ⟨(if_neg hother).mpr hc, fun x => ?_⟩
  cases c <;> cases x <;> first | exact hl | rfl

/-! ## What holds throughout -/

/-- The sockets that are sent to, and those that are about to be, are different sockets of sessions of
the room that are not excluded, and no session comes twice. -/
structure Orderly (owner : ℕ → Channel × ℕ) (ch : Channel) (exclude : List ℕ) (l : Tally) :
    Prop where
  fresh : l.begun = false → l.sent = [] ∧ l.now = []
  todo : (l.todo.map Prod.fst).Nodup ∧ ∀ item ∈ l.todo, item.1 ∉ exclude
  nodup : (l.sent ++ l.now).Nodup
  owned : ∀ ws ∈ l.sent ++ l.now,
    ∃ sid, owner ws = (ch, sid) ∧ sid ∉ exclude ∧ sid ∉ l.todo.map Prod.fst

/-- The sets are sound, and the process 0 is the one that broadcasts. -/
structure Inv (owner : ℕ → Channel × ℕ) (ch : Channel) (exclude : List ℕ) (w : World)
    (φ : ℕ → Tally) : Prop where
  sound : Sound owner w.manager
  telling : (φ 0).telling = true
  others : ∀ p, p ≠ 0 → (φ p).telling = false
  orderly : Orderly owner ch exclude (φ 0)

/-- A command of another process. -/
theorem telling_next {l : Tally} (h : l.telling = false) (c : Cmd) (x : Except Err (Resp c)) :
    (l.next exclude c x).telling = false := by
  cases c <;> cases x <;> first | exact h | rfl

/-- The command of a broadcast that notes the sessions. -/
theorem Orderly.items {l : Tally} (h : Orderly owner ch exclude l) (hbegun : l.begun = false)
    (m : ConnectionManager) :
    Orderly owner ch exclude (l.next exclude (.items ch) (.ok (m.items ch).1)) := by
  obtain ⟨hsent, hnow⟩ := h.fresh hbegun
  have hkeys : ((m.items ch).1.map Prod.fst).Nodup := by
    have hfst : (m.items ch).1.map Prod.fst = (m.touch ch).1.keys := List.map_map
    rw [hfst]
    exact AList.keys_nodup _
  refine ⟨fun _ => ⟨hsent, hnow⟩, ⟨?_, ?_⟩, h.nodup, ?_⟩
  · exact hkeys.sublist (List.filter_sublist.map Prod.fst)
  · intro item hitem
    exact of_decide_eq_true (List.mem_filter.1 hitem).2
  · intro ws hws
    have hnone : ws ∈ l.sent ++ l.now := hws
    rw [hsent, hnow] at hnone
    cases hnone

/-- The sockets that are found for a session. -/
theorem Sound.socketsOf {m : ConnectionManager} (hm : Sound owner m) (ch : Channel)
    (sid ident : ℕ) :
    (m.socketsOf ch sid ident).Nodup ∧ ∀ ws ∈ m.socketsOf ch sid ident, owner ws = (ch, sid) := by
  rw [socketsOf_eq]
  split
  · next set hset =>
    split
    · exact hm ch sid set hset
    · exact ⟨List.nodup_nil, fun ws hws => absurd hws List.not_mem_nil⟩
  · exact ⟨List.nodup_nil, fun ws hws => absurd hws List.not_mem_nil⟩

/-- The command of a broadcast that finds the sockets of a session. -/
theorem Orderly.session {l : Tally} (h : Orderly owner ch exclude l) {m : ConnectionManager}
    (hm : Sound owner m) (hbegun : l.begun = true) (hnow : l.now = []) {sid ident : ℕ}
    {todo : List (ℕ × ℕ)} (htodo : l.todo = (sid, ident) :: todo) :
    Orderly owner ch exclude
      (l.next exclude (.socketsOf ch sid ident) (.ok (m.socketsOf ch sid ident))) := by
  obtain ⟨hnodup, howner⟩ := hm.socketsOf ch sid ident
  obtain ⟨hkeys, hexclude⟩ := h.todo
  have hsent := h.nodup
  have howned := h.owned
  rw [hnow, List.append_nil] at hsent howned
  rw [htodo, List.map_cons, List.nodup_cons] at hkeys
  rw [htodo] at howned hexclude
  refine ⟨fun hno => ?_, ⟨?_, fun item hitem => ?_⟩, ?_, fun ws hws => ?_⟩
  · rw [show (l.next exclude (.socketsOf ch sid ident) (.ok (m.socketsOf ch sid ident))).begun =
      l.begun from rfl, hbegun] at hno
    cases hno
  · simp only [Tally.next, htodo, List.tail_cons]
    exact hkeys.2
  · simp only [Tally.next, htodo, List.tail_cons] at hitem
    exact hexclude item (List.mem_cons_of_mem _ hitem)
  · -- The sockets sent to before belong to other sessions.
    refine hsent.append hnodup fun ws hws hws' => ?_
    obtain ⟨sid', heq, -, hother⟩ := howned ws hws
    rw [howner ws hws'] at heq
    cases heq
    exact hother List.mem_cons_self
  · simp only [Tally.next, htodo, List.tail_cons] at hws ⊢
    rcases List.mem_append.1 hws with hws | hws
    · obtain ⟨sid', heq, hmem, hother⟩ := howned ws hws
      exact ⟨sid', heq, hmem, fun h => hother (List.mem_cons_of_mem _ h)⟩
    · exact ⟨sid, howner ws hws, hexclude _ List.mem_cons_self, hkeys.1⟩

/-- The command of a broadcast that sends to a socket. -/
theorem Orderly.send {l : Tally} (h : Orderly owner ch exclude l) (hbegun : l.begun = true) {ws : ℕ}
    {now : List ℕ} (hnow : l.now = ws :: now) (x : Except Err Unit) :
    Orderly owner ch exclude (l.next exclude (.sendJson ws event) x) := by
  have hsplit : l.sent ++ l.now = (l.sent ++ [ws]) ++ l.now.tail := by
    rw [hnow, List.tail_cons, List.append_assoc]
    rfl
  refine ⟨fun hno => ?_, h.todo, ?_, ?_⟩
  · rw [show (l.next exclude (.sendJson ws event) x).begun = l.begun from rfl, hbegun] at hno
    cases hno
  · have hnodup := h.nodup
    rwa [hsplit] at hnodup
  · have howned := h.owned
    rwa [hsplit] at howned

/-- The answer to a look-up of a broadcast. -/
theorem answer_items {p : ℕ} {w w' : World} {x : Except Err (Resp (.items ch))}
    (h : server.Answer p (.items ch) w x w') : x = .ok (w.manager.items ch).1 := by
  cases h with
  | fault hf => exact hf.elim
  | exec hx =>
    cases hx
    rfl

/-- The sockets of a session are read without failure. -/
theorem answer_socketsOf {p sid ident : ℕ} {w w' : World}
    {x : Except Err (Resp (.socketsOf ch sid ident))}
    (h : server.Answer p (.socketsOf ch sid ident) w x w') :
    x = .ok (w.manager.socketsOf ch sid ident) := by
  cases h with
  | fault hf => exact hf.elim
  | exec hx =>
    cases hx
    rfl

/-- A command of the broadcast keeps it orderly. -/
theorem Orderly.answer {l : Tally} (h : Orderly owner ch exclude l) {p : ℕ} {c : Cmd} {w w' : World}
    {x : Except Err (Resp c)} (hc : Broadcasts ch event l c) (hsound : Sound owner w.manager)
    (ha : server.Answer p c w x w') :
    Orderly owner ch exclude (l.next exclude c x) ∧ (l.next exclude c x).telling = l.telling := by
  cases hc with
  | items hbegun =>
    rw [answer_items ha]
    exact ⟨h.items hbegun _, rfl⟩
  | session hbegun hnow htodo =>
    rw [answer_socketsOf ha]
    exact ⟨h.session hsound hbegun hnow htodo, rfl⟩
  | send hbegun hnow => exact ⟨h.send hbegun hnow x, rfl⟩

/-- Every command keeps the invariant. -/
theorem Inv.call {w w' : World} {φ : ℕ → Tally} {p : ℕ} {c : Cmd} {x : Except Err (Resp c)}
    (h : Inv owner ch exclude w φ) (hallowed : (tally owner ch event exclude).allowed (φ p) c)
    (ha : server.Answer p c w x w') :
    Inv owner ch exclude w' (Function.update φ p ((φ p).next exclude c x)) := by
  by_cases hp : p = 0
  · subst hp
    have hc : Broadcasts ch event (φ 0) c := (if_pos h.telling).mp hallowed
    have howned : Owned owner c := by cases hc <;> trivial
    obtain ⟨horderly, htelling⟩ := h.orderly.answer hc h.sound ha
    refine ⟨h.sound.answer howned ha, ?_, fun q hq => ?_, ?_⟩
    · rw [Function.update_self, htelling, h.telling]
    · rw [Function.update_of_ne hq]
      exact h.others q hq
    · rw [Function.update_self]
      exact horderly
  · have hno : ¬(φ p).telling = true := by rw [h.others p hp]; decide
    have howned : Owned owner c := (if_neg hno).mp hallowed
    refine ⟨h.sound.answer howned ha, ?_, fun q hq => ?_, ?_⟩
    · rw [Function.update_of_ne (Ne.symm hp)]
      exact h.telling
    · by_cases hqp : q = p
      · rw [hqp, Function.update_self]
        exact telling_next (h.others p hp) c x
      · rw [Function.update_of_ne hqp]
        exact h.others q hq
    · rw [Function.update_of_ne (Ne.symm hp)]
      exact h.orderly

/-- Time passes. -/
theorem Inv.tick {w w' : World} {φ : ℕ → Tally} (h : Inv owner ch exclude w φ)
    (he : World.Tick w w') : Inv owner ch exclude w' φ := by
  obtain ⟨d, d', rfl⟩ := he
  exact ⟨h.sound, h.telling, h.others, h.orderly⟩

/-- A socket that is connected has been sent to, or is about to be, or its session has been noted with
the set object that it still has. -/
def Found (ch : Channel) (sid ws : ℕ) (w : World) (l : Tally) : Prop :=
  l.begun = true → w.manager.Connected ch sid ws → ws ∈ l.sent ++ l.now ∨
    ∃ set, (sessions w.manager ch).lookup sid = some set ∧ (sid, set.ident) ∈ l.todo

/-- Time passes. -/
theorem Found.tick {sid ws : ℕ} {w w' : World} {l : Tally} (h : Found ch sid ws w l)
    (he : World.Tick w w') : Found ch sid ws w' l := by
  obtain ⟨d, d', rfl⟩ := he
  exact h

/-- While a socket stays connected, it is found. -/
theorem Found.call {sid ws : ℕ} (hsid : sid ∉ exclude) {w w' : World} {φ : ℕ → Tally} {p : ℕ}
    {c : Cmd} {x : Except Err (Resp c)} (hInv : Inv owner ch exclude w φ)
    (h : Found ch sid ws w (φ 0)) (hallowed : (tally owner ch event exclude).allowed (φ p) c)
    (hstays : Stays ch sid ws p c w φ) (ha : server.Answer p c w x w') :
    Found ch sid ws w' (Function.update φ p ((φ p).next exclude c x) 0) := by
  by_cases hp : p = 0
  · subst hp
    have hconnected := hstays (.inl rfl)
    obtain ⟨set, hset, hws⟩ := connected_iff.1 hconnected
    have hc : Broadcasts ch event (φ 0) c := (if_pos hInv.telling).mp hallowed
    rw [Function.update_self]
    intro _ hconnected'
    obtain ⟨set', hset', -⟩ := connected_iff.1 hconnected'
    have hident := ident_answer ha hset hset'
    cases hc with
    -- The sessions are listed: this one is among them, with its set.
    | items =>
      have hentry : (sid, set.ident) ∈ (w.manager.items ch).1 := by
        unfold ConnectionManager.items
        rw [touch_eq]
        exact List.mem_map.2 ⟨⟨sid, set⟩, AList.mem_lookup_iff.1 hset, rfl⟩
      rw [answer_items ha]
      refine .inr ⟨set', hset', ?_⟩
      rw [hident]
      exact List.mem_filter.2 ⟨hentry, decide_eq_true hsid⟩
    -- The sockets of the next session are read.
    | @session sid' ident todo hbegun hnow htodo =>
      rw [answer_socketsOf ha]
      simp only [Tally.next, htodo, List.tail_cons]
      rcases h hbegun hconnected with hmem | ⟨set₁, hset₁, hmem⟩
      · rw [hnow, List.append_nil] at hmem
        exact .inl (List.mem_append_left _ hmem)
      · rw [hset] at hset₁
        cases hset₁
        rw [htodo] at hmem
        rcases List.mem_cons.1 hmem with heq | hmem
        · -- It is the turn of the session, and the set is the one that was noted.
          cases heq
          refine .inl (List.mem_append_right _ ?_)
          rw [socketsOf_eq, hset]
          dsimp only
          rw [if_pos rfl]
          exact hws
        · refine .inr ⟨set', hset', ?_⟩
          rwa [hident]
    -- A socket of the session at hand has had the event.
    | @send ws' now hbegun hnow =>
      rcases h hbegun hconnected with hmem | ⟨set₁, hset₁, hmem⟩
      · refine .inl ?_
        rw [hnow] at hmem
        simp only [Tally.next, hnow, List.tail_cons, List.append_assoc]
        exact hmem
      · rw [hset] at hset₁
        cases hset₁
        refine .inr ⟨set', hset', ?_⟩
        rwa [hident]
  -- Another task has moved: it neither replaces the set nor takes the socket out of it.
  · rw [Function.update_of_ne (Ne.symm hp)]
    intro hbegun hconnected'
    have hconnected := hstays (.inr hbegun)
    obtain ⟨set, hset, hws⟩ := connected_iff.1 hconnected
    obtain ⟨set', hset', -⟩ := connected_iff.1 hconnected'
    rcases h hbegun hconnected with hmem | ⟨set₁, hset₁, hmem⟩
    · exact .inl hmem
    · rw [hset] at hset₁
      cases hset₁
      refine .inr ⟨set', hset', ?_⟩
      rwa [ident_answer ha hset hset']

/-- The start of an interleaving, with a new registry. -/
theorem inv_start {w : World} (hw : w.manager = ⟨∅, 0⟩) (proc : ℕ → Op Unit) :
    Inv owner ch exclude (start w proc).world (start w proc).phase := by
  refine ⟨fun ch sid set hset => ?_, rfl, fun p hp => beq_eq_false_iff_ne.2 hp, ?_⟩
  · rw [show (start w proc).world.manager = ⟨∅, 0⟩ from hw] at hset
    cases hset
  · exact ⟨fun _ => ⟨rfl, rfl⟩, ⟨List.nodup_nil, fun item h => absurd h List.not_mem_nil⟩,
      List.nodup_nil, fun ws h => absurd h List.not_mem_nil⟩

/-- Every process does what it may. -/
theorem conforms_start {w : World} {proc : ℕ → Op Unit} (hproc : proc 0 = broadcast ch event exclude)
    (hothers : ∀ p, p ≠ 0 → (proc p).Only (Owned owner)) :
    (start w proc).Conforms (tally owner ch event exclude) Told := by
  intro p
  by_cases hp : p = 0
  · subst hp
    rw [show (start w proc).proc 0 = broadcast ch event exclude from hproc]
    exact wp_broadcast
  · exact wp_others (hothers p hp) (beq_eq_false_iff_ne.2 hp)

end

end delivery

open delivery

/-- However a broadcast is interleaved with connects and disconnects, and whichever sends fail, it
raises nothing, and it sends the event to no socket twice and only to sockets of the room whose session
is not excluded. A socket of such a session that is connected all the time is sent it once. -/
theorem broadcast_exactly_once (owner : ℕ → Channel × ℕ) (ch : Channel) (event : Event)
    (exclude : List ℕ) (w : World) (hw : w.manager = ⟨∅, 0⟩) (proc : ℕ → Op Unit)
    (hproc : proc 0 = broadcast ch event exclude)
    (hothers : ∀ p, p ≠ 0 → (proc p).Only (Owned owner)) :
    (∀ s, server.Reaches (tally owner ch event exclude) Guard.all (start w proc) s →
      (s.phase 0).sent.Nodup ∧
      (∀ ws ∈ (s.phase 0).sent, ∃ sid, owner ws = (ch, sid) ∧ sid ∉ exclude) ∧
      ∀ e, s.proc 0 ≠ .raise e) ∧
    ∀ sid ws s, sid ∉ exclude →
      server.Reaches (tally owner ch event exclude) (Stays ch sid ws) (start w proc) s →
      s.world.manager.Connected ch sid ws → (s.proc 0).outcome.isSome = true →
      (s.phase 0).sent.count ws = 1 := by
  have hstart := @inv_start owner ch exclude w hw proc
  have hconforms := @conforms_start owner ch event exclude w proc hproc hothers
  -- At most once holds of every run; that the socket is found needs that it stays connected.
  refine ⟨fun s hs => ?_, fun sid ws s hsid hs hconnected hend => ?_⟩
  · obtain ⟨hInv, hprocs⟩ := Machine.invariant (I := Inv owner ch exclude)
      (fun w φ p c x w' h hallowed _ ha => h.call hallowed ha)
      (fun w φ w' h he => h.tick he) hs hstart hconforms
    refine ⟨hInv.orderly.nodup.sublist (List.sublist_append_left _ _), fun ws hws => ?_,
      fun e he => ?_⟩
    · obtain ⟨sid, howner, hmem, -⟩ := hInv.orderly.owned ws (List.mem_append_left _ hws)
      exact ⟨sid, howner, hmem⟩
    · have htold := hprocs 0
      rw [he] at htold
      rcases htold with hno | ⟨herror, -⟩
      · rw [hInv.telling] at hno
        cases hno
      · cases herror
  · obtain ⟨⟨hInv, hfound⟩, hprocs⟩ := Machine.invariant
      (I := fun w φ => Inv owner ch exclude w φ ∧ Found ch sid ws w (φ 0))
      (fun w φ p c x w' h hallowed hstays ha =>
        ⟨h.1.call hallowed ha, h.2.call hsid h.1 hallowed hstays ha⟩)
      (fun w φ w' h he => ⟨h.1.tick he, h.2.tick he⟩) hs
      ⟨hstart, fun hbegun => by cases hbegun⟩ hconforms
    -- The broadcast is over, so there is nothing left to be told.
    have htold : ∃ x, Told x (s.phase 0) := by
      have hproc := hprocs 0
      cases hcase : s.proc 0 with
      | call c k =>
        rw [hcase] at hend
        cases hend
      | _ =>
        rw [hcase] at hproc
        exact ⟨_, hproc⟩
    obtain ⟨x, hno | ⟨-, hbegun, htodo, hnow⟩⟩ := htold
    · rw [hInv.telling] at hno
      cases hno
    · have hnodup := hInv.orderly.nodup
      have hmem : ws ∈ (s.phase 0).sent ++ (s.phase 0).now := by
        rcases hfound hbegun hconnected with hmem | ⟨set, -, hmem⟩
        · exact hmem
        · rw [htodo] at hmem
          cases hmem
      rw [hnow, List.append_nil] at hmem hnodup
      exact List.count_eq_one_of_mem hnodup hmem

/-- A socket connects, and stays while an event is broadcast and another socket comes. -/
def delivery.crowd : ℕ → Op Unit
  | 0 => broadcast (.room 1) .roomExpired []
  | 1 => issue (.register (.room 1) 7 70)
  | 2 => issue (.register (.room 1) 8 80)
  | _ => pure ()

/-- The event is sent to the socket that was there from the start. -/
theorem broadcast_exactly_once_crowd : ∃ s : Conf Cmd Resp Err Unit World Tally,
    server.Reaches (tally (fun ws => (.room 1, ws / 10)) (.room 1) .roomExpired [])
      (Stays (.room 1) 7 70) (start .initial crowd) s ∧ (s.phase 0).sent.count 70 = 1 := by
  have hothers : ∀ p, p ≠ 0 → (crowd p).Only (Owned fun ws => (.room 1, ws / 10)) := by
    intro p hp
    match p with
    | 0 => exact absurd rfl hp
    | 1 => exact (only_issue _).2 rfl
    | 2 => exact (only_issue _).2 rfl
    | p + 3 => exact only_pure _
  have hall := (broadcast_exactly_once (fun ws => (.room 1, ws / 10)) (.room 1) .roomExpired []
    .initial rfl crowd rfl hothers).2 7 70
  have hrun : ((server.play (tally (fun ws => (.room 1, ws / 10)) (.room 1) .roomExpired [])
      (Stays (.room 1) 7 70) [1, 0, 2, 0, 0] (start .initial crowd)).map fun s =>
      (decide (s.world.manager.Connected (.room 1) 7 70), (s.proc 0).outcome.isSome)) =
        some (true, true) := by
    decide
  obtain ⟨s, hs, hd⟩ := Option.map_eq_some_iff.1 hrun
  obtain ⟨hconnected, hend⟩ := Prod.mk.inj hd
  exact ⟨s, Machine.play_reaches hs, hall s List.not_mem_nil (Machine.play_reaches hs)
    (of_decide_eq_true hconnected) hend⟩

end DropRoom
