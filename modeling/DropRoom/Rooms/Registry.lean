import DropRoom.Rooms.Audience
import Mathlib.Data.List.Induction
import Mathlib.Algebra.GroupWithZero.Nat

/-!
# What the registry holds

`ConnectionManager._rooms` is a `defaultdict`, and every operation looks a room up with `[]`. The one
that removes what is empty is `disconnect`; a query or a broadcast that comes later creates the entry
of the room again, and nothing removes it as long as nobody disconnects from that room. The entries of
the sessions are looked up with `get`, and are always right.
-/

namespace DropRoom

namespace ConnectionManager

/-- `session_connection_count`. -/
def sessionConnectionCount (m : ConnectionManager) (ch : Channel) (sid : ℕ) :
    ℕ × ConnectionManager :=
  let (sessions, m) := m.touch ch
  match sessions.lookup sid with
  | some set => (set.members.length, m)
  | none => (0, m)

/-- `active_sockets_count`. -/
def activeSocketsCount (m : ConnectionManager) (ch : Channel) : ℕ × ConnectionManager :=
  let (sessions, m) := m.touch ch
  ((sessions.entries.map fun e => e.2.members.length).sum, m)

end ConnectionManager

/-- An operation of the `ConnectionManager`. A `connect` whose `accept` raises is none. -/
inductive RegistryOp
  | connect (ch : Channel) (sid ws : ℕ)
  | disconnect (ch : Channel) (sid ws : ℕ)
  | isSessionConnected (ch : Channel) (sid : ℕ)
  | sessionConnectionCount (ch : Channel) (sid : ℕ)
  | activeSocketsCount (ch : Channel)
  /-- A `broadcast` goes on with the sockets that it has found at its start. -/
  | broadcast (ch : Channel)

namespace RegistryOp

/-- The room of an operation. -/
def channel : RegistryOp → Channel
  | connect ch _ _ | disconnect ch _ _ | isSessionConnected ch _ | sessionConnectionCount ch _
  | activeSocketsCount ch | broadcast ch => ch

/-- The operation neither connects nor disconnects a socket. -/
def reads : RegistryOp → Bool
  | connect .. | disconnect .. => false
  | isSessionConnected .. | sessionConnectionCount .. | activeSocketsCount _ | broadcast _ => true

end RegistryOp

namespace registry

/-- The registry after an operation. -/
def apply (m : ConnectionManager) : RegistryOp → ConnectionManager
  | .connect ch sid ws => m.add ch sid ws
  | .disconnect ch sid ws => m.disconnect ch sid ws
  | .isSessionConnected ch sid => (m.isSessionConnected ch sid).2
  | .sessionConnectionCount ch sid => (m.sessionConnectionCount ch sid).2
  | .activeSocketsCount ch => (m.activeSocketsCount ch).2
  | .broadcast ch => (m.items ch).2

/-- A new registry after some operations. -/
def after (ops : List RegistryOp) : ConnectionManager := ops.foldl apply ⟨∅, 0⟩

/-- The connected sockets, each with its room and its session, after one more operation. -/
def update (S : Set (Channel × ℕ × ℕ)) : RegistryOp → Set (Channel × ℕ × ℕ)
  | .connect ch sid ws => S ∪ {(ch, sid, ws)}
  | .disconnect ch sid ws => S \ {(ch, sid, ws)}
  | .isSessionConnected .. | .sessionConnectionCount .. | .activeSocketsCount _ | .broadcast _ => S

/-- The sockets that are connected after some operations. -/
def connected (ops : List RegistryOp) : Set (Channel × ℕ × ℕ) := ops.foldl update ∅

/-- The last operation on a room is a query or a broadcast. -/
def ReadLast (ops : List RegistryOp) (ch : Channel) : Prop :=
  ∃ op, (ops.filter fun op => op.channel == ch).getLast? = some op ∧ op.reads = true

/-- The registry has an entry for the rooms with connected sockets, and in it one for the sessions
with connected sockets, and no others. -/
def Represents (m : ConnectionManager) (S : Set (Channel × ℕ × ℕ)) : Prop :=
  (∀ ch, ch ∈ m.rooms ↔ ∃ sid ws, (ch, sid, ws) ∈ S) ∧
    ∀ ch sid, sid ∈ (m.rooms.lookup ch).getD ∅ ↔ ∃ ws, (ch, sid, ws) ∈ S

/-! ## The operations -/

/-- The sessions of a room, which has none if it has no entry. -/
def sessions (m : ConnectionManager) (ch : Channel) : AList fun _ : ℕ => SocketSet :=
  (m.rooms.lookup ch).getD ∅

section

variable {m : ConnectionManager} {ch ch' : Channel} {sid ws : ℕ}

/-- To look a room up is to have an entry for it. -/
theorem touch_eq : m.touch ch = (sessions m ch, (m.touch ch).2) := by
  unfold ConnectionManager.touch sessions
  cases m.rooms.lookup ch <;> rfl

/-- To look a room up leaves the sessions. -/
theorem sessions_touch : sessions (m.touch ch).2 ch' = sessions m ch' := by
  unfold ConnectionManager.touch
  cases hch : m.rooms.lookup ch with
  | some s => rfl
  | none =>
    unfold sessions
    dsimp only
    by_cases hsame : ch' = ch
    · rw [hsame, AList.lookup_insert, hch]
      rfl
    · rw [AList.lookup_insert_ne hsame]

/-- The room that was looked up has an entry. -/
theorem mem_touch : ch' ∈ (m.touch ch).2.rooms ↔ ch' = ch ∨ ch' ∈ m.rooms := by
  unfold ConnectionManager.touch
  cases hch : m.rooms.lookup ch with
  | some s =>
    have hmem : ch ∈ m.rooms := AList.lookup_isSome.1 (by rw [hch]; rfl)
    refine ⟨.inr, ?_⟩
    rintro (rfl | h)
    · exact hmem
    · exact h
  | none => exact AList.mem_insert _

/-- What is written back after a look-up. -/
theorem sessions_insert {s : AList fun _ : ℕ => SocketSet} {n : ℕ} :
    sessions ⟨(m.touch ch).2.rooms.insert ch s, n⟩ ch' = if ch' = ch then s else sessions m ch' := by
  have hsame := @sessions_touch m ch ch'
  unfold sessions at hsame ⊢
  split
  · next h => rw [h, AList.lookup_insert, Option.getD_some]
  · next h => rw [AList.lookup_insert_ne h, hsame]

/-- The rooms with an entry after one was written back. -/
theorem mem_insert {s : AList fun _ : ℕ => SocketSet} :
    ch' ∈ (m.touch ch).2.rooms.insert ch s ↔ ch' = ch ∨ ch' ∈ m.rooms := by
  rw [AList.mem_insert, mem_touch]
  tauto

/-- The set of a session that a socket is added to: a new one, or that of its other sockets. -/
def joined (s : AList fun _ : ℕ => SocketSet) (created sid ws : ℕ) : SocketSet :=
  match s.lookup sid with
  | some set => { set with members := if ws ∈ set.members then set.members else set.members ++ [ws] }
  | none => ⟨created, [ws]⟩

/-- `connect`. -/
theorem add_eq : ∃ n, m.add ch sid ws = ⟨(m.touch ch).2.rooms.insert ch
    ((sessions m ch).insert sid (joined (sessions m ch) (m.touch ch).2.created sid ws)), n⟩ := by
  unfold ConnectionManager.add joined
  rw [touch_eq]
  dsimp only
  cases hsid : (sessions m ch).lookup sid with
  | some set => exact ⟨_, rfl⟩
  | none => exact ⟨_, rfl⟩

/-- The socket is in the set, beside those that were in it before. -/
theorem mem_joined {s : AList fun _ : ℕ => SocketSet} {created ws' : ℕ} :
    ws' ∈ (joined s created sid ws).members ↔
      ws' = ws ∨ ∃ old, s.lookup sid = some old ∧ ws' ∈ old.members := by
  unfold joined
  cases hsid : s.lookup sid with
  | some old =>
    dsimp only
    split
    · next hmem =>
      constructor
      · exact fun h => .inr ⟨old, rfl, h⟩
      · rintro (rfl | ⟨_, heq, h⟩)
        · exact hmem
        · cases heq
          exact h
    · simp [or_comm]
  | none => simp

/-- The sessions that are left when a socket is removed. -/
def without (s : AList fun _ : ℕ => SocketSet) (sid ws : ℕ) : AList fun _ : ℕ => SocketSet :=
  match s.lookup sid with
  | some set =>
    let members := set.members.filter (· ≠ ws)
    if members = [] then s.erase sid else s.insert sid { set with members }
  | none => s

/-- `disconnect`. -/
theorem disconnect_eq : m.disconnect ch sid ws = { (m.touch ch).2 with
    rooms := if (without (sessions m ch) sid ws).keys = [] then (m.touch ch).2.rooms.erase ch
      else (m.touch ch).2.rooms.insert ch (without (sessions m ch) sid ws) } := by
  unfold ConnectionManager.disconnect
  rw [touch_eq]
  rfl

/-- The other sessions are left. -/
theorem lookup_without_of_ne {s : AList fun _ : ℕ => SocketSet} {sid' : ℕ} (h : sid' ≠ sid) :
    (without s sid ws).lookup sid' = s.lookup sid' := by
  unfold without
  split
  · dsimp only
    split
    · exact AList.lookup_erase_ne h
    · exact AList.lookup_insert_ne h
  · rfl

/-- The session keeps its other sockets, if it has any. -/
theorem lookup_without (s : AList fun _ : ℕ => SocketSet) (sid ws : ℕ) :
    (without s sid ws).lookup sid = (s.lookup sid).bind fun set =>
      if set.members.filter (· ≠ ws) = [] then none
      else some { set with members := set.members.filter (· ≠ ws) } := by
  unfold without
  cases hsid : s.lookup sid with
  | some set =>
    dsimp only [Option.bind_some]
    split
    · exact AList.lookup_erase sid s
    · exact AList.lookup_insert s
  | none => exact hsid

/-- Without entries there are no sessions. -/
theorem eq_empty_of_keys {s : AList fun _ : ℕ => SocketSet} (h : s.keys = []) : s = ∅ :=
  AList.ext (List.map_eq_nil_iff.1 h)

/-- A socket is taken out of one session. -/
theorem sessions_disconnect : sessions (m.disconnect ch sid ws) ch' =
    if ch' = ch then without (sessions m ch) sid ws else sessions m ch' := by
  rw [disconnect_eq]
  split
  · next hnil =>
    have hsame := @sessions_touch m ch ch'
    rw [eq_empty_of_keys hnil]
    unfold sessions at hsame ⊢
    dsimp only
    split
    · next h =>
      rw [h, AList.lookup_erase]
      rfl
    · next h => rw [AList.lookup_erase_ne h, hsame]
  · exact sessions_insert

/-- `disconnect` removes the entry of the room, unless there are sessions left. -/
theorem mem_disconnect : ch' ∈ (m.disconnect ch sid ws).rooms ↔
    (ch' = ch ∧ (without (sessions m ch) sid ws).keys ≠ []) ∨ (ch' ≠ ch ∧ ch' ∈ m.rooms) := by
  rw [disconnect_eq]
  split
  · next hnil =>
    dsimp only
    rw [AList.mem_erase, mem_touch]
    tauto
  · next hne =>
    dsimp only
    rw [mem_insert]
    tauto

/-- A query or a broadcast looks the room up. -/
theorem apply_of_reads {op : RegistryOp} (h : op.reads = true) :
    apply m op = (m.touch op.channel).2 := by
  cases op with
  | connect ch sid ws | disconnect ch sid ws => cases h
  | isSessionConnected ch sid =>
    simp only [apply, ConnectionManager.isSessionConnected, RegistryOp.channel]
    split <;> rfl
  | sessionConnectionCount ch sid =>
    simp only [apply, ConnectionManager.sessionConnectionCount, RegistryOp.channel]
    split <;> rfl
  | activeSocketsCount ch => rfl
  | broadcast ch => rfl

end

/-! ## After many operations -/

section

variable {ops : List RegistryOp} {op : RegistryOp} {m : ConnectionManager}
  {S : Set (Channel × ℕ × ℕ)} {ch : Channel} {sid ws : ℕ}

/-- The sockets of the registry are those in `S`, and no session is without any. -/
structure Holds (m : ConnectionManager) (S : Set (Channel × ℕ × ℕ)) : Prop where
  socket : ∀ ch sid ws, (∃ set, (sessions m ch).lookup sid = some set ∧ ws ∈ set.members) ↔
    (ch, sid, ws) ∈ S
  nonempty : ∀ ch sid set, (sessions m ch).lookup sid = some set → set.members ≠ []

/-- The session entries are right. -/
theorem Holds.mem_sessions (h : Holds m S) : sid ∈ sessions m ch ↔ ∃ ws, (ch, sid, ws) ∈ S := by
  rw [← AList.lookup_isSome, Option.isSome_iff_exists]
  constructor
  · rintro ⟨set, hset⟩
    obtain ⟨ws, hws⟩ := List.exists_mem_of_ne_nil _ (h.nonempty ch sid set hset)
    exact ⟨ws, (h.socket ch sid ws).1 ⟨set, hset, hws⟩⟩
  · rintro ⟨ws, hws⟩
    obtain ⟨set, hset, -⟩ := (h.socket ch sid ws).2 hws
    exact ⟨set, hset⟩

/-- A room has sessions exactly when it has sockets. -/
theorem Holds.keys_ne_nil (h : Holds m S) :
    (sessions m ch).keys ≠ [] ↔ ∃ sid ws, (ch, sid, ws) ∈ S := by
  constructor
  · intro hne
    obtain ⟨sid, hsid⟩ := List.exists_mem_of_ne_nil _ hne
    exact ⟨sid, h.mem_sessions.1 (AList.mem_keys.2 hsid)⟩
  · rintro ⟨sid, hws⟩ hnil
    have hmem := AList.mem_keys.1 (h.mem_sessions.2 hws)
    rw [hnil] at hmem
    cases hmem

/-- A socket is connected. -/
theorem Holds.connect (h : Holds m S) (ch : Channel) (sid ws : ℕ) :
    Holds (m.add ch sid ws) (S ∪ {(ch, sid, ws)}) := by
  obtain ⟨n, hadd⟩ := @add_eq m ch sid ws
  rw [hadd]
  have hsocket : ∀ n ws', ws' ∈ (joined (sessions m ch) n sid ws).members ↔
      ws' = ws ∨ (ch, sid, ws') ∈ S := by
    intro n ws'
    rw [mem_joined, ← h.socket]
  refine ⟨fun ch' sid' ws' => ?_, fun ch' sid' set' hset => ?_⟩
  · rw [sessions_insert, Set.mem_union, Set.mem_singleton_iff, Prod.mk.injEq, Prod.mk.injEq]
    by_cases hch : ch' = ch
    · subst hch
      rw [if_pos rfl]
      by_cases hsid : sid' = sid
      · subst hsid
        rw [AList.lookup_insert]
        simp only [Option.some.injEq, exists_eq_left', hsocket]
        tauto
      · rw [AList.lookup_insert_ne hsid, h.socket]
        tauto
    · rw [if_neg hch, h.socket]
      tauto
  · rw [sessions_insert] at hset
    by_cases hch : ch' = ch
    · rw [if_pos hch] at hset
      by_cases hsid : sid' = sid
      · subst hsid
        rw [AList.lookup_insert] at hset
        cases hset
        exact List.ne_nil_of_mem (mem_joined.2 (.inl rfl))
      · rw [AList.lookup_insert_ne hsid] at hset
        exact h.nonempty ch sid' set' hset
    · rw [if_neg hch] at hset
      exact h.nonempty ch' sid' set' hset

/-- A socket is disconnected. -/
theorem Holds.disconnect (h : Holds m S) (ch : Channel) (sid ws : ℕ) :
    Holds (m.disconnect ch sid ws) (S \ {(ch, sid, ws)}) := by
  -- The set of the session loses the socket, and goes if it was the last one.
  have hleft : ∀ set', (without (sessions m ch) sid ws).lookup sid = some set' ↔
      ∃ set, (sessions m ch).lookup sid = some set ∧ set.members.filter (· ≠ ws) ≠ [] ∧
        set' = { set with members := set.members.filter (· ≠ ws) } := by
    intro set'
    rw [lookup_without, Option.bind_eq_some_iff]
    refine exists_congr fun set => and_congr_right fun _ => ?_
    split
    · next hnil => exact iff_of_false (fun heq => by cases heq) fun hne => hne.1 hnil
    · next hne =>
      exact ⟨fun heq => ⟨hne, (Option.some.inj heq).symm⟩, fun heq => congrArg some heq.2.symm⟩
  refine ⟨fun ch' sid' ws' => ?_, fun ch' sid' set' hset => ?_⟩
  · rw [sessions_disconnect, Set.mem_sdiff, Set.mem_singleton_iff, Prod.mk.injEq, Prod.mk.injEq]
    by_cases hch : ch' = ch
    · subst hch
      rw [if_pos rfl]
      by_cases hsid : sid' = sid
      · subst hsid
        rw [← h.socket]
        constructor
        · rintro ⟨set', hset', hws⟩
          obtain ⟨set, hset, -, rfl⟩ := (hleft set').1 hset'
          obtain ⟨hws, hne⟩ := List.mem_filter.1 hws
          exact ⟨⟨set, hset, hws⟩, fun heq => of_decide_eq_true hne heq.2.2⟩
        · rintro ⟨⟨set, hset, hws⟩, hne⟩
          have hmem : ws' ∈ set.members.filter (· ≠ ws) :=
            List.mem_filter.2 ⟨hws, decide_eq_true fun heq => hne ⟨rfl, rfl, heq⟩⟩
          exact ⟨_, (hleft _).2 ⟨set, hset, List.ne_nil_of_mem hmem, rfl⟩, hmem⟩
      · rw [lookup_without_of_ne hsid, h.socket]
        tauto
    · rw [if_neg hch, h.socket]
      tauto
  · rw [sessions_disconnect] at hset
    by_cases hch : ch' = ch
    · rw [if_pos hch] at hset
      by_cases hsid : sid' = sid
      · subst hsid
        obtain ⟨set, -, hne, rfl⟩ := (hleft set').1 hset
        exact hne
      · rw [lookup_without_of_ne hsid] at hset
        exact h.nonempty ch sid' set' hset
    · rw [if_neg hch] at hset
      exact h.nonempty ch' sid' set' hset

/-- A query or a broadcast changes no socket. -/
theorem Holds.read (h : Holds m S) (hreads : op.reads = true) :
    Holds (apply m op) (update S op) := by
  have hsame : update S op = S := by cases op <;> first | rfl | cases hreads
  rw [apply_of_reads hreads, hsame]
  refine ⟨fun ch sid ws => ?_, fun ch sid set => ?_⟩
  · rw [sessions_touch]
    exact h.socket ch sid ws
  · rw [sessions_touch]
    exact h.nonempty ch sid set

/-- The sockets are right after any operations. -/
theorem holds_after (ops : List RegistryOp) : Holds (after ops) (connected ops) := by
  induction ops using List.reverseRecOn with
  | nil =>
    refine ⟨fun ch sid ws => ?_, fun ch sid set hset => by cases hset⟩
    refine iff_of_false ?_ (Set.notMem_empty _)
    rintro ⟨set, hset, -⟩
    cases hset
  | append_singleton ops op ih =>
    have hafter : after (ops ++ [op]) = apply (after ops) op := by
      rw [after, List.foldl_append]
      rfl
    have hconnected : connected (ops ++ [op]) = update (connected ops) op := by
      rw [connected, List.foldl_append]
      rfl
    rw [hafter, hconnected]
    by_cases hreads : op.reads = true
    · exact ih.read hreads
    · cases op with
      | connect ch sid ws => exact ih.connect ch sid ws
      | disconnect ch sid ws => exact ih.disconnect ch sid ws
      | isSessionConnected | sessionConnectionCount | activeSocketsCount | broadcast =>
        exact absurd rfl hreads

/-- One more operation. -/
theorem after_concat (ops : List RegistryOp) (op : RegistryOp) :
    after (ops ++ [op]) = apply (after ops) op := by
  rw [after, List.foldl_append]
  rfl

/-- Which operation on the room was the last. -/
theorem readLast_concat : ReadLast (ops ++ [op]) ch ↔
    (op.channel = ch ∧ op.reads = true) ∨ (op.channel ≠ ch ∧ ReadLast ops ch) := by
  unfold ReadLast
  rw [List.filter_append, List.filter_singleton]
  by_cases hch : op.channel = ch
  · have hbeq : (op.channel == ch) = true := beq_iff_eq.2 hch
    rw [hbeq, cond_true, List.getLast?_concat]
    simp [hch]
  · have hbeq : (op.channel == ch) = false := beq_eq_false_iff_ne.2 hch
    rw [hbeq, cond_false, List.append_nil]
    simp [hch]

/-- A room has an entry when it has sessions, and also when the last operation on it was a query or
a broadcast. -/
theorem mem_rooms_after (ops : List RegistryOp) (ch : Channel) :
    ch ∈ (after ops).rooms ↔ (sessions (after ops) ch).keys ≠ [] ∨ ReadLast ops ch := by
  induction ops using List.reverseRecOn with
  | nil =>
    refine iff_of_false (AList.notMem_empty ch) ?_
    rintro (hne | ⟨op, hop, -⟩)
    · exact hne rfl
    · cases hop
  | append_singleton ops op ih =>
    rw [after_concat, readLast_concat]
    by_cases hreads : op.reads = true
    · rw [apply_of_reads hreads, mem_touch, sessions_touch, ih]
      by_cases hch : op.channel = ch
      · simp [hch, hreads]
      · simp [hch, Ne.symm hch]
    · have hread : ¬(op.channel = ch ∧ op.reads = true) := fun h => hreads h.2
      cases op with
      | connect ch' sid ws =>
        obtain ⟨n, hadd⟩ := @add_eq (after ops) ch' sid ws
        rw [apply, hadd, mem_insert, sessions_insert, ih]
        by_cases hch : ch = ch'
        · refine iff_of_true (.inl hch) (.inl ?_)
          rw [if_pos hch]
          exact List.ne_nil_of_mem (AList.mem_keys.1 ((AList.mem_insert _).2 (.inl rfl)))
        · simp [RegistryOp.channel, RegistryOp.reads, hch, Ne.symm hch]
      | disconnect ch' sid ws =>
        rw [apply, mem_disconnect, sessions_disconnect, ih]
        by_cases hch : ch = ch'
        · simp [RegistryOp.channel, RegistryOp.reads, hch]
        · simp [RegistryOp.channel, RegistryOp.reads, hch, Ne.symm hch]
      | isSessionConnected | sessionConnectionCount | activeSocketsCount | broadcast =>
        exact absurd rfl hreads

end

end registry

open registry

/-- After any operations the registry represents the connected sockets exactly when on no room without
any the last operation was a query or a broadcast. The entries of the sessions are always right. -/
theorem registry_represents_iff (ops : List RegistryOp) :
    Represents (after ops) (connected ops) ↔
      ∀ ch, (∀ sid ws, (ch, sid, ws) ∉ connected ops) → ¬ReadLast ops ch := by
  have hholds := holds_after ops
  have hkeys : ∀ ch, (sessions (after ops) ch).keys ≠ [] ↔ ∃ sid ws, (ch, sid, ws) ∈ connected ops :=
    fun ch => hholds.keys_ne_nil
  constructor
  · rintro ⟨hrooms, -⟩ ch hnone hread
    obtain ⟨sid, ws, hmem⟩ := (hrooms ch).1 ((mem_rooms_after ops ch).2 (.inr hread))
    exact hnone sid ws hmem
  · refine fun h => ⟨fun ch => ?_, fun ch sid => hholds.mem_sessions⟩
    rw [mem_rooms_after, hkeys]
    refine ⟨fun hentry => ?_, .inl⟩
    by_contra hnone
    exact h ch (fun sid ws hmem => hnone ⟨sid, ws, hmem⟩) (hentry.resolve_left hnone)

/-- The last socket of a room leaves, and `room_ws` asks whether the session is still connected: the
room has an entry again. -/
theorem empty_room_registered : ¬Represents
    (after [.connect (.room 1) 1 1, .disconnect (.room 1) 1 1, .isSessionConnected (.room 1) 1])
    (connected [.connect (.room 1) 1 1, .disconnect (.room 1) 1 1,
      .isSessionConnected (.room 1) 1]) := by
  rintro ⟨hrooms, -⟩
  obtain ⟨sid, ws, hmem⟩ := (hrooms (.room 1)).1 (by decide)
  simp [connected, update] at hmem

end DropRoom
