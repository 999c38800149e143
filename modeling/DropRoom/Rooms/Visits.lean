import DropRoom.Rooms.Rejoin

/-!
# One browser in several rooms

A browser has one session cookie, which holds the session that it joined with last. So it renews a
session only when it joins the room that it has joined last, and each time it comes to another room
the number of users there is raised (`History.raised_eq`).
-/

namespace DropRoom

open Effect Store Prog rejoin

namespace visits

/-! ## How often a list comes to an element -/

section

variable {α : Type} [DecidableEq α] {a : α} {l : List α}

/-- The number of times that the list, read from its end, comes to `a` from another element. -/
def arrivals (a : α) : List α → ℕ
  | [] => 0
  | x :: l => (if x = a ∧ l.head? ≠ some x then 1 else 0) + arrivals a l

/-- What is not in the list is not arrived at, and the other way round. -/
theorem arrivals_eq_zero_iff : arrivals a l = 0 ↔ a ∉ l := by
  induction l with
  | nil => exact iff_of_true rfl List.not_mem_nil
  | cons x l ih =>
    rw [arrivals, Nat.add_eq_zero_iff, ih, List.mem_cons, not_or]
    constructor
    · rintro ⟨hx, hl⟩
      refine ⟨?_, hl⟩
      rintro rfl
      have hhead : l.head? = some a := by simpa using hx
      exact hl (List.mem_of_mem_head? hhead)
    · rintro ⟨hx, hl⟩
      exact ⟨if_neg fun h => hx h.1.symm, hl⟩

/-- A list comes to an element once if and only if it does not come back to it. -/
theorem arrivals_eq_one_iff (ha : a ∈ l) :
    arrivals a l = 1 ↔ ∀ b, b ≠ a → ¬[a, b, a].Sublist l := by
  induction l with
  | nil => cases ha
  | cons x l ih =>
    rw [arrivals]
    by_cases hx : x = a ∧ l.head? ≠ some x
    · obtain ⟨rfl, hhead⟩ := hx
      rw [if_pos ⟨rfl, hhead⟩, Nat.add_eq_left, arrivals_eq_zero_iff]
      constructor
      · intro hl b hb hsub
        have hrest : [b, x].Sublist l := List.cons_sublist_cons.1 hsub
        exact hl (hrest.subset (List.mem_cons_of_mem _ List.mem_cons_self))
      · intro h hl
        cases l with
        | nil => cases hl
        | cons d l =>
          -- The list leaves the element for `d`.
          have hd : d ≠ x := fun hd => hhead (congrArg some hd)
          have hmem : x ∈ l := (List.mem_cons.1 hl).resolve_left (Ne.symm hd)
          exact h d hd ((List.singleton_sublist.2 hmem).cons_cons d |>.cons_cons x)
    · rw [if_neg hx, Nat.zero_add]
      by_cases hxa : x = a
      · subst hxa
        have hhead : l.head? = some x := by
          by_contra hne
          exact hx ⟨rfl, hne⟩
        obtain ⟨l', rfl⟩ := List.head?_eq_some_iff.1 hhead
        rw [ih List.mem_cons_self]
        refine forall_congr' fun b => forall_congr' fun hb => not_congr ?_
        rw [List.cons_sublist_cons, List.cons_sublist_cons, List.cons_sublist_cons']
        exact ⟨.inl, fun h => h.resolve_right fun h => hb h.1⟩
      · rw [ih ((List.mem_cons.1 ha).resolve_left (Ne.symm hxa))]
        refine forall_congr' fun b => forall_congr' fun hb => not_congr ?_
        rw [List.cons_sublist_cons' (b := x)]
        exact ⟨.inl, fun h => h.resolve_right fun h => hxa h.1.symm⟩

end

/-! ## The browser -/

/-- The number of users of a room. -/
def users (w : World) (room_id : ℕ) : ℤ :=
  ((w.db.committed .rooms room_id).map fun r => r.user_count).getD 0

/-- The session that the browser joined with last, and its token. -/
abbrev Jar := Option (SessionRecord × Token)

/-- The session of the cookie was neither disconnected nor has it expired. -/
def Lives (env : Env) (jar : Jar) (w : World) : Prop :=
  ∀ session token, jar = some (session, token) → ∃ row,
    w.db.committed .sessions session.id = some row ∧ row.room_id = session.room_id ∧
      row.session_token_hash = env.hash_token token ∧ w.now < row.expires_at

/-- What a browser does that starts without a cookie: `joined` are the rooms it has joined, the last one
first, and `raised` is by how much its requests have raised the number of users of each room. -/
inductive History (env : Env) : Jar → World → List ℕ → (ℕ → ℤ) → Prop
  | start (w : World) : History env none w [] fun _ => 0
  /-- Others do something, or time passes. -/
  | other {jar w joined raised} (h : History env jar w joined raised) (w' : World) :
    History env jar w' joined raised
  /-- The browser joins a room. The token that is generated next is not empty. -/
  | join {jar w joined raised} (h : History env jar w joined raised) (hlives : Lives env jar w)
    (hfree : w.db.Free) (hu : UniqueColumns w.db.committed) (htoken : w.tokens w.tokensUsed ≠ "")
    {p : ℕ} {way : Way} {body : rooms.JoinRequest} {request : Request} {room : Room}
    {session : SessionRecord} {token : Token} {w' : World}
    (hcookie : request.session_cookie = jar.map fun r => r.2)
    (hroom : way.room env (.of p w) = some room)
    (hr : server.Runs p (way.join env body request) w (.ok (session, token)) w') :
    History env (some (session, token)) w' (room.id :: joined)
      fun i => raised i + (users w' i - users w i)

/-- The cookie is the one of the room that was joined last. -/
structure Holds (env : Env) (jar : Jar) (joined : List ℕ) : Prop where
  last : joined.head? = jar.map fun r => r.1.room_id
  cookie : ∀ session token, jar = some (session, token) →
    session.session_token_hash = env.hash_token token ∧ token ≠ ""

section

variable {env : Env} {w w' : World} {p : ℕ} {jar : Jar} {joined : List ℕ} {room : Room}
  {request : Request}

/-- The session that the cookie names is one of the room exactly when the room was joined last. -/
theorem existing_of_lives (hlives : Lives env jar w) (hfree : w.db.Free)
    (hu : UniqueColumns w.db.committed) (hholds : Holds env jar joined)
    (hcookie : request.session_cookie = jar.map fun r => r.2) :
    existing env (.of p w) room request.session_cookie = none ↔ joined.head? ≠ some room.id := by
  rw [hholds.last, hcookie]
  rcases jar with - | ⟨session, token⟩
  · exact iff_of_true rfl fun h => by cases h
  obtain ⟨row, hrow, hid, hhash, hlive⟩ := hlives session token rfl
  have hne : token ≠ "" := (hholds.cookie session token rfl).2
  have hclean : (Serial.of p w).db.rows = w.db.committed := Snapshot.rows_of_free hfree
  have hsingle : (Serial.of p w).Single .sessions fun _ r =>
      r.session_token_hash == env.hash_token token && decide (w.now < r.expires_at) := by
    intro i j r r' hr hw hr' hw'
    simp only [Bool.and_eq_true, beq_iff_eq] at hw hw'
    rw [hclean] at hr hr'
    exact hu.session_token_hash i j r r' hr hr' (hw.1.trans hw'.1.symm)
  have hfound : (Serial.of p w).sessionBy (env.hash_token token) =
      some { row with id := session.id } := by
    have hmatch : (row.session_token_hash == env.hash_token token && decide (w.now < row.expires_at))
        = true := by
      rw [hhash, beq_self_eq_true, Bool.true_and]
      exact decide_eq_true hlive
    have hrow' : (Serial.of p w).db.rows .sessions session.id = some row := by rw [hclean, hrow]
    rw [Serial.sessionBy]
    exact congrArg (Option.map toSession) (Serial.find_of_single hsingle hrow' hmatch)
  have htruthy : roomService.truthy (some token) = some token := if_neg hne
  simp only [existing, Option.map_some, htruthy, Option.bind_some, hfound, ne_eq,
    Option.some.injEq, ← hid]
  by_cases hsame : row.room_id = room.id
  · simp [hsame]
  · simp [hsame]

/-- A session that exists is one of the room. -/
theorem room_of_existing {σ : Serial} {cookie : Option Token} {old : SessionRecord}
    (h : existing env σ room cookie = some old) : old.room_id = room.id := by
  obtain ⟨token, -, h⟩ := Option.bind_eq_some_iff.1 h
  obtain ⟨session, -, h⟩ := Option.bind_eq_some_iff.1 h
  split at h
  · next hid =>
    cases h
    exact hid
  · cases h

/-- A request to join keeps the cookie, and raises the number of users of a room only if the browser
comes to it from elsewhere. -/
theorem step {body : rooms.JoinRequest} {session : SessionRecord} {token : Token}
    (hlives : Lives env jar w) (hfree : w.db.Free) (hu : UniqueColumns w.db.committed)
    (htoken : w.tokens w.tokensUsed ≠ "") (hholds : Holds env jar joined)
    (hcookie : request.session_cookie = jar.map fun r => r.2)
    (h : Established env (.of p w) room body request.session_cookie session token
      w'.db.committed) :
    Holds env (some (session, token)) (room.id :: joined) ∧ ∀ i, users w' i - users w i =
      if room.id = i ∧ joined.head? ≠ some room.id then 1 else 0 := by
  have hiff := @existing_of_lives env w p jar joined room request hlives hfree hu hholds hcookie
  have hclean : (Serial.of p w).db.rows = w.db.committed := Snapshot.rows_of_free hfree
  rcases h with @⟨old, hold, h⟩ | ⟨hnone, h⟩
  -- The cookie is of this room, so the room was the last one that was joined.
  · have hlast : joined.head? = some room.id := by
      by_contra hne
      rw [hiff.2 hne] at hold
      cases hold
    -- The session is used again, and no counter moves.
    have hrenewed := h.renewed
    subst hrenewed
    refine ⟨⟨?_, ?_⟩, fun i => ?_⟩
    · exact congrArg some (room_of_existing hold).symm
    · rintro _ _ ⟨⟩
      exact ⟨h.hash, (roomService.truthy_eq_some.1 h.cookie).2⟩
    · have hrooms := congrFun h.rooms i
      rw [hclean] at hrooms
      rw [if_neg fun hi => hi.2 hlast, users, users, hrooms, Int.sub_self]
  · refine ⟨⟨congrArg some h.room_id.symm, ?_⟩, fun i => ?_⟩
    · rintro _ _ ⟨⟩
      refine ⟨h.hash, ?_⟩
      rw [h.generated]
      exact htoken
    · obtain ⟨row, hrow, hrooms⟩ := h.rooms
      rw [hclean] at hrow hrooms
      rw [users, users, hrooms i]
      by_cases hi : i = room.id
      · subst hi
        rw [if_pos rfl, if_pos ⟨rfl, hiff.1 hnone⟩, hrow]
        show row.user_count + 1 - row.user_count = 1
        omega
      · rw [if_neg hi, if_neg fun h => hi h.1.symm, Int.sub_self]

/-- What a history has raised is what it has arrived at. -/
theorem History.holds {raised : ℕ → ℤ} (h : History env jar w joined raised) :
    Holds env jar joined ∧ ∀ i, raised i = arrivals i joined := by
  induction h with
  | start w => exact ⟨⟨rfl, by rintro _ _ ⟨⟩⟩, fun i => rfl⟩
  | other h w' ih => exact ih
  | @join jar w joined raised h hlives hfree hu htoken p way body request room session token w'
      hcookie hroom hr ih =>
    have hclean : (Serial.of p w).db.rows = w.db.committed := Snapshot.rows_of_free hfree
    have hu' : UniqueColumns (Serial.of p w).db.rows := hclean.symm ▸ hu
    obtain ⟨room', hroom', hjoins⟩ :=
      (@yields_join env (.of p w) body hu' way request).of_runs hr hfree
    rw [hroom] at hroom'
    cases hroom'
    obtain ⟨hholds, hcount⟩ := step hlives hfree hu htoken ih.1 hcookie hjoins
    refine ⟨hholds, fun i => ?_⟩
    have hi := ih.2 i
    show raised i + (users w' i - users w i) = arrivals i (room.id :: joined)
    rw [hcount i, arrivals]
    split <;> omega

end

end visits

open visits

/-- The requests of a browser that joins rooms, one after the other, raise the number of users of each
by one if and only if the browser does not come back to a room after it has joined another. -/
theorem visits_raise_once_iff {env : Env} {jar : Jar} {w : World} {joined : List ℕ} {raised : ℕ → ℤ}
    (h : History env jar w joined raised) :
    (∀ i ∈ joined, raised i = 1) ↔ ∀ i b, b ≠ i → ¬[i, b, i].Sublist joined := by
  have hraised := h.holds.2
  constructor
  · intro hone i b hb hsub
    have hmem : i ∈ joined := hsub.subset List.mem_cons_self
    have hcount : arrivals i joined = 1 := by
      have hi := hone i hmem
      rw [hraised i] at hi
      omega
    exact (arrivals_eq_one_iff hmem).1 hcount b hb hsub
  · intro hnone i hmem
    rw [hraised i, (arrivals_eq_one_iff hmem).2 fun b hb => hnone i b hb]
    rfl

namespace visits

/-- A server with some rooms and sessions that has generated some tokens. -/
def town (rooms : List RoomRow) (sessions : List SessionRow) (tokensUsed : ℕ) : World :=
  { World.holding rooms sessions [] with tokensUsed }

/-- Two rooms, with the given numbers of users. -/
def first (user_count : ℤ) : RoomRow := { RoomRow.plain with user_count }

/-- The other room. -/
def second (user_count : ℤ) : RoomRow :=
  { RoomRow.plain with
    room_code := "D"
    access_token_hash := "b"
    access_token_signed := some "b"
    user_count }

/-- A session of a browser. -/
def guest (room_id : ℕ) (session_token_hash : TokenHash) : SessionRow :=
  { SessionRow.owner with room_id, session_token_hash, role := .guest }

/-- The request of a browser that has a cookie. -/
def browse (session_cookie : Option Token) : Request := { Request.owner with session_cookie }

end visits

/-- A browser joins a room, joins it again, and then joins another. -/
theorem visits_raise_once_again : ∃ jar w raised, History .plain jar w [1, 0, 0] raised ∧
    raised 0 = 1 ∧ raised 1 = 1 := by
  obtain ⟨⟨s₁, t₁⟩, h₁, hr₁⟩ := calm.exists_runs_ok 0
    ((Way.token "a").join .plain ⟨none, none, none⟩ (browse none)) (town [first 0, second 0] [] 0)
    (fun r => (r.1.id, r.1.room_id, r.2)) (b := (0, 0, "t")) (by decide)
  obtain ⟨⟨s₂, t₂⟩, h₂, hr₂⟩ := calm.exists_runs_ok 0
    ((Way.token "a").join .plain ⟨none, none, none⟩ (browse (some "t")))
    (town [first 1, second 0] [guest 0 "t"] 1)
    (fun r => (r.1.id, r.1.room_id, r.2)) (b := (0, 0, "t")) (by decide)
  obtain ⟨⟨s₃, t₃⟩, -, hr₃⟩ := calm.exists_runs_ok 0
    ((Way.token "b").join .plain ⟨none, none, none⟩ (browse (some "t")))
    (town [first 1, second 0] [guest 0 "t"] 1) (fun r => r.2) (b := "tt") (by decide)
  simp only [Prod.mk.injEq] at h₁ h₂
  obtain ⟨hid₁, hroom₁, rfl⟩ := h₁
  obtain ⟨hid₂, hroom₂, rfl⟩ := h₂
  have hfound₁ : (Way.token "a").room .plain (.of 0 (town [first 0, second 0] [] 0)) =
      some { first 0 with id := 0 } := by decide
  have hfound₂ : (Way.token "a").room .plain (.of 0 (town [first 1, second 0] [guest 0 "t"] 1)) =
      some { first 1 with id := 0 } := by decide
  have hfound₃ : (Way.token "b").room .plain (.of 0 (town [first 1, second 0] [guest 0 "t"] 1)) =
      some { second 0 with id := 1 } := by decide
  have hlives : ∀ session : SessionRecord, session.id = 0 → 0 = session.room_id →
      Lives .plain (some (session, "t")) (town [first 1, second 0] [guest 0 "t"] 1) := by
    rintro session hid hroom _ _ ⟨⟩
    refine ⟨guest 0 "t", ?_, hroom, rfl, by decide⟩
    rw [hid]
    rfl
  have hjoin₁ := History.join (.start _) (fun _ _ h => by cases h) World.holding_free
    (World.holding_unique (by decide) (by decide) (by decide)) (by decide) rfl hfound₁
    (server_of_calm hr₁)
  have hjoin₂ := History.join (hjoin₁.other _) (hlives s₁ hid₁ hroom₁.symm) World.holding_free
    (World.holding_unique (by decide) (by decide) (by decide)) (by decide) rfl hfound₂
    (server_of_calm hr₂)
  have hjoin₃ := History.join (hjoin₂.other _) (hlives s₂ hid₂ hroom₂.symm) World.holding_free
    (World.holding_unique (by decide) (by decide) (by decide)) (by decide) rfl hfound₃
    (server_of_calm hr₃)
  have hnone : ∀ i b, b ≠ i → ¬[i, b, i].Sublist [1, 0, 0] := by
    intro i b hb hsub
    have heq : [i, b, i] = [1, 0, 0] := hsub.eq_of_length rfl
    simp only [List.cons.injEq] at heq
    omega
  have hone := (visits_raise_once_iff hjoin₃).2 hnone
  exact ⟨_, _, _, hjoin₃, hone 0 (by decide), hone 1 (by decide)⟩

/-- A browser joins a room, then another, and then the first one again. -/
theorem visits_raise_twice : ∃ jar w raised, History .plain jar w [0, 1, 0] raised ∧
    raised 0 = 2 := by
  obtain ⟨⟨s₁, t₁⟩, h₁, hr₁⟩ := calm.exists_runs_ok 0
    ((Way.token "a").join .plain ⟨none, none, none⟩ (browse none)) (town [first 0, second 0] [] 0)
    (fun r => (r.1.id, r.1.room_id, r.2)) (b := (0, 0, "t")) (by decide)
  obtain ⟨⟨s₂, t₂⟩, h₂, hr₂⟩ := calm.exists_runs_ok 0
    ((Way.token "b").join .plain ⟨none, none, none⟩ (browse (some "t")))
    (town [first 1, second 0] [guest 0 "t"] 1)
    (fun r => (r.1.id, r.1.room_id, r.2)) (b := (1, 1, "tt")) (by decide)
  obtain ⟨⟨s₃, t₃⟩, -, hr₃⟩ := calm.exists_runs_ok 0
    ((Way.token "a").join .plain ⟨none, none, none⟩ (browse (some "tt")))
    (town [first 1, second 1] [guest 0 "t", guest 1 "tt"] 2)
    (fun r => r.2) (b := "ttt") (by decide)
  simp only [Prod.mk.injEq] at h₁ h₂
  obtain ⟨hid₁, hroom₁, rfl⟩ := h₁
  obtain ⟨hid₂, hroom₂, rfl⟩ := h₂
  have hfound₁ : (Way.token "a").room .plain (.of 0 (town [first 0, second 0] [] 0)) =
      some { first 0 with id := 0 } := by decide
  have hfound₂ : (Way.token "b").room .plain (.of 0 (town [first 1, second 0] [guest 0 "t"] 1)) =
      some { second 0 with id := 1 } := by decide
  have hfound₃ : (Way.token "a").room .plain
      (.of 0 (town [first 1, second 1] [guest 0 "t", guest 1 "tt"] 2)) =
      some { first 1 with id := 0 } := by decide
  have hjoin₁ := History.join (.start _) (fun _ _ h => by cases h) World.holding_free
    (World.holding_unique (by decide) (by decide) (by decide)) (by decide) rfl hfound₁
    (server_of_calm hr₁)
  have hlives₁ : Lives .plain (some (s₁, "t")) (town [first 1, second 0] [guest 0 "t"] 1) := by
    rintro _ _ ⟨⟩
    refine ⟨guest 0 "t", ?_, hroom₁.symm, rfl, by decide⟩
    rw [hid₁]
    rfl
  have hjoin₂ := History.join (hjoin₁.other _) hlives₁ World.holding_free
    (World.holding_unique (by decide) (by decide) (by decide)) (by decide) rfl hfound₂
    (server_of_calm hr₂)
  have hlives₂ : Lives .plain (some (s₂, "tt"))
      (town [first 1, second 1] [guest 0 "t", guest 1 "tt"] 2) := by
    rintro _ _ ⟨⟩
    refine ⟨guest 1 "tt", ?_, hroom₂.symm, rfl, by decide⟩
    rw [hid₂]
    rfl
  have hjoin₃ := History.join (hjoin₂.other _) hlives₂ World.holding_free
    (World.holding_unique (by decide) (by decide) (by decide)) (by decide) rfl hfound₃
    (server_of_calm hr₃)
  exact ⟨_, _, _, hjoin₃, hjoin₃.holds.2 0⟩

end DropRoom
