import DropRoom.App.Api
import DropRoom.App.Rules
import Mathlib.Data.Finset.Card

/-!
# The race for the free slots of a room

`n` joins of one room, in any order of their commands. The monitor follows one join through its
steps. The committed `user_count` has grown by the number of joins that have won, the row is locked
only by a join that has taken a free slot, and a join has lost only when the room was full, so the
number of winners is exact. The stage `broken` is entered when a command is answered as it cannot be
during the race.
-/

namespace DropRoom

open Effect Store

namespace race

/-- How far a join has come: it has read the room, it holds the room's row with its slot taken, or
it is over. A process that does not take part is `idle`. -/
inductive Stage
  | idle | outside | holding | won | lost | broken
  deriving DecidableEq

/-- The room `r₀` after `k` more users have joined. -/
def joined (r₀ : RoomRow) (k : ℕ) : RoomRow := { r₀ with user_count := r₀.user_count + k }

/-- The row is that of the room, up to the number of users. -/
abbrev Same (r₀ r : RoomRow) : Prop := { r with user_count := r₀.user_count } = r₀

/-- A room that is selected by the hash of its access token. -/
def byHash (h : TokenHash) : ℕ → RoomRow → Bool := fun _ r => r.access_token_hash == h

/-- The commands of a join, by its stage. -/
inductive Allowed (ρ : ℕ) (r₀ : RoomRow) : Stage → Cmd → Prop
  | read : Allowed ρ r₀ .outside (.sql (.select .rooms (byHash r₀.access_token_hash)))
  | clock : Allowed ρ r₀ .outside .utcnow
  | take : Allowed ρ r₀ .outside (.sql (.updateAt .rooms ρ .incrementUserCount))
  | token : Allowed ρ r₀ .holding .generateToken
  | stamp : Allowed ρ r₀ .holding .utcnow
  | newSession (session : SessionRow) : Allowed ρ r₀ .holding (.sql (.insert .sessions session))
  | commit : Allowed ρ r₀ .holding (.sql .commit)
  | closeWon : Allowed ρ r₀ .won (.sql .rollback)
  | closeLost : Allowed ρ r₀ .lost (.sql .rollback)
  | broken (c : Cmd) : Allowed ρ r₀ .broken c

/-- The stage after a command was answered. -/
def next (ρ : ℕ) (r₀ : RoomRow) : Stage → (c : Cmd) → Except Err (Resp c) → Stage
  | .broken, _, _ => .broken
  | _, _, .error _ => .broken
  | .outside, .sql (.select .rooms _), .ok rows => match rows with
    | [(i, r)] => if i = ρ ∧ Same r₀ r then .outside else .broken
    | _ => .broken
  | .outside, .utcnow, .ok now => if now < r₀.expires_at then .outside else .broken
  | .outside, .sql (.updateAt .rooms _ _), .ok ok => if ok then .holding else .lost
  | .holding, .sql .commit, .ok _ => .won
  | stage, _, _ => stage

/-- The protocol of a join of room `ρ`. -/
def monitor (ρ : ℕ) (r₀ : RoomRow) : Monitor Cmd Resp Err Stage := ⟨Allowed ρ r₀, next ρ r₀⟩

/-- The number of joins that have been committed. -/
def wins (n : ℕ) (φ : ℕ → Stage) : ℕ := ((Finset.range n).filter fun p => φ p = .won).card

/-- A step that neither starts nor ends with a win leaves their number. -/
theorem wins_update {n p : ℕ} {φ : ℕ → Stage} {s : Stage} (h : φ p = .won ↔ s = .won) :
    wins n (Function.update φ p s) = wins n φ := by
  refine congrArg Finset.card (Finset.filter_congr fun q _ => ?_)
  by_cases hq : q = p
  · subst hq
    rw [Function.update_self, h]
  · rw [Function.update_of_ne hq]

/-- A win adds one. -/
theorem wins_win {n p : ℕ} {φ : ℕ → Stage} (hp : p < n) (h : φ p ≠ .won) :
    wins n (Function.update φ p .won) = wins n φ + 1 := by
  have hset : ((Finset.range n).filter fun q => Function.update φ p .won q = .won) =
      Insert.insert p ((Finset.range n).filter fun q => φ q = .won) := by
    ext q
    by_cases hq : q = p
    · subst hq
      simp [hp]
    · simp [hq]
  rw [wins, hset, Finset.card_insert_of_notMem (by simp [h]), wins]

/-- The invariant of a race of `n` joins for room `ρ`, which was `r₀` in `w₀`. -/
structure Inv (n ρ : ℕ) (r₀ : RoomRow) (w₀ w : World) (φ : ℕ → Stage) : Prop where
  /-- No other room is touched. -/
  others : ∀ i ≠ ρ, w.db.cell .rooms i = w₀.db.cell .rooms i
  /-- The joins that have won are counted. -/
  committed : w.db.committed .rooms ρ = some (joined r₀ (wins n φ))
  fits : r₀.user_count + wins n φ ≤ r₀.max_users
  /-- The row is locked by a join that has taken a free slot. -/
  draft : ∀ q v, (w.db.cell .rooms ρ).lock = some (q, v) → φ q = .holding ∧
    v = some (joined r₀ (wins n φ + 1)) ∧ r₀.user_count + wins n φ < r₀.max_users
  holds : ∀ q, φ q = .holding → ∃ v, (w.db.cell .rooms ρ).lock = some (q, v)
  /-- A join is refused only when the room is full. -/
  full : ∀ q, φ q = .lost → r₀.user_count + wins n φ = r₀.max_users
  whole : ∀ q, φ q ≠ .broken
  idle : ∀ q, φ q ≠ .idle ↔ q < n

variable {n p ρ : ℕ} {r₀ : RoomRow} {w₀ w w' : World} {φ : ℕ → Stage}

/-- A join that does not hold the row sees it as committed. -/
theorem Inv.get_eq (I : Inv n ρ r₀ w₀ w φ) (h : φ p ≠ .holding) :
    w.db.get p .rooms ρ = some (joined r₀ (wins n φ)) := by
  rw [← I.committed]
  exact Cell.view_of_ne fun v hv => h (I.draft p v hv).1

/-- A join that may write the row, and does not hold it, finds it free. -/
theorem Inv.lock_eq (I : Inv n ρ r₀ w₀ w φ) (h : φ p ≠ .holding)
    (hl : (w.db.cell .rooms ρ).heldByOther p = false) : (w.db.cell .rooms ρ).lock = none := by
  rcases Cell.heldByOther_eq_false.1 hl with hl | ⟨v, hl⟩
  · exact hl
  · exact absurd (I.draft p v hl).1 h

/-- What leaves the rooms alone keeps the invariant. -/
theorem Inv.keep (I : Inv n ρ r₀ w₀ w φ)
    (h : ∀ i, w'.db.cell .rooms i = w.db.cell .rooms i) : Inv n ρ r₀ w₀ w' φ where
  others i hi := (h i).trans (I.others i hi)
  committed := by
    rw [Tables.committed, h]
    exact I.committed
  fits := I.fits
  draft q v hl := I.draft q v (h ρ ▸ hl)
  holds q hq := by
    rw [h]
    exact I.holds q hq
  full := I.full
  whole := I.whole
  idle := I.idle

/-- Taking a slot keeps the invariant. -/
theorem Inv.take (I : Inv n ρ r₀ w₀ w φ) (hp : φ p = .outside)
    (hl : (w.db.cell .rooms ρ).heldByOther p = false)
    (hlt : r₀.user_count + wins n φ < r₀.max_users)
    (ho : ∀ i ≠ ρ, w'.db.cell .rooms i = w.db.cell .rooms i)
    (hw : w'.db.cell .rooms ρ =
      (w.db.cell .rooms ρ).write p (some (joined r₀ (wins n φ + 1)))) :
    Inv n ρ r₀ w₀ w' (Function.update φ p .holding) := by
  -- Nobody holds the row, so the count that is checked is the committed one.
  have hfree := I.lock_eq (by rw [hp]; decide) hl
  have hwins : wins n (Function.update φ p .holding) = wins n φ := wins_update (by simp [hp])
  constructor <;> try simp only [hwins]
  case others => exact fun i hi => (ho i hi).trans (I.others i hi)
  case committed =>
    rw [Tables.committed, hw]
    exact I.committed
  case fits => exact I.fits
  case draft =>
    intro q v hq
    rw [hw] at hq
    cases hq
    exact ⟨Function.update_self .., rfl, hlt⟩
  case holds =>
    refine (Function.forall_update_iff φ fun q s => s = .holding → _).2 ⟨fun _ => ?_, ?_⟩
    · exact ⟨_, by rw [hw]; rfl⟩
    · intro q _ hq
      obtain ⟨v, hv⟩ := I.holds q hq
      rw [hfree] at hv
      cases hv
  case full =>
    exact (Function.forall_update_iff φ fun q s => s = .lost → _).2
      ⟨fun h => absurd h (by decide), fun q _ => I.full q⟩
  case whole =>
    exact (Function.forall_update_iff φ fun q s => s ≠ .broken).2
      ⟨by decide, fun q _ => I.whole q⟩
  case idle =>
    exact (Function.forall_update_iff φ fun q s => s ≠ .idle ↔ q < n).2
      ⟨iff_of_true (by decide) ((I.idle p).1 (by rw [hp]; decide)), fun q _ => I.idle q⟩

/-- Being refused keeps the invariant. -/
theorem Inv.refuse (I : Inv n ρ r₀ w₀ w φ) (hp : φ p = .outside)
    (hfull : ¬r₀.user_count + wins n φ < r₀.max_users) :
    Inv n ρ r₀ w₀ w (Function.update φ p .lost) := by
  have hwins : wins n (Function.update φ p .lost) = wins n φ := wins_update (by simp [hp])
  have hfits := I.fits
  constructor <;> try simp only [hwins]
  case others => exact I.others
  case committed => exact I.committed
  case fits => exact hfits
  case draft =>
    intro q v hq
    obtain ⟨hq', hv⟩ := I.draft q v hq
    have hqp : q ≠ p := by
      rintro rfl
      rw [hp] at hq'
      cases hq'
    rw [Function.update_of_ne hqp]
    exact ⟨hq', hv⟩
  case holds =>
    exact (Function.forall_update_iff φ fun q s => s = .holding → _).2
      ⟨fun h => absurd h (by decide), fun q _ => I.holds q⟩
  case full => exact fun q _ => by omega
  case whole =>
    exact (Function.forall_update_iff φ fun q s => s ≠ .broken).2
      ⟨by decide, fun q _ => I.whole q⟩
  case idle =>
    exact (Function.forall_update_iff φ fun q s => s ≠ .idle ↔ q < n).2
      ⟨iff_of_true (by decide) ((I.idle p).1 (by rw [hp]; decide)), fun q _ => I.idle q⟩

/-- Committing a slot that was taken keeps the invariant. -/
theorem Inv.win (I : Inv n ρ r₀ w₀ w φ) (hp : φ p = .holding)
    (ho : ∀ i ≠ ρ, w'.db.cell .rooms i = w.db.cell .rooms i)
    (hw : w'.db.cell .rooms ρ = (w.db.cell .rooms ρ).commit p) :
    Inv n ρ r₀ w₀ w' (Function.update φ p .won) := by
  -- The draft of the process is what is committed.
  obtain ⟨v, hl⟩ := I.holds p hp
  obtain ⟨-, rfl, hlt⟩ := I.draft p v hl
  rw [Cell.commit_of_lock hl] at hw
  have hwins : wins n (Function.update φ p .won) = wins n φ + 1 :=
    wins_win ((I.idle p).1 (by rw [hp]; decide)) (by rw [hp]; decide)
  constructor <;> try simp only [hwins]
  case others => exact fun i hi => (ho i hi).trans (I.others i hi)
  case committed => rw [Tables.committed, hw]
  case fits =>
    push_cast
    omega
  case draft =>
    intro q v hq
    rw [hw] at hq
    cases hq
  case holds =>
    refine (Function.forall_update_iff φ fun q s => s = .holding → _).2
      ⟨fun h => absurd h (by decide), ?_⟩
    intro q hqp hq
    obtain ⟨v, hv⟩ := I.holds q hq
    rw [hl] at hv
    cases hv
    exact absurd rfl hqp
  case full =>
    refine (Function.forall_update_iff φ fun q s => s = .lost → _).2
      ⟨fun h => absurd h (by decide), ?_⟩
    intro q _ hq
    have hfull := I.full q hq
    omega
  case whole =>
    exact (Function.forall_update_iff φ fun q s => s ≠ .broken).2
      ⟨by decide, fun q _ => I.whole q⟩
  case idle =>
    exact (Function.forall_update_iff φ fun q s => s ≠ .idle ↔ q < n).2
      ⟨iff_of_true (by decide) ((I.idle p).1 (by rw [hp]; decide)), fun q _ => I.idle q⟩

/-- The update that takes a slot. -/
theorem joined_set (k : ℕ) :
    RoomUpdate.set .incrementUserCount (joined r₀ k) = joined r₀ (k + 1) := by
  simp [RoomUpdate.set, joined, Int.add_assoc]

/-- Reading the room by its token returns it, as it was up to the number of users. -/
theorem Inv.select_eq (I : Inv n ρ r₀ w₀ w φ) (hp : φ p ≠ .holding)
    (hfree : ∀ i, (w₀.db.cell .rooms i).lock = none)
    (huniq : ∀ i r, w₀.db.committed .rooms i = some r →
      r.access_token_hash = r₀.access_token_hash → i = ρ) :
    w.db.select p .rooms (byHash r₀.access_token_hash) = [(ρ, joined r₀ (wins n φ))] := by
  refine Tables.select_eq_singleton (I.get_eq hp) (beq_self_eq_true _) fun i r hr hh => ?_
  by_contra hi
  rw [Tables.get, I.others i hi, Cell.view_of_free (hfree i)] at hr
  exact hi (huniq i r hr (eq_of_beq hh))

/-- A rollback of a join that holds nothing changes nothing. -/
theorem Inv.rollback (I : Inv n ρ r₀ w₀ w φ) (hp : φ p ≠ .holding)
    (hfree : ∀ i, (w₀.db.cell .rooms i).lock = none) :
    Inv n ρ r₀ w₀ { w with db := w.db.rollback p } φ := by
  refine I.keep fun i => ?_
  rw [Tables.cell_rollback]
  refine Cell.rollback_of_ne fun v hv => ?_
  by_cases hi : i = ρ
  · subst hi
    exact hp (I.draft p v hv).1
  · rw [I.others i hi, hfree i] at hv
    cases hv

/-- A command that spares the rooms and leaves the stage as it is keeps the invariant. -/
theorem Inv.spare (I : Inv n ρ r₀ w₀ w φ) {c : Cmd} {x} (hc : ∀ i, c.Spares .rooms i)
    (hn : next ρ r₀ (φ p) c x = φ p) (h : reliable.Answer p c w x w') :
    Inv n ρ r₀ w₀ w' (Function.update φ p (next ρ r₀ (φ p) c x)) := by
  rw [hn, Function.update_eq_self]
  exact I.keep fun i => reliable_faithful.cell_of_spares h (hc i)

/-- The end of the request of a join that is over. -/
theorem Inv.close (I : Inv n ρ r₀ w₀ w φ) (hfree : ∀ i, (w₀.db.cell .rooms i).lock = none)
    (hp : φ p = .won ∨ φ p = .lost) {x} (h : reliable.Answer p (.sql .rollback) w x w') :
    Inv n ρ r₀ w₀ w' (Function.update φ p (next ρ r₀ (φ p) (.sql .rollback) x)) := by
  obtain ⟨a, db, hq, rfl, rfl⟩ := reliable_sql h
  cases hq
  have hn : next ρ r₀ (φ p) (.sql .rollback) (.ok ()) = φ p := by
    rcases hp with hp | hp <;> rw [hp] <;> rfl
  have hholding : φ p ≠ .holding := by
    rcases hp with hp | hp <;> rw [hp] <;> decide
  rw [hn, Function.update_eq_self]
  exact I.rollback hholding hfree

/-- A join that has not taken a slot yet. -/
theorem Inv.step_outside (I : Inv n ρ r₀ w₀ w φ) (hp : φ p = .outside)
    (hfree : ∀ i, (w₀.db.cell .rooms i).lock = none)
    (huniq : ∀ i r, w₀.db.committed .rooms i = some r →
      r.access_token_hash = r₀.access_token_hash → i = ρ)
    {c : Cmd} {x} (ha : Allowed ρ r₀ .outside c) (ht : w.now < r₀.expires_at)
    (h : reliable.Answer p c w x w') :
    Inv n ρ r₀ w₀ w' (Function.update φ p (next ρ r₀ (φ p) c x)) := by
  have hget := I.get_eq (p := p) (by rw [hp]; decide)
  cases ha with
  | read =>
    refine I.spare (fun _ => trivial) ?_ h
    obtain ⟨a, db, hq, rfl, rfl⟩ := reliable_sql h
    cases hq
    rw [hp, I.select_eq (by rw [hp]; decide) hfree huniq]
    exact if_pos ⟨rfl, rfl⟩
  | clock =>
    refine I.spare (fun _ => trivial) ?_ h
    cases reliable_exec h
    rw [hp]
    exact if_pos ht
  | take =>
    obtain ⟨b, db, hq, rfl, rfl⟩ := reliable_sql h
    rw [hp]
    rcases Tables.updateAt_cases hq with ⟨rfl, rfl, hr⟩ | ⟨rfl, r, hr, hc, hl, rfl⟩
    · exact I.refuse hp (of_decide_eq_false (hr _ hget))
    · obtain rfl : r = _ := Option.some.inj (hr.symm.trans hget)
      refine I.take hp hl (of_decide_eq_true hc) (fun i hi => Tables.cell_setCell_of_ne hi) ?_
      rw [Tables.cell_setCell_self (Tables.lt_length_of_get hget)]
      exact congrArg (fun r => (w.db.cell .rooms ρ).write p (some r)) (joined_set _)

/-- A join that has taken a slot. -/
theorem Inv.step_holding (I : Inv n ρ r₀ w₀ w φ) (hp : φ p = .holding)
    (hfree : ∀ i, (w₀.db.cell .rooms i).lock = none) {c : Cmd} {x}
    (ha : Allowed ρ r₀ .holding c) (h : reliable.Answer p c w x w') :
    Inv n ρ r₀ w₀ w' (Function.update φ p (next ρ r₀ (φ p) c x)) := by
  cases ha with
  | token =>
    cases reliable_exec h
    exact I.spare (fun _ => trivial) (by rw [hp]; rfl) h
  | stamp =>
    cases reliable_exec h
    exact I.spare (fun _ => trivial) (by rw [hp]; rfl) h
  | newSession session =>
    refine I.spare (fun _ => (by decide : Table.sessions ≠ .rooms)) ?_ h
    obtain ⟨i, db, hq, rfl, rfl⟩ := reliable_sql h
    rw [hp]
    rfl
  | commit =>
    obtain ⟨a, db, hq, rfl, rfl⟩ := reliable_sql h
    cases hq
    rw [hp]
    refine I.win hp (fun i hi => ?_) (Tables.cell_commit _ _)
    exact (Tables.cell_commit _ _).trans (Cell.commit_of_ne (by simp [I.others i hi, hfree i]))

/-- Every command of a join keeps the invariant while the room has not expired. -/
theorem Inv.step (I : Inv n ρ r₀ w₀ w φ) (hfree : ∀ i, (w₀.db.cell .rooms i).lock = none)
    (huniq : ∀ i r, w₀.db.committed .rooms i = some r →
      r.access_token_hash = r₀.access_token_hash → i = ρ)
    {c : Cmd} {x} (ha : Allowed ρ r₀ (φ p) c) (ht : w.now < r₀.expires_at)
    (h : reliable.Answer p c w x w') :
    Inv n ρ r₀ w₀ w' (Function.update φ p (next ρ r₀ (φ p) c x)) := by
  obtain ⟨s, hs⟩ : ∃ s, φ p = s := ⟨_, rfl⟩
  rw [hs] at ha
  cases s with
  | idle => cases ha
  | outside => exact I.step_outside hs hfree huniq ha ht h
  | holding => exact I.step_holding hs hfree ha h
  | won =>
    cases ha
    exact I.close hfree (.inl hs) h
  | lost =>
    cases ha
    exact I.close hfree (.inr hs) h
  | broken => exact absurd hs (I.whole p)

/-! ### A join keeps to the protocol -/

/-- The credentials with which a join is admitted: the owner's token, or the password where there
is one. -/
def ValidCredentials (env : Env) (room : RoomRow) (body : rooms.JoinRequest) : Prop :=
  match PyStr.truthy body.owner_token with
  | some owner_token => owner_token.encode.map env.hash_token = some room.owner_token_hash
  | none => match roomService.truthy room.password_hash with
    | some password_hash => ∃ password, roomService.truthy body.password = some password ∧
      env.verify_password password password_hash = true
    | none => True

/-- With valid credentials the role is found. -/
theorem resolveRole_eq {env : Env} (room : Room) {body : rooms.JoinRequest}
    (h : ValidCredentials env room.toRoomRow body) :
    ∃ role, roomService.resolveRole env room body.password body.owner_token = .ret role := by
  unfold ValidCredentials at h
  unfold roomService.resolveRole
  split
  · next owner_token ho =>
    rw [ho] at h
    obtain ⟨token, htoken, hhash⟩ := Option.map_eq_some_iff.1 h
    refine ⟨.owner, ?_⟩
    rw [roomService.hashToken, htoken]
    exact congrArg (· >>= fun _ => (pure .owner : Op Role)) (Prog.require_pos hhash.symm _)
  · next ho =>
    rw [ho] at h
    dsimp only at h
    split
    · next password_hash hp =>
      rw [hp] at h
      obtain ⟨password, hpw, hv⟩ := h
      exact ⟨.guest, by rw [hpw]; dsimp only; rw [Prog.require_pos hv]; rfl⟩
    · exact ⟨.guest, rfl⟩

variable {α : Type} {r : RoomRow}

/-- The status is that of the start. -/
theorem Same.status (h : Same r₀ r) : r.status = r₀.status := (congrArg RoomRow.status h :)

/-- The end of the room is that of the start. -/
theorem Same.expires_at (h : Same r₀ r) : r.expires_at = r₀.expires_at :=
  (congrArg RoomRow.expires_at h :)

/-- Credentials that are good for the room stay so. -/
theorem Same.validCredentials (h : Same r₀ r) {env : Env} {body : rooms.JoinRequest}
    (hv : ValidCredentials env r₀ body) : ValidCredentials env r body := by
  have ho : r.owner_token_hash = r₀.owner_token_hash := (congrArg RoomRow.owner_token_hash h :)
  have hp : r.password_hash = r₀.password_hash := (congrArg RoomRow.password_hash h :)
  rwa [ValidCredentials, ho, hp]

/-- What has left the order of the stages stays out of it. -/
theorem sink : (monitor ρ r₀).Sink .broken := ⟨.broken, fun _ _ => rfl⟩

/-- One command of a join. -/
theorem ask {c : Cmd} {s : Stage} {Q : Except Err (Resp c) → Stage → Prop}
    (ha : Allowed ρ r₀ s c) (hx : ∀ x, Monitor.orSink .broken Q x (next ρ r₀ s c x)) :
    (issue c).wp (monitor ρ r₀).trans (Monitor.orSink .broken Q) s :=
  (wp_issue (monitor ρ r₀).trans_monotone c _ s).2 ⟨ha, hx⟩

/-- Reading the room returns it. -/
theorem getRoomByToken_wp (env : Env) {token : Token}
    (htoken : env.hash_token token = r₀.access_token_hash) :
    (getRoomByToken env token).wp (monitor ρ r₀).trans (Monitor.orSink .broken fun x s =>
      s = .outside ∧ ∃ r, x = .ok (toRoom (ρ, r)) ∧ Same r₀ r) .outside := by
  have hread : (roomRepository.getRoomByAccessToken env token).wp (monitor ρ r₀).trans
      (Monitor.orSink .broken fun x s =>
        s = .outside ∧ ∃ r, x = .ok (some (toRoom (ρ, r))) ∧ Same r₀ r) .outside := by
    refine sink.bind (ask (Q := fun x s => s = .outside ∧ ∃ r, x = .ok [(ρ, r)] ∧ Same r₀ r)
      (htoken ▸ .read) ?_) ?_ ?_
    · rintro (e | rows)
      · exact .inl rfl
      · cases rows with
        | nil => exact .inl rfl
        | cons a rows =>
          obtain ⟨i, r⟩ := a
          cases rows with
          | cons b rows => exact .inl rfl
          | nil =>
            by_cases h : i = ρ ∧ Same r₀ r
            · obtain ⟨rfl, h⟩ := h
              exact .inr ⟨if_pos ⟨rfl, h⟩, r, rfl, h⟩
            · exact .inl (if_neg h)
    · rintro rows s ⟨rfl, r, hr, h⟩
      cases hr
      exact .inr ⟨rfl, r, rfl, h⟩
    · rintro e s ⟨-, r, hr, -⟩
      cases hr
  refine sink.bind hread ?_ ?_
  · rintro room s ⟨rfl, r, hr, h⟩
    cases hr
    exact .inr ⟨rfl, r, rfl, h⟩
  · rintro e s ⟨-, r, hr, -⟩
    cases hr

/-- The room may be joined. -/
theorem assertJoinable_wp {room : Room} (h : Same r₀ room.toRoomRow)
    (hactive : r₀.status = .active) :
    (roomService.assertJoinable room).wp (monitor ρ r₀).trans
      (Monitor.orSink .broken fun x s => s = .outside ∧ x = .ok ()) .outside := by
  have hs : room.status = .active := h.status.trans hactive
  have hnow : (hasExpired room.expires_at).wp (monitor ρ r₀).trans
      (Monitor.orSink .broken fun x s => s = .outside ∧ x = .ok false) .outside := by
    refine sink.bind (ask (Q := fun x s => s = .outside ∧ ∃ t, x = .ok t ∧ t < r₀.expires_at)
      .clock ?_) ?_ ?_
    · rintro (e | t)
      · exact .inl rfl
      · by_cases ht : t < r₀.expires_at
        · exact .inr ⟨if_pos ht, t, rfl, ht⟩
        · exact .inl (if_neg ht)
    · rintro t s ⟨rfl, t', ht', hlt⟩
      cases ht'
      refine .inr ⟨rfl, congrArg Except.ok (decide_eq_false ?_)⟩
      rw [h.expires_at]
      exact Nat.not_le.2 hlt
    · rintro e s ⟨-, t, ht, -⟩
      cases ht
  unfold roomService.assertJoinable
  rw [hs, Prog.require_pos ⟨by decide, by decide⟩, Prog.require_pos rfl, Prog.ret_bind,
    Prog.ret_bind]
  refine sink.bind hnow ?_ ?_
  · rintro b s ⟨rfl, hb⟩
    cases hb
    exact .inr ⟨rfl, rfl⟩
  · rintro e s ⟨-, he⟩
    cases he

/-- A join ends with its slot taken, or refused because the room is full. -/
def Joined (x : Except Err α) (s : Stage) : Prop :=
  match x with
  | .ok _ => s = .holding
  | .error e => e = error .roomFull "" ∧ s = .lost

/-- A join with good credentials, from its checks on. -/
theorem joinRoom_wp {env : Env} {room : Room} {body : rooms.JoinRequest} (hid : room.id = ρ)
    (h : Same r₀ room.toRoomRow) (hactive : r₀.status = .active)
    (hv : ValidCredentials env r₀ body) :
    (roomService.joinRoom env room body.display_name body.password body.owner_token).wp
      (monitor ρ r₀).trans (Monitor.orSink .broken Joined) .outside := by
  obtain ⟨role, hrole⟩ := resolveRole_eq room (h.validCredentials hv)
  refine sink.bind (assertJoinable_wp h hactive) ?_ (by rintro e s ⟨-, he⟩; cases he)
  rintro _ s ⟨rfl, -⟩
  rw [hrole, Prog.ret_bind]
  refine sink.bind (ask (Q := fun x s => ∃ b, x = .ok b ∧ s = if b then .holding else .lost)
    (hid ▸ .take) ?_) ?_ (by rintro e s ⟨b, hb, -⟩; cases hb)
  · rintro (e | b)
    · exact .inl rfl
    · exact .inr ⟨b, rfl, rfl⟩
  -- The claim says whether there was a slot.
  rintro ok s ⟨b, hb, rfl⟩
  cases hb
  cases ok with
  | false => exact .inr ⟨rfl, rfl⟩
  | true =>
    rw [Prog.require_pos rfl, Prog.ret_bind]
    -- The rest creates the session, and leaves the slot as it is.
    refine sink.bind (ask (Q := fun x s => s = .holding ∧ ∃ t, x = .ok t) .token ?_) ?_
      (by rintro e s ⟨-, t, ht⟩; cases ht)
    · rintro (e | t)
      · exact .inl rfl
      · exact .inr ⟨rfl, t, rfl⟩
    rintro token s ⟨rfl, -⟩
    refine sink.bind (P := fun x s => s = .holding ∧ ∃ a, x = .ok a) ?_ ?_
      (by rintro e s ⟨-, a, ha⟩; cases ha)
    · refine sink.bind (ask (Q := fun x s => s = .holding ∧ ∃ t, x = .ok t) .stamp ?_) ?_
        (by rintro e s ⟨-, t, ht⟩; cases ht)
      · rintro (e | t)
        · exact .inl rfl
        · exact .inr ⟨rfl, t, rfl⟩
      rintro now s ⟨rfl, -⟩
      refine sink.bind (ask (Q := fun x s => s = .holding ∧ ∃ t, x = .ok t) (.newSession _) ?_) ?_
        (by rintro e s ⟨-, t, ht⟩; cases ht)
      · rintro (e | t)
        · exact .inl rfl
        · exact .inr ⟨rfl, t, rfl⟩
      rintro id s ⟨rfl, -⟩
      exact .inr ⟨rfl, _, rfl⟩
    · rintro sess s ⟨rfl, -⟩
      exact .inr rfl

/-- `POST /rooms/{room_token}/join` wins, or is refused because the room is full. -/
theorem join_wp {env : Env} {token : Token} {body : rooms.JoinRequest}
    (htoken : env.hash_token token = r₀.access_token_hash) (hactive : r₀.status = .active)
    (hv : ValidCredentials env r₀ body) :
    (withSession (rooms.join env token body none)).wp (monitor ρ r₀).trans
      (Monitor.orSink .broken fun x s => match x with
        | .ok _ => s = .won
        | .error e => e = error .roomFull "" ∧ s = .lost) .outside := by
  refine wp_withSession (monitor ρ r₀).trans_monotone ?_
  have hbody : (rooms.join env token body none).wp (monitor ρ r₀).trans
      (Monitor.orSink .broken fun x s => match x with
        | .ok _ => s = .won
        | .error e => e = error .roomFull "" ∧ s = .lost) .outside := by
    refine sink.bind (getRoomByToken_wp env htoken) ?_ (by rintro e s ⟨-, r, hr, -⟩; cases hr)
    rintro room s ⟨rfl, r, hr, h⟩
    cases hr
    refine sink.bind (P := Joined) ?_ ?_ fun e s he => .inr he
    · -- Without a session of its own to use again, the request joins.
      have hjoin : rooms.establishSession env (toRoom (ρ, r)) body none = (do
          let a ← roomService.joinRoom env (toRoom (ρ, r)) body.display_name body.password
            body.owner_token
          pure (a.1, a.2, true)) := rfl
      rw [hjoin]
      refine sink.bind (joinRoom_wp rfl h hactive hv) ?_ ?_
      · rintro a s rfl
        exact .inr rfl
      · exact fun e s he => .inr he
    rintro a s rfl
    refine sink.bind (ask (Q := fun x s => s = .won ∧ ∃ u, x = .ok u) .commit ?_) ?_
      (by rintro e s ⟨-, u, hu⟩; cases hu)
    · rintro (e | u)
      · exact .inl rfl
      · exact .inr ⟨rfl, u, rfl⟩
    rintro u s ⟨rfl, -⟩
    exact .inr rfl
  refine Prog.wp_mono (monitor ρ r₀).trans_monotone ?_ hbody
  -- The session is closed: after a refusal that rolls back, and nothing was written.
  rintro (e | a) s (rfl | h)
  · exact ⟨.broken _, by rintro (e | u) <;> exact .inl rfl⟩
  · obtain ⟨rfl, rfl⟩ := h
    exact ⟨.closeLost, by rintro (e | u); exacts [.inl rfl, .inr ⟨rfl, rfl⟩]⟩
  · exact ⟨.broken _, by rintro (e | u) <;> exact .inl rfl⟩
  · obtain rfl := h
    exact ⟨.closeWon, by rintro (e | u); exacts [.inl rfl, .inr rfl]⟩

/-- `n` joins of the room with the access token `token`, and nobody else. -/
def start (env : Env) (token : Token) (body : ℕ → rooms.JoinRequest) (n : ℕ) (w : World) :
    Conf Cmd Resp Err Unit World Stage where
  world := w
  phase p := if p < n then .outside else .idle
  proc p := if p < n then discard (withSession (rooms.join env token (body p) none)) else pure ()

/-- The race takes place before the room expires. -/
def open_ (r₀ : RoomRow) : Guard Cmd World Stage := fun _ _ w _ => w.now < r₀.expires_at

/-- Whether the room is still open is decided. -/
instance (r₀ : RoomRow) (p : ℕ) (c : Cmd) (w : World) (φ : ℕ → Stage) :
    Decidable (open_ r₀ p c w φ) :=
  inferInstanceAs (Decidable (_ < _))

/-- How a process may end: a join has won or lost, and the others have done nothing. -/
def Ends (x : Except Err Unit) (s : Stage) : Prop :=
  s = .idle ∧ x = .ok () ∨ s = .won ∧ x = .ok () ∨ s = .lost ∧ x = .error (error .roomFull "")

variable {env : Env} {token : Token} {body : ℕ → rooms.JoinRequest}

/-- Every process of the race keeps to the protocol. -/
theorem start_conforms (htoken : env.hash_token token = r₀.access_token_hash)
    (hactive : r₀.status = .active) (hv : ∀ p < n, ValidCredentials env r₀ (body p)) :
    (start env token body n w₀).Conforms (monitor ρ r₀) (Monitor.orSink .broken Ends) := by
  intro p
  dsimp only [start]
  by_cases hp : p < n
  · rw [if_pos hp, if_pos hp]
    refine (Prog.wp_map _ _ _ _).2 ?_
    refine Prog.wp_mono (monitor ρ r₀).trans_monotone ?_ (join_wp htoken hactive (hv p hp))
    rintro (e | a) s (rfl | h)
    · exact .inl rfl
    · obtain ⟨rfl, rfl⟩ := h
      exact .inr (.inr (.inr ⟨rfl, rfl⟩))
    · exact .inl rfl
    · obtain rfl := h
      exact .inr (.inr (.inl ⟨rfl, rfl⟩))
  · rw [if_neg hp, if_neg hp]
    exact .inr (.inl ⟨rfl, rfl⟩)

/-- The invariant holds before the race. -/
theorem Inv.init (hr : w₀.db.cell .rooms ρ = ⟨some r₀, none⟩)
    (hfits : r₀.user_count ≤ r₀.max_users) :
    Inv n ρ r₀ w₀ w₀ (start env token body n w₀).phase := by
  have hstage : ∀ q, (start env token body n w₀).phase q = .outside ∨
      (start env token body n w₀).phase q = .idle := by
    intro q
    dsimp only [start]
    split
    · exact .inl rfl
    · exact .inr rfl
  have hwins : wins n (start env token body n w₀).phase = 0 := by
    refine Finset.card_eq_zero.2 (Finset.filter_eq_empty_iff.2 fun q _ h => ?_)
    rcases hstage q with hq | hq <;> rw [hq] at h <;> cases h
  constructor
  case others => exact fun i _ => rfl
  case committed =>
    rw [Tables.committed, hr, hwins]
    simp [joined]
  case fits =>
    rw [hwins]
    simpa using hfits
  case draft =>
    intro q v hl
    rw [hr] at hl
    cases hl
  case holds =>
    intro q h
    rcases hstage q with hq | hq <;> rw [hq] at h <;> cases h
  case full =>
    intro q h
    rcases hstage q with hq | hq <;> rw [hq] at h <;> cases h
  case whole =>
    intro q h
    rcases hstage q with hq | hq <;> rw [hq] at h <;> cases h
  case idle =>
    intro q
    dsimp only [start]
    split
    · next hq => exact iff_of_true (by decide) hq
    · next hq => exact iff_of_false (fun h => h rfl) hq

/-- The invariant holds throughout the race, and every process keeps to the protocol. -/
theorem invariant (hfree : ∀ i, (w₀.db.cell .rooms i).lock = none)
    (hr : w₀.db.committed .rooms ρ = some r₀)
    (huniq : ∀ i r, w₀.db.committed .rooms i = some r →
      r.access_token_hash = r₀.access_token_hash → i = ρ)
    (htoken : env.hash_token token = r₀.access_token_hash) (hactive : r₀.status = .active)
    (hfits : r₀.user_count ≤ r₀.max_users) (hv : ∀ p < n, ValidCredentials env r₀ (body p))
    {s : Conf Cmd Resp Err Unit World Stage}
    (h : reliable.Reaches (monitor ρ r₀) (open_ r₀) (start env token body n w₀) s) :
    Inv n ρ r₀ w₀ s.world s.phase ∧
      s.Conforms (monitor ρ r₀) (Monitor.orSink .broken Ends) := by
  refine Machine.invariant (I := Inv n ρ r₀ w₀) ?_ ?_ h ?_
    (start_conforms htoken hactive hv)
  · intro w φ p c x w' I ha ht hx
    exact I.step hfree huniq ha ht hx
  · intro w φ w' I ht
    exact I.keep fun i => by rw [World.Tick.db_eq ht]
  · refine Inv.init ?_ hfits
    rw [← hr, ← hfree ρ]
    rfl

/-- A join that is over has won, or was refused because the room was full. -/
theorem ends {s : Conf Cmd Resp Err Unit World Stage} (I : Inv n ρ r₀ w₀ s.world s.phase)
    (hC : s.Conforms (monitor ρ r₀) (Monitor.orSink .broken Ends)) {x : Except Err Unit}
    (hx : (s.proc p).outcome = some x) : Ends x (s.phase p) :=
  (Prog.wp_outcome hx (hC p)).resolve_left (I.whole p)

/-- A command of a join does not wait while no other join holds the row. -/
theorem exists_exec (s : Stage) {c : Cmd} (ha : Allowed ρ r₀ s c) (hs : s ≠ .broken)
    (hl : s = .outside → (w.db.cell .rooms ρ).heldByOther p = false) :
    ∃ x w', exec p c w = some (x, w') := by
  cases ha with
  | take =>
    obtain ⟨b, db, h⟩ := Tables.exists_updateAt (hl rfl)
      (dialect.applies (t := .rooms) .incrementUserCount)
      (dialect.set (t := .rooms) .incrementUserCount)
    exact ⟨.ok b, { w with db }, by rw [exec, Sql.exec, h]; rfl⟩
  | broken => exact absurd rfl hs
  | _ => exact ⟨_, _, rfl⟩

/-- While a join is not over, some join can go on: the one that holds the row, or else any. -/
theorem progress {s : Conf Cmd Resp Err Unit World Stage} (I : Inv n ρ r₀ w₀ s.world s.phase)
    (hC : s.Conforms (monitor ρ r₀) (Monitor.orSink .broken Ends))
    (ht : s.world.now < r₀.expires_at) (hp : (s.proc p).outcome = none) :
    ∃ s', reliable.Step (monitor ρ r₀) (open_ r₀) s s' := by
  have step : ∀ q, (s.proc q).outcome = none →
      (s.phase q = .outside → (s.world.db.cell .rooms ρ).heldByOther q = false) →
      ∃ s', reliable.Step (monitor ρ r₀) (open_ r₀) s s' := by
    intro q hq hl
    obtain ⟨c, k, hc⟩ := Prog.exists_call_of_outcome hq
    have hwp := hC q
    rw [hc] at hwp
    obtain ⟨x, w', hx⟩ := exists_exec (s.phase q) hwp.1 (I.whole q) hl
    exact ⟨_, .call hc ht (.exec hx)⟩
  cases hl : (s.world.db.cell .rooms ρ).lock with
  | none => exact step p hp fun _ => Cell.heldByOther_eq_false.2 (.inl hl)
  | some qv =>
    obtain ⟨q, v⟩ := qv
    have hq := (I.draft q v hl).1
    refine step q ?_ (by rw [hq]; nofun)
    cases ho : (s.proc q).outcome with
    | none => rfl
    | some x => rcases ends I hC ho with h | h | h <;> rw [hq] at h <;> cases h.1

/-- When all joins are over, as many have won as there were free slots, or all of them. -/
theorem wins_eq {s : Conf Cmd Resp Err Unit World Stage} (I : Inv n ρ r₀ w₀ s.world s.phase)
    (hC : s.Conforms (monitor ρ r₀) (Monitor.orSink .broken Ends)) {c : ℕ}
    (hc : r₀.user_count + c = r₀.max_users)
    (h : ∀ p < n, (s.proc p).outcome.isSome = true) :
    ((Finset.range n).filter fun p => (s.proc p).returned).card = min n c ∧
      ∀ p < n, (s.proc p).returned = true ∨
        (s.proc p).outcome = some (.error (error .roomFull "")) := by
  -- Every request has ended one way or the other.
  have hends : ∀ p < n, s.phase p = .won ∧ (s.proc p).outcome = some (.ok ()) ∨
      s.phase p = .lost ∧ (s.proc p).outcome = some (.error (error .roomFull "")) := by
    intro p hn
    obtain ⟨x, hx⟩ := Option.isSome_iff_exists.1 (h p hn)
    rcases ends I hC hx with ⟨he, -⟩ | ⟨he, rfl⟩ | ⟨he, rfl⟩
    · exact absurd he ((I.idle p).2 hn)
    · exact .inl ⟨he, hx⟩
    · exact .inr ⟨he, hx⟩
  have hwon : ∀ p < n, (s.proc p).returned = true ↔ s.phase p = .won := by
    intro p hn
    rw [Prog.returned_iff]
    rcases hends p hn with ⟨he, ho⟩ | ⟨he, ho⟩ <;> simp [he, ho]
  have hcount : ((Finset.range n).filter fun p => (s.proc p).returned).card =
      wins n s.phase := by
    refine congrArg Finset.card (Finset.filter_congr fun p hp => ?_)
    exact hwon p (Finset.mem_range.1 hp)
  refine ⟨?_, fun p hn => ?_⟩
  · rw [hcount]
    have hfits := I.fits
    have hle : wins n s.phase ≤ n := (Finset.card_filter_le _ _).trans_eq (Finset.card_range n)
    by_cases hlost : ∃ p < n, s.phase p = .lost
    · -- Somebody was refused, so the room is full.
      obtain ⟨p, -, hp⟩ := hlost
      have hfull := I.full p hp
      omega
    · have hall : wins n s.phase = n := by
        rw [wins, Finset.filter_true_of_mem, Finset.card_range]
        intro p hp
        rcases hends p (Finset.mem_range.1 hp) with ⟨he, -⟩ | ⟨he, -⟩
        · exact he
        · exact absurd ⟨p, Finset.mem_range.1 hp, he⟩ hlost
      omega
  · rcases hends p hn with ⟨he, -⟩ | ⟨-, ho⟩
    · exact .inl ((hwon p hn).2 he)
    · exact .inr ho

end race

end DropRoom
