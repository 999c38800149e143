import DropRoom.App.Footprint
import DropRoom.Rooms.Race

/-!
# The limits of a room

Every update of a room that adds something carries its limit in its own condition, and it runs under
the row's lock, so the limits are an invariant of each single row in every interleaving: of the
committed version and of the one that a transaction has written (`Within`). How many joins succeed
when several race for the last slots is `Rooms/Race.lean`.
-/

namespace DropRoom

open Effect Store

namespace capacity

/-- The hard limits of a room. -/
structure Within (env : Env) (r : RoomRow) : Prop where
  user_count_nonneg : 0 ≤ r.user_count
  user_count_le : r.user_count ≤ r.max_users
  file_count_le : r.file_count ≤ env.max_files_per_room
  storage_used_le : r.storage_used_bytes ≤ env.max_room_storage_bytes

/-- The updates that claim by the limits of the settings and release what was claimed. -/
def Limited (env : Env) : RoomUpdate → Prop
  | .claimQuota _ max_files max_storage =>
    max_files = env.max_files_per_room ∧ max_storage = env.max_room_storage_bytes
  | .addStorageAndFiles size_delta file_delta => size_delta ≤ 0 ∧ file_delta ≤ 0
  | _ => True

/-- An update that applies keeps the limits. -/
theorem Within.set {env : Env} {r : RoomRow} (h : Within env r) {u : RoomUpdate}
    (hu : Limited env u) (ha : u.applies r = true) : Within env (u.set r) := by
  obtain ⟨h₁, h₂, h₃, h₄⟩ := h
  cases u with
  | incrementUserCount =>
    have hlt : r.user_count < r.max_users := by simpa [RoomUpdate.applies] using ha
    exact ⟨by simp only [RoomUpdate.set]; omega, by simp only [RoomUpdate.set]; omega, h₃, h₄⟩
  | decrementUserCount =>
    have hlt : 0 < r.user_count := by simpa [RoomUpdate.applies] using ha
    exact ⟨by simp only [RoomUpdate.set]; omega, by simp only [RoomUpdate.set]; omega, h₃, h₄⟩
  | claimQuota size_bytes max_files max_storage =>
    obtain ⟨rfl, rfl⟩ := hu
    simp only [RoomUpdate.applies, Bool.and_eq_true, decide_eq_true_eq] at ha
    exact ⟨h₁, h₂, by simp only [RoomUpdate.set]; omega, ha.2⟩
  | addStorageAndFiles size_delta file_delta =>
    obtain ⟨hs, hf⟩ := hu
    exact ⟨h₁, h₂, by simp only [RoomUpdate.set]; omega, by simp only [RoomUpdate.set]; omega⟩
  | _ => exact ⟨h₁, h₂, h₃, h₄⟩

/-- The invariant of a room that exists: every version of its row keeps the limits. -/
structure Inv (env : Env) (cl : Cell RoomRow) : Prop where
  committed : ∃ r, cl.committed = some r ∧ Within env r
  draft : ∀ q v, cl.lock = some (q, v) → ∃ r, v = some r ∧ Within env r

variable {env : Env} {cl : Cell RoomRow} {p : ℕ}

/-- What any transaction sees of the row keeps the limits. -/
theorem Inv.view (I : Inv env cl) (p : ℕ) : ∃ r, cl.view p = some r ∧ Within env r := by
  by_cases hl : ∃ v, cl.lock = some (p, v)
  · obtain ⟨v, hl⟩ := hl
    rw [Cell.view_of_lock hl]
    exact I.draft p v hl
  · rw [Cell.view_of_ne fun v hv => hl ⟨v, hv⟩]
    exact I.committed

/-- Writing a version within the limits keeps the invariant. -/
theorem Inv.write (I : Inv env cl) {r : RoomRow} (hr : Within env r) :
    Inv env (cl.write p (some r)) where
  committed := I.committed
  draft q v hl := by
    cases hl
    exact ⟨r, rfl, hr⟩

/-- The end of a transaction keeps the invariant. -/
theorem Inv.commit (I : Inv env cl) : Inv env (cl.commit p) where
  committed := by
    rw [Cell.committed_commit]
    exact I.view p
  draft q v hl := by
    rcases Cell.lock_commit (p := p) cl with hf | ⟨q', v', -, -, he⟩
    · rw [hf] at hl
      cases hl
    · rw [he] at hl
      exact I.draft q v hl

/-- A rollback keeps the bounds. -/
theorem Inv.rollback (I : Inv env cl) : Inv env (cl.rollback p) where
  committed := by
    rw [Cell.committed_rollback]
    exact I.committed
  draft q v hl := by
    by_cases hp : ∃ v, cl.lock = some (p, v)
    · obtain ⟨v', hp⟩ := hp
      rw [Cell.rollback_of_lock hp] at hl
      cases hl
    · rw [Cell.rollback_of_ne fun v hv => hp ⟨v, hv⟩] at hl
      exact I.draft q v hl

/-- The updates of rooms that a program issues are limited. -/
theorem limited_of_issued {K : List Kind} {i : ℕ} {u : RoomUpdate}
    (h : Issued env K (.sql (.updateAt .rooms i u))) : Limited env u := by
  cases h with
  | claim h => exact ⟨rfl, rfl⟩
  | release h i n => exact ⟨by omega, by omega⟩
  | _ => trivial

/-- Every command that a program issues keeps the invariant of every room. -/
theorem Inv.step {m : Machine Cmd Resp Err World} (hm : Faithful m) {ρ : ℕ} {w w' : World}
    {c : Cmd} {x} (I : Inv env (w.db.cell .rooms ρ)) (hc : ∃ K, Issued env K c)
    (h : m.Answer p c w x w') : Inv env (w'.db.cell .rooms ρ) := by
  refine hm.row_elim h .rooms ρ (motive := fun c _ cl' => (∃ K, Issued env K c) → Inv env cl')
    ?spared ?failed ?refused ?updated ?kept ?deleted ?other ?inserted ?committed ?rolledBack hc
  case spared => exact fun _ _ _ _ => I
  case failed => exact fun _ _ _ _ => I
  case refused => exact fun _ _ _ => I
  case updated =>
    rintro u r hr ha - ⟨K, hu⟩
    obtain ⟨r', hr', hw⟩ := I.view p
    obtain rfl : r' = r := Option.some.inj (hr'.symm.trans hr)
    exact I.write (hw.set (limited_of_issued hu) ha)
  case kept => exact fun d => d.elim
  case deleted => exact fun d => d.elim
  case other => exact fun _ _ _ _ => I
  case inserted =>
    intro r _ he
    obtain ⟨r', hr', -⟩ := I.committed
    rw [he] at hr'
    cases hr'
  case committed => exact fun _ => I.commit
  case rolledBack => exact fun _ => I.rollback

end capacity

/-! ## Every run -/

open capacity

/-- The limits of a room hold in every state that the server reaches, with any tasks and any
failures. -/
theorem capacity_invariant {env : Env} {ρ : ℕ} {w : World} {tasks : ℕ → Task} {r : RoomRow}
    (hr : w.db.cell .rooms ρ = ⟨some r, none⟩) (hw : Within env r) {L : Type}
    {M : Monitor Cmd Resp Err L} {ok : Guard Cmd World L} {l : L}
    {s : Conf Cmd Resp Err Unit World L}
    (h : server.Reaches M ok (Conf.start w l fun p => (tasks p).program env) s) :
    Inv env (s.world.db.cell .rooms ρ) := by
  refine (Machine.invariant_only (P := fun c => ∃ K, Issued env K c)
    (I := fun w => Inv env (w.db.cell .rooms ρ)) ?_ ?_ h ?_ ?_).1
  · intro w p c x w' I hc hx
    exact I.step server_faithful hc hx
  · intro w w' I ht
    rw [World.Tick.db_eq ht]
    exact I
  · change Inv env (w.db.cell .rooms ρ)
    rw [hr]
    exact ⟨⟨r, rfl, hw⟩, fun q v hl => nomatch hl⟩
  · exact fun p => ((tasks p).only_program).mono fun c hc => ⟨_, hc⟩

open race in
/-- The limits of a room hold in every state that the server reaches, with any tasks and any
failures, for the committed row and for what any transaction sees of it. When `n` joins with valid
credentials race on an active room with `c` free slots, in any order of their commands, then as
long as one is not over some can go on, and when all are over exactly `min n c` have succeeded and
the others were refused because the room was full. -/
theorem capacity_under_concurrency (env : Env) (ρ : ℕ) (w : World) (r : RoomRow)
    (hr : w.db.committed .rooms ρ = some r) (hfree : ∀ i, (w.db.cell .rooms i).lock = none) :
    (Within env r → ∀ (tasks : ℕ → Task) (s : Conf Cmd Resp Err Unit World Unit),
      server.Reaches (Monitor.only fun _ => True) Guard.all
        (Conf.start w () fun p => (tasks p).program env) s →
      (∃ r', s.world.db.committed .rooms ρ = some r' ∧ Within env r') ∧
        ∀ p, ∃ r', s.world.db.get p .rooms ρ = some r' ∧ Within env r') ∧
    ((∀ i r', w.db.committed .rooms i = some r' →
        r'.access_token_hash = r.access_token_hash → i = ρ) →
      r.status = .active → ∀ (n c : ℕ) (token : Token) (body : ℕ → rooms.JoinRequest),
      r.user_count + c = r.max_users → env.hash_token token = r.access_token_hash →
      (∀ p < n, ValidCredentials env r (body p)) →
      ∀ s : Conf Cmd Resp Err Unit World Stage,
        reliable.Reaches (monitor ρ r) (open_ r) (start env token body n w) s →
        (s.world.now < r.expires_at → (∃ p, (s.proc p).outcome = none) →
          ∃ s', reliable.Step (monitor ρ r) (open_ r) s s') ∧
        ((∀ p < n, (s.proc p).outcome.isSome = true) →
          ((Finset.range n).filter fun p => (s.proc p).returned).card = min n c ∧
            ∀ p < n, (s.proc p).returned = true ∨
              (s.proc p).outcome = some (.error (error .roomFull "")))) := by
  refine ⟨fun hw tasks s h => ?_, fun huniq hactive n c token body hc htoken hv s h => ?_⟩
  · have hcell : w.db.cell .rooms ρ = ⟨some r, none⟩ := by
      rw [← hr, ← hfree ρ]
      rfl
    have I := capacity_invariant hcell hw h
    exact ⟨I.committed, fun p => I.view p⟩
  · have hfits : r.user_count ≤ r.max_users := by omega
    obtain ⟨I, hC⟩ := invariant hfree hr huniq htoken hactive hfits hv h
    exact ⟨fun ht ⟨p, hp⟩ => progress I hC ht hp, fun hp => wins_eq I hC hc hp⟩

/-- A room with a single free slot. -/
def RoomRow.almostFull : RoomRow := { RoomRow.plain with user_count := 9 }

/-- A server with one room that has a single free slot. -/
def World.almostFull : World := .holding [.almostFull] [] []

open race in
/-- Two joins that race for the slot of `World.almostFull`: the one that comes second is refused. -/
theorem capacity_under_concurrency_almostFull :
    ∃ s : Conf Cmd Resp Err Unit World Stage,
      reliable.Reaches (monitor 0 .almostFull) (open_ .almostFull)
        (start .plain "a" (fun _ => ⟨none, none, none⟩) 2 .almostFull) s ∧
      ((Finset.range 2).filter fun p => (s.proc p).returned).card = 1 := by
  have hrun : ((reliable.play (monitor 0 .almostFull) (open_ .almostFull)
      [0, 1, 0, 1, 0, 0, 0, 0, 0, 1, 1, 0]
      (start .plain "a" (fun _ => ⟨none, none, none⟩) 2 .almostFull)).map fun s =>
      (List.range 2).all fun p => (s.proc p).outcome.isSome) = some true := by
    decide
  obtain ⟨s, hs, hd⟩ := Option.map_eq_some_iff.1 hrun
  have hr := Machine.play_reaches hs
  refine ⟨s, hr, ?_⟩
  have huniq : ∀ i r, World.almostFull.db.committed .rooms i = some r →
      r.access_token_hash = RoomRow.almostFull.access_token_hash → i = 0 := by
    rintro (_ | i) r hr -
    · rfl
    · cases hr
  have hfree : ∀ i, (World.almostFull.db.cell .rooms i).lock = none := by
    rintro (_ | i) <;> rfl
  have h := (capacity_under_concurrency .plain 0 .almostFull .almostFull rfl hfree).2 huniq rfl 2 1
    "a" (fun _ => ⟨none, none, none⟩) rfl rfl (fun _ _ => trivial) s hr
  exact (h.2 fun p hp => List.all_eq_true.1 hd p (List.mem_range.2 hp)).1

end DropRoom
