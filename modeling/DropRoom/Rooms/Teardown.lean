import DropRoom.App.Lifting

/-!
# The teardown of a room

`cleanup_room` moves a room from ACTIVE or EXPIRED over DELETING to DELETED by three conditional
updates in one transaction. The monitor follows, for one room, how far the transaction of each
process has come; the invariant says which status the row that a process has locked then has, and
that DELETING is only ever the status of such a row.

The stage `absurd` is entered when an update fails that cannot fail there: `mark_room_deleting`
after `mark_room_expired` succeeded, and `mark_room_deleted` after `mark_room_deleting` did.
-/

namespace DropRoom

open Effect Store

namespace teardown

/-- How far the transaction of a process has come with a room. -/
inductive Stage
  | outside | expired | wiping | wiped | absurd
  deriving DecidableEq

/-- The stage after an update of the room was answered. -/
def Stage.update : Stage → RoomUpdate → Bool → Stage
  | .outside, .markExpired, true => .expired
  | .outside, .markDeleting, true => .wiping
  | .expired, .markDeleting, true => .wiping
  | .expired, .markDeleting, false => .absurd
  | .wiping, .markDeleted, true => .wiped
  | .wiping, .markDeleted, false => .absurd
  | s, _, _ => s

/-- The stage of a process, and how many of its invocations of `cleanup_room` on the room have
returned True and were committed. -/
structure Phase where
  stage : Stage
  wins : ℕ

/-- The updates of the room that a process may issue in a stage. -/
def Stage.mayUpdate : Stage → RoomUpdate → Prop
  | .outside, u => u ≠ .markDeleted
  | .expired, u => u = .markDeleting
  | .wiping, u => u = .markDeleted
  | .wiped, _ => False
  | .absurd, _ => True

/-- The commands that a process may issue in a stage. -/
def allowed (ρ : ℕ) (φ : Phase) : Cmd → Prop
  | .sql (.updateAt .rooms i u) => i = ρ → φ.stage.mayUpdate u
  | .sql (.insert .rooms r) => r.status = .active ∧ (φ.stage = .outside ∨ φ.stage = .absurd)
  | .sql .commit => φ.stage ≠ .expired ∧ φ.stage ≠ .wiping
  | _ => True

/-- The phase after a command was answered. -/
def next (ρ : ℕ) (φ : Phase) : (c : Cmd) → Except Err (Resp c) → Phase
  | .sql (.updateAt .rooms i u), .ok b =>
    if i = ρ then { φ with stage := φ.stage.update u b } else φ
  | .sql .commit, .ok _ => if φ.stage = .wiped then ⟨.outside, φ.wins + 1⟩ else φ
  | .sql .rollback, _ => { φ with stage := .outside }
  | _, _ => φ

/-- The protocol of the teardown of room `ρ`. -/
def monitor (ρ : ℕ) : Monitor Cmd Resp Err Phase := ⟨allowed ρ, next ρ⟩

/-! ## The invariant -/

/-- What the version `v` that a process has written over the committed one is, by its stage. -/
def Draft (committed v : Option RoomRow) (stage : Stage) : Prop :=
  ∃ r', v = some r' ∧ match stage with
    | .outside => r'.status ≠ .deleting ∧ ∀ r, committed = some r → r'.status = r.status
    | .expired => r'.status = .expired ∧ ∀ r, committed = some r → r.status = .active
    | .wiping => r'.status = .deleting ∧
        ∀ r, committed = some r → r.status = .active ∨ r.status = .expired
    | .wiped => r'.status = .deleted ∧
        ∀ r, committed = some r → r.status = .active ∨ r.status = .expired
    | .absurd => False

/-- The invariant of a room's row and the phases of all processes. -/
structure Inv (cl : Cell RoomRow) (φ : ℕ → Phase) : Prop where
  /-- DELETING is not a committed status. -/
  committed : ∀ r, cl.committed = some r → r.status ≠ .deleting
  /-- The version of the process that holds the row goes with its stage. -/
  draft : ∀ q v, cl.lock = some (q, v) → Draft cl.committed v (φ q).stage
  /-- A process that has changed the status holds the row. -/
  holds : ∀ q, (φ q).stage ≠ .outside → ∃ v, cl.lock = some (q, v)
  /-- An invocation that returned True and was committed has left the room DELETED. -/
  won : ∀ q, 0 < (φ q).wins → ∃ r, cl.committed = some r ∧ r.status = .deleted
  /-- At most one invocation of all processes is such. -/
  once : ∀ q q', 0 < (φ q).wins → 0 < (φ q').wins → q = q' ∧ (φ q).wins = 1

variable {cl : Cell RoomRow} {φ : ℕ → Phase} {p : ℕ}

/-- What a process sees of the row goes with its stage, whether it holds the row or not. -/
theorem Inv.sees (I : Inv cl φ) {r : RoomRow} (h : cl.view p = some r) :
    Draft cl.committed (some r) (φ p).stage := by
  by_cases hl : ∃ v, cl.lock = some (p, v)
  · obtain ⟨v, hl⟩ := hl
    rw [Cell.view_of_lock hl] at h
    exact h ▸ I.draft p v hl
  · rw [Cell.view_of_ne fun v hv => hl ⟨v, hv⟩] at h
    have hs : (φ p).stage = .outside := by
      by_contra hs
      exact hl (I.holds p hs)
    rw [hs, h]
    exact ⟨r, rfl, I.committed r h, fun r' hr' => by rw [Option.some.inj hr']⟩

/-- A process that has changed the status sees the row. -/
theorem Inv.view_eq_some (I : Inv cl φ) (h : (φ p).stage ≠ .outside) : ∃ r, cl.view p = some r := by
  obtain ⟨v, hl⟩ := I.holds p h
  obtain ⟨r, rfl, -⟩ := I.draft p v hl
  exact ⟨r, Cell.view_of_lock hl⟩

/-- No update fails that cannot fail. -/
theorem Inv.not_absurd (I : Inv cl φ) : (φ p).stage ≠ .absurd := by
  intro hs
  obtain ⟨v, hl⟩ := I.holds p (by rw [hs]; decide)
  obtain ⟨r, -, hr⟩ := I.draft p v hl
  rw [hs] at hr
  exact hr

/-- A process that has changed the status is the only one that has. -/
theorem Inv.outside_of_not_held (I : Inv cl φ) (h : cl.heldByOther p = false) {q : ℕ}
    (hq : q ≠ p) : (φ q).stage = .outside := by
  by_contra hs
  obtain ⟨v, hv⟩ := I.holds q hs
  rcases Cell.heldByOther_eq_false.1 h with hl | ⟨v', hl⟩
  · rw [hl] at hv
    cases hv
  · rw [hl] at hv
    cases hv
    exact hq rfl

/-- An update that is admitted and applies leads to the version of the next stage. -/
theorem Draft.update {c : Option RoomRow} {r : RoomRow} {s : Stage} {u : RoomUpdate}
    (h : Draft c (some r) s) (hu : s.mayUpdate u) (ha : u.applies r = true) :
    Draft c (some (u.set r)) (s.update u true) := by
  obtain ⟨r', hr', h⟩ := h
  obtain rfl := Option.some.inj hr'
  cases s with
  | outside =>
    cases u with
    | markExpired =>
      have hr : r.status = .active := by simpa [RoomUpdate.applies] using ha
      exact ⟨_, rfl, rfl, fun r₀ h₀ => (h.2 r₀ h₀).symm.trans hr⟩
    | markDeleting =>
      have hr : r.status = .expired := by simpa [RoomUpdate.applies] using ha
      exact ⟨_, rfl, rfl, fun r₀ h₀ => .inr ((h.2 r₀ h₀).symm.trans hr)⟩
    | markDeleted => exact absurd rfl hu
    | _ => exact ⟨_, rfl, h⟩
  | expired =>
    cases hu
    exact ⟨_, rfl, rfl, fun r₀ h₀ => .inl (h.2 r₀ h₀)⟩
  | wiping =>
    cases hu
    exact ⟨_, rfl, rfl, h.2⟩
  | wiped => exact hu.elim
  | absurd => exact h.elim

/-- An update that is admitted and does not apply leaves the stage: where its failure would be
absurd, it applies. -/
theorem Draft.refused {c : Option RoomRow} {r : RoomRow} {s : Stage} {u : RoomUpdate}
    (h : Draft c (some r) s) (hu : s.mayUpdate u) (ha : u.applies r = false) :
    s.update u false = s := by
  obtain ⟨r', hr', h⟩ := h
  obtain rfl := Option.some.inj hr'
  cases s with
  | outside => cases u <;> rfl
  | expired =>
    cases hu
    simp [RoomUpdate.applies, h.1] at ha
  | wiping =>
    cases hu
    simp [RoomUpdate.applies, h.1] at ha
  | wiped => exact hu.elim
  | absurd => exact h.elim

/-- Changing the stage of a process leaves all wins as they are. -/
theorem wins_update (φ : ℕ → Phase) (p : ℕ) (s : Stage) (q : ℕ) :
    (Function.update φ p { φ p with stage := s } q).wins = (φ q).wins := by
  by_cases hq : q = p
  · subst hq
    rw [Function.update_self]
  · rw [Function.update_of_ne hq]

/-- Writing the row keeps the invariant if the version goes with the new stage. -/
theorem Inv.write (I : Inv cl φ) (h : cl.heldByOther p = false) {v : Option RoomRow} {s : Stage}
    (hv : Draft cl.committed v s) :
    Inv (cl.write p v) (Function.update φ p { φ p with stage := s }) := by
  refine ⟨I.committed, fun q v' hl => ?_, fun q hs => ?_, fun q hq => ?_, fun q q' hq hq' => ?_⟩
  · cases hl
    rw [Function.update_self]
    exact hv
  · by_cases hq : q = p
    · subst hq
      exact ⟨v, rfl⟩
    · rw [Function.update_of_ne hq] at hs
      exact absurd (I.outside_of_not_held h hq) hs
  · rw [wins_update] at hq
    exact I.won q hq
  · rw [wins_update] at hq hq'
    rw [wins_update]
    exact I.once q q' hq hq'

/-- Giving up the row with a version that is not DELETING, and DELETED if it was, keeps the
invariant. -/
theorem Inv.release (I : Inv cl φ) (h : cl.heldByOther p = false) {v : Option RoomRow}
    (hv : ∀ r, v = some r → r.status ≠ .deleting)
    (hd : ∀ r, cl.committed = some r → r.status = .deleted →
      ∃ r', v = some r' ∧ r'.status = .deleted) :
    Inv ⟨v, none⟩ (Function.update φ p { φ p with stage := .outside }) := by
  refine ⟨hv, fun q v' hl => (nomatch hl), fun q hs => ?_, fun q hq => ?_, fun q q' hq hq' => ?_⟩
  · by_cases hq : q = p
    · subst hq
      rw [Function.update_self] at hs
      exact absurd rfl hs
    · rw [Function.update_of_ne hq] at hs
      exact absurd (I.outside_of_not_held h hq) hs
  · rw [wins_update] at hq
    obtain ⟨r, hr, hs⟩ := I.won q hq
    exact hd r hr hs
  · rw [wins_update] at hq hq'
    rw [wins_update]
    exact I.once q q' hq hq'

/-- Committing a room that was wiped is the first win: the status was ACTIVE or EXPIRED before. -/
theorem Inv.win (I : Inv cl φ) (h : cl.heldByOther p = false) {v : Option RoomRow}
    (hv : Draft cl.committed v .wiped) :
    Inv ⟨v, none⟩ (Function.update φ p ⟨.outside, (φ p).wins + 1⟩) := by
  obtain ⟨r', rfl, hr', hc⟩ := hv
  have hnone : ∀ q, (φ q).wins = 0 := by
    intro q
    by_contra hq
    obtain ⟨r, hr, hdel⟩ := I.won q (Nat.pos_of_ne_zero hq)
    rcases hc r hr with h | h <;> rw [hdel] at h <;> cases h
  have hp : ∀ q, 0 < (Function.update φ p ⟨.outside, (φ p).wins + 1⟩ q).wins → q = p := by
    intro q hq
    by_contra hqp
    rw [Function.update_of_ne hqp, hnone] at hq
    exact Nat.lt_irrefl _ hq
  refine ⟨fun r hr => ?_, fun q v' hl => (nomatch hl), fun q hs => ?_, fun q hq => ?_,
    fun q q' hq hq' => ?_⟩
  · obtain rfl := Option.some.inj hr
    rw [hr']
    decide
  · by_cases hq : q = p
    · subst hq
      rw [Function.update_self] at hs
      exact absurd rfl hs
    · rw [Function.update_of_ne hq] at hs
      exact absurd (I.outside_of_not_held h hq) hs
  · exact ⟨r', rfl, hr'⟩
  · obtain rfl := hp q hq
    obtain rfl := hp q' hq'
    rw [Function.update_self, hnone]
    exact ⟨rfl, rfl⟩

/-- The status of a row stays, or goes from ACTIVE or EXPIRED to DELETED. -/
def Moves (o o' : Option RoomRow) : Prop :=
  ∀ r, o = some r → ∃ r', o' = some r' ∧ (r'.status = r.status ∨
    (r.status = .active ∨ r.status = .expired) ∧ r'.status = .deleted)

/-- The status stays. -/
theorem Moves.refl (o : Option RoomRow) : Moves o o := fun r h => ⟨r, h, .inl rfl⟩

/-- Two moves are one. -/
theorem Moves.trans {o₁ o₂ o₃ : Option RoomRow} (h₁ : Moves o₁ o₂) (h₂ : Moves o₂ o₃) :
    Moves o₁ o₃ := by
  intro r hr
  obtain ⟨r₂, hr₂, h⟩ := h₁ r hr
  obtain ⟨r₃, hr₃, h'⟩ := h₂ r₂ hr₂
  refine ⟨r₃, hr₃, ?_⟩
  rcases h with h | ⟨h, hd⟩
  · rw [← h]
    exact h'
  · rcases h' with h' | ⟨h', -⟩
    · exact .inr ⟨h, h'.trans hd⟩
    · rw [hd] at h'
      rcases h' with h' | h' <;> cases h'

/-- What may be committed moves the status as it should. -/
theorem Draft.moves {c v : Option RoomRow} {s : Stage} (h : Draft c v s) (hs : s ≠ .expired)
    (hs' : s ≠ .wiping) : Moves c v := by
  intro r hr
  obtain ⟨r', rfl, h⟩ := h
  cases s with
  | outside => exact ⟨r', rfl, .inl (h.2 r hr)⟩
  | wiped => exact ⟨r', rfl, .inr ⟨h.2 r hr, h.1⟩⟩
  | expired => exact absurd rfl hs
  | wiping => exact absurd rfl hs'
  | absurd => exact h.elim

/-- A process that does not hold the row has not changed the status. -/
theorem Inv.outside (I : Inv cl φ) (h : ¬∃ v, cl.lock = some (p, v)) : (φ p).stage = .outside := by
  by_contra hs
  exact h (I.holds p hs)

/-- Committing keeps the invariant, with one more win if the transaction has wiped the room. -/
theorem Inv.commit (I : Inv cl φ) (hs : (φ p).stage ≠ .expired) (hs' : (φ p).stage ≠ .wiping) :
    Inv (cl.commit p) (Function.update φ p
      (if (φ p).stage = .wiped then ⟨.outside, (φ p).wins + 1⟩ else φ p)) ∧
    Moves cl.committed (cl.commit p).committed := by
  by_cases hl : ∃ v, cl.lock = some (p, v)
  · obtain ⟨v, hl⟩ := hl
    have hh : cl.heldByOther p = false := Cell.heldByOther_eq_false.2 (.inr ⟨v, hl⟩)
    have hd := I.draft p v hl
    rw [Cell.commit_of_lock hl]
    refine ⟨?_, hd.moves hs hs'⟩
    split_ifs with hw
    · exact I.win hh (hw ▸ hd)
    · have ho : (φ p).stage = .outside := by
        cases hst : (φ p).stage with
        | outside => rfl
        | absurd => exact absurd hst I.not_absurd
        | expired => exact absurd hst hs
        | wiping => exact absurd hst hs'
        | wiped => exact absurd hst hw
      rw [ho] at hd
      obtain ⟨r', rfl, hr', hc⟩ := hd
      have h := I.release hh (v := some r') (fun r hr => by rwa [← Option.some.inj hr])
        fun r hr hdel => ⟨r', rfl, (hc r hr).trans hdel⟩
      rwa [← ho] at h
  · rw [Cell.commit_of_ne fun v hv => hl ⟨v, hv⟩, if_neg (by rw [I.outside hl]; decide),
      Function.update_eq_self]
    exact ⟨I, Moves.refl _⟩

/-- Rolling back keeps the invariant. -/
theorem Inv.rollback (I : Inv cl φ) :
    Inv (cl.rollback p) (Function.update φ p { φ p with stage := .outside }) := by
  by_cases hl : ∃ v, cl.lock = some (p, v)
  · obtain ⟨v, hl⟩ := hl
    rw [Cell.rollback_of_lock hl]
    exact I.release (Cell.heldByOther_eq_false.2 (.inr ⟨v, hl⟩)) I.committed
      fun r hr hd => ⟨r, hr, hd⟩
  · rw [Cell.rollback_of_ne fun v hv => hl ⟨v, hv⟩, ← I.outside hl, Function.update_eq_self]
    exact I

/-- The invariant holds when nothing is in progress. -/
theorem Inv.init (h : cl.lock = none) (hc : ∀ r, cl.committed = some r → r.status ≠ .deleting) :
    Inv cl fun _ => ⟨.outside, 0⟩ where
  committed := hc
  draft q v hl := by
    rw [h] at hl
    cases hl
  holds q hs := absurd rfl hs
  won q hq := absurd hq (Nat.lt_irrefl 0)
  once q q' hq := absurd hq (Nat.lt_irrefl 0)

/-- Every command that is allowed keeps the invariant, and moves the committed status as it
should. -/
theorem Inv.step {m : Machine Cmd Resp Err World} (hm : Faithful m) {ρ : ℕ} {w w' : World}
    {c : Cmd} {x} (I : Inv (w.db.cell .rooms ρ) φ) (ha : allowed ρ (φ p) c)
    (h : m.Answer p c w x w') :
    Inv (w'.db.cell .rooms ρ) (Function.update φ p (next ρ (φ p) c x)) ∧
      Moves (w.db.committed .rooms ρ) (w'.db.committed .rooms ρ) := by
  refine hm.row_elim h .rooms ρ (motive := fun c x cl' => allowed ρ (φ p) c →
    Inv cl' (Function.update φ p (next ρ (φ p) c x)) ∧
      Moves (w.db.committed .rooms ρ) cl'.committed) ?spared ?failed ?refused ?updated ?kept
    ?deleted ?other ?inserted ?committed ?rolledBack ha
  -- Nothing of this room: the stage stays.
  case spared =>
    intro c x hc _
    have hn : next ρ (φ p) c x = φ p := by
      unfold next
      split
      · next i u b => exact if_neg fun hi => hc ⟨rfl, hi⟩
      · exact hc.elim
      · exact hc.elim
      · rfl
    rw [hn, Function.update_eq_self]
    exact ⟨I, Moves.refl _⟩
  -- A statement that fails writes nothing, and the task is where it was.
  case failed =>
    intro c e hc _
    have hn : next ρ (φ p) c (.error e) = φ p := by
      unfold next
      split
      · rename_i he
        cases he
      · rename_i he
        cases he
      · exact absurd rfl hc
      · rfl
    rw [hn, Function.update_eq_self]
    exact ⟨I, Moves.refl _⟩
  -- An update that does not apply writes nothing, and the task stays at its stage.
  case refused =>
    intro u hu ha
    have hn : next ρ (φ p) (.sql (.updateAt .rooms ρ u)) (.ok false) =
        { φ p with stage := (φ p).stage.update u false } := if_pos rfl
    have hs : (φ p).stage.update u false = (φ p).stage := by
      by_cases ho : (φ p).stage = .outside
      · rw [ho]
        cases u <;> rfl
      · obtain ⟨r, hr⟩ := I.view_eq_some ho
        exact (I.sees hr).refused (ha rfl) (hu r hr)
    rw [hn, hs, Function.update_eq_self]
    exact ⟨I, Moves.refl _⟩
  -- The update fits what the task has seen, and the row is its own until it commits.
  case updated =>
    intro u r hr hu hl ha
    have hn : next ρ (φ p) (.sql (.updateAt .rooms ρ u)) (.ok true) =
        { φ p with stage := (φ p).stage.update u true } := if_pos rfl
    rw [hn]
    exact ⟨I.write hl ((I.sees hr).update (ha rfl) hu), Moves.refl _⟩
  case kept => exact fun d => d.elim
  -- No statement deletes a room.
  case deleted => exact fun d => d.elim
  -- Another room is made.
  case other =>
    intro r j _ _
    have hn : next ρ (φ p) (.sql (.insert .rooms r)) (.ok j) = φ p := rfl
    rw [hn, Function.update_eq_self]
    exact ⟨I, Moves.refl _⟩
  -- This room is made, active: until the commit nobody else sees it.
  case inserted =>
    intro r _ hc ha
    rw [hc] at I
    have h := I.write (p := p) (v := some r) rfl (s := .outside)
      ⟨r, rfl, by rw [ha.1]; decide, fun r₀ h₀ => nomatch h₀⟩
    have hn : next ρ (φ p) (.sql (.insert .rooms r)) (.ok ρ) = φ p := rfl
    rw [← ha.2.resolve_right I.not_absurd, Function.update_eq_self] at h
    rw [hn, Function.update_eq_self]
    refine ⟨h, fun r₀ h₀ => ?_⟩
    rw [Tables.committed, hc] at h₀
    cases h₀
  case committed => exact fun ha => I.commit ha.1 ha.2
  -- What the task wrote is gone, and the committed row stays.
  case rolledBack =>
    intro _
    refine ⟨I.rollback, ?_⟩
    rw [Cell.committed_rollback]
    exact Moves.refl _

/-! ## The programs keep to the protocol -/

section

variable {env : Env} {ρ : ℕ} {α : Type} {φ : Phase}

/-- One command. -/
theorem monitor_wp_issue {c : Cmd} {Q : Except Err (Resp c) → Phase → Prop}
    (ha : allowed ρ φ c) (hx : ∀ x, Q x (next ρ φ c x)) : (issue c).wp (monitor ρ).trans Q φ :=
  (wp_issue (monitor ρ).trans_monotone c Q φ).2 ⟨ha, hx⟩

/-- The updates of the status. -/
def marks : RoomUpdate → Bool
  | .markExpired | .markDeleting | .markDeleted => true
  | _ => false

/-- An update of something else than the status leaves the phase. -/
theorem next_update {u : RoomUpdate} (hu : marks u = false) (i : ℕ) (x) :
    next ρ φ (.sql (.updateAt .rooms i u)) x = φ := by
  have hs : ∀ b, φ.stage.update u b = φ.stage := by
    intro b
    unfold Stage.update
    split <;> first | rfl | cases hu
  cases x with
  | error e => rfl
  | ok b =>
    rw [next, hs]
    exact ite_self _

/-- An update of something else than the status is allowed outside a teardown. -/
theorem ordinary_update {u : RoomUpdate} (hu : marks u = false) (i : ℕ)
    (hφ : φ.stage = .outside) :
    (monitor ρ).allowed φ (.sql (.updateAt .rooms i u)) ∧
      ∀ x, ((monitor ρ).next φ (.sql (.updateAt .rooms i u)) x).stage = .outside := by
  refine ⟨fun _ => ?_, fun x => ?_⟩
  · rw [hφ]
    rintro rfl
    cases hu
  · exact (congrArg Phase.stage (next_update hu i x)).trans hφ

/-- A command that updates no status is allowed outside a teardown, and stays outside. -/
theorem plain_allowed {K : List Kind} (hK : ∀ k ∈ markKinds, k ∉ K) {c : Cmd} (hc : Issued env K c)
    (hφ : φ.stage = .outside) : (monitor ρ).allowed φ c ∧
      ∀ x, ((monitor ρ).next φ c x).stage = .outside := by
  cases hc with
  | markExpired h => exact absurd h (hK _ (by decide))
  | markDeleting h => exact absurd h (hK _ (by decide))
  | markDeleted h => exact absurd h (hK _ (by decide))
  | commit h =>
    refine ⟨⟨by rw [hφ]; decide, by rw [hφ]; decide⟩, fun x => ?_⟩
    cases x with
    | error e => exact hφ
    | ok b => exact (congrArg Phase.stage (if_neg (by rw [hφ]; decide))).trans hφ
  | close h => exact ⟨trivial, fun _ => rfl⟩
  | newRoom h r hr => exact ⟨⟨hr.1, .inl hφ⟩, fun _ => hφ⟩
  | join h i => exact ordinary_update rfl _ hφ
  | leave h i => exact ordinary_update rfl _ hφ
  | claim h i n => exact ordinary_update rfl _ hφ
  | release h i => exact ordinary_update rfl _ hφ
  | fields h i => exact ordinary_update rfl _ hφ
  | _ => exact ⟨trivial, fun _ => hφ⟩

/-- Reading and deleting content is allowed anywhere and leaves the phase. -/
theorem content_allowed {c : Cmd} (hc : Issued env contentKinds c) :
    (monitor ρ).allowed φ c ∧ ∀ x, (monitor ρ).next φ c x = φ := by
  cases hc with
  | commit h => exact absurd h (by decide)
  | close h => exact absurd h (by decide)
  | newRoom h => exact absurd h (by decide)
  | join h => exact absurd h (by decide)
  | leave h => exact absurd h (by decide)
  | claim h => exact absurd h (by decide)
  | release h => exact absurd h (by decide)
  | fields h => exact absurd h (by decide)
  | markExpired h => exact absurd h (by decide)
  | markDeleting h => exact absurd h (by decide)
  | markDeleted h => exact absurd h (by decide)
  | _ => exact ⟨trivial, fun _ => rfl⟩

/-- Deleting the content moves no status. -/
theorem content_keeps {prog : Op α} (h : prog.Only (Issued env contentKinds)) :
    prog.wp (monitor ρ).trans (fun _ φ' => φ' = φ) φ := by
  refine h.wp (M := monitor ρ) (I := fun φ' => φ' = φ) (fun c φ' hc hφ => ?_) rfl
  obtain ⟨ha, hn⟩ := content_allowed (φ := φ') hc
  exact ⟨ha, fun x => (hn x).trans hφ⟩

/-- What `cleanup_room` of a room leaves behind: when it returns True, the room is wiped and not
committed. -/
def Returned (ρ i : ℕ) (x : Except Err Bool) (φ : Phase) : Prop :=
  match x with
  | .ok true => if i = ρ then φ.stage = .wiped ∨ φ.stage = .absurd else φ.stage = .outside
  | .ok false => φ.stage = .outside ∨ φ.stage = .absurd
  | .error _ => True

/-- Where an update of a status leads. -/
theorem next_mark (u : RoomUpdate) (i : ℕ) (b : Bool) :
    next ρ φ (.sql (.updateAt .rooms i u)) (.ok b) =
      if i = ρ then { φ with stage := φ.stage.update u b } else φ := rfl

/-- `cleanup_room` once `mark_room_deleting` has succeeded. -/
theorem wiping_wp (env : Env) (i : ℕ) (hφ : if i = ρ then φ.stage = .wiping ∨ φ.stage = .absurd
      else φ.stage = .outside) :
    (do
      cleanupService.deleteContent i
      let _ ← roomRepository.markRoomDeleted i
      pure true : Op Bool).wp (monitor ρ).trans (Returned ρ i) φ := by
  rw [Prog.wp_bind]
  have hissued : (cleanupService.deleteContent i).Only (Issued env contentKinds) :=
    only_deleteContent (fun _ h => h) i
  have hcontent := content_keeps (ρ := ρ) (φ := φ) hissued
  refine Prog.wp_mono (monitor ρ).trans_monotone ?_ hcontent
  rintro (e | u) φ' rfl
  · trivial
  rw [Prog.wp_bind]
  refine monitor_wp_issue (fun hi => ?_) ?_
  · rw [if_pos hi] at hφ
    rcases hφ with hs | hs <;> rw [hs]
    · rfl
    · trivial
  rintro (e | b)
  · trivial
  rw [next_mark]
  change if i = ρ then _ else _
  by_cases hi : i = ρ
  · rw [if_pos hi] at hφ
    rw [if_pos hi, if_pos hi]
    rcases hφ with hs | hs <;> rw [hs] <;> cases b
    · exact .inr rfl
    · exact .inl rfl
    · exact .inr rfl
    · exact .inr rfl
  · rw [if_neg hi] at hφ
    rwa [if_neg hi, if_neg hi]

/-- `cleanup_room` from `mark_room_deleting` on. -/
theorem wipe_wp (env : Env) (i : ℕ) (hφ : φ.stage = .outside ∨
      i = ρ ∧ (φ.stage = .expired ∨ φ.stage = .absurd)) :
    (do
      if ← roomRepository.markRoomDeleting i then
        cleanupService.deleteContent i
        let _ ← roomRepository.markRoomDeleted i
        pure true
      else
        pure false : Op Bool).wp (monitor ρ).trans (Returned ρ i) φ := by
  rw [Prog.wp_bind]
  refine monitor_wp_issue (fun hi => ?_) ?_
  · rcases hφ with hs | ⟨-, hs | hs⟩ <;> rw [hs]
    · exact nofun
    · rfl
    · trivial
  rintro (e | b)
  · trivial
  rw [next_mark]
  cases b with
  -- Outside, somebody else has the room. A task that has marked it expired itself cannot be
  -- refused.
  | false =>
    change _ ∨ _
    by_cases hi : i = ρ
    · rw [if_pos hi]
      rcases hφ with hs | ⟨-, hs | hs⟩ <;> rw [hs]
      · exact .inl rfl
      · exact .inr rfl
      · exact .inr rfl
    · rw [if_neg hi]
      exact .inl (hφ.resolve_right fun h => hi h.1)
  | true =>
    refine wiping_wp env i ?_
    by_cases hi : i = ρ
    · rw [if_pos hi, if_pos hi]
      rcases hφ with hs | ⟨-, hs | hs⟩ <;> rw [hs]
      · exact .inl rfl
      · exact .inl rfl
      · exact .inr rfl
    · rw [if_neg hi, if_neg hi]
      exact hφ.resolve_right fun h => hi h.1

/-- `cleanup_room` keeps to the protocol and leaves behind what it should. -/
theorem cleanupRoom_wp (env : Env) (room : Room) (hφ : φ.stage = .outside) :
    (cleanupService.cleanupRoom room).wp (monitor ρ).trans (Returned ρ room.id) φ := by
  unfold cleanupService.cleanupRoom
  split
  · rw [Prog.wp_bind]
    refine monitor_wp_issue (fun _ => ?_) ?_
    · rw [hφ]
      exact nofun
    rintro (e | b)
    · trivial
    refine wipe_wp env room.id ?_
    rw [next_mark]
    by_cases hi : room.id = ρ
    · rw [if_pos hi, hφ]
      cases b
      · exact .inl rfl
      · exact .inr ⟨hi, .inl rfl⟩
    · rw [if_neg hi]
      exact .inl hφ
  · exact wipe_wp env room.id (.inl hφ)

/-- A caller of `cleanup_room`: it commits, and may then tell the room's sockets. -/
theorem caller_wp (env : Env) (room : Room) (hφ : φ.stage = .outside) {k : Bool → Op Unit}
    (hk : ∀ b, (k b).Only (Issued env [])) :
    (do
      let changed ← cleanupService.cleanupRoom room
      commit
      k changed : Op Unit).wp (monitor ρ).trans (fun _ _ => True) φ := by
  rw [Prog.wp_bind]
  refine Prog.wp_mono (monitor ρ).trans_monotone ?_ (cleanupRoom_wp env room hφ)
  rintro (e | b) φ' hr
  · trivial
  dsimp only
  rw [Prog.wp_bind]
  refine monitor_wp_issue ?_ ?_
  · cases b with
    | false => rcases hr with hs | hs <;> exact ⟨by rw [hs]; decide, by rw [hs]; decide⟩
    | true =>
      rw [Returned] at hr
      split_ifs at hr with hi
      · rcases hr with hs | hs <;> exact ⟨by rw [hs]; decide, by rw [hs]; decide⟩
      · exact ⟨by rw [hr]; decide, by rw [hr]; decide⟩
  · rintro (e | u)
    · trivial
    · exact Prog.wp_mono (monitor ρ).trans_monotone (fun _ _ _ => trivial)
        (content_keeps ((hk b).mono fun _ hc => hc.mono (by simp)))

/-- The protocol concerns `cleanup_room` only. -/
theorem lifts (env : Env) (ρ : ℕ) : Lifts env (monitor ρ) fun φ => φ.stage = .outside where
  plain hK hc hl := plain_allowed hK hc hl
  reads hc := content_allowed (hc.mono (by simp))
  close _ := ⟨trivial, fun _ => rfl⟩
  caller room _ hl hk := caller_wp env room hl hk

end

end teardown

/-! ## Every run -/

open teardown

section

variable {env : Env} {ρ : ℕ} {w : World} {tasks : ℕ → Task} {s s' : Conf Cmd Resp Err Unit World Phase}

/-- The invariant holds in every state that the server reaches, and the status moves as it should
between any two of them. -/
theorem teardown_invariant (hfree : (w.db.cell .rooms ρ).lock = none)
    (hdel : ∀ r, w.db.committed .rooms ρ = some r → r.status ≠ .deleting)
    (h : server.Reaches (monitor ρ) Guard.all
      (Conf.start w ⟨.outside, 0⟩ fun p => (tasks p).program env) s)
    (h' : server.Reaches (monitor ρ) Guard.all s s') :
    Inv (s'.world.db.cell .rooms ρ) s'.phase ∧
      Moves (s.world.db.committed .rooms ρ) (s'.world.db.committed .rooms ρ) := by
  have hmove : ∀ o {s₁ s₂ : Conf Cmd Resp Err Unit World Phase},
      server.Reaches (monitor ρ) Guard.all s₁ s₂ →
      Inv (s₁.world.db.cell .rooms ρ) s₁.phase ∧ Moves o (s₁.world.db.committed .rooms ρ) →
      s₁.Conforms (monitor ρ) (fun _ _ => True) →
      (Inv (s₂.world.db.cell .rooms ρ) s₂.phase ∧ Moves o (s₂.world.db.committed .rooms ρ)) ∧
        s₂.Conforms (monitor ρ) (fun _ _ => True) := by
    intro o s₁ s₂ hr hI hC
    refine Machine.invariant (I := fun w φ => Inv (w.db.cell .rooms ρ) φ ∧
      Moves o (w.db.committed .rooms ρ)) ?_ ?_ hr hI hC
    · intro w φ p c x w' hI ha _ hx
      obtain ⟨hI', hm⟩ := hI.1.step server_faithful ha hx
      exact ⟨hI', hI.2.trans hm⟩
    · intro w φ w' hI ht
      rw [World.Tick.db_eq ht]
      exact hI
  have h₀ := hmove _ h ⟨Inv.init hfree hdel, Moves.refl _⟩ fun p =>
    Prog.wp_mono (monitor ρ).trans_monotone (fun _ _ _ => trivial) ((lifts env ρ).program (tasks p) rfl)
  exact (hmove _ h' ⟨h₀.1.1, Moves.refl _⟩ h₀.2).1

end

/-- A room is torn down safely in every run of the server, with any tasks and any failures: in every
state that is reached, DELETING is not a committed status, at most one invocation of
`cleanup_room` that returned True has been committed, and a room that is not DELETED is found by
`list_rooms_pending_cleanup` once it has expired; and between any two states the committed status
stays or goes from ACTIVE or EXPIRED to DELETED. The last two parts say what the phases mean:
`cleanup_room` returns True only with the room wiped, and no process is ever in the stage
`absurd`. -/
theorem teardown_safe (env : Env) (ρ : ℕ) (w : World) (tasks : ℕ → Task)
    (hfree : (w.db.cell .rooms ρ).lock = none)
    (hdel : ∀ r, w.db.committed .rooms ρ = some r → r.status ≠ .deleting)
    (s s' : Conf Cmd Resp Err Unit World Phase)
    (h : server.Reaches (monitor ρ) Guard.all
      (Conf.start w ⟨.outside, 0⟩ fun p => (tasks p).program env) s)
    (h' : server.Reaches (monitor ρ) Guard.all s s') :
    (∀ r, s'.world.db.committed .rooms ρ = some r → r.status ≠ .deleting) ∧
    Moves (s.world.db.committed .rooms ρ) (s'.world.db.committed .rooms ρ) ∧
    (∀ p q, 0 < (s'.phase p).wins → 0 < (s'.phase q).wins → p = q ∧ (s'.phase p).wins = 1) ∧
    (∀ r now, s'.world.db.committed .rooms ρ = some r → r.status ≠ .deleted →
      r.expires_at ≤ now → roomRepository.pendingCleanup now r = true) ∧
    (∀ room φ, φ.stage = .outside →
      (cleanupService.cleanupRoom room).wp (monitor ρ).trans (Returned ρ room.id) φ) ∧
    ∀ p, (s'.phase p).stage ≠ .absurd := by
  obtain ⟨I, hm⟩ := teardown_invariant hfree hdel h h'
  refine ⟨I.committed, hm, I.once, fun r now hr hd he => ?_,
    fun room φ hφ => cleanupRoom_wp env room hφ, fun p => I.not_absurd⟩
  have hs : r.status = .active ∨ r.status = .expired := by
    have hne := I.committed r hr
    cases hst : r.status with
    | active => exact .inl rfl
    | expired => exact .inr rfl
    | deleting => exact absurd hst hne
    | deleted => exact absurd hst hd
  rcases hs with hs | hs <;> simp [roomRepository.pendingCleanup, hs, he]

/-- A server with one expired room and the job to clean it up. -/
def World.expiredRoom : World :=
  { World.holding [{ RoomRow.plain with expires_at := seconds 900 }] [] [] with
    queue := [.roomCleanup (some 0)] }

/-- The worker of `World.expiredRoom` tears the room down, and the invariant says so. -/
theorem teardown_safe_expiredRoom :
    ∃ s : Conf Cmd Resp Err Unit World Phase,
      server.Reaches (monitor 0) Guard.all (Conf.start .expiredRoom ⟨.outside, 0⟩ fun p =>
        (if p = 0 then Task.worker 1 else .idle).program .plain) s ∧
      (s.world.db.committed .rooms 0).map RoomRow.status = some .deleted ∧
      Moves (World.expiredRoom.db.committed .rooms 0) (s.world.db.committed .rooms 0) := by
  have hrun : ((server.play (monitor 0) Guard.all (List.replicate 13 0)
      (Conf.start .expiredRoom ⟨.outside, 0⟩ fun p =>
        (if p = 0 then Task.worker 1 else .idle).program .plain)).map fun s =>
      (s.world.db.committed .rooms 0).map RoomRow.status) = some (some .deleted) := by
    decide
  obtain ⟨s, hs, hd⟩ := Option.map_eq_some_iff.1 hrun
  have hr := Machine.play_reaches hs
  exact ⟨s, hr, hd, (teardown_safe .plain 0 .expiredRoom _ rfl
    (fun r hr => by cases hr; decide) _ s .refl hr).2.1⟩

end DropRoom
