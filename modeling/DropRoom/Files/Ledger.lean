import DropRoom.Files.Keeping
import DropRoom.App.Tasks

/-!
# Serial histories

Tasks of the server that run one after the other, with any commands failing in them and any time
between them. Every such history is a run of the vault (`Serially.run`).
-/

namespace DropRoom

open Effect Store Prog uploadService

/-- A task that ran alone, from start to end. -/
structure Turn where
  process : ℕ
  task : Task
  before : World
  after : World

/-- What the process of the turn sees before it. -/
def Turn.view (turn : Turn) : Serial := .of turn.process turn.before

/-- Tasks run one after the other, while time passes. -/
inductive Serially (m : Machine Cmd Resp Err World) (env : Env) (w : World) : List Turn → World → Prop
  | refl : Serially m env w [] w
  | tick {turns w₁ w₂} (h : Serially m env w turns w₁) (ht : w₁.Tick w₂) : Serially m env w turns w₂
  | turn {turns w₁ w₂ p task r} (h : Serially m env w turns w₁)
      (hr : m.Runs p (task.program env) w₁ r w₂) :
      Serially m env w (turns ++ [⟨p, task, w₁, w₂⟩]) w₂

/-- No row is locked, and what the vault rests on holds. -/
structure World.Sound (w : World) : Prop where
  free : w.db.Free
  sound : DropRoom.Sound (.of 0 w)

/-- What the committed rows and the objects of a world say. -/
def World.vault (w : World) (h : w.Sound) : Vault := (Serial.of 0 w).vault h.sound

/-- A server without rows, objects and jobs, which will draw each key once. -/
structure World.Fresh (w : World) : Prop where
  db : ∀ t, w.db t = []
  storage : w.storage = ∅
  queue : w.queue = []
  injective : Function.Injective w.uuids

/-- The vault without rooms and files. -/
def Vault.empty : Vault where
  account _ := none
  entries := ⟨fun _ => none, 0, fun _ _ h => by cases h⟩
  objects _ := none
  owned _ _ h := by cases h
  distinct _ _ _ _ h := by cases h

section

variable {env : Env} {w w' : World} {turns : List Turn}

/-- A fresh server has no row. -/
theorem World.Fresh.committed (h : w.Fresh) (t : Table) (i : ℕ) : w.db.committed t i = none := by
  unfold Tables.committed Tables.cell
  rw [h.db]
  rfl

/-- A fresh server is sound. -/
theorem World.Fresh.sound (h : w.Fresh) : w.Sound := by
  have hfiles : ∀ f r, (Serial.of 0 w).db.saved .files f ≠ some r := fun f r hr => by
    rw [show (Serial.of 0 w).db.saved .files f = none from h.committed .files f] at hr
    cases hr
  refine ⟨fun t i => ?_, h.injective, fun f r hr => absurd hr (hfiles f r),
    fun f g r r' hr => absurd hr (hfiles f r), fun f r hr => absurd hr (hfiles f r), fun n _ => ?_,
    fun job hjob => ?_⟩
  · rw [Tables.cell, h.db]
    rfl
  · change w.storage.lookup _ = none
    rw [h.storage]
    rfl
  · rw [show (Serial.of 0 w).rest.queue = [] from h.queue] at hjob
    cases hjob

/-- A fresh server has an empty vault. -/
theorem World.Fresh.vault (h : w.Fresh) : w.vault h.sound = .empty := by
  have haccount : (fun i => ((Serial.of 0 w).db.saved .rooms i).map RoomRow.account) =
      fun _ => none := funext fun i => congrArg (Option.map _) (h.committed .rooms i)
  have hentry : (fun f => ((Serial.of 0 w).db.saved .files f).map FileRow.entry) =
      fun _ => none := funext fun f => congrArg (Option.map _) (h.committed .files f)
  have hbound : (Serial.of 0 w).db.count .files = 0 := congrArg List.length (h.db .files)
  have hobjects : (fun key => (Serial.of 0 w).rest.storage.lookup key) = fun _ => none :=
    funext fun key => congrArg (AList.lookup key) h.storage
  simp only [World.vault, Serial.vault, Vault.empty, haccount, hentry, hbound, hobjects]

/-- Time that passes changes nothing. -/
theorem World.Sound.tick (h : w.Sound) (ht : w.Tick w') :
    ∃ h' : w'.Sound, w'.vault h' = w.vault h := by
  obtain ⟨d, d', rfl⟩ := ht
  obtain ⟨hfree, hsound⟩ := h
  exact ⟨⟨hfree, ⟨hsound.injective, hsound.owned, hsound.distinct, hsound.drawn, hsound.unused,
    hsound.queued⟩⟩, rfl⟩

/-- A turn makes steps of the vault that its task is allowed. -/
theorem World.Sound.turn {p : ℕ} {task : Task} {r : Except Err Unit} (h : w.Sound)
    (hr : server.Runs p (task.program env) w r w') :
    ∃ h' : w'.Sound, Vault.Run (Allowed env (.of p w) task) (w.vault h) (w'.vault h') := by
  obtain ⟨hfree, hsound⟩ := h
  have hp : DropRoom.Sound (.of p w) := ⟨hsound.injective, hsound.owned, hsound.distinct,
    hsound.drawn, hsound.unused, hsound.queued⟩
  obtain ⟨hp', hrun⟩ := (ends_task hp (Snapshot.rows_of_free hfree)).of_runs hr (hfree.alone p) hp
  have hfree' : w'.db.Free := (task.settles env).free server_faithful hr hfree
  exact ⟨⟨hfree', ⟨hp'.injective, hp'.owned, hp'.distinct, hp'.drawn, hp'.unused, hp'.queued⟩⟩,
    hrun⟩

/-- What one of the turns is allowed. -/
def MayHappen (env : Env) (turns : List Turn) (act : Vault.Act) : Prop :=
  ∃ turn ∈ turns, Allowed env turn.view turn.task act

/-- What each turn keeps, a history keeps. -/
theorem Serially.preserves {P : List Turn → (w : World) → w.Sound → Prop} (hw : w.Sound)
    (hs : Serially server env w turns w') (hrefl : P [] w hw)
    (htick : ∀ turns w₁ h₁ w₂ h₂, P turns w₁ h₁ → w₂.vault h₂ = w₁.vault h₁ → P turns w₂ h₂)
    (hturn : ∀ turns turn h₁ h₂, P turns turn.before h₁ →
      Vault.Run (Allowed env turn.view turn.task) (turn.before.vault h₁) (turn.after.vault h₂) →
      P (turns ++ [turn]) turn.after h₂) : ∃ hw' : w'.Sound, P turns w' hw' := by
  induction hs with
  | refl => exact ⟨hw, hrefl⟩
  | @tick turns w₁ w₂ hs ht ih =>
    obtain ⟨h₁, hP⟩ := ih
    obtain ⟨h₂, hvault⟩ := h₁.tick ht
    exact ⟨h₂, htick turns w₁ h₁ w₂ h₂ hP hvault⟩
  | @turn turns w₁ w₂ p task r hs hr ih =>
    obtain ⟨h₁, hP⟩ := ih
    obtain ⟨h₂, hrun⟩ := h₁.turn hr
    exact ⟨h₂, hturn turns ⟨p, task, w₁, w₂⟩ h₁ h₂ hP hrun⟩

/-- A program that waits for nothing is a turn, whatever it returns. -/
theorem Serially.then (hs : Serially server env w turns w') (p : ℕ) (task : Task)
    (h : (calm.eval p (task.program env) w').isSome = true) :
    Serially server env w (turns ++ [⟨p, task, w', calm.endWorld p (task.program env) w'⟩])
      (calm.endWorld p (task.program env) w') := by
  obtain ⟨r, hr⟩ := calm.exists_runs_endWorld p (task.program env) w' h
  exact .turn hs (server_of_calm hr)

/-- A history is a run of the vault. -/
theorem Serially.run (hs : Serially server env w turns w') (hw : w.Sound) :
    ∃ hw' : w'.Sound, Vault.Run (MayHappen env turns) (w.vault hw) (w'.vault hw') := by
  refine hs.preserves (P := fun turns w' hw' =>
    Vault.Run (MayHappen env turns) (w.vault hw) (w'.vault hw')) hw .refl ?_ ?_
  · intro turns w₁ h₁ w₂ h₂ hrun hvault
    rw [hvault]
    exact hrun
  · intro turns turn h₁ h₂ hrun hlast
    refine (hrun.mono fun act hact => ?_).trans (hlast.mono fun act hact => ?_)
    · obtain ⟨turn', hmem, hallowed⟩ := hact
      exact ⟨turn', List.mem_append_left _ hmem, hallowed⟩
    · exact ⟨turn, List.mem_append_right _ List.mem_cons_self, hact⟩

end

/-! ## A history -/

namespace histories

/-- The owner of the first room. -/
def owner : Request := { Request.owner with session_cookie := some "ttt" }

/-- The first room is made. -/
def make : Task := .request (.createRoom ⟨none, none, true, true, none⟩) .owner

/-- Its owner uploads two bytes. -/
def upload : Task := .request (.upload "t" (some "f") none [.ok [65], .ok [66]]) owner

/-- Its owner aborts the upload whose record is `f`. -/
def abort : Task := .request (.abortUploadSession "t" 0) owner

/-- Its owner uploads another file, and deletes that one. -/
def another : Task := .request (.upload "t" (some "g") none [.ok [67]]) owner

/-- The owner deletes that other file. -/
def deletion : Task := .request (.deleteFile "t" 1) owner

/-- The server after the room was made. -/
def made : World := calm.endWorld 0 (make.program .plain) .initial

/-- The server after the upload was completed. -/
def uploaded : World := calm.endWorld 0 (upload.program .plain) made

/-- The server after the upload was aborted. -/
def aborted : World := calm.endWorld 0 (abort.program .plain) uploaded

/-- The server after a second upload. -/
def doubled : World := calm.endWorld 0 (another.program .plain) uploaded

/-- The server after that file was deleted. -/
def later : World := calm.endWorld 0 (deletion.program .plain) doubled

/-- The server starts fresh. -/
theorem fresh : World.initial.Fresh where
  db _ := rfl
  storage := rfl
  queue := rfl
  injective i j h := by
    have hlength : i + 1 = j + 1 := by
      simpa [World.initial] using congrArg (fun key : Uuid => key.text.length) h
    exact Nat.succ_injective hlength

/-- The record of the upload. -/
def row : FileRow := { FileRow.plain with
  storage_key := World.initial.uuids 0
  content_type := some "text/plain"
  size_bytes := 2
  uploaded_by := some 0
  expires_at := some (seconds 4900) }

/-- What comes out when the history is run. -/
structure Outcome : Prop where
  made : (calm.eval 0 (make.program .plain) .initial).isSome = true
  uploaded : (calm.eval 0 (upload.program .plain) histories.made).isSome = true
  aborted : (calm.eval 0 (abort.program .plain) histories.uploaded).isSome = true
  row : histories.uploaded.db.committed .files 0 = some histories.row
  gone : histories.aborted.db.committed .files 0 = none
  counters : (histories.aborted.db.committed .rooms 0).map (fun r : RoomRow =>
    (r.storage_used_bytes, r.file_count, r.status)) = some (2, 1, .active)
  id : (calm.eval 0 (files.upload .plain "t" (some "f") none [.ok [65], .ok [66]] owner)
    histories.made).map (fun x => x.1.toOption.map FileView.id) = some (some 0)
  doubled : (calm.eval 0 (another.program .plain) histories.uploaded).isSome = true
  later : (calm.eval 0 (deletion.program .plain) histories.doubled).isSome = true
  deleted : (histories.later.db.committed .files 1).map FileRow.status = some .deleted
  downloaded : (calm.eval 0 (files.download .plain "t" (0 : ℕ) owner)
    histories.later).map (fun x => x.1.toOption.map fun _ => ()) = some (some ())

/-- What the turns have done to the room. -/
theorem outcome : Outcome := by
  constructor <;> decide +kernel

/-- The room is made and the two bytes are uploaded. -/
theorem of_uploaded : Serially server .plain .initial
    [⟨0, make, .initial, made⟩, ⟨0, upload, made, uploaded⟩] uploaded :=
  (Serially.refl.then 0 make outcome.made).then 0 upload outcome.uploaded

/-- Then the upload is aborted, although it is complete. -/
theorem of_aborted : Serially server .plain .initial
    [⟨0, make, .initial, made⟩, ⟨0, upload, made, uploaded⟩, ⟨0, abort, uploaded, aborted⟩]
    aborted :=
  of_uploaded.then 0 abort outcome.aborted

end histories

section

variable {env : Env} {w w' : World} {turns : List Turn}

/-- Started empty, the server is the vault that starts empty: every history is a run of it in which
each step is one that a task of the history is allowed. -/
theorem server_keeps_vault (hw : w.Fresh) (hs : Serially server env w turns w') :
    ∃ hw' : w'.Sound, Vault.Run (MayHappen env turns) .empty (w'.vault hw') := by
  obtain ⟨hw', hrun⟩ := hs.run hw.sound
  rw [hw.vault] at hrun
  exact ⟨hw', hrun⟩

/-- A room is made, and two bytes are uploaded to it. -/
theorem server_keeps_vault_uploaded : ∃ hw' : histories.uploaded.Sound,
    Vault.Run (MayHappen .plain [⟨0, histories.make, .initial, histories.made⟩,
      ⟨0, histories.upload, histories.made, histories.uploaded⟩]) .empty
      (histories.uploaded.vault hw') :=
  server_keeps_vault histories.fresh histories.of_uploaded

/-! ## The ledger -/

/-- What the record under a number counts for in the account of a room. -/
def World.counted (w : World) (ρ f : ℕ) : ℤ × ℤ :=
  Register.weight (Vault.measure ρ) ((w.db.committed .files f).map FileRow.entry)

/-- What a turn has struck out of the files of a room by aborting an upload. -/
def Turn.struck (ρ : ℕ) (turn : Turn) : ℤ × ℤ :=
  match turn.task with
  | .request (.abortUploadSession _ upload_id) _ =>
    turn.before.counted ρ upload_id.toNat - turn.after.counted ρ upload_id.toNat
  | _ => 0

/-- Only an abort strikes out an entry, and it does nothing else. -/
theorem Allowed.of_abort {σ : Serial} {task : Task} {ρ f : ℕ} (h : Allowed env σ task (.abort ρ f)) :
    ∃ room_token request, task = .request (.abortUploadSession room_token f) request := by
  cases h with
  | member hm hmay =>
    cases hmay with
    | abort f => exact ⟨_, _, rfl⟩

/-- What an abort may do. -/
theorem Allowed.abortUploadSession {σ : Serial} {room_token : Token} {upload_id : ℤ}
    {request : Request} {act : Vault.Act}
    (h : Allowed env σ (.request (.abortUploadSession room_token upload_id) request) act) :
    act = .scratch ∨ ∃ ρ, act = .abort ρ upload_id.toNat := by
  cases h with
  | scratch => exact .inl rfl
  | member hm hmay =>
    cases hmay with
    | abort f => exact .inr ⟨_, rfl⟩

/-- A turn moves the account of a room as it moves its files, but for what an abort strikes out. -/
theorem off_turn {turn : Turn} {ρ : ℕ} (h₁ : turn.before.Sound) (h₂ : turn.after.Sound)
    (hrun : Vault.Run (Allowed env turn.view turn.task) (turn.before.vault h₁)
      (turn.after.vault h₂)) :
    (turn.after.vault h₂).Closed ρ ∨
      (turn.after.vault h₂).off ρ = (turn.before.vault h₁).off ρ + turn.struck ρ := by
  unfold Turn.struck
  split
  · next room_token upload_id request htask =>
    refine .inr ?_
    rw [htask] at hrun
    have hoff : (turn.after.vault h₂).off ρ + turn.after.counted ρ upload_id.toNat =
        (turn.before.vault h₁).off ρ + turn.before.counted ρ upload_id.toNat :=
      hrun.off_abort fun act hact => hact.abortUploadSession
    rw [add_sub, ← hoff, add_sub_cancel_right]
  · next hother =>
    rw [add_zero]
    refine hrun.off fun ρ' f hact => ?_
    obtain ⟨room_token, request, htask⟩ := hact.of_abort
    exact hother _ _ _ htask

/-- The account of a room that is not closed differs from its files by as much more as the aborts of
the history have struck out. -/
theorem Serially.off (hs : Serially server env w turns w') (hw : w.Sound) (ρ : ℕ) :
    ∃ hw' : w'.Sound, (w'.vault hw').Closed ρ ∨
      (w'.vault hw').off ρ = (w.vault hw).off ρ + (turns.map (Turn.struck ρ)).sum := by
  refine hs.preserves (P := fun turns w' hw' => (w'.vault hw').Closed ρ ∨
    (w'.vault hw').off ρ = (w.vault hw).off ρ + (turns.map (Turn.struck ρ)).sum) hw ?_ ?_ ?_
  · exact .inr (add_zero _).symm
  · intro turns w₁ h₁ w₂ h₂ hledger hvault
    rw [hvault]
    exact hledger
  · rintro turns turn h₁ h₂ (hclosed | hledger) hrun
    · exact .inl (hrun.closed hclosed)
    · refine (off_turn h₁ h₂ hrun).imp id fun hoff => ?_
      rw [hoff, hledger, List.map_append, List.sum_append, add_assoc]
      simp

/-- The counters of a room that is not DELETED are the sums over its CONFIRMED records, and what the
aborts of the history have struck out. -/
theorem ledger (hw : w.Fresh) (hs : Serially server env w turns w') {ρ : ℕ} {row : RoomRow}
    (hrow : w'.db.committed .rooms ρ = some row) (hopen : row.status ≠ .deleted) :
    (row.storage_used_bytes, row.file_count) =
      ∑ f ∈ Finset.range (w'.db .files).length, w'.counted ρ f +
        (turns.map (Turn.struck ρ)).sum := by
  obtain ⟨hw', hclosed | hoff⟩ := hs.off hw.sound ρ
  · obtain ⟨a, ha, hdeleted⟩ := hclosed
    obtain ⟨r, hr, rfl⟩ := Option.map_eq_some_iff.1 ha
    obtain rfl := Option.some.inj (hr.symm.trans hrow)
    exact absurd hdeleted hopen
  · have hempty : Vault.empty.off ρ = 0 := rfl
    have hcharged : (w'.vault hw').charged ρ = (row.storage_used_bytes, row.file_count) := by
      have haccount : (w'.vault hw').account ρ = some row.account := congrArg (Option.map _) hrow
      rw [Vault.charged, haccount]
      rfl
    rw [hw.vault, hempty, zero_add, Vault.off, hcharged, sub_eq_iff_eq_add'] at hoff
    exact hoff

/-- The upload is aborted when it is complete: no record is CONFIRMED, but the room still has two
bytes in one file. -/
theorem ledger_aborted : ((2 : ℤ), (1 : ℤ)) =
    ∑ f ∈ Finset.range (histories.aborted.db .files).length, histories.aborted.counted 0 f +
      (([⟨0, histories.make, .initial, histories.made⟩,
        ⟨0, histories.upload, histories.made, histories.uploaded⟩,
        ⟨0, histories.abort, histories.uploaded, histories.aborted⟩] : List Turn).map
          (Turn.struck 0)).sum := by
  obtain ⟨r, hr, hfields⟩ := Option.map_eq_some_iff.1 histories.outcome.counters
  obtain ⟨hused, hrest⟩ := Prod.mk.inj hfields
  obtain ⟨hcount, hstatus⟩ := Prod.mk.inj hrest
  have hopen : r.status ≠ .deleted := by
    rw [hstatus]
    decide
  have h := ledger histories.fresh histories.of_aborted hr hopen
  rwa [hused, hcount] at h

/-! ## Who takes files away -/

/-- The turn was an attempt to delete a file, by the owner of its room or as a job. -/
inductive Turn.Deletes (env : Env) (turn : Turn) (ρ f : ℕ) : Prop
  | deleteFile {room_token request session room}
      (htask : turn.task = .request (.deleteFile room_token f) request)
      (hm : After.Member env room_token request turn.view session room)
      (howner : session.role = .owner) (hroom : room.id = ρ)
  | deleteRoom {room_token request session room}
      (htask : turn.task = .request (.deleteRoom room_token) request)
      (hm : After.Member env room_token request turn.view session room)
      (howner : session.role = .owner) (hroom : room.id = ρ)
  | cleanup {jobs} (htask : turn.task = .worker jobs)
      (hjob : .roomCleanup (some ρ) ∈ turn.before.queue)

/-- The turn was an abort of the upload of a file, by a member of its room. -/
structure Turn.Aborts (env : Env) (turn : Turn) (ρ f : ℕ) : Prop where
  aborts : ∃ room_token request session room,
    turn.task = .request (.abortUploadSession room_token f) request ∧
      After.Member env room_token request turn.view session room ∧ room.id = ρ

/-- Only a turn that deletes may release, close or drop. -/
theorem Allowed.deletes {turn : Turn} {ρ f : ℕ}
    (h : Allowed env turn.view turn.task (.release ρ f) ∨ Allowed env turn.view turn.task (.close ρ) ∨
      Allowed env turn.view turn.task (.lose ρ f)) : turn.Deletes env ρ f := by
  generalize htask : turn.task = task at h
  rcases h with h | h | h
  · cases h with
    | member hm hmay =>
      cases hmay with
      | release howner => exact .deleteFile htask hm howner rfl
  · cases h with
    | member hm hmay =>
      cases hmay with
      | close howner => exact .deleteRoom htask hm howner rfl
    | close hjob => exact .cleanup htask hjob
  · cases h with
    | member hm hmay =>
      cases hmay with
      | lose howner => exact .deleteFile htask hm howner rfl
      | loseAll howner => exact .deleteRoom htask hm howner rfl
    | lose hjob => exact .cleanup htask hjob

/-- Only a turn that aborts may abort. -/
theorem Allowed.aborts {turn : Turn} {ρ f : ℕ}
    (h : Allowed env turn.view turn.task (.abort ρ f)) : turn.Aborts env ρ f := by
  generalize htask : turn.task = task at h
  cases h with
  | member hm hmay =>
    cases hmay with
    | abort => exact ⟨_, _, _, _, htask, hm, rfl⟩

/-- A CONFIRMED record stays CONFIRMED in its room, under its key and with its size, until it is
deleted for its owner or with its room, or its upload is aborted by a member. Then, however the history
goes on, there is no record under its number or one that is DELETED. -/
theorem confirmed_stays {w₀ : World} {before : List Turn} (hw₀ : w₀.Fresh)
    (h₀ : Serially server env w₀ before w) (hs : Serially server env w turns w') {f : ℕ}
    {r : FileRow} (hrow : w.db.committed .files f = some r) (hconfirmed : r.status = .confirmed) :
    (∃ r', w'.db.committed .files f = some r' ∧ r'.entry = r.entry) ∨
      (∀ later w'', Serially server env w' later w'' →
        ∀ r', w''.db.committed .files f = some r' → r'.status = .deleted) ∧
      ∃ turn ∈ turns, turn.Deletes env r.room_id f ∨ turn.Aborts env r.room_id f := by
  obtain ⟨hw, -⟩ := h₀.run hw₀.sound
  obtain ⟨hw', hrun⟩ := hs.run hw
  rcases hrun.entry (congrArg (Option.map FileRow.entry) hrow) hconfirmed with hentry | ⟨hgone, hact⟩
  · obtain ⟨r', hr', hsame⟩ := Option.map_eq_some_iff.1 hentry
    exact .inl ⟨r', hr', hsame⟩
  · refine .inr ⟨fun later w'' hlater r' hr' => ?_, ?_⟩
    · obtain ⟨hw'', hrest⟩ := hlater.run hw'
      exact (hrest.gone hgone).2 r'.entry (congrArg (Option.map _) hr')
    · rcases hact with ⟨turn, hmem, hact⟩ | ⟨turn, hmem, hact⟩ | ⟨turn, hmem, hact⟩
      · exact ⟨turn, hmem, .inl (Allowed.deletes (.inl hact))⟩
      · exact ⟨turn, hmem, .inr hact.aborts⟩
      · exact ⟨turn, hmem, .inl (Allowed.deletes (.inr (.inl hact)))⟩

/-- The upload is aborted when it is complete: the abort is to blame, and no record is ever CONFIRMED
under its number again. -/
theorem confirmed_stays_aborted :
    (∀ later w'', Serially server .plain histories.aborted later w'' →
      ∀ r', w''.db.committed .files 0 = some r' → r'.status = .deleted) ∧
    ∃ turn ∈ [(⟨0, histories.abort, histories.uploaded, histories.aborted⟩ : Turn)],
      turn.Deletes .plain 0 0 ∨ turn.Aborts .plain 0 0 := by
  have h := confirmed_stays histories.fresh histories.of_uploaded
    (Serially.refl.then 0 histories.abort histories.outcome.aborted) histories.outcome.row rfl
  rcases h with ⟨r', hr', -⟩ | hgone
  · cases histories.outcome.gone.symm.trans hr'
  · exact hgone

/-! ## The bytes -/

/-- Every CONFIRMED record has its object, of as many bytes as it says, unless somebody has tried to
delete the file or its room. -/
theorem objects_intact (hw : w.Fresh) (hs : Serially server env w turns w') {f : ℕ} {r : FileRow}
    (hrow : w'.db.committed .files f = some r) (hconfirmed : r.status = .confirmed) :
    (∃ data, w'.storage.lookup r.storage_key.text = some data ∧ data.length = r.size_bytes) ∨
      ∃ turn ∈ turns, turn.Deletes env r.room_id f := by
  obtain ⟨hw', hrun⟩ := hs.run hw.sound
  rw [hw.vault] at hrun
  have hintact : (w'.vault hw').Intact fun ρ f => ∃ turn ∈ turns, turn.Deletes env ρ f := by
    refine hrun.intact ?_ fun f e he => by cases he
    rintro ρ f ⟨turn, hmem, hact⟩
    exact ⟨turn, hmem, Allowed.deletes (.inr (.inr hact))⟩
  exact (hintact f r.entry (congrArg (Option.map _) hrow) hconfirmed).symm

/-- Two bytes are uploaded, and nobody deletes anything. -/
theorem objects_intact_uploaded :
    ∃ data, histories.uploaded.storage.lookup ['u'] = some data ∧ data.length = 2 := by
  rcases objects_intact histories.fresh histories.of_uploaded histories.outcome.row rfl with
    hdata | ⟨turn, hmem, hdeletes⟩
  · exact hdata
  · rcases List.mem_pair.1 hmem with rfl | rfl
    all_goals
      cases hdeletes with
      | deleteFile htask => cases htask
      | deleteRoom htask => cases htask
      | cleanup htask => cases htask

end

section

variable {env : Env} {σ : Serial} {room_token : Token} {request : Request}

/-- A broadcast changes no row and no object. -/
theorem Yields.broadcast {ch event exclude} {Q : Unit → Serial → Prop}
    (hQ : ∀ σ', σ.Quiet σ' → Q () σ') : Yields (DropRoom.broadcast ch event exclude) Q σ :=
  Ends.broadcast fun σ' hσ' _ _ => hQ σ' hσ'

/-- An upload that returns has stored what it was sent, for the record that it returns. -/
theorem yields_upload {name type : Option String} {chunks : fileService.Source} :
    Yields (files.upload env room_token name type chunks request) (fun view σ' =>
      ∃ (datas : List Bytes) (r : FileRow), chunks = datas.map .ok ∧ σ'.db.saved .files view.id = some r ∧
        r.status = .confirmed ∧ r.size_bytes = datas.flatten.length ∧
        σ'.rest.storage.lookup r.storage_key.text = some datas.flatten) σ := by
  refine .withSession (.bind (.member fun session room hm => ?_))
  refine .bind (.validateCsrf (.bind (.limiterCheck fun σ₁ hσ₁ => ?_)))
  refine .bind (yields_uploadFile.mono ?_)
  rintro rec_ σ₂ ⟨-, -, hc, hkey, -, datas, hchunks, hlength, hstorage⟩
  refine .bind (.commit (.bind (.broadcast fun σ₃ hσ₃ => .pure ?_)))
  obtain ⟨_, _, _, rfl⟩ := hσ₃
  refine ⟨datas, rec_.toFileRow, hchunks, ?_, hc.status, hlength, ?_⟩
  · exact (hc.change.files rec_.id).trans (if_pos rfl)
  · change σ₂.rest.storage.lookup rec_.storage_key.text = _
    rw [hstorage, hkey]
    exact AList.lookup_insert _

/-- A download that returns has read the object of the CONFIRMED record. -/
theorem yields_download {file_id : ℤ} :
    Yields (files.download env room_token file_id request) (fun x _ =>
      ∃ r, σ.db.rows .files x.1.id = some r ∧ (x.1.id : ℤ) = file_id ∧ r.status = .confirmed ∧
        x.1.size_bytes = r.size_bytes ∧ x.2 = (σ.rest.storage.lookup r.storage_key.text).getD []) σ := by
  refine .bind (.withSession (.bind (.member fun session room hm => ?_)))
  refine .bind (yields_downloadFile.mono ?_)
  rintro rec_ σ₁ ⟨hfile, hroom, hstatus, -, -, hc, hstorage⟩
  have hrow := (Serial.of_file hfile).1
  -- The record is read again, with one download more.
  have hrow₁ : σ₁.db.rows .files rec_.id =
      some { rec_.toFileRow with download_count := rec_.download_count + 1 } :=
    (hc.files rec_.id).trans (if_pos rfl)
  refine .bind (.commit (.bind (.insert (.bind (.commit (.bind (Ends.getFileById ?_ ?_)))))))
  · rintro _ ⟨⟩
    have hfound : ∀ τ : Serial, τ.db.rows .files rec_.id = σ₁.db.rows .files rec_.id →
        τ.file rec_.id =
          some { rec_ with download_count := rec_.download_count + 1 } := fun τ hτ => by
      change (τ.db.rows .files rec_.id).map _ = _
      rw [hτ, hrow₁]
      rfl
    rw [hfound _ ?_]
    · refine .bind (.broadcast fun σ₃ hσ₃ => .pure (.bind (.getStream (.pure ?_))))
      obtain ⟨_, _, _, rfl⟩ := hσ₃
      refine ⟨rec_.toFileRow, hrow, (Serial.of_file hfile).2, hstatus, rfl, ?_⟩
      change (σ₁.rest.storage.lookup rec_.storage_key.text).getD [] = _
      rw [hstorage]
    · change (σ₁.db.commit.add .auditEvents
        ({ room_id := some room.id, event_type := "FILE_DOWNLOADED" } : AuditEventRow)).rows
          .files rec_.id = _
      rw [Snapshot.rows_add_of_table (by decide)]
      rfl
  · rintro e a ⟨⟩

end

/-- What was uploaded is what is downloaded, whatever tasks have run in between and whatever failed in
them, unless somebody has tried to delete the file or its room. -/
theorem download_of_upload {env : Env} {p q : ℕ} {w₀ w w₁ w₂ w₃ : World} {before turns : List Turn}
    {room_token room_token' : Token} {request request' : Request} {name type : Option String}
    {chunks : fileService.Source} {view : FileView} {rec_ : FileRecord} {data : Bytes}
    (hw₀ : w₀.Fresh) (h₀ : Serially server env w₀ before w)
    (hu : server.Runs p (files.upload env room_token name type chunks request) w (.ok view) w₁)
    (hs : Serially server env w₁ turns w₂)
    (hkept : ∀ r, w₁.db.committed .files view.id = some r → ∀ turn ∈ turns,
      ¬turn.Deletes env r.room_id view.id)
    (hd : server.Runs q (files.download env room_token' view.id request') w₂ (.ok (rec_, data)) w₃) :
    ∃ datas : List Bytes, chunks = datas.map .ok ∧ data = datas.flatten ∧
      rec_.size_bytes = data.length := by
  obtain ⟨hw, -⟩ := h₀.run hw₀.sound
  obtain ⟨datas, r, hchunks, hrow, hconfirmed, hlength, hdata⟩ :=
    Yields.of_runs yields_upload hu hw.free
  have hturn : server.Runs p
      ((Task.request (.upload room_token name type chunks) request).program env) w (.ok ()) w₁ :=
    hu.map fun _ => ()
  obtain ⟨hw₁, -⟩ := hw.turn hturn
  obtain ⟨hw₂, hrun⟩ := hs.run hw₁
  -- After the upload the vault keeps the bytes under the number of the file.
  have hkeeps : (w₁.vault hw₁).Keeps view.id r.entry datas.flatten :=
    ⟨congrArg (Option.map _) hrow, hconfirmed, hdata⟩
  -- No turn on the way may lose it.
  have hlose : ¬MayHappen env turns (.lose r.entry.room_id view.id) := by
    rintro ⟨turn, hmem, hact⟩
    exact hkept r hrow turn hmem (Allowed.deletes (.inr (.inr hact)))
  obtain ⟨r', hrow', hid, hconfirmed', hsize, hread⟩ := Yields.of_runs yields_download hd hw₂.free
  have hcommitted : w₂.db.committed .files view.id = some r' := by
    rw [← Nat.cast_injective hid]
    exact (congrFun₂ (Snapshot.rows_of_free hw₂.free) .files rec_.id).symm.trans hrow'
  have hentry : (w₂.vault hw₂).entries.entry view.id = some r'.entry :=
    congrArg (Option.map _) hcommitted
  rcases hrun.keeps hlose hkeeps with ⟨hentry', -, hdata'⟩ | hgone
  · injection Option.some.inj (hentry.symm.trans hentry') with hroom hkey hstatus hsame
    have hbytes : data = datas.flatten := by
      change data = (w₂.storage.lookup r'.storage_key.text).getD [] at hread
      rw [hread, hkey, show w₂.storage.lookup r.storage_key.text = some datas.flatten from hdata']
      rfl
    exact ⟨datas, hchunks, hbytes, by rw [hsize, hsame, hlength, hbytes]⟩
  -- If it were gone the download would not find it confirmed.
  · have hdeleted : r'.status = .deleted := hgone.2 r'.entry hentry
    rw [hdeleted] at hconfirmed'
    cases hconfirmed'

/-- The owner uploads two bytes, then another file, which is deleted, and downloads the two bytes. -/
theorem download_of_upload_uploaded : ∃ rec_ data w₃,
    (histories.later.db.committed .files 1).map FileRow.status = some .deleted ∧
    server.Runs 0 (files.download .plain "t" (0 : ℕ) histories.owner) histories.later
      (.ok (rec_, data)) w₃ ∧ data = [65, 66] := by
  obtain ⟨view, hid, hu⟩ := calm.exists_runs_ok 0
    (files.upload .plain "t" (some "f") none [.ok [65], .ok [66]] histories.owner) histories.made
    FileView.id histories.outcome.id
  obtain ⟨⟨rec_, data⟩, -, hd⟩ := calm.exists_runs_ok 0
    (files.download .plain "t" (0 : ℕ) histories.owner) histories.later (fun _ => ())
    histories.outcome.downloaded
  have hbefore : Serially server .plain .initial
      [⟨0, histories.make, .initial, histories.made⟩] histories.made :=
    Serially.refl.then 0 histories.make histories.outcome.made
  have hbetween : Serially server .plain histories.uploaded
      [⟨0, histories.another, histories.uploaded, histories.doubled⟩,
        ⟨0, histories.deletion, histories.doubled, histories.later⟩] histories.later :=
    (Serially.refl.then 0 histories.another histories.outcome.doubled).then 0 histories.deletion
      histories.outcome.later
  have hkept : ∀ turn ∈ [(⟨0, histories.another, histories.uploaded, histories.doubled⟩ : Turn),
      ⟨0, histories.deletion, histories.doubled, histories.later⟩], ∀ ρ,
      ¬turn.Deletes .plain ρ 0 := by
    intro turn hmem ρ hdeletes
    rcases List.mem_pair.1 hmem with rfl | rfl
    all_goals
      cases hdeletes with
      | deleteFile htask => cases htask
      | deleteRoom htask => cases htask
      | cleanup htask => cases htask
  obtain ⟨datas, hchunks, hdata, -⟩ := download_of_upload histories.fresh hbefore
    (server_of_calm hu) hbetween (fun r _ turn hmem => by rw [hid]; exact hkept turn hmem _)
    (by rw [hid]; exact server_of_calm hd)
  refine ⟨rec_, data, _, histories.outcome.deleted, server_of_calm hd, ?_⟩
  rw [hdata, ← List.map_injective_iff.2 (fun _ _ h => Except.ok.inj h)
    (show [[65], [66]].map Except.ok = datas.map Except.ok from hchunks)]
  rfl

end DropRoom
