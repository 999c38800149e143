import DropRoom.App.Policy
import DropRoom.Files.Chunks

/-!
# Who can touch a room

What a row is, its fixed columns, nobody changes (`identity_kept`). For the rest, every task keeps to
the policy, in every interleaving (`every_command_entitled`), and three things follow. A room that no
task names, by its access token or its code, stays as it is with all of its rows (`room_isolated`). A
session whose token no task has says nothing, uploads nothing and is not changed (`session_unforged`).
A room whose owner token and OWNER sessions no task has keeps its settings, its messages and its
sessions, whatever its guests do (`guests_do_not_rule`). Each is an invariant of the worlds that are
reached: the commands that would break it are ones that no task is entitled to.

The workers of the job queue are not among the tasks. They hold no token, and tear down rooms whose
time is over.
-/

namespace DropRoom

open Effect Store

/-! ## What nobody changes -/

section

variable {L : Type} {M : Monitor Cmd Resp Err L} {g : Guard Cmd World L}
  {s s' : Conf Cmd Resp Err Unit World L} {w : World} {t : Table} {i : ℕ}

/-- A run keeps the versions. -/
theorem World.Keeps.of_reaches (h : server.Reaches M g s s') : s.world.Keeps s'.world := by
  induction h with
  | refl => exact .refl _
  | tail _ hstep ih =>
    cases hstep with
    | call _ _ ha => exact ih.trans (World.keeps_of_answer server_faithful ha)
    | env he => exact ih.trans (World.Tick.keeps_known he)

/-- A number whose row is gone stays empty. -/
theorem gone_of_reaches (h : server.Reaches M g s s') (hi : i < (s.world.db t).length)
    (hgone : ∀ r, ¬(s.world.db.cell t i).Has r) : ∀ r, ¬(s'.world.db.cell t i).Has r := by
  induction h with
  | refl => exact hgone
  | tail hsteps hstep ih =>
    have hle := (World.Keeps.of_reaches hsteps).length t
    cases hstep with
    | call _ _ ha =>
      -- An update needs a version, and an insertion takes the next number.
      intro r hr
      rcases server_faithful.has ha hr with hold | ⟨u, r₁, -, hr₁, -, rfl⟩ | ⟨-, hnew⟩
      · exact ih r hold
      · exact ih r₁ hr₁
      · omega
    | env he =>
      obtain ⟨d, d', rfl⟩ := he
      exact ih

/-- Whatever tasks run side by side, workers among them: two versions of a row, at any two moments,
agree in the columns that tell what it is, and a row that is gone does not come back. -/
theorem identity_kept {env : Env} {tasks : ℕ → Task} {l : L} (hfree : w.db.Free)
    (h : server.Reaches M g (Conf.start w l fun p => (tasks p).program env) s)
    (h' : server.Reaches M g s s') :
    (∀ r r', (s.world.db.cell t i).Has r → (s'.world.db.cell t i).Has r' →
      fixed t r' = fixed t r) ∧
    (i < (s.world.db t).length → (∀ r, ¬(s.world.db.cell t i).Has r) →
      ∀ r', ¬(s'.world.db.cell t i).Has r') := by
  refine ⟨fun r r' hr hr' => ?_, fun hi hgone => gone_of_reaches h' hi hgone⟩
  have hcoherent : s.world.Coherent := (World.Keeps.of_reaches h).coherent (.of_free hfree)
  exact ((World.Keeps.of_reaches h').seen (hcoherent.seen hr)).fixed_eq r' hr'

/-! ## A guest in the room -/

/-- A guest joins the room, and uploads two bytes with the session that it gets. -/
def guests : ℕ → Task
  | 0 => .request (.joinRoom "a" ⟨none, none, none⟩) { Request.owner with session_cookie := none }
  | 1 =>
    .request (.upload "a" none none [.ok [65, 66]]) { Request.owner with session_cookie := some "t" }
  | _ => .idle

/-- Neither of them is a worker. -/
theorem guests_ne_worker (p jobs : ℕ) : guests p ≠ .worker jobs := by
  intro h
  unfold guests at h
  split at h <;> cases h

/-- The command claims two bytes of the quota of the room. -/
def claimsTwo : Cmd → Bool
  | .sql (.updateAt .rooms i (.claimQuota size _ _)) => i == 0 && size == 2
  | _ => false

/-- The next command of the task claims two bytes of the quota of the room. -/
def claimsNext : Effect.Prog Cmd Resp Err Unit → Bool
  | .call c _ => claimsTwo c
  | _ => false

/-- The task is about to issue such a command. -/
theorem claimsNext_iff {prog : Effect.Prog Cmd Resp Err Unit} :
    claimsNext prog = true ↔ ∃ c k, prog = .call c k ∧ claimsTwo c = true := by
  constructor
  · intro h
    cases prog with
    | ret a => cases h
    | raise e => cases h
    | call c k => exact ⟨c, k, rfl, h⟩
  · rintro ⟨c, k, rfl, h⟩
    exact h

/-- What the run of `guests` shows: the guest has joined and is about to claim the quota for the
file that it has stored, and then it is done. -/
theorem guests_upload : ∃ s s' : Conf Cmd Resp Err Unit World Unit,
    server.Reaches (.only fun _ => True) Guard.all
      (Conf.start .furnished () fun p => (guests p).program .plain) s ∧
    server.Reaches (.only fun _ => True) Guard.all s s' ∧
    (∃ c k, s.proc 1 = .call c k ∧ claimsTwo c = true) ∧
    (∃ q r, (s.world.db.cell .files 1).lock = some (q, some r) ∧ r.status = .pending) ∧
    (∃ r, s'.world.db.committed .files 1 = some r ∧ r.status = .confirmed ∧
      r.uploaded_by = some 1) ∧
    ∃ r, s'.world.db.committed .rooms 0 = some r ∧ r.user_count = 1 ∧ r.storage_used_bytes = 2 := by
  -- The first guest has joined and the second is about to claim the quota; then it confirms its
  -- file.
  have hrun : ((server.play (.only fun _ => True) Guard.all
      (List.replicate 9 0 ++ List.replicate 9 1)
      (Conf.start .furnished () fun p => (guests p).program .plain)).map fun s =>
      (claimsNext (s.proc 1),
      ((s.world.db.cell .files 1).lock.bind Prod.snd).map FileRow.status,
      (server.play (.only fun _ => True) Guard.all (List.replicate 6 1) s).any fun s' =>
        (s'.world.db.committed .files 1).any (fun r =>
          r.status == .confirmed && r.uploaded_by == some 1) &&
        (s'.world.db.committed .rooms 0).any fun r =>
          r.user_count == 1 && r.storage_used_bytes == 2)) =
      some (true, some .pending, true) := by
    decide +kernel
  obtain ⟨s, hs, hrun⟩ := Option.map_eq_some_iff.1 hrun
  obtain ⟨hnext, hrun⟩ := Prod.mk.inj hrun
  obtain ⟨hpending, hend⟩ := Prod.mk.inj hrun
  obtain ⟨s', hs', hend⟩ := (Option.any_eq_true _ _).1 hend
  simp only [Bool.and_eq_true, Option.any_eq_true, beq_iff_eq] at hend
  refine ⟨s, s', Machine.play_reaches hs, Machine.play_reaches hs', claimsNext_iff.1 hnext,
    ?_, ?_, ?_⟩
  · obtain ⟨r, hr, hstatus⟩ := Option.map_eq_some_iff.1 hpending
    obtain ⟨⟨q, v⟩, hlock, rfl⟩ := Option.bind_eq_some_iff.1 hr
    exact ⟨q, r, hlock, hstatus⟩
  · obtain ⟨r, hr, heq⟩ := hend.1
    exact ⟨r, hr, heq⟩
  · obtain ⟨r, hr, heq⟩ := hend.2
    exact ⟨r, hr, heq⟩

/-- The file that the guest uploads is PENDING in its transaction, CONFIRMED later on, and the same
file. -/
theorem identity_kept_guests : ∃ (s s' : Conf Cmd Resp Err Unit World Unit) (r r' : FileRow),
    (s.world.db.cell .files 1).Has r ∧ r.status = .pending ∧
    (s'.world.db.cell .files 1).Has r' ∧ r'.status = .confirmed ∧
    fixed .files r' = fixed .files r := by
  obtain ⟨s, s', h, h', -, ⟨q, r, hr, hpending⟩, ⟨r', hr', hconfirmed, -⟩, -⟩ := guests_upload
  have hhas : (s.world.db.cell .files 1).Has r := .inr ⟨q, hr⟩
  exact ⟨s, s', r, r', hhas, hpending, .inl hr', hconfirmed,
    (identity_kept (t := .files) (i := 1) World.holding_free h h').1 r r' hhas (.inl hr')⟩

end

/-! ## The policy in every interleaving -/

section

variable {env : Env} {tasks : ℕ → Task} {w : World} {s : Conf Cmd Resp Err Unit World Unit}

/-- What is remembered of the start of the tasks. -/
def Past.of (env : Env) (tasks : ℕ → Task) (w : World) : Past where
  world := w
  owns h := ∃ p token, (tasks p).keyring.owner_token = some token ∧ env.hash_token token = h

/-- The credentials of every task are covered. -/
theorem Past.of_covers (p : ℕ) : (Past.of env tasks w).Covers env (tasks p).keyring :=
  fun token ht => ⟨p, token, ht, rfl⟩

/-- The rule for tasks side by side: what an entitled command keeps, every interleaving keeps. -/
theorem policy_side_by_side {J : World → Prop} (hfree : w.db.Free)
    (htasks : ∀ p jobs, tasks p ≠ .worker jobs)
    (hcall : ∀ p c w₁ x w₂, J w₁ → Entitled env (tasks p).keyring (.of env tasks w) w₁ c →
      (Past.of env tasks w).Later w₁ w₂ → server.Answer p c w₁ x w₂ → J w₂)
    (htick : ∀ w₁ w₂, J w₁ → (Past.of env tasks w).Later w₁ w₂ → w₁.Tick w₂ → J w₂) (hJ : J w)
    (h : server.Reaches (.only fun _ => True) Guard.all
      (Conf.start w () fun p => (tasks p).program env) s) :
    J s.world ∧ ∀ p c k, s.proc p = .call c k →
      Entitled env (tasks p).keyring (.of env tasks w) s.world c := by
  have hrun := Machine.side_by_side
    (T := fun p => policy env (tasks p).keyring (.of env tasks w) (Past.of_covers p) p) (J := J)
    ?_ ?_ h hJ fun p => Task.acts (htasks p) ⟨Past.of_covers p, .of_free hfree⟩
  · exact ⟨hrun.1, fun p c k hp => (hrun.2 p).ok hp⟩
  · intro p c w₁ x w₂ hJ₁ hok ha
    have hlater := Entitled.leads (Past.of_covers p) hok ha
    exact ⟨hcall p c w₁ x w₂ hJ₁ hok hlater ha, fun _ => hlater⟩
  · exact fun w₁ w₂ hJ₁ ht => ⟨htick w₁ w₂ hJ₁ (.of_tick ht) ht, fun _ => .of_tick ht⟩

/-- Whatever tasks run side by side, a task issues only commands that its policy grants to the
tokens and the code that it presents. -/
theorem every_command_entitled (hfree : w.db.Free) (htasks : ∀ p jobs, tasks p ≠ .worker jobs)
    (h : server.Reaches (.only fun _ => True) Guard.all
      (Conf.start w () fun p => (tasks p).program env) s)
    {p : ℕ} {c : Cmd} {k} (hp : s.proc p = .call c k) :
    Entitled env (tasks p).keyring (.of env tasks w) s.world c :=
  (policy_side_by_side (J := fun _ => True) hfree htasks (fun _ _ _ _ _ _ _ _ _ => trivial)
    (fun _ _ _ _ _ => trivial) trivial h).2 p c k hp

/-- The guest has joined, stored its file, and is entitled to the claim that it is about to make. -/
theorem every_command_entitled_guests : ∃ (s : Conf Cmd Resp Err Unit World Unit) (c : Cmd),
    server.Reaches (.only fun _ => True) Guard.all
      (Conf.start .furnished () fun p => (guests p).program .plain) s ∧ claimsTwo c = true ∧
    Entitled .plain (guests 1).keyring (.of .plain guests .furnished) s.world c := by
  obtain ⟨s, -, h, -, ⟨c, k, hp, hc⟩, -⟩ := guests_upload
  exact ⟨s, c, h, hc, every_command_entitled World.holding_free guests_ne_worker h hp⟩

end

/-! ## A room that nobody names -/

/-- The credentials name another room, if any: they have neither its access token nor its code. -/
structure Keyring.Foreign (env : Env) (cred : Keyring) (r : RoomRow) : Prop where
  token : ∀ token, cred.room_token = some token → env.hash_token token ≠ r.access_token_hash
  code : ∀ room_code, cred.room_code = some room_code →
    strip (env.upper room_code) ≠ r.room_code

/-- The row is the one of the room, or it belongs to the room. -/
def InRoom (b : ℕ) (t : Table) (i : ℕ) (r : Row t) : Prop :=
  t = .rooms ∧ i = b ∨ roomOf t r = some b

section

variable {env : Env} {cred : Keyring} {start : Past} {w w' : World} {b : ℕ} {room : RoomRow} {t : Table}
  {i : ℕ} {r : Row t}

/-- The row of the room itself. -/
theorem InRoom.eq_of_rooms {r : RoomRow} (h : InRoom b .rooms i r) : i = b := by
  rcases h with ⟨-, h⟩ | h
  · exact h
  · cases h

/-- The other rows of the room name it. -/
theorem InRoom.of_ne (ht : t ≠ .rooms) (h : InRoom b t i r) : roomOf t r = some b :=
  h.resolve_left fun hr => ht hr.1

/-- Foreign credentials name another room. -/
theorem NamesRoom.ne (hb : start.world.db.committed .rooms b = some room) (hc : cred.Foreign env room)
    {ρ : ℕ} (h : NamesRoom env cred start w ρ) : ρ ≠ b := by
  rintro rfl
  -- What is known of the room agrees with its row at the start.
  cases h with
  | @token r token hr ht hh =>
    have hfixed : (r.room_code, r.access_token_hash, r.owner_token_hash) =
        (room.room_code, room.access_token_hash, room.owner_token_hash) := hr.origin room hb
    have haccess := (Prod.mk.inj (Prod.mk.inj hfixed).2).1
    exact hc.token token ht (hh.symm.trans haccess)
  | @code r room_code hr hcode hh =>
    have hfixed : (r.room_code, r.access_token_hash, r.owner_token_hash) =
        (room.room_code, room.access_token_hash, room.owner_token_hash) := hr.origin room hb
    exact hc.code room_code hcode (hh.symm.trans (Prod.mk.inj hfixed).1)
  | new h => exact absurd (Tables.lt_length_of_committed hb) (Nat.not_lt.2 h)

/-- A file of a room that the credentials name is not the room's that they do not. -/
theorem NamesRoom.ne_file (hb : start.world.db.committed .rooms b = some room)
    (hc : cred.Foreign env room) {ρ f : ℕ} (h : NamesRoom env cred start w ρ) {r r' : FileRow}
    (hf : start.Known w .files f r') (hroom : r'.room_id = ρ)
    (hr : start.world.db.committed .files f = some r) : ¬InRoom b .files f r := by
  intro hin
  have hfixed : (r'.room_id, r'.storage_key) = (r.room_id, r.storage_key) := hf.origin r hr
  have hroom' : r.room_id = b := Option.some.inj (hin.of_ne (fun h => by cases h))
  exact h.ne hb hc (hroom.symm.trans ((Prod.mk.inj hfixed).1.trans hroom'))

/-- A row of the room is not one that the credentials may update. -/
theorem Entitled.not_update (hb : start.world.db.committed .rooms b = some room)
    (hc : cred.Foreign env room) (hr : start.world.db.committed t i = some r) (hin : InRoom b t i r)
    {u : Upd t} : ¬Entitled env cred start w (.sql (.updateAt t i u)) := by
  intro h
  cases h with
  | plain h => exact h
  | join hn => exact hn.ne hb hc hin.eq_of_rooms
  | leave hs => exact hs.names.ne hb hc hin.eq_of_rooms
  | claim hs => exact hs.names.ne hb hc hin.eq_of_rooms
  | rule hs => exact hs.names.ne hb hc hin.eq_of_rooms
  | @updateSession session hs =>
    have hfixed : (session.room_id, session.session_token_hash, session.role) =
        (r.room_id, r.session_token_hash, r.role) := hs.holds.seen.origin r hr
    have hroom : r.room_id = b := Option.some.inj (hin.of_ne (fun h => by cases h))
    exact hs.names.ne hb hc ((Prod.mk.inj hfixed).1.trans hroom)
  | @updateFile session hs f r' hf hroom => exact hs.names.ne_file hb hc hf hroom hr hin
  | @removeFile session hs howner f r' hf hroom =>
    exact hs.names.ne_file hb hc hf hroom hr hin

/-- Nor one that they may delete. -/
theorem Entitled.not_delete (hb : start.world.db.committed .rooms b = some room)
    (hc : cred.Foreign env room) (hr : start.world.db.committed t i = some r) (hin : InRoom b t i r)
    {d : Del t} (hd : dialect.deletes d i r = true) :
    ¬Entitled env cred start w (.sql (.deleteWhere t d)) := by
  intro h
  cases h with
  | plain h => exact h
  | @dropFile session hs f r' hf hroom =>
    obtain rfl : i = f := eq_of_beq hd
    exact hs.names.ne_file hb hc hf hroom hr hin
  | wipe hs howner hd' =>
    -- An owner deletes by the room, so the row would be of the owner's room.
    have hroom := hd' i r hd
    rcases hin with ⟨rfl, -⟩ | hin
    · cases hroom
    · exact hs.names.ne hb hc (Option.some.inj (hroom.symm.trans hin))

/-- A new row that the credentials may insert is not the room's. -/
theorem Entitled.not_insert (hb : start.world.db.committed .rooms b = some room)
    (hc : cred.Foreign env room) (hgood : start.Good w) (hi : i = (w.db t).length)
    (hin : InRoom b t i r) : ¬Entitled env cred start w (.sql (.insert t r)) := by
  intro h
  cases h with
  | plain h => exact h
  | newRoom =>
    -- The number is new, the room's is in use.
    have hlt := (Tables.lt_length_of_committed hb).trans_le hgood.rooms
    have heq := hin.eq_of_rooms
    omega
  | newSession hn => exact hn.ne hb hc (Option.some.inj (hin.of_ne (fun h => by cases h)))
  | newFile hs hroom =>
    exact hs.names.ne hb hc (hroom.symm.trans (Option.some.inj (hin.of_ne (fun h => by cases h))))
  | newMessage hs hroom =>
    exact hs.names.ne hb hc (hroom.symm.trans (Option.some.inj (hin.of_ne (fun h => by cases h))))
  | newAudit hn => exact (hn b (hin.of_ne (fun h => by cases h))).ne hb hc rfl

/-- The room is as it was: its rows are committed and not locked, and it has no others. -/
structure Untouched (start : Past) (b : ℕ) (w : World) : Prop where
  good : start.Good w
  kept : ∀ t i r, start.world.db.committed t i = some r → InRoom b t i r → w.db.cell t i = ⟨some r, none⟩
  old : ∀ t i r, (w.db.cell t i).Has r → InRoom b t i r → start.world.db.committed t i = some r

/-- At the start the room is untouched. -/
theorem Untouched.of_free (h : start.world.db.Free) : Untouched start b start.world where
  good := .of_free h
  kept t i r hr _ := by
    have hlock := h t i
    have hcommitted : (start.world.db.cell t i).committed = some r := hr
    rw [← hlock, ← hcommitted]
  old t i r hr _ := by
    rcases hr with hr | ⟨q, hr⟩
    · exact hr
    · rw [h t i] at hr
      cases hr

/-- A command that the credentials are entitled to leaves a room alone that they do not name. -/
theorem Untouched.step (hb : start.world.db.committed .rooms b = some room) (hc : cred.Foreign env room)
    (h : Untouched start b w) {p : ℕ} {c : Cmd} {x : Except Err (Resp c)}
    (hok : Entitled env cred start w c) (hlater : start.Later w w')
    (ha : server.Answer p c w x w') : Untouched start b w' where
  good := h.good.later hlater
  kept t i r hr hin := by
    refine server_faithful.cell_stays ha (h.kept t i r hr hin) (fun u hu => ?_) fun d hd => ?_
    · subst hu
      exact Entitled.not_update hb hc hr hin hok
    · subst hd
      by_contra hdeletes
      exact Entitled.not_delete hb hc hr hin (Bool.of_not_eq_false hdeletes) hok
  old t i r' hr' hin := by
    rcases server_faithful.has ha hr' with hold | ⟨u, r, rfl, hr, -, rfl⟩ | ⟨rfl, hi⟩
    · exact h.old t i r' hold hin
    · have hin₀ : InRoom b t i r := by rwa [InRoom, roomOf_set] at hin
      exact absurd hok (Entitled.not_update hb hc (h.old t i r hr hin₀) hin₀)
    · exact absurd hok (Entitled.not_insert hb hc h.good hi hin)

/-- Time touches no row. -/
theorem Untouched.tick (h : Untouched start b w) (hlater : start.Later w w') (ht : w.Tick w') :
    Untouched start b w' := by
  obtain ⟨d, d', rfl⟩ := ht
  exact ⟨h.good.later hlater, h.kept, h.old⟩

/-- A room whose access token and whose code no task presents: whatever the tasks do side by side,
its rows stay as they are, without a lock, and it gets no new ones, not even uncommitted ones. -/
theorem room_isolated {tasks : ℕ → Task} {s : Conf Cmd Resp Err Unit World Unit} (hfree : w.db.Free)
    (htasks : ∀ p jobs, tasks p ≠ .worker jobs) (hb : w.db.committed .rooms b = some room)
    (hforeign : ∀ p, (tasks p).keyring.Foreign env room)
    (h : server.Reaches (.only fun _ => True) Guard.all
      (Conf.start w () fun p => (tasks p).program env) s) :
    (∀ t i r, w.db.committed t i = some r → InRoom b t i r →
      s.world.db.cell t i = ⟨some r, none⟩) ∧
    ∀ t i r, (s.world.db.cell t i).Has r → InRoom b t i r → w.db.committed t i = some r := by
  have huntouched := (policy_side_by_side (J := Untouched (.of env tasks w) b) hfree htasks
    (fun p c w₁ x w₂ hJ hok hlater ha => hJ.step hb (hforeign p) hok hlater ha)
    (fun w₁ w₂ hJ hlater ht => hJ.tick hlater ht) (.of_free hfree) h).1
  exact ⟨huntouched.kept, huntouched.old⟩

/-- Two rooms, with the access tokens `a` and `b`, and their owners. -/
def World.neighbours : World :=
  .holding
    [.plain, { RoomRow.plain with
      room_code := "D", access_token_hash := "b", owner_token_hash := "p" }]
    [.owner, { SessionRow.owner with room_id := 1, session_token_hash := "x" }] [.plain]

/-- The owner of the second room deletes it and, in another tab, uploads to it. -/
def strangers : ℕ → Task
  | 0 => .request (.deleteRoom "b") { Request.owner with session_cookie := some "x" }
  | 1 =>
    .request (.upload "b" none none [.ok [65]]) { Request.owner with session_cookie := some "x" }
  | _ => .idle

/-- The upload ends and the second room is torn down with it; the first room, whose access token and
code the stranger does not know, is as it was. -/
theorem room_isolated_strangers : ∃ s : Conf Cmd Resp Err Unit World Unit,
    server.Reaches (.only fun _ => True) Guard.all
      (Conf.start .neighbours () fun p => (strangers p).program .plain) s ∧
    (s.world.db.committed .rooms 1).map RoomRow.status = some .deleted ∧
    s.world.db.cell .rooms 0 = ⟨some .plain, none⟩ ∧
    s.world.db.cell .files 0 = ⟨some .plain, none⟩ := by
  have hrun : ((server.play (.only fun _ => True) Guard.all
      (List.replicate 4 0 ++ List.replicate 15 1 ++ List.replicate 12 0)
      (Conf.start .neighbours () fun p => (strangers p).program .plain)).map fun s =>
      (s.world.db.committed .rooms 1).map RoomRow.status) = some (some .deleted) := by
    decide +kernel
  obtain ⟨s, hs, hdeleted⟩ := Option.map_eq_some_iff.1 hrun
  have hreach := Machine.play_reaches hs
  have hworker : ∀ p jobs, strangers p ≠ .worker jobs := by
    intro p jobs h
    unfold strangers at h
    split at h <;> cases h
  have hroom : World.neighbours.db.committed .rooms 0 = some .plain := rfl
  have hforeign : ∀ p, (strangers p).keyring.Foreign .plain .plain := by
    intro p
    unfold strangers
    split
    · exact ⟨fun token h => (by cases h; decide), fun room_code h => (by cases h)⟩
    · exact ⟨fun token h => (by cases h; decide), fun room_code h => (by cases h)⟩
    · exact ⟨fun token h => (by cases h), fun room_code h => (by cases h)⟩
  have hkept := (room_isolated World.holding_free hworker hroom hforeign hreach).1
  exact ⟨s, hreach, hdeleted, hkept .rooms 0 .plain rfl (.inl ⟨rfl, rfl⟩),
    hkept .files 0 .plain rfl (.inr rfl)⟩

end

/-! ## A session that nobody holds -/

section

variable {env : Env} {cred : Keyring} {start : Past} {w w' : World} {i : ℕ} {session : SessionRow}

/-- The credentials do not have the token of the session. -/
def Keyring.Lacks (env : Env) (cred : Keyring) (session : SessionRow) : Prop :=
  ∀ token, cred.session_token = some token → env.hash_token token ≠ session.session_token_hash

/-- Without its token the session is not held. -/
theorem HoldsSession.ne (hi : start.world.db.committed .sessions i = some session)
    (hc : cred.Lacks env session) {held : SessionRecord}
    (h : HoldsSession env cred start w held) : held.id ≠ i := by
  rintro rfl
  obtain ⟨token, ht, hh⟩ := h.token
  have hfixed : (held.room_id, held.session_token_hash, held.role) =
      (session.room_id, session.session_token_hash, session.role) := h.seen.origin session hi
  have hhash := (Prod.mk.inj (Prod.mk.inj hfixed).2).1
  exact hc token ht (hh.symm.trans hhash)

/-- The session is as it was, or deleted; what was said and uploaded in its name was there. -/
structure Unforged (start : Past) (i : ℕ) (session : SessionRow) (w : World) : Prop where
  good : start.Good w
  row : ∀ r, (w.db.cell .sessions i).Has r → r = session
  said : ∀ j m, (w.db.cell .messages j).Has m → m.sender_session_id = some i →
    start.world.db.committed .messages j = some m
  uploaded : ∀ f r, (w.db.cell .files f).Has r → r.uploaded_by = some i →
    ∃ r₀, start.world.db.committed .files f = some r₀ ∧ fixed .files r₀ = fixed .files r ∧
      r₀.uploaded_by = some i

/-- At the start nothing was done in the name of the session that was not there. -/
theorem Unforged.of_free (h : start.world.db.Free)
    (hi : start.world.db.committed .sessions i = some session) :
    Unforged start i session start.world := by
  have hcommitted : ∀ {t : Table} {j : ℕ} {r : Row t}, (start.world.db.cell t j).Has r →
      start.world.db.committed t j = some r := by
    rintro t j r (hr | ⟨q, hr⟩)
    · exact hr
    · rw [h t j] at hr
      cases hr
  refine ⟨.of_free h, fun r hr => ?_, fun j m hm _ => hcommitted hm, fun f r hr hby => ?_⟩
  · exact Option.some.inj ((hcommitted hr).symm.trans hi)
  · exact ⟨r, hcommitted hr, rfl, hby⟩

/-- No update says that another session has uploaded the file. -/
theorem uploaded_by_set (u : Upd .files) (r : Row .files) :
    (dialect.set u r).uploaded_by = r.uploaded_by := by
  cases u <;> rfl

/-- A command that the credentials are entitled to is not one in the name of a session that they do
not hold. -/
theorem Unforged.step (hi : start.world.db.committed .sessions i = some session)
    (hc : cred.Lacks env session) (h : Unforged start i session w) {p : ℕ} {c : Cmd}
    {x : Except Err (Resp c)} (hok : Entitled env cred start w c) (hlater : start.Later w w')
    (ha : server.Answer p c w x w') : Unforged start i session w' where
  good := h.good.later hlater
  row r hr := by
    rcases server_faithful.has ha hr with hold | ⟨u, r, rfl, hr, -, rfl⟩ | ⟨rfl, hnew⟩
    · exact h.row r hold
    · cases hok with
      | plain hplain => exact hplain.elim
      | updateSession hs => exact absurd rfl (hs.holds.ne hi hc)
    · -- The number of the session is in use.
      have hlt := (h.good.origin .sessions i session hi).lt
      omega
  said j m hm hby := by
    rcases server_faithful.has ha hm with hold | ⟨u, -⟩ | ⟨rfl, -⟩
    · exact h.said j m hold hby
    · exact u.elim
    · cases hok with
      | plain hplain => exact hplain.elim
      | newMessage hs hroom hsender =>
        exact absurd (Option.some.inj (hsender.symm.trans hby)) (hs.holds.ne hi hc)
  uploaded f r hr hby := by
    -- A version that an update made has the uploader of the one before.
    rcases server_faithful.has ha hr with hold | ⟨u, r, -, hr₁, -, rfl⟩ | ⟨rfl, -⟩
    · exact h.uploaded f r hold hby
    · have hby₀ : r.uploaded_by = some i := (uploaded_by_set u r).symm.trans hby
      obtain ⟨r₀, hr₀, heq, hsame⟩ := h.uploaded f r hr₁ hby₀
      exact ⟨r₀, hr₀, heq.trans (fixed_set u r).symm, hsame⟩
    · cases hok with
      | plain hplain => exact hplain.elim
      | newFile hs hroom huploader =>
        exact absurd (Option.some.inj (huploader.symm.trans hby)) (hs.holds.ne hi hc)

/-- Time says and uploads nothing. -/
theorem Unforged.tick (h : Unforged start i session w) (hlater : start.Later w w')
    (ht : w.Tick w') : Unforged start i session w' := by
  obtain ⟨d, d', rfl⟩ := ht
  exact ⟨h.good.later hlater, h.row, h.said, h.uploaded⟩

/-- A session whose token no task has: whatever the tasks do side by side, its row stays as it is
until it is deleted, and every message and every file in its name was there before. -/
theorem session_unforged {tasks : ℕ → Task} {s : Conf Cmd Resp Err Unit World Unit}
    (hfree : w.db.Free) (htasks : ∀ p jobs, tasks p ≠ .worker jobs)
    (hi : w.db.committed .sessions i = some session)
    (hlacks : ∀ p, (tasks p).keyring.Lacks env session)
    (h : server.Reaches (.only fun _ => True) Guard.all
      (Conf.start w () fun p => (tasks p).program env) s) :
    (∀ r, (s.world.db.cell .sessions i).Has r → r = session) ∧
    (∀ j m, (s.world.db.cell .messages j).Has m → m.sender_session_id = some i →
      w.db.committed .messages j = some m) ∧
    ∀ f r, (s.world.db.cell .files f).Has r → r.uploaded_by = some i →
      ∃ r₀, w.db.committed .files f = some r₀ ∧ r₀.uploaded_by = some i := by
  have hunforged := (policy_side_by_side (J := Unforged (.of env tasks w) i session) hfree htasks
    (fun p c w₁ x w₂ hJ hok hlater ha => hJ.step hi (hlacks p) hok hlater ha)
    (fun w₁ w₂ hJ hlater ht => hJ.tick hlater ht) (.of_free hfree hi) h).1
  refine ⟨hunforged.row, hunforged.said, fun f r hr hby => ?_⟩
  obtain ⟨r₀, hr₀, -, hby₀⟩ := hunforged.uploaded f r hr hby
  exact ⟨r₀, hr₀, hby₀⟩

/-- The owner's session is not theirs. -/
theorem guests_lack_owner (p : ℕ) : (guests p).keyring.Lacks .plain .owner := by
  unfold guests
  split
  · exact fun token h => (by cases h)
  · exact fun token h => (by cases h; decide)
  · exact fun token h => (by cases h)

/-- The guest has uploaded a file of its own; the owner's session is as it was, and uploads nothing. -/
theorem session_unforged_guests : ∃ s : Conf Cmd Resp Err Unit World Unit,
    (∃ r, s.world.db.committed .files 1 = some r ∧ r.status = .confirmed) ∧
    (∀ r, (s.world.db.cell .sessions 0).Has r → r = .owner) ∧
    ∀ f r, (s.world.db.cell .files f).Has r → r.uploaded_by = some 0 →
      ∃ r₀, World.furnished.db.committed .files f = some r₀ ∧ r₀.uploaded_by = some 0 := by
  obtain ⟨s₀, s, h, h', -, -, ⟨r, hr, hconfirmed, -⟩, -⟩ := guests_upload
  have hsession : World.furnished.db.committed .sessions 0 = some .owner := rfl
  obtain ⟨hrow, -, huploaded⟩ := session_unforged World.holding_free guests_ne_worker hsession
    guests_lack_owner (.trans h h')
  exact ⟨s, ⟨r, hr, hconfirmed⟩, hrow, huploaded⟩

end

/-! ## A room without its owner -/

/-- What the owner of a room decides: all but its counters. -/
def RoomRow.settings (r : RoomRow) : RoomRow :=
  { r with user_count := 0, storage_used_bytes := 0, file_count := 0 }

/-- The credentials have the token of no OWNER session of the room. -/
def Keyring.Subject (env : Env) (cred : Keyring) (start : World) (b : ℕ) : Prop :=
  ∀ j r, start.db.committed .sessions j = some r → r.room_id = b → r.role = .owner → cred.Lacks env r

section

variable {env : Env} {cred : Keyring} {start : Past} {w w' : World} {b : ℕ} {room : RoomRow}

/-- Without the token of an owner the session that is held is not an owner's. -/
theorem HoldsSession.role_ne_owner (hb : start.world.db.committed .rooms b = some room)
    (howns : ¬start.owns room.owner_token_hash) (hc : cred.Subject env start.world b)
    {session : SessionRecord} (h : HoldsSession env cred start w session)
    (hroom : session.room_id = b) : session.role ≠ .owner := by
  intro howner
  rcases h.seen.born with ⟨r₀, hr₀⟩ | hright
  · obtain ⟨token, ht, hh⟩ := h.token
    have hfixed : (session.room_id, session.session_token_hash, session.role) =
        (r₀.room_id, r₀.session_token_hash, r₀.role) := h.seen.origin r₀ hr₀
    obtain ⟨hroom₀, hrest⟩ := Prod.mk.inj hfixed
    obtain ⟨hhash, hrole⟩ := Prod.mk.inj hrest
    exact hc session.id r₀ hr₀ (hroom₀.symm.trans hroom) (hrole.symm.trans howner) token ht
      (hh.symm.trans hhash)
  · -- A session that was made since then needs the owner token.
    have hcommitted : start.world.db.committed .rooms session.room_id = some room := by
      rw [hroom]
      exact hb
    exact howns (hright howner room hcommitted)

/-- The settings are as they were, no message is gone, and nobody has been put out. -/
structure Unruled (start : Past) (b : ℕ) (room : RoomRow) (w : World) : Prop where
  good : start.Good w
  settings : ∀ v, (w.db.cell .rooms b).Has v → v.settings = room.settings
  said : ∀ j m, start.world.db.committed .messages j = some m → m.room_id = b →
    w.db.cell .messages j = ⟨some m, none⟩
  seated : ∀ j r, start.world.db.committed .sessions j = some r → r.room_id = b →
    (w.db.cell .sessions j).committed ≠ none ∧ ∀ q, (w.db.cell .sessions j).lock ≠ some (q, none)

/-- At the start nothing is decided. -/
theorem Unruled.of_free (h : start.world.db.Free)
    (hb : start.world.db.committed .rooms b = some room) : Unruled start b room start.world where
  good := .of_free h
  settings v hv := by
    rcases hv with hv | ⟨q, hv⟩
    · rw [Option.some.inj (hv.symm.trans hb)]
    · rw [h .rooms b] at hv
      cases hv
  said j m hm _ := by
    have hlock := h .messages j
    have hcommitted : (start.world.db.cell .messages j).committed = some m := hm
    rw [← hlock, ← hcommitted]
  seated j r hr _ := by
    have hcommitted : (start.world.db.cell .sessions j).committed = some r := hr
    rw [hcommitted, h .sessions j]
    exact ⟨fun h => (by cases h), fun q h => (by cases h)⟩

/-- No command of a task without the token of an owner decides anything. -/
theorem Unruled.step (hb : start.world.db.committed .rooms b = some room)
    (howns : ¬start.owns room.owner_token_hash) (hc : cred.Subject env start.world b)
    (h : Unruled start b room w) {p : ℕ} {c : Cmd} {x : Except Err (Resp c)}
    (hok : Entitled env cred start w c) (hlater : start.Later w w')
    (ha : server.Answer p c w x w') : Unruled start b room w' where
  good := h.good.later hlater
  settings v hv := by
    -- Joining, leaving and claiming change counters only; the rest is for the owner.
    rcases server_faithful.has ha hv with hold | ⟨u, r, rfl, hr, -, rfl⟩ | ⟨rfl, hnew⟩
    · exact h.settings v hold
    · have hsettings := h.settings r hr
      cases hok with
      | plain hplain => exact hplain.elim
      | join hn => exact hsettings
      | leave hs => exact hsettings
      | claim hs => exact hsettings
      | rule hs howner => exact absurd howner (hs.holds.role_ne_owner hb howns hc rfl)
    · have hlt := (Tables.lt_length_of_committed hb).trans_le h.good.rooms
      omega
  -- A message is deleted by an owner, or with the room by an owner.
  said j m hm hroom := by
    refine server_faithful.cell_stays ha (h.said j m hm hroom) (fun u _ => u.elim) fun d hd => ?_
    subst hd
    by_contra hdeletes
    cases hok with
    | plain hplain => exact hplain.elim
    | wipe hs howner hd' =>
      have hroom' : some m.room_id = some _ := hd' j m (Bool.of_not_eq_false hdeletes)
      exact absurd howner
        (hs.holds.role_ne_owner hb howns hc ((Option.some.inj hroom').symm.trans hroom))
  -- A session is deleted with its room only.
  seated j r hr hroom := by
    have hcell := h.seated j r hr hroom
    have hseen := h.good.origin .sessions j r hr
    refine server_faithful.row_elim ha .sessions j
      (motive := fun c _ cl => Entitled env cred start w c →
        cl.committed ≠ none ∧ ∀ q, cl.lock ≠ some (q, none))
      ?spared ?failed ?refused ?updated ?kept ?deleted ?other ?inserted ?committed ?rolledBack hok
    case spared => exact fun _ _ _ _ => hcell
    case failed => exact fun _ _ _ _ => hcell
    case refused => exact fun _ _ _ => hcell
    case kept => exact fun _ _ _ _ => hcell
    case other => exact fun _ _ _ _ => hcell
    -- An update leaves a row behind.
    case updated => exact fun u r' _ _ _ _ => ⟨hcell.1, fun q hq => by cases hq⟩
    -- The session that would be deleted is one of this room, and only an owner may.
    case deleted =>
      intro d n r' hget hd _ he
      have hfixed : (r'.room_id, r'.session_token_hash, r'.role) =
          (r.room_id, r.session_token_hash, r.role) := hseen.fixed_eq r' (.of_view hget)
      cases he with
      | plain hplain => exact hplain.elim
      | wipe hs howner hd' =>
        have hroom' : some r'.room_id = some _ := hd' j r' hd
        have heq := (Option.some.inj hroom').symm.trans ((Prod.mk.inj hfixed).1.trans hroom)
        exact absurd howner (hs.holds.role_ne_owner hb howns hc heq)
    case inserted =>
      intro r' hnew _ _
      have hlt := hseen.lt
      omega
    case committed =>
      -- What becomes committed is a draft, and no draft is a deletion.
      intro _
      by_cases hlock : ∃ v, (w.db.cell .sessions j).lock = some (p, v)
      · obtain ⟨v, hlock⟩ := hlock
        rw [Cell.commit_of_lock hlock]
        refine ⟨fun hv => ?_, fun q hq => by cases hq⟩
        exact hcell.2 p (hlock.trans (congrArg (fun v => some (p, v)) hv))
      · rw [Cell.commit_of_ne fun v hv => hlock ⟨v, hv⟩]
        exact hcell
    case rolledBack =>
      intro _
      by_cases hlock : ∃ v, (w.db.cell .sessions j).lock = some (p, v)
      · obtain ⟨v, hlock⟩ := hlock
        rw [Cell.rollback_of_lock hlock]
        exact ⟨hcell.1, fun q hq => by cases hq⟩
      · rw [Cell.rollback_of_ne fun v hv => hlock ⟨v, hv⟩]
        exact hcell

/-- Time decides nothing. -/
theorem Unruled.tick (h : Unruled start b room w) (hlater : start.Later w w') (ht : w.Tick w') :
    Unruled start b room w' := by
  obtain ⟨d, d', rfl⟩ := ht
  exact ⟨h.good.later hlater, h.settings, h.said, h.seated⟩

/-- A room of which no task has the owner token or an OWNER session: whatever its guests do side by
side, its settings stay, its messages stay, its sessions stay, and no OWNER session is made. -/
theorem guests_do_not_rule {tasks : ℕ → Task} {s : Conf Cmd Resp Err Unit World Unit}
    (hfree : w.db.Free) (htasks : ∀ p jobs, tasks p ≠ .worker jobs)
    (hb : w.db.committed .rooms b = some room)
    (howner : ∀ p token, (tasks p).keyring.owner_token = some token →
      env.hash_token token ≠ room.owner_token_hash)
    (hsubject : ∀ p, (tasks p).keyring.Subject env w b)
    (h : server.Reaches (.only fun _ => True) Guard.all
      (Conf.start w () fun p => (tasks p).program env) s) :
    (∀ v, (s.world.db.cell .rooms b).Has v → v.settings = room.settings) ∧
    (∀ j m, w.db.committed .messages j = some m → m.room_id = b →
      s.world.db.cell .messages j = ⟨some m, none⟩) ∧
    (∀ j r, w.db.committed .sessions j = some r → r.room_id = b →
      ∃ r', s.world.db.committed .sessions j = some r' ∧ r'.role = r.role) ∧
    ∀ j r, (s.world.db.cell .sessions j).Has r → r.room_id = b → r.role = .owner →
      ∃ r₀, w.db.committed .sessions j = some r₀ := by
  have howns : ¬(Past.of env tasks w).owns room.owner_token_hash := by
    rintro ⟨p, token, ht, hh⟩
    exact howner p token ht hh
  have hunruled := (policy_side_by_side (J := Unruled (.of env tasks w) b room) hfree htasks
    (fun p c w₁ x w₂ hJ hok hlater ha => hJ.step hb howns (hsubject p) hok hlater ha)
    (fun w₁ w₂ hJ hlater ht => hJ.tick hlater ht) (.of_free hfree hb) h).1
  refine ⟨hunruled.settings, hunruled.said, fun j r hr hroom => ?_, fun j r hr hroom hrole => ?_⟩
  · obtain ⟨r', hr'⟩ := Option.ne_none_iff_exists'.1 (hunruled.seated j r hr hroom).1
    have hfixed : (r'.room_id, r'.session_token_hash, r'.role) =
        (r.room_id, r.session_token_hash, r.role) :=
      (hunruled.good.origin .sessions j r hr).fixed_eq r' (.inl hr')
    exact ⟨r', hr', (Prod.mk.inj (Prod.mk.inj hfixed).2).2⟩
  · rcases hunruled.good.born .sessions j r hr with hold | hright
    · exact hold
    · have hcommitted : w.db.committed .rooms r.room_id = some room := by
        rw [hroom]
        exact hb
      exact absurd (hright hrole room hcommitted) howns

/-- The guest is counted in and has stored two bytes; what the owner decides is as it was, and the
owner's session is there. -/
theorem guests_do_not_rule_guests : ∃ (s : Conf Cmd Resp Err Unit World Unit) (r : RoomRow),
    s.world.db.committed .rooms 0 = some r ∧ r.user_count = 1 ∧ r.storage_used_bytes = 2 ∧
    r.settings = RoomRow.plain.settings ∧
    ∃ r', s.world.db.committed .sessions 0 = some r' ∧ r'.role = .owner := by
  obtain ⟨s₀, s, h, h', -, -, -, r, hr, hcount, hbytes⟩ := guests_upload
  have hroom : World.furnished.db.committed .rooms 0 = some .plain := rfl
  have howner : ∀ p token, (guests p).keyring.owner_token = some token →
      Env.plain.hash_token token ≠ RoomRow.plain.owner_token_hash := by
    intro p token ht
    unfold guests at ht
    split at ht <;> cases ht
  have hsubject : ∀ p, (guests p).keyring.Subject .plain .furnished 0 := by
    intro p j r hr _ _ token ht
    -- The only session is the owner's.
    have hrow : r = .owner := by
      cases j with
      | zero => exact (Option.some.inj hr).symm
      | succ j => cases hr
    rw [hrow]
    exact guests_lack_owner p token ht
  obtain ⟨hsettings, -, hseated, -⟩ := guests_do_not_rule World.holding_free guests_ne_worker hroom
    howner hsubject (.trans h h')
  exact ⟨s, r, hr, hcount, hbytes, hsettings r (.inl hr), hseated 0 .owner rfl rfl⟩

end

end DropRoom
