import DropRoom.App.Versions
import DropRoom.App.Footprint
import DropRoom.Effect.Rely
import DropRoom.Files.Parts

/-!
# What a request is entitled to

A request names a room, by its access token or its code, and holds a session, by its token.
`Entitled` is the policy of the server: which commands a task with given credentials may issue, from
the rows as they are. The rows that a task has seen may have changed since, but not in their fixed
columns, so what it was entitled to it still is (`Entitled.later`). The rules of `Acts` follow the
programs; `Task.acts` shows with them that every task keeps to the policy, whatever tasks run beside
it.
-/

namespace DropRoom

open Effect Store Prog uploadService

/-- The object is stored for an upload: as its file, or as one of its parts. -/
def Uuid.Owns (storage_key : Uuid) (key : Key) : Prop :=
  key = storage_key.text ∨ partPrefix storage_key <+: key

/-- What is remembered while tasks run: the world at the start, and the hashes of the owner tokens that
the tasks present. -/
structure Past where
  world : World
  owns : TokenHash → Prop

namespace Past

variable (start : Past)

/-- An OWNER session of a room from the start needs the owner token of the room. -/
def Rightful : (t : Table) → Row t → Prop
  | .sessions, r => r.role = .owner → ∀ room, start.world.db.committed .rooms r.room_id = some room →
      start.owns room.owner_token_hash
  | _, _ => True

/-- The row was there at the start, or it was made rightfully. -/
def Born (t : Table) (i : ℕ) (r : Row t) : Prop :=
  (∃ r₀, start.world.db.committed t i = some r₀) ∨ start.Rightful t r

/-- All rows were there at the start or made rightfully. -/
def AllBorn (w : World) : Prop := ∀ t i r, (w.db.cell t i).Has r → start.Born t i r

/-- The row is known by its fixed columns: they are those of its versions, and those that it had at
the start, if it was there. -/
structure Known (w : World) (t : Table) (i : ℕ) (r : Row t) : Prop where
  seen : w.Seen t i r
  origin : ∀ r₀, start.world.db.committed t i = some r₀ → fixed t r = fixed t r₀
  born : start.Born t i r

/-- What tasks that run side by side leave true of each other. -/
structure Later (w w' : World) : Prop where
  keeps : w.Keeps w'
  born : start.AllBorn w → start.AllBorn w'

variable {start} {w w' w'' : World}

/-- An update keeps what a rightful row is about. -/
theorem rightful_set {t : Table} (u : Upd t) {r : Row t} (h : start.Rightful t r) :
    start.Rightful t (dialect.set u r) := by
  cases t with
  | sessions => cases u <;> exact h
  | _ => trivial

/-- A world is as late as itself. -/
theorem Later.refl (w : World) : start.Later w w := ⟨.refl w, id⟩

/-- Later than a later world. -/
theorem Later.trans (h : start.Later w w') (h' : start.Later w' w'') : start.Later w w'' :=
  ⟨h.keeps.trans h'.keeps, fun hw => h'.born (h.born hw)⟩

/-- A version that is known stays known. -/
theorem Later.known (hw : start.Later w w') {t : Table} {i : ℕ} {r : Row t}
    (h : start.Known w t i r) : start.Known w' t i r := ⟨hw.keeps.seen h.seen, h.origin, h.born⟩

/-- One step leads to a later world. -/
theorem Later.of_tick (h : w.Tick w') : start.Later w w' := by
  have hkeeps := World.Tick.keeps_known h
  obtain ⟨d, d', rfl⟩ := h
  exact ⟨hkeeps, id⟩

end Past

/-- What a task presents to the server. -/
structure Keyring where
  room_token : Option Token
  room_code : Option String
  session_token : Option Token
  owner_token : Option Token

section

variable (env : Env) (cred : Keyring) (start : Past) (w : World)

/-- The credentials name the room, or it was made since the start. -/
inductive NamesRoom (ρ : ℕ) : Prop
  | token {r : RoomRow} {token : Token} (hr : start.Known w .rooms ρ r)
      (ht : cred.room_token = some token) (hh : r.access_token_hash = env.hash_token token)
  | code {r : RoomRow} {room_code : String} (hr : start.Known w .rooms ρ r)
      (hc : cred.room_code = some room_code) (hh : r.room_code = strip (env.upper room_code))
  | new (h : (start.world.db .rooms).length ≤ ρ)

/-- The credentials have the owner token of the room, or it was made since the start. -/
inductive MayOwn (ρ : ℕ) : Prop
  | token {r : RoomRow} {token : Token} (hr : start.Known w .rooms ρ r)
      (ht : cred.owner_token = some token) (hh : r.owner_token_hash = env.hash_token token)
  | new (h : (start.world.db .rooms).length ≤ ρ)

/-- The credentials hold the session. -/
structure HoldsSession (session : SessionRecord) : Prop where
  seen : start.Known w .sessions session.id session.toSessionRow
  token : ∃ token, cred.session_token = some token ∧
    session.session_token_hash = env.hash_token token

/-- The credentials hold a session of a room that they name. -/
structure Attends (session : SessionRecord) : Prop where
  holds : HoldsSession env cred start w session
  names : NamesRoom env cred start w session.room_id

/-- The update is open to every member: it leaves the status of the file, or it confirms an upload that
was PENDING when it was loaded. -/
inductive FileUpdate.ByMember : FileUpdate → Prop
  | counted : ByMember .incrementDownload
  | same {loaded new : FileRow} (h : new.status = loaded.status) : ByMember (.flush loaded new)
  | confirmed {loaded new : FileRow} (h : loaded.status = .pending) (h' : new.status = .confirmed) :
    ByMember (.flush loaded new)

/-- A command that changes no row and no object, and reads no object. -/
def Cmd.Plain : Cmd → Prop
  | .sql (.updateAt ..) | .sql (.deleteWhere ..) | .sql (.insert ..) => False
  | .put .. | .getStream _ | .deleteObject _ | .dequeue => False
  | _ => True

/-- The policy: what a task with these credentials may issue. -/
inductive Entitled : Cmd → Prop
  | plain {c : Cmd} (h : c.Plain) : Entitled c
  -- Rooms: anybody makes one, and whoever names one joins it.
  | newRoom (r : RoomRow) : Entitled (.sql (.insert .rooms r))
  | join {ρ : ℕ} (h : NamesRoom env cred start w ρ) :
      Entitled (.sql (.updateAt .rooms ρ .incrementUserCount))
  -- `_resolve_role` gives the role of the owner for the owner token only.
  | newSession {r : SessionRow} (h : NamesRoom env cred start w r.room_id)
      (ho : r.role = .owner → MayOwn env cred start w r.room_id) :
      Entitled (.sql (.insert .sessions r))
  -- Members: a session is renewed or ended by its holder, who is also counted out.
  | updateSession {session : SessionRecord} (h : Attends env cred start w session)
      (u : SessionUpdate) : Entitled (.sql (.updateAt .sessions session.id u))
  | leave {session : SessionRecord} (h : Attends env cred start w session) :
      Entitled (.sql (.updateAt .rooms session.room_id .decrementUserCount))
  -- Files of the room: the quota, the record, its status and its objects.
  | claim {session : SessionRecord} (h : Attends env cred start w session) (size : ℕ) (a b : ℤ) :
      Entitled (.sql (.updateAt .rooms session.room_id (.claimQuota size a b)))
  | newFile {session : SessionRecord} (h : Attends env cred start w session) {r : FileRow}
      (hr : r.room_id = session.room_id) (hby : r.uploaded_by = some session.id) :
      Entitled (.sql (.insert .files r))
  | updateFile {session : SessionRecord} (h : Attends env cred start w session) {f : ℕ} {r : FileRow}
      (hr : start.Known w .files f r) (hroom : r.room_id = session.room_id) {u : FileUpdate}
      (hu : u.ByMember) : Entitled (.sql (.updateAt .files f u))
  | dropFile {session : SessionRecord} (h : Attends env cred start w session) {f : ℕ} {r : FileRow}
      (hr : start.Known w .files f r) (hroom : r.room_id = session.room_id) :
      Entitled (.sql (.deleteWhere .files (.byId f)))
  -- Messages are signed with the session.
  | newMessage {session : SessionRecord} (h : Attends env cred start w session) {r : MessageRow}
      (hr : r.room_id = session.room_id) (hby : r.sender_session_id = some session.id) :
      Entitled (.sql (.insert .messages r))
  | newAudit {r : AuditEventRow} (h : ∀ ρ, r.room_id = some ρ → NamesRoom env cred start w ρ) :
      Entitled (.sql (.insert .auditEvents r))
  -- Objects belong to a record of the room, under its key or as parts of it.
  | put {session : SessionRecord} (h : Attends env cred start w session) {f : ℕ} {r : FileRow}
      (hr : start.Known w .files f r) (hroom : r.room_id = session.room_id) {key : Key}
      (hkey : r.storage_key.Owns key) (data) : Entitled (.put key data)
  | getStream {session : SessionRecord} (h : Attends env cred start w session) {f : ℕ} {r : FileRow}
      (hr : start.Known w .files f r) (hroom : r.room_id = session.room_id) {key : Key}
      (hkey : r.storage_key.Owns key) : Entitled (.getStream key)
  | deleteObject {session : SessionRecord} (h : Attends env cred start w session) {f : ℕ} {r : FileRow}
      (hr : start.Known w .files f r) (hroom : r.room_id = session.room_id) {key : Key}
      (hkey : r.storage_key.Owns key) : Entitled (.deleteObject key)
  -- The owner: settings and counters, and deleting what belongs to the room.
  | removeFile {session : SessionRecord} (h : Attends env cred start w session)
      (howner : session.role = .owner) {f : ℕ} {r : FileRow} (hr : start.Known w .files f r)
      (hroom : r.room_id = session.room_id) : Entitled (.sql (.updateAt .files f .markDeleted))
  | rule {session : SessionRecord} (h : Attends env cred start w session)
      (howner : session.role = .owner) (u : RoomUpdate) :
      Entitled (.sql (.updateAt .rooms session.room_id u))
  | wipe {session : SessionRecord} (h : Attends env cred start w session)
      (howner : session.role = .owner) {t : Table} {d : Del t}
      (hd : ∀ i r, dialect.deletes d i r = true → roomOf t r = some session.room_id) :
      Entitled (.sql (.deleteWhere t d))

end

section

variable {env : Env} {cred : Keyring} {start : Past} {w w' : World}

/-- A request goes on naming its room. -/
theorem NamesRoom.later {ρ : ℕ} (hw : start.Later w w') (h : NamesRoom env cred start w ρ) :
    NamesRoom env cred start w' ρ := by
  cases h with
  | token hr ht hh => exact .token (hw.known hr) ht hh
  | code hr hc hh => exact .code (hw.known hr) hc hh
  | new h => exact .new h

/-- A request goes on holding the token of the owner. -/
theorem MayOwn.later {ρ : ℕ} (hw : start.Later w w') (h : MayOwn env cred start w ρ) :
    MayOwn env cred start w' ρ := by
  cases h with
  | token hr ht hh => exact .token (hw.known hr) ht hh
  | new h => exact .new h

/-- A request goes on holding its session. -/
theorem HoldsSession.later {session : SessionRecord} (hw : start.Later w w')
    (h : HoldsSession env cred start w session) : HoldsSession env cred start w' session :=
  ⟨hw.known h.seen, h.token⟩

/-- A request goes on attending its room. -/
theorem Attends.later {session : SessionRecord} (hw : start.Later w w')
    (h : Attends env cred start w session) : Attends env cred start w' session :=
  ⟨h.holds.later hw, h.names.later hw⟩

/-- What a task was entitled to, it still is. -/
theorem Entitled.later {c : Cmd} (hw : start.Later w w') (h : Entitled env cred start w c) :
    Entitled env cred start w' c := by
  cases h with
  | plain h => exact .plain h
  | newRoom r => exact .newRoom r
  | join h => exact .join (h.later hw)
  | newSession h ho => exact .newSession (h.later hw) fun hr => (ho hr).later hw
  | updateSession h u => exact .updateSession (h.later hw) u
  | leave h => exact .leave (h.later hw)
  | claim h size a b => exact .claim (h.later hw) size a b
  | newFile h hr hby => exact .newFile (h.later hw) hr hby
  | updateFile h hr hroom hu => exact .updateFile (h.later hw) (hw.known hr) hroom hu
  | dropFile h hr hroom => exact .dropFile (h.later hw) (hw.known hr) hroom
  | newMessage h hr hby => exact .newMessage (h.later hw) hr hby
  | newAudit h => exact .newAudit fun ρ hρ => (h ρ hρ).later hw
  | put h hr hroom hkey data => exact .put (h.later hw) (hw.known hr) hroom hkey data
  | getStream h hr hroom hkey => exact .getStream (h.later hw) (hw.known hr) hroom hkey
  | deleteObject h hr hroom hkey => exact .deleteObject (h.later hw) (hw.known hr) hroom hkey
  | removeFile h howner hr hroom => exact .removeFile (h.later hw) howner (hw.known hr) hroom
  | rule h howner u => exact .rule (h.later hw) howner u
  | wipe h howner hd => exact .wipe (h.later hw) howner hd

end

/-- The versions of a row agree, also with the row at the start, and the rows were made rightfully. -/
structure Past.Good (start : Past) (w : World) : Prop where
  coherent : w.Coherent
  rooms : (start.world.db .rooms).length ≤ (w.db .rooms).length
  origin : ∀ t i r₀, start.world.db.committed t i = some r₀ → w.Seen t i r₀
  born : start.AllBorn w

namespace Past.Good

/-- Without an open transaction the start is in order. -/
theorem of_free {start : Past} (h : start.world.db.Free) : start.Good start.world where
  coherent := .of_free h
  rooms := le_rfl
  origin _ _ _ hr := (World.Coherent.of_free h).seen (.inl hr)
  born t i r hr := by
    rcases hr with hr | ⟨q, hr⟩
    · exact .inl ⟨r, hr⟩
    · rw [h t i] at hr
      cases hr

variable {start : Past} {w w' : World}

/-- What is in order stays in order. -/
theorem later (h : start.Good w) (hw : start.Later w w') : start.Good w' where
  coherent := hw.keeps.coherent h.coherent
  rooms := h.rooms.trans (hw.keeps.length .rooms)
  origin t i r₀ hr := hw.keeps.seen (h.origin t i r₀ hr)
  born := hw.born h.born

/-- A version that is there is known. -/
theorem known (h : start.Good w) {t : Table} {i : ℕ} {r : Row t} (hr : (w.db.cell t i).Has r) :
    start.Known w t i r :=
  ⟨h.coherent.seen hr, fun r₀ hr₀ => (h.origin t i r₀ hr₀).fixed_eq r hr, h.born t i r hr⟩

end Past.Good

/-- The owner token of the credentials, if any, is among those that are presented. -/
def Past.Covers (env : Env) (start : Past) (cred : Keyring) : Prop :=
  ∀ token, cred.owner_token = some token → start.owns (env.hash_token token)

/-- What an entitled command leaves true. -/
theorem Entitled.leads {env : Env} {cred : Keyring} {start : Past} {w w' : World} {p : ℕ} {c : Cmd}
    {x : Except Err (Resp c)} (hcover : start.Covers env cred) (hc : Entitled env cred start w c)
    (ha : server.Answer p c w x w') : start.Later w w' where
  keeps := World.keeps_of_answer server_faithful ha
  born hall t i r hr := by
    rcases server_faithful.has ha hr with hold | ⟨u, r₁, -, hr₁, -, rfl⟩ | ⟨rfl, -⟩
    · exact hall t i r hold
    · exact (hall t i r₁ hr₁).imp_right (Past.rightful_set u)
    · -- Of the new rows only an OWNER session has to be made rightfully.
      refine .inr ?_
      cases t with
      | sessions =>
        intro howner room hroom
        cases hc with
        | plain h => exact h.elim
        | newSession hn ho =>
          cases ho howner with
          | @token r₁ token hr₁ ht hh =>
            have hfixed : (r₁.room_code, r₁.access_token_hash, r₁.owner_token_hash) =
                (room.room_code, room.access_token_hash, room.owner_token_hash) :=
              hr₁.origin room hroom
            rw [← (Prod.mk.inj (Prod.mk.inj hfixed).2).2, hh]
            exact hcover token ht
          | new h => exact absurd (Tables.lt_length_of_committed hroom) (Nat.not_lt.2 h)
      | _ => trivial

/-- The row was read by a `SELECT`, which was issued in `w` and answered before `w'`. -/
structure Past.Read (start : Past) (w w' : World) (t : Table) (where_ : ℕ → Row t → Bool) (i : ℕ)
    (r : Row t) : Prop where
  known : start.Known w' t i r
  where_eq : where_ i r = true
  same : ∀ r', start.Known w t i r' → fixed t r = fixed t r'

/-- The terms of a task: it keeps to the policy, and relies on what entitled commands leave true. -/
def policy (env : Env) (cred : Keyring) (start : Past) (hcover : start.Covers env cred) (p : ℕ) :
    Terms server p where
  ok c w := Entitled env cred start w c
  rely := start.Later
  refl := .refl
  trans h h' := h.trans h'
  own hc ha := hc.leads hcover ha

/-- The program keeps to the policy, whatever tasks run beside it, and ends in `Q`. -/
def Acts {α : Type} (env : Env) (cred : Keyring) (start : Past) (p : ℕ) (prog : Op α)
    (Q : α → World → Prop) (w : World) : Prop :=
  ∀ h : start.Covers env cred ∧ start.Good w, (policy env cred start h.1 p).Meets prog Q w

namespace Acts

variable {α β : Type} {env : Env} {cred : Keyring} {p : ℕ} {start : Past} {w : World}
  {Q : α → World → Prop}

/-- The postcondition may be made weaker. -/
theorem mono {prog : Op α} {Q' : α → World → Prop} (h : Acts env cred start p prog Q w)
    (hQ : ∀ a w', start.Later w w' → Q a w' → Q' a w') : Acts env cred start p prog Q' w :=
  fun hw => (h hw).mono hQ

/-- A value. -/
theorem pure {a : α} (h : ∀ w', start.Later w w' → Q a w') :
    Acts env cred start p (pure a) Q w := fun _ => .ret h

/-- An exception. -/
theorem raise (e : Err) : Acts env cred start p (.raise e) Q w := fun _ => .raise e

/-- One program after the other. -/
theorem bind {prog : Op β} {f : β → Op α}
    (h : Acts env cred start p prog (fun b w' => Acts env cred start p (f b) Q w') w) :
    Acts env cred start p (prog >>= f) Q w := fun hw =>
  .bind ((h hw).mono fun _ _ hkeeps hf => hf ⟨hw.1, hw.2.later hkeeps⟩)

/-- The handler may be entered in any later world. -/
theorem tryCatch {prog : Op α} {f : Err → Op α} (h : Acts env cred start p prog Q w)
    (hf : ∀ e w', start.Later w w' → Acts env cred start p (f e) Q w') :
    Acts env cred start p (prog.tryCatch f) Q w := fun hw =>
  .tryCatch (h hw) fun e w' hkeeps => hf e w' hkeeps ⟨hw.1, hw.2.later hkeeps⟩

/-- The result may be changed. -/
theorem map {prog : Op β} {f : β → α}
    (h : Acts env cred start p prog (fun b w' => Q (f b) w') w) :
    Acts env cred start p (f <$> prog) Q w := fun hw => .map (h hw)

/-- What follows a check that has passed. -/
theorem require_bind {b : Prop} [Decidable b] {e : Err} {f : Unit → Op α}
    (h : b → Acts env cred start p (f ()) Q w) :
    Acts env cred start p (Prog.require b e >>= f) Q w := fun hw =>
  .require_bind fun hb => h hb hw

/-- A program whose commands the task is entitled to from the start. -/
theorem of_only {prog : Op α} (h : prog.Only (Entitled env cred start w))
    (hQ : ∀ a w', start.Later w w' → Q a w') : Acts env cred start p prog Q w := fun _ => by
  have hlater : ∀ c, Entitled env cred start w c → ∀ w', start.Later w w' →
      Entitled env cred start w' c := fun c hc w' hw' => hc.later hw'
  exact (Terms.Meets.of_only (h.mono hlater)).mono fun a w' hw' _ => hQ a w' hw'

/-- A program that changes no row and no object, and reads no object. -/
theorem plain {prog : Op α} (h : prog.Only Cmd.Plain) (hQ : ∀ a w', start.Later w w' → Q a w') :
    Acts env cred start p prog Q w := of_only (h.mono fun _ hc => .plain hc) hQ

/-- A command that the task is entitled to, with what is known of its answer. -/
theorem issue {c : Cmd} {Q : Resp c → World → Prop} (hc : Entitled env cred start w c)
    (hQ : ∀ w₁ a w₂ w₃, start.Later w w₁ → server.Answer p c w₁ (.ok a) w₂ →
      start.Later w₁ w₂ → start.Later w₂ w₃ → start.Good w₁ → Q a w₃) :
    Acts env cred start p (DropRoom.issue c) Q w := fun hw =>
  .perform (fun _ hw' => hc.later hw') fun w₁ a w₂ w₃ h₁ ha h₃ =>
    hQ w₁ a w₂ w₃ h₁ ha ((hc.later h₁).leads hw.1 ha) h₃ (hw.2.later h₁)

/-- The rows that a `SELECT` returns have been seen. -/
theorem select {t : Table} {where_ : ℕ → Row t → Bool} {Q : List (ℕ × Row t) → World → Prop}
    (hQ : ∀ rows w', start.Later w w' →
      (∀ i r, (i, r) ∈ rows → start.Read w w' t where_ i r) → Q rows w') :
    Acts env cred start p (DropRoom.select t where_) Q w := by
  refine issue (.plain trivial) fun w₁ rows w₂ w₃ h₁ ha h₂ h₃ hgood => ?_
  obtain ⟨rfl, hrows⟩ := server_faithful.select ha
  refine hQ rows w₃ (h₁.trans h₃) fun i r hr => ?_
  rw [hrows rows rfl, Tables.mem_select] at hr
  exact ⟨h₃.known (hgood.known (.of_view hr.1)), hr.2, fun r' hr' =>
    (h₁.known hr').seen.fixed_eq r (.of_view hr.1)⟩

/-- A row that was inserted has been seen, under a new number. -/
theorem insert {t : Table} {r : Row t} {Q : ℕ → World → Prop}
    (hc : Entitled env cred start w (.sql (.insert t r)))
    (hQ : ∀ i w', start.Later w w' → start.Known w' t i r → (w.db t).length ≤ i → Q i w') :
    Acts env cred start p (DropRoom.insert t r) Q w := by
  refine issue hc fun w₁ i w₂ w₃ h₁ ha h₂ h₃ hgood => ?_
  rcases server_faithful.insert ha with ⟨hi, hw₂⟩ | ⟨e, he, -⟩
  · obtain rfl := Except.ok.inj hi
    refine hQ _ w₃ (h₁.trans (h₂.trans h₃)) (h₃.known ?_) (h₁.keeps.length t)
    refine (hgood.later h₂).known (.inr ⟨p, ?_⟩)
    rw [hw₂, Tables.cell_insert_self]
  · cases he

/-- The keys that are listed have the prefix. -/
theorem listKeys {pre : Key} {Q : List Key → World → Prop}
    (hQ : ∀ keys w', start.Later w w' → (∀ key ∈ keys, pre <+: key) → Q keys w') :
    Acts env cred start p (storage.listKeys pre) Q w := by
  refine issue (.plain trivial) fun w₁ keys w₂ w₃ h₁ ha h₂ h₃ hgood => ?_
  refine hQ keys w₃ (h₁.trans (h₂.trans h₃)) fun key hkey => ?_
  rw [(server_faithful.listKeys ha).2 keys rfl, mem_listKeys] at hkey
  exact hkey.2

/-- A program with its own database session. -/
theorem withSession {body : Op α} (h : Acts env cred start p body Q w)
    (hQ : ∀ a w' w'', start.Later w' w'' → Q a w' → Q a w'') :
    Acts env cred start p (DropRoom.withSession body) Q w := by
  have hclose : closeDb.Only Cmd.Plain := (only_issue _).2 trivial
  refine bind ((tryCatch h fun e w' _ => bind (plain hclose fun _ w'' _ => raise e)).mono ?_)
  intro a w' _ ha
  exact bind (plain hclose fun _ w'' hw'' => pure fun w₃ hw₃ => hQ a w' w₃ (hw''.trans hw₃) ha)

end Acts

end DropRoom
