import DropRoom.App.Frames

/-!
# What a transaction commits

`Yields` is what every run of a program that returns ends in, whatever commands fail in it, so only
the path on which nothing goes wrong has to be followed. An operation that commits once, at its end,
leaves what was committed before, or commits what that path has made of the rows (`Posts`).
-/

namespace DropRoom

open Effect Store Prog

/-! ## Programs that return -/

/-- Every run of the program that returns, whatever commands fail in it, ends in `Q`. -/
def Yields {α : Type} (prog : Op α) (Q : α → Serial → Prop) (σ : Serial) : Prop :=
  Ends prog (fun r σ' => ∀ a, r = .ok a → Q a σ') σ

namespace Yields

variable {α β : Type} {σ : Serial} {Q : α → Serial → Prop}

/-- What a run that returns ends in. -/
theorem of_runs {p : ℕ} {w w' : World} {prog : Op α} {a : α} (h : Yields prog Q (.of p w))
    (hr : server.Runs p prog w (.ok a) w') (hw : w.db.Free) : Q a (.of p w') :=
  Ends.of_runs h hr (hw.alone p) a rfl

/-- The postcondition may be made weaker. -/
theorem mono {prog : Op α} {Q' : α → Serial → Prop} (h : Yields prog Q σ)
    (hQ : ∀ a σ', Q a σ' → Q' a σ') : Yields prog Q' σ :=
  Ends.mono h fun _ σ' hr a ha => hQ a σ' (hr a ha)

/-- A value. -/
theorem pure {a : α} (h : Q a σ) : Yields (pure a) Q σ := by
  rintro _ ⟨⟩
  exact h

/-- A program that raises does not return. -/
theorem raise (e : Err) : Yields (.raise e) Q σ := by
  rintro a ⟨⟩

/-- One program after the other. -/
theorem bind {p : Op β} {f : β → Op α} (h : Yields p (fun b σ' => Yields (f b) Q σ') σ) :
    Yields (p >>= f) Q σ := by
  refine Ends.bind (Ends.mono h ?_)
  rintro (e | b) σ' hb
  · rintro a ⟨⟩
  · exact hb b rfl

/-- The result may be changed. -/
theorem map {p : Op β} {f : β → α} (h : Yields p (fun b σ' => Q (f b) σ') σ) :
    Yields (f <$> p) Q σ := by
  refine Ends.map (Ends.mono h ?_)
  rintro (e | b) σ' hb a ha
  · cases ha
  · cases ha
    exact hb b rfl

/-- A program whose exceptions are replaced by others. -/
theorem tryCatch_raise {p : Op α} {f : Err → Err} (h : Yields p Q σ) :
    Yields (p.tryCatch fun e => .raise (f e)) Q σ := by
  refine Ends.tryCatch (Ends.mono h ?_)
  rintro (e | a) σ' ha
  · rintro a ⟨⟩
  · exact ha

/-- A postcondition that always holds. -/
theorem of_forall {prog : Op α} (hQ : ∀ a σ', Q a σ') : Yields prog Q σ :=
  ((Serial.machine server).wp_iff_runs 0 prog _ σ).2 fun _ σ' _ a _ => hQ a σ'

/-- `try p except h`, where `h` raises in the end. -/
theorem tryCatch_of_raises {p : Op α} {f : Err → Op α} (h : Yields p Q σ)
    (hf : ∀ e σ', Yields (f e) Q σ') : Yields (p.tryCatch f) Q σ := by
  refine Ends.tryCatch (Ends.mono h ?_)
  rintro (e | a) σ' ha
  · exact hf e σ'
  · exact ha

/-- A check that has passed. -/
theorem require {b : Prop} [Decidable b] {e : Err} {Q : Unit → Serial → Prop}
    (h : b → Q () σ) : Yields (Prog.require b e) Q σ := by
  refine Ends.require (fun hb => ?_) fun _ => ?_
  · rintro ⟨⟩ -
    exact h hb
  · rintro a ⟨⟩

/-- What follows a check that has passed. -/
theorem require_bind {b : Prop} [Decidable b] {e : Err} {f : Unit → Op α}
    (h : b → Yields (f ()) Q σ) : Yields (Prog.require b e >>= f) Q σ := by
  refine Ends.require_bind h fun _ => ?_
  rintro a ⟨⟩

/-- A command that is executed to `x` and `σ₁`, or fails. -/
theorem issue_of_exec {c : Cmd} {Q : Resp c → Serial → Prop} {x σ₁}
    (hx : Serial.exec c σ = some (.ok x, σ₁)) (h : Q x σ₁) : Yields (issue c) Q σ := by
  refine Ends.issue_of_exec hx ?_ fun e => ?_
  · rintro _ ⟨⟩
    exact h
  · rintro a ⟨⟩

/-- A `with` block drops what its body has not committed. -/
theorem withSession {body : Op α}
    (h : Yields body (fun a σ' => Q a { σ' with db := σ'.db.rollback }) σ) :
    Yields (withSession body) Q σ :=
  Ends.withSession h

/-- The clock. -/
theorem utcnow {Q : Time → Serial → Prop} (h : Q σ.rest.now σ) : Yields utcnow Q σ :=
  issue_of_exec rfl h

/-- A commit makes the rows of the transaction the committed ones. -/
theorem commit {Q : Unit → Serial → Prop} (h : Q () { σ with db := σ.db.commit }) :
    Yields commit Q σ :=
  issue_of_exec rfl h

/-- A new row takes the next number. -/
theorem insert {t : Table} {r : Row t} {Q : ℕ → Serial → Prop}
    (h : Q (σ.db.count t) { σ with db := σ.db.add t r }) : Yields (insert t r) Q σ :=
  issue_of_exec rfl h

/-- An `UPDATE` by the number of the row. -/
theorem updateAt {t : Table} {i : ℕ} {u : Upd t} {Q : Bool → Serial → Prop}
    (h : Q (σ.db.updateAt t i (dialect.applies u) (dialect.set u)).1
      { σ with db := (σ.db.updateAt t i (dialect.applies u) (dialect.set u)).2 }) :
    Yields (updateAt t i u) Q σ :=
  issue_of_exec rfl h

/-- An `UPDATE` that matches its row, or does not. -/
theorem updateAt_cases {t : Table} {i : ℕ} {u : Upd t} {Q : Bool → Serial → Prop}
    (hno : (∀ r, σ.db.rows t i = some r → dialect.applies u r = false) → Q false σ)
    (hyes : ∀ r, σ.db.rows t i = some r → dialect.applies u r = true →
      Q true { σ with db := σ.db.set t i (some (dialect.set u r)) }) :
    Yields (DropRoom.updateAt t i u) Q σ := by
  refine updateAt ?_
  by_cases hrow : ∃ r, σ.db.rows t i = some r ∧ dialect.applies u r = true
  · obtain ⟨r, hr, happlies⟩ := hrow
    rw [Snapshot.updateAt_of_some hr happlies]
    exact hyes r hr happlies
  · have hall : ∀ r, σ.db.rows t i = some r → dialect.applies u r = false := fun r hr =>
      Bool.eq_false_iff.2 fun happlies => hrow ⟨r, hr, happlies⟩
    rw [Snapshot.updateAt_of_none hall]
    exact hno hall

/-- A `SELECT` answers what the transaction sees. -/
theorem select {t : Table} {where_} {Q : List (ℕ × Row t) → Serial → Prop}
    (h : Q (σ.db.select t where_) σ) : Yields (select t where_) Q σ :=
  issue_of_exec rfl h

/-- A `DELETE`, however many rows it meets. -/
theorem deleteWhere {t : Table} {d : Del t} {Q : ℕ → Serial → Prop}
    (h : ∀ n, Q n { σ with db := σ.db.drop t (dialect.deletes d) }) :
    Yields (deleteWhere t d) Q σ :=
  issue_of_exec rfl (h _)

/-- A uuid that was not drawn before. -/
theorem uuid4 {Q : Uuid → Serial → Prop} (h : Q (σ.rest.uuids σ.rest.uuidsUsed)
    { σ with rest := { σ.rest with uuidsUsed := σ.rest.uuidsUsed + 1 } }) : Yields uuid4 Q σ :=
  issue_of_exec rfl h

/-- An object is stored whole. -/
theorem put {key : Key} {data : Bytes} {Q : ℕ → Serial → Prop} (h : Q data.length
    { σ with rest := { σ.rest with storage := σ.rest.storage.insert key data } }) :
    Yields (storage.put key (.ok data)) Q σ :=
  issue_of_exec rfl h

/-- An object is read, and an absent one is empty. -/
theorem getStream {key : Key} {Q : Bytes → Serial → Prop}
    (h : Q ((σ.rest.storage.lookup key).getD []) σ) : Yields (storage.getStream key) Q σ :=
  issue_of_exec rfl h

/-- An object is deleted. -/
theorem delete {key : Key} {Q : Unit → Serial → Prop}
    (h : Q () { σ with rest := { σ.rest with storage := σ.rest.storage.erase key } }) :
    Yields (storage.delete key) Q σ :=
  issue_of_exec rfl h

/-- The keys with the given beginning. -/
theorem listKeys {pre : Key} {Q : List Key → Serial → Prop}
    (h : Q (σ.rest.storage.listKeys pre) σ) : Yields (storage.listKeys pre) Q σ :=
  issue_of_exec rfl h

/-- Deleting the objects under some keys. -/
theorem forM_delete {keys : List Key} {Q : PUnit → Serial → Prop} (h : Q ⟨⟩
    { σ with rest := { σ.rest with storage := σ.rest.storage.eraseAll keys } }) :
    Yields (keys.forM storage.delete) Q σ := by
  induction keys generalizing σ with
  | nil => exact pure h
  | cons key keys ih => exact bind (delete (ih h))

/-- A lookup by a column that tells the rows apart. -/
theorem find {t : Table} {where_ : ℕ → Row t → Bool} (hs : σ.Single t where_)
    {f : ℕ × Row t → β} {Q : Option β → Serial → Prop} (h : Q ((σ.find t where_).map f) σ) :
    Yields (do
      let rows ← DropRoom.select t where_
      DropRoom.scalarOneOrNone (rows.map f)) Q σ := by
  refine Ends.find hs f ?_ fun e => ?_
  · rintro _ ⟨⟩
    exact h
  · rintro a ⟨⟩

variable {env : Env}

/-- `get_by_token_hash`, where the hashes tell the sessions apart. -/
theorem getByTokenHash (hu : UniqueColumns σ.db.rows) {h : TokenHash}
    {Q : Option SessionRecord → Serial → Prop} (hQ : Q (σ.sessionBy h) σ) :
    Yields (sessionRepository.getByTokenHash h) Q σ := by
  refine bind (utcnow (find ?_ hQ))
  intro i j r r' hr hw hr' hw'
  simp only [Bool.and_eq_true, beq_iff_eq] at hw hw'
  exact hu.session_token_hash i j r r' hr hr' (hw.1.trans hw'.1.symm)

/-- `get_room_by_token` returns the room of the token. -/
theorem getRoomByToken (hu : UniqueColumns σ.db.rows) {room_token : Token}
    {Q : Room → Serial → Prop}
    (hQ : ∀ room, σ.roomBy (env.hash_token room_token) = some room → Q room σ) :
    Yields (getRoomByToken env room_token) Q σ := by
  refine Ends.getRoomByToken hu (fun room hroom => ?_) fun e => ?_
  · rintro _ ⟨⟩
    exact hQ room hroom
  · rintro a ⟨⟩

/-- `get_room_by_code` answers the room of the code, if any. -/
theorem getRoomByCode (hu : UniqueColumns σ.db.rows) {room_code : String}
    {Q : Option Room → Serial → Prop} (hQ : Q (σ.roomByCode env room_code) σ) :
    Yields (roomRepository.getRoomByCode env room_code) Q σ := by
  refine find ?_ hQ
  intro i j r r' hr hw hr' hw'
  simp only [beq_iff_eq] at hw hw'
  exact hu.room_code i j r r' hr hr' (hw.trans hw'.symm)

/-- `scalar_one_or_none` answers an element of the list, if any. -/
theorem scalarOneOrNone {l : List β} {Q : Option β → Serial → Prop}
    (hQ : ∀ o, (∀ b, o = some b → b ∈ l) → Q o σ) : Yields (scalarOneOrNone l) Q σ := by
  rcases l with _ | ⟨a, _ | ⟨b, l⟩⟩
  · exact pure (hQ none (by rintro b ⟨⟩))
  · refine pure (hQ (some a) ?_)
    rintro b ⟨⟩
    exact List.mem_cons_self
  · exact raise _

/-- What `require_session` finds, whether or not the columns are unique. -/
theorem session {request : Request} {Q : SessionRecord → Serial → Prop}
    (hQ : ∀ s t, roomService.truthy request.session_cookie = some t →
      σ.db.rows .sessions s.id = some s.toSessionRow → s.session_token_hash = env.hash_token t →
        σ.rest.now < s.expires_at → Q s σ) : Yields (requireSession env request) Q σ := by
  unfold requireSession
  cases ht : roomService.truthy request.session_cookie with
  | none => exact raise _
  | some t =>
    refine bind (bind (utcnow (bind (select (scalarOneOrNone fun o ho => ?_)))))
    cases o with
    | none => exact raise _
    | some s =>
      obtain ⟨⟨i, row⟩, hi, rfl⟩ := List.mem_map.1 (ho s rfl)
      obtain ⟨hrow, hw⟩ := Snapshot.mem_select.1 hi
      simp only [Bool.and_eq_true, beq_iff_eq, decide_eq_true_eq] at hw
      exact bind (bind (utcnow (pure (require_bind fun _ => pure (hQ _ t ht hrow hw.1 hw.2)))))

/-- What `get_room_by_token` finds, whether or not the columns are unique. -/
theorem room {room_token : Token} {Q : Room → Serial → Prop}
    (hQ : ∀ room, σ.db.rows .rooms room.id = some room.toRoomRow →
      room.access_token_hash = env.hash_token room_token → Q room σ) :
    Yields (DropRoom.getRoomByToken env room_token) Q σ := by
  refine bind (bind (select (scalarOneOrNone fun o ho => ?_)))
  cases o with
  | none => exact raise _
  | some room =>
    obtain ⟨⟨i, row⟩, hi, rfl⟩ := List.mem_map.1 (ho room rfl)
    obtain ⟨hrow, hw⟩ := Snapshot.mem_select.1 hi
    exact pure (hQ _ hrow (beq_iff_eq.1 hw))

/-- What `require_member` finds, whether or not the columns are unique. -/
theorem member {room_token : Token} {request : Request} {Q : SessionRecord × Room → Serial → Prop}
    (hQ : ∀ session room, After.Member env room_token request σ session room →
      Q (session, room) σ) : Yields (DropRoom.requireMember env room_token request) Q σ := by
  refine bind (session fun s t ht hs hh hlive => bind (room fun r hr ha => ?_))
  exact require_bind fun hid => pure (hQ s r ⟨hs, ⟨t, ht, hh⟩, hlive, hr, ha, hid⟩)

/-- What `require_room_owner` finds, whether or not the columns are unique. -/
theorem owner {room_token : Token} {request : Request} {Q : SessionRecord × Room → Serial → Prop}
    (hQ : ∀ session room, After.Member env room_token request σ session room →
      session.role = .owner → Q (session, room) σ) :
    Yields (DropRoom.requireRoomOwner env room_token request) Q σ := by
  refine bind (session fun s t ht hs hh hlive => bind (room fun r hr ha => ?_))
  refine require_bind fun hid => require_bind fun howner => ?_
  exact pure (hQ s r ⟨hs, ⟨t, ht, hh⟩, hlive, hr, ha, hid⟩ howner)

/-- A request that passes `validate_csrf` has changed nothing. -/
theorem validateCsrf {method : Method} {request : Request} {Q : Unit → Serial → Prop}
    (hQ : Q () σ) : Yields (validateCsrf env method request) Q σ := by
  refine Ends.validateCsrf ?_ fun e => ?_
  · rintro ⟨⟩ -
    exact hQ
  · rintro a ⟨⟩

/-- A request that passes the limiter has changed no row and no object. -/
theorem limiterCheck {scope key : String} {limit : ℕ} {Q : Unit → Serial → Prop}
    (hQ : ∀ σ', σ.Quiet σ' → Q () σ') : Yields (limiterCheck env scope key limit) Q σ :=
  Ends.limiterCheck fun _ σ' hσ' _ _ => hQ σ' hσ'

/-- Flushing a record over the row that it was loaded from. -/
theorem fileFlush {loaded new : FileRecord}
    (hrow : σ.db.rows .files loaded.id = some loaded.toFileRow)
    (hnew : new.toFileRow = { loaded.toFileRow with
      content_type := new.content_type
      size_bytes := new.size_bytes
      total_size_bytes := new.total_size_bytes
      status := new.status }) {Q : Unit → Serial → Prop}
    (h : Q () { σ with db := σ.db.set .files loaded.id (some new.toFileRow) }) :
    Yields (fileRepository.flush loaded new) Q σ := by
  unfold fileRepository.flush
  split
  · next hsame =>
    rw [hsame, Snapshot.set_eq_self hrow] at h
    exact pure h
  · have hset : FileRow.flush loaded.toFileRow new.toFileRow loaded.toFileRow = new.toFileRow := by
      rw [hnew]
      exact FileRow.flush_self _ _
    refine bind (updateAt ?_)
    rw [Snapshot.updateAt_of_some hrow rfl]
    exact require fun _ => (congrArg (fun r => Q () { σ with
      db := σ.db.set .files loaded.id (some r) }) hset).mpr h

/-- The checks at the start of a request. -/
theorem checks {scope : String} {limit : ℕ} {request : Request} {prog : Op α}
    (h : ∀ σ', σ.Quiet σ' → Yields prog Q σ') : Yields (do
      DropRoom.validateCsrf env .post request
      DropRoom.limiterCheck env scope (clientIp request) limit
      prog) Q σ :=
  bind (validateCsrf (bind (limiterCheck fun σ' hσ' => h σ' hσ')))

end Yields

/-! ## Checks -/

section

variable {α β : Type} {env : Env} {σ : Serial} {request : Request} {room_token : Token}

/-- A `SELECT` changes nothing. -/
theorem quiet_select (t : Table) (where_) : (select t where_).Only Cmd.Quiet :=
  (only_issue _).2 trivial

/-- Reading the clock changes nothing. -/
theorem quiet_utcnow : utcnow.Only Cmd.Quiet := (only_issue _).2 trivial

/-- A broadcast changes no row and no object. -/
theorem quiet_broadcast (ch event exclude) : (broadcast ch event exclude).Only Cmd.Quiet := by
  refine (broadcast_tells ch event exclude).mono ?_
  intro c hc
  cases c <;> first | exact hc.elim | trivial

/-- `require_session` only reads. -/
theorem quiet_requireSession : (requireSession env request).Only Cmd.Quiet := by
  unfold requireSession
  split
  · refine only_bind (only_bind quiet_utcnow fun _ => only_bind (quiet_select _ _) fun _ =>
      only_scalarOneOrNone _) fun session => ?_
    split
    · refine only_bind (only_bind quiet_utcnow fun _ => only_pure _) fun _ => ?_
      exact only_bind (only_require _ _) fun _ => only_pure _
    · exact only_raise _
  · exact only_raise _

/-- `get_room_by_token` only reads. -/
theorem quiet_getRoomByToken : (getRoomByToken env room_token).Only Cmd.Quiet := by
  refine only_bind (only_bind (quiet_select _ _) fun _ => only_scalarOneOrNone _) fun room => ?_
  split
  · exact only_pure _
  · exact only_raise _

/-- `require_member` only reads. -/
theorem quiet_requireMember : (requireMember env room_token request).Only Cmd.Quiet :=
  only_bind quiet_requireSession fun _ => only_bind quiet_getRoomByToken fun _ =>
    only_bind (only_require _ _) fun _ => only_pure _

/-- `require_room_owner` only reads. -/
theorem quiet_requireRoomOwner : (requireRoomOwner env room_token request).Only Cmd.Quiet :=
  only_bind quiet_requireSession fun _ => only_bind quiet_getRoomByToken fun _ =>
    only_bind (only_require _ _) fun _ => only_bind (only_require _ _) fun _ => only_pure _

/-- `validate_csrf` only compares. -/
theorem quiet_validateCsrf {method : Method} : (validateCsrf env method request).Only Cmd.Quiet := by
  by_cases hget : method = .get
  · subst hget
    exact only_pure _
  · by_cases h : CsrfValid env request
    · rw [validateCsrf_of_valid h]
      exact only_pure _
    · obtain ⟨detail, hraise⟩ := validateCsrf_of_not h hget
      rw [hraise]
      exact only_raise _

/-- The limiter counts, beside the rows and the objects. -/
theorem quiet_limiterCheck {scope key : String} {limit : ℕ} :
    (limiterCheck env scope key limit).Only Cmd.Quiet := by
  unfold limiterCheck
  split
  · exact only_bind ((only_issue _).2 trivial) fun _ => only_require _ _
  · exact only_pure _

/-- `_pending_session` only reads. -/
theorem quiet_pendingSession {room : Room} {upload_id : ℤ} :
    (uploads.pendingSession room upload_id).Only Cmd.Quiet := by
  unfold uploads.pendingSession fileRepository.getFileById
  refine only_bind ?_ fun found => ?_
  · refine only_bind (quiet_select _ _) fun _ => only_scalarOneOrNone _
  · split
    · exact only_bind (only_require _ _) fun _ => only_pure _
    · exact only_raise _

/-- A check that changes neither the rows nor the objects, with what it finds out. -/
theorem Ends.check_bind {p : Op β} {f : β → Op α} {Q : Except Err α → Serial → Prop}
    {I : β → Prop} (hp : p.Only Cmd.Quiet) (hI : Yields p (fun b _ => I b) σ)
    (hok : ∀ b σ', I b → σ.Quiet σ' → Ends (f b) Q σ')
    (herr : ∀ e σ', σ.Quiet σ' → Q (.error e) σ') : Ends (p >>= f) Q σ := by
  refine Ends.bind ((Ends.and hI (Ends.quiet hp fun _ _ h => h)).mono ?_)
  rintro (e | b) σ' ⟨hb, hσ'⟩
  · exact herr e σ' hσ'
  · exact hok b σ' (hb b rfl) hσ'

end

/-! ## What is committed -/

/-- The rows that are committed. -/
abbrev Books : Type := (t : Table) → ℕ → Option (Row t)

/-- The program leaves what was committed in `old`, or it commits, to end in `P`. -/
def Posts {α : Type} (old : Books) (P : Serial → Prop) (prog : Op α) (σ : Serial) : Prop :=
  Ends prog (fun _ σ' => σ'.db.saved = old ∨ P σ') σ

namespace Posts

variable {α β : Type} {env : Env} {K : List Kind} {old : Books} {P : Serial → Prop} {σ : Serial}

/-- A program whose first part commits nothing. -/
theorem bind {p : Op β} {f : β → Op α} (hp : p.Only (Issued env K)) (hK : Kind.commit ∉ K)
    (hσ : σ.db.saved = old)
    (h : Yields p (fun b σ' => σ'.db.saved = old → Posts old P (f b) σ') σ) :
    Posts old P (p >>= f) σ := by
  have hunsaved : Ends p (fun _ σ' => σ'.db.saved = old) σ :=
    Ends.unsaved hp hK fun _ _ hsaved => hsaved.trans hσ
  refine Ends.bind ((Ends.and h hunsaved).mono ?_)
  rintro (e | b) σ' ⟨hb, hσ'⟩
  · exact .inl hσ'
  · exact hb b rfl hσ'

/-- A `COMMIT` with a program behind it that changes no row and no object. -/
theorem commit_bind {f : Unit → Op α} (hf : (f ()).Only Cmd.Quiet) (hσ : σ.db.saved = old)
    (h : ∀ σ', Serial.Quiet { σ with db := σ.db.commit } σ' → P σ') :
    Posts old P (commit >>= f) σ :=
  Ends.bind (Ends.issue_of_exec rfl (Ends.quiet hf fun _ σ' hσ' => .inr (h σ' hσ')) fun _ => .inl hσ)

end Posts

end DropRoom
