import DropRoom.App.Tasks

/-!
# The checks of a request

What the dependencies of an endpoint answer, as functions of the request and of what it sees
(`CsrfValid`, `Serial.member`), and the rules for programs in which any command may fail: `Ends` is
what every run of a program ends in, whatever fails in it, where `After` is the run in which nothing
does.
-/

namespace DropRoom

open Effect Store Prog

/-! ## Programs in which any command may fail -/

/-- A run in which nothing fails is a run of the server. -/
theorem server_of_calm {α : Type} {p : ℕ} {prog : Op α} {w w' : World} {r : Except Err α}
    (h : calm.Runs p prog w r w') : server.Runs p prog w r w' := by
  induction h with
  | ret a w => exact .ret a w
  | raise e w => exact .raise e w
  | call ha _ ih =>
    cases ha with
    | exec hx => exact .call (.exec hx) ih
    | fault hf => exact hf.elim

/-- Every run of the program from `σ`, whatever commands fail in it, ends in `Q`. -/
def Ends {α : Type} (prog : Op α) (Q : Except Err α → Serial → Prop) (σ : Serial) : Prop :=
  prog.wp ((Serial.machine server).trans 0) Q σ

namespace Ends

variable {α β : Type} {σ : Serial} {Q : Except Err α → Serial → Prop}

/-- Every run of the program on a world in which it is alone ends in `Q`. -/
theorem of_runs {p : ℕ} {w w' : World} {prog : Op α} {r : Except Err α}
    (h : Ends prog Q (.of p w)) (hr : server.Runs p prog w r w') (hw : w.db.Alone p) :
    Q r (.of p w') :=
  ((Serial.machine server).wp_iff_runs 0 prog Q _).1 h _ _ (runs_serial server_faithful hr hw).1

/-- What every run ends in, the run in which nothing fails does. -/
theorem after {prog : Op α} (h : Ends prog Q σ) : After prog Q σ := by
  refine ((Serial.machine calm).wp_iff_runs 0 prog Q σ).2 fun r σ' hr => ?_
  refine ((Serial.machine server).wp_iff_runs 0 prog Q σ).1 h r σ' ?_
  clear h
  induction hr with
  | ret a σ => exact .ret a σ
  | raise e σ => exact .raise e σ
  | call ha _ ih =>
    cases ha with
    | exec hx => exact .call (.exec hx) ih
    | fault hf => exact hf.elim

/-- A weaker postcondition. -/
theorem mono {prog : Op α} {Q' : Except Err α → Serial → Prop} (h : Ends prog Q σ)
    (hQ : ∀ r σ', Q r σ' → Q' r σ') : Ends prog Q' σ :=
  Prog.wp_mono (Machine.trans_monotone _ _) hQ h

/-- Two postconditions. -/
theorem and {prog : Op α} {Q' : Except Err α → Serial → Prop} (h : Ends prog Q σ)
    (h' : Ends prog Q' σ) : Ends prog (fun r σ' => Q r σ' ∧ Q' r σ') σ := by
  unfold Ends at h h' ⊢
  rw [(Serial.machine server).wp_iff_runs] at h h' ⊢
  exact fun r σ' hr => ⟨h r σ' hr, h' r σ' hr⟩

/-- One program after the other, as long as nothing is raised. -/
theorem bind {p : Op β} {f : β → Op α} (h : Ends p (fun x σ' => match x with
    | .ok a => Ends (f a) Q σ'
    | .error e => Q (.error e) σ') σ) : Ends (p >>= f) Q σ := by
  refine (Prog.wp_bind _ _ _ _).2 (h.mono ?_)
  rintro (e | a) σ' h
  · exact h
  · exact h

/-- A handler goes on where the program has raised. -/
theorem tryCatch {p : Op α} {f : Err → Op α} (h : Ends p (fun x σ' => match x with
    | .ok a => Q (.ok a) σ'
    | .error e => Ends (f e) Q σ') σ) : Ends (p.tryCatch f) Q σ := by
  refine (Prog.wp_tryCatch _ _ _ _).2 (h.mono ?_)
  rintro (e | a) σ' h
  · exact h
  · exact h

/-- The result may be changed. -/
theorem map {f : β → α} {p : Op β} (h : Ends p (fun x σ' => Q (x.map f) σ') σ) :
    Ends (f <$> p) Q σ :=
  (Prog.wp_map _ _ _ _).2 h

/-- A check passes, or raises. -/
theorem require {b : Prop} [Decidable b] {e : Err} {Q : Except Err Unit → Serial → Prop}
    (hok : b → Q (.ok ()) σ) (herr : ¬b → Q (.error e) σ) : Ends (Prog.require b e) Q σ :=
  (Prog.wp_require _ _ _ _).2 ⟨hok, herr⟩

/-- A check that is followed by a program. -/
theorem require_bind {b : Prop} [Decidable b] {e : Err} {f : Unit → Op α}
    (hok : b → Ends (f ()) Q σ) (herr : ¬b → Q (.error e) σ) :
    Ends (Prog.require b e >>= f) Q σ :=
  (Prog.wp_require_bind _ _ _ _ _).2 ⟨hok, herr⟩

/-- A command is executed or fails. -/
theorem issue {c : Cmd} {Q : Except Err (Resp c) → Serial → Prop}
    (hexec : ∀ x σ', Serial.exec c σ = some (x, σ') → Q x σ')
    (hfault : ∀ e, c.Raises e → Q (.error e) σ) : Ends (issue c) Q σ := by
  refine (wp_issue (Machine.trans_monotone _ _) _ _ _).2 fun x σ' ha => ?_
  cases ha with
  | exec hx => exact hexec x σ' hx
  | fault hf => exact hfault _ hf

/-- A command that is executed to `x` and `σ₁`, or fails. -/
theorem issue_of_exec {c : Cmd} {Q : Except Err (Resp c) → Serial → Prop} {x σ₁}
    (hx : Serial.exec c σ = some (x, σ₁)) (hok : Q x σ₁) (herr : ∀ e, Q (.error e) σ) :
    Ends (DropRoom.issue c) Q σ := by
  refine issue (fun x' σ' hx' => ?_) fun e _ => herr e
  rw [hx] at hx'
  cases hx'
  exact hok

/-- A `SELECT` answers what the transaction sees, or fails. -/
theorem select {t : Table} {where_} {Q : Except Err (List (ℕ × Row t)) → Serial → Prop}
    (hok : Q (.ok (σ.db.select t where_)) σ) (herr : ∀ e, Q (.error e) σ) :
    Ends (select t where_) Q σ :=
  issue_of_exec rfl hok herr

/-- The clock does not fail. -/
theorem utcnow {Q : Except Err Time → Serial → Prop} (hok : Q (.ok σ.rest.now) σ) :
    Ends utcnow Q σ := by
  refine issue (fun x σ' hx => ?_) fun e he => he.elim
  cases hx
  exact hok

/-- A program with its own database session loses what it has not committed. -/
theorem withSession {body : Op α}
    (h : Ends body (fun r σ' => Q r { σ' with db := σ'.db.rollback }) σ) :
    Ends (withSession body) Q σ := by
  refine wp_withSession (Machine.trans_monotone _ _) (h.mono ?_)
  intro r σ' hr x σ'' ha
  cases ha with
  | exec hx =>
    cases hx
    rcases r with e | a
    · exact hr
    · exact hr
  | fault hf => exact hf.elim

/-- A program whose commands all keep `I`. -/
theorem only {prog : Op α} {P : Cmd → Prop} (h : prog.Only P) {I : Serial → Prop}
    (hI : ∀ c σ₁ x σ₂, P c → Serial.exec c σ₁ = some (x, σ₂) → I σ₁ → I σ₂) (hσ : I σ)
    (hQ : ∀ r σ', I σ' → Q r σ') : Ends prog Q σ := by
  refine ((Serial.machine server).wp_iff_runs 0 prog Q σ).2 fun r σ' hr => hQ r σ' ?_
  refine hr.only (P := P) (I := I) (fun c σ₁ x σ₂ hc ha hσ₁ => ?_) h hσ
  cases ha with
  | exec hx => exact hI c σ₁ x σ₂ hc hx hσ₁
  | fault hf => exact hσ₁

/-- A program that only reads, counts requests and sends messages. -/
theorem quiet {prog : Op α} (h : prog.Only Cmd.Quiet) (hQ : ∀ r σ', σ.Quiet σ' → Q r σ') :
    Ends prog Q σ :=
  only h (fun _ _ _ _ hc hx hσ => hσ.trans (hc.exec hx)) (.refl σ) hQ

/-- A program that commits nothing leaves what is committed alone. -/
theorem unsaved {env : Env} {K : List Kind} {prog : Op α} (h : prog.Only (Issued env K))
    (hK : Kind.commit ∉ K) (hQ : ∀ r σ', σ'.db.saved = σ.db.saved → Q r σ') : Ends prog Q σ := by
  refine only h (fun c σ₁ x σ₂ hc hx hσ₁ => (Serial.saved_exec ?_ hx).trans hσ₁) rfl hQ
  rintro rfl
  cases hc with | commit hk => exact hK hk

/-- A program that changes no object leaves the storage alone. -/
theorem unstored {env : Env} {K : List Kind} {prog : Op α} (h : prog.Only (Issued env K))
    (hput : Kind.put ∉ K) (hdelete : Kind.deleteObject ∉ K)
    (hQ : ∀ r σ', σ'.rest.storage = σ.rest.storage → Q r σ') : Ends prog Q σ := by
  refine only h (fun c σ₁ x σ₂ hc hx hσ₁ => (Serial.storage_exec ?_ hx).trans hσ₁) rfl hQ
  intro hc'
  cases hc with
  | put hk => exact hput hk
  | deleteObject hk => exact hdelete hk
  | _ => exact hc'

/-- A program that only reads changes neither the database nor the storage. -/
theorem reads {env : Env} {prog : Op α} (h : prog.Only (Issued env []))
    (hQ : ∀ r σ', σ'.db = σ.db → σ'.rest.storage = σ.rest.storage → Q r σ') : Ends prog Q σ := by
  refine only h (I := fun σ' => σ'.db = σ.db ∧ σ'.rest.storage = σ.rest.storage) ?_ ⟨rfl, rfl⟩
    fun r σ' hσ' => hQ r σ' hσ'.1 hσ'.2
  intro c σ₁ x σ₂ hc hx hσ₁
  by_cases hquiet : c.Quiet
  · obtain ⟨_, _, _, rfl⟩ := hquiet.exec hx
    exact hσ₁
  · cases hc with
    | _ =>
      first
      | exact absurd ‹_ ∈ ([] : List Kind)› (by decide)
      | exact absurd trivial hquiet
      | cases hx; exact hσ₁

/-- `limiter.check` admits a request or not. -/
theorem limiterCheck {env : Env} {scope key limit} {Q : Except Err Unit → Serial → Prop}
    (hQ : ∀ r σ', σ.Quiet σ' → Q r σ') : Ends (limiterCheck env scope key limit) Q σ := by
  refine quiet ?_ hQ
  unfold DropRoom.limiterCheck
  split
  · exact only_bind ((only_issue _).2 trivial) fun _ => only_require _ _
  · exact only_pure _

/-- A loop whose body never fails and keeps `I`. -/
theorem forM {ι : Type} {f : ι → Op PUnit} {I : Serial → Prop} (l : List ι)
    (hf : ∀ i ∈ l, ∀ σ, I σ → Ends (f i) (fun r σ' => r = .ok ⟨⟩ ∧ I σ') σ) (hI : I σ) :
    Ends (l.forM f) (fun r σ' => r = .ok ⟨⟩ ∧ I σ') σ := by
  induction l generalizing σ with
  | nil => exact ⟨rfl, hI⟩
  | cons i l ih =>
    refine bind ((hf i List.mem_cons_self σ hI).mono ?_)
    rintro r σ' ⟨rfl, hI'⟩
    exact ih (fun j hj => hf j (List.mem_cons_of_mem _ hj)) hI'

/-- `manager.broadcast` never fails, whatever sockets cannot be reached. -/
theorem broadcast {ch event exclude} {Q : Except Err Unit → Serial → Prop}
    (hQ : ∀ σ', σ.Quiet σ' → Q (.ok ()) σ') : Ends (broadcast ch event exclude) Q σ := by
  suffices h : Ends (DropRoom.broadcast ch event exclude) (fun r σ' => r = .ok () ∧ σ.Quiet σ') σ by
    refine h.mono ?_
    rintro r σ' ⟨rfl, hσ⟩
    exact hQ σ' hσ
  have hsend : ∀ ws σ', σ.Quiet σ' → Ends ((sendJson ws event).tryCatch fun _ => pure ())
      (fun r σ'' => r = .ok () ∧ σ.Quiet σ'') σ' := by
    intro ws σ' hσ
    refine tryCatch (issue (fun x σ'' hx => ?_) fun e _ => ⟨rfl, hσ⟩)
    have hsent : (Cmd.sendJson ws event).Quiet := trivial
    cases x with
    | ok u => exact ⟨rfl, hσ.trans (hsent.exec hx)⟩
    | error e => exact ⟨rfl, hσ.trans (hsent.exec hx)⟩
  unfold DropRoom.broadcast
  refine bind (issue (fun x σ₁ hx => ?_) fun e he => he.elim)
  cases hx
  refine forM _ (fun item _ σ' hσ => ?_) ⟨_, _, _, rfl⟩
  split
  · exact ⟨rfl, hσ⟩
  · refine bind (issue (fun x σ'' hx => ?_) fun e he => he.elim)
    cases hx
    exact forM _ (fun ws _ σ' hσ => hsend ws σ' hσ) hσ

end Ends

/-! ## The CSRF token -/

/-- The request carries a signed CSRF cookie, and the same value in its header. -/
def CsrfValid (env : Env) (request : Request) : Prop :=
  ∃ token, roomService.truthy request.csrf_cookie = some token ∧
    roomService.truthy request.x_csrf_token = some token ∧ env.verify_csrf_token token = true

section

variable {env : Env} {request : Request}

/-- A request with the right header passes, whatever its method. -/
theorem validateCsrf_of_valid (h : CsrfValid env request) (method : Method) :
    validateCsrf env method request = pure () := by
  obtain ⟨token, hcookie, hheader, hsigned⟩ := h
  cases method with
  | get => rfl
  | _ =>
    simp only [validateCsrf, hcookie, hheader, Prog.require_pos hsigned, Prog.require_pos]
    rfl

/-- Any other request is refused, unless it is a GET. -/
theorem validateCsrf_of_not (h : ¬CsrfValid env request) {method : Method} (hm : method ≠ .get) :
    ∃ detail, validateCsrf env method request = .raise (error .csrfValidationFailed detail) := by
  cases method with
  | get => exact absurd rfl hm
  | _ =>
    simp only [validateCsrf]
    cases hcookie : roomService.truthy request.csrf_cookie with
    | none => exact ⟨"CSRF token missing", rfl⟩
    | some cookie =>
      cases hheader : roomService.truthy request.x_csrf_token with
      | none => exact ⟨"CSRF token missing", rfl⟩
      | some header =>
        by_cases hsigned : env.verify_csrf_token cookie = true
        · by_cases hsame : cookie = header
          · subst hsame
            exact absurd ⟨cookie, hcookie, hheader, hsigned⟩ h
          · refine ⟨"CSRF header does not match cookie", ?_⟩
            simp only [Prog.require_pos hsigned, Prog.require_neg hsame]
            rfl
        · refine ⟨"CSRF cookie is not valid", ?_⟩
          simp only [Prog.require_neg hsigned]
          rfl

/-- `validate_csrf` lets a request pass or refuses it. -/
theorem Ends.validateCsrf {method : Method} {σ : Serial} {Q : Except Err Unit → Serial → Prop}
    (hok : Q (.ok ()) σ) (herr : ∀ e, Q (.error e) σ) :
    Ends (DropRoom.validateCsrf env method request) Q σ := by
  cases method with
  | get => exact hok
  | _ =>
    unfold DropRoom.validateCsrf
    dsimp only
    split
    · exact .require_bind (fun _ => .require (fun _ => hok) fun _ => herr _) fun _ => herr _
    · exact herr _

end

/-! ## Looking up one row -/

/-- The first row that a `SELECT` returns. -/
def Serial.find (σ : Serial) (t : Table) (where_ : ℕ → Row t → Bool) : Option (ℕ × Row t) :=
  (σ.db.select t where_).head?

/-- At most one row that the transaction sees satisfies the condition. -/
def Serial.Single (σ : Serial) (t : Table) (where_ : ℕ → Row t → Bool) : Prop :=
  ∀ i j r r', σ.db.rows t i = some r → where_ i r = true → σ.db.rows t j = some r' →
    where_ j r' = true → i = j

section

variable {α : Type} {σ : Serial} {t : Table} {where_ : ℕ → Row t → Bool}

/-- What is found is there. -/
theorem Serial.of_find {i : ℕ} {r : Row t} (h : σ.find t where_ = some (i, r)) :
    σ.db.rows t i = some r ∧ where_ i r = true :=
  Snapshot.mem_select.1 (List.mem_of_mem_head? h)

/-- A row that is there is found. -/
theorem Serial.find_of_single (h : σ.Single t where_) {i : ℕ} {r : Row t}
    (hr : σ.db.rows t i = some r) (hw : where_ i r = true) : σ.find t where_ = some (i, r) := by
  have hmem := Snapshot.mem_select.2 ⟨hr, hw⟩
  rw [Serial.find]
  rcases Snapshot.select_cases h with hnil | ⟨x, hx⟩
  · rw [hnil] at hmem
    cases hmem
  · rw [hx] at hmem ⊢
    rw [List.mem_singleton.1 hmem]
    rfl

/-- Where at most one row matches, `scalar_one_or_none` answers the row that is found. -/
theorem After.find_iff (h : σ.Single t where_) (f : ℕ × Row t → α)
    (Q : Except Err (Option α) → Serial → Prop) :
    After (do
      let rows ← DropRoom.select t where_
      DropRoom.scalarOneOrNone (rows.map f)) Q σ ↔ Q (.ok ((σ.find t where_).map f)) σ := by
  refine (After.bind_iff _ _ _).trans ((After.select_iff _ _ _).trans ?_)
  rw [Serial.find]
  rcases Snapshot.select_cases h with hnil | ⟨x, hx⟩
  · rw [hnil]
    exact Iff.rfl
  · rw [hx]
    exact Iff.rfl

/-- A lookup by a column that tells the rows apart, which may fail. -/
theorem Ends.find (h : σ.Single t where_) (f : ℕ × Row t → α)
    {Q : Except Err (Option α) → Serial → Prop} (hok : Q (.ok ((σ.find t where_).map f)) σ)
    (herr : ∀ e, Q (.error e) σ) : Ends (do
      let rows ← DropRoom.select t where_
      DropRoom.scalarOneOrNone (rows.map f)) Q σ := by
  refine .bind (.select ?_ herr)
  rw [Serial.find] at hok
  rcases Snapshot.select_cases h with hnil | ⟨x, hx⟩
  · rw [hnil] at hok ⊢
    exact hok
  · rw [hx] at hok ⊢
    exact hok

end

/-- No two rows share a value of a unique column. -/
structure UniqueColumns (rows : (t : Table) → ℕ → Option (Row t)) : Prop where
  room_code : ∀ i j r r', rows .rooms i = some r → rows .rooms j = some r' →
    r.room_code = r'.room_code → i = j
  access_token_hash : ∀ i j r r', rows .rooms i = some r → rows .rooms j = some r' →
    r.access_token_hash = r'.access_token_hash → i = j
  session_token_hash : ∀ i j r r', rows .sessions i = some r → rows .sessions j = some r' →
    r.session_token_hash = r'.session_token_hash → i = j

/-- A column whose values are not repeated tells the rows apart. -/
theorem eq_of_nodup_column {α β : Type} {rows : List α} {column : α → β}
    (h : (rows.map column).Nodup) {i j : ℕ} {r r' : α} (hr : rows[i]? = some r)
    (hr' : rows[j]? = some r') (heq : column r = column r') : i = j := by
  have hlt : i < (rows.map column).length := by
    rw [List.length_map]
    exact (List.getElem?_eq_some_iff.1 hr).1
  refine (List.getElem?_inj hlt h).1 ?_
  rw [List.getElem?_map, List.getElem?_map, hr, hr', Option.map_some, Option.map_some, heq]

/-- The unique columns of a server that holds some rooms and sessions. -/
theorem World.holding_unique {rooms : List RoomRow} {sessions : List SessionRow}
    {files : List FileRow} (hcodes : (rooms.map RoomRow.room_code).Nodup)
    (haccess : (rooms.map RoomRow.access_token_hash).Nodup)
    (htokens : (sessions.map SessionRow.session_token_hash).Nodup) :
    UniqueColumns (World.holding rooms sessions files).db.committed := by
  have hrooms : ∀ i, (World.holding rooms sessions files).db.committed .rooms i = rooms[i]? :=
    committed_of_committedRows rfl
  have hsessions : ∀ i,
      (World.holding rooms sessions files).db.committed .sessions i = sessions[i]? :=
    committed_of_committedRows rfl
  constructor
  · intro i j r r' hr hr'
    exact eq_of_nodup_column hcodes (hrooms i ▸ hr) (hrooms j ▸ hr')
  · intro i j r r' hr hr'
    exact eq_of_nodup_column haccess (hrooms i ▸ hr) (hrooms j ▸ hr')
  · intro i j r r' hr hr'
    exact eq_of_nodup_column htokens (hsessions i ▸ hr) (hsessions j ▸ hr')

/-- The live session with a token hash. -/
def Serial.sessionBy (σ : Serial) (h : TokenHash) : Option SessionRecord :=
  (σ.find .sessions fun _ r => r.session_token_hash == h && decide (σ.rest.now < r.expires_at)).map
    toSession

/-- The room with the hash of an access token. -/
def Serial.roomBy (σ : Serial) (h : TokenHash) : Option Room :=
  (σ.find .rooms fun _ r => r.access_token_hash == h).map toRoom

/-- The room with a code. -/
def Serial.roomByCode (env : Env) (σ : Serial) (room_code : String) : Option Room :=
  (σ.find .rooms fun _ r => r.room_code == strip (env.upper room_code)).map toRoom

section

variable {env : Env} {σ : Serial}

/-- `get_by_token_hash` answers the session of the hash. -/
theorem After.getByTokenHash_iff (hu : UniqueColumns σ.db.rows) (h : TokenHash)
    (Q : Except Err (Option SessionRecord) → Serial → Prop) :
    After (sessionRepository.getByTokenHash h) Q σ ↔ Q (.ok (σ.sessionBy h)) σ := by
  refine (After.bind_iff _ _ _).trans ((After.utcnow_iff _).trans (After.find_iff ?_ _ _))
  intro i j r r' hr hw hr' hw'
  simp only [Bool.and_eq_true, beq_iff_eq] at hw hw'
  exact hu.session_token_hash i j r r' hr hr' (hw.1.trans hw'.1.symm)

/-- `get_room_by_access_token` answers the room of the token. -/
theorem After.getRoomByAccessToken_iff (hu : UniqueColumns σ.db.rows) (token : Token)
    (Q : Except Err (Option Room) → Serial → Prop) :
    After (roomRepository.getRoomByAccessToken env token) Q σ ↔
      Q (.ok (σ.roomBy (env.hash_token token))) σ := by
  refine After.find_iff (fun i j r r' hr hw hr' hw' => ?_) _ _
  simp only [beq_iff_eq] at hw hw'
  exact hu.access_token_hash i j r r' hr hr' (hw.trans hw'.symm)

/-- `get_room_by_code` answers the room of the code. -/
theorem After.getRoomByCode_iff (hu : UniqueColumns σ.db.rows) (room_code : String)
    (Q : Except Err (Option Room) → Serial → Prop) :
    After (roomRepository.getRoomByCode env room_code) Q σ ↔
      Q (.ok (σ.roomByCode env room_code)) σ := by
  refine After.find_iff (fun i j r r' hr hw hr' hw' => ?_) _ _
  simp only [beq_iff_eq] at hw hw'
  exact hu.room_code i j r r' hr hr' (hw.trans hw'.symm)

/-- A session that is found is live. -/
theorem Serial.of_sessionBy {h : TokenHash} {s : SessionRecord} (hs : σ.sessionBy h = some s) :
    σ.db.rows .sessions s.id = some s.toSessionRow ∧ s.session_token_hash = h ∧
      σ.rest.now < s.expires_at := by
  obtain ⟨⟨i, r⟩, hfind, rfl⟩ := Option.map_eq_some_iff.1 hs
  obtain ⟨hr, hw⟩ := Serial.of_find hfind
  simp only [Bool.and_eq_true, beq_iff_eq, decide_eq_true_eq] at hw
  exact ⟨hr, hw.1, hw.2⟩

/-- The room of a hash is a row with that hash. -/
theorem Serial.of_roomBy {h : TokenHash} {room : Room} (hroom : σ.roomBy h = some room) :
    σ.db.rows .rooms room.id = some room.toRoomRow ∧ room.access_token_hash = h := by
  obtain ⟨⟨i, r⟩, hfind, rfl⟩ := Option.map_eq_some_iff.1 hroom
  obtain ⟨hr, hw⟩ := Serial.of_find hfind
  exact ⟨hr, beq_iff_eq.1 hw⟩

/-- The room of a code is a row with that code. -/
theorem Serial.of_roomByCode {room_code : String} {room : Room}
    (hroom : σ.roomByCode env room_code = some room) :
    σ.db.rows .rooms room.id = some room.toRoomRow ∧
      room.room_code = strip (env.upper room_code) := by
  obtain ⟨⟨i, r⟩, hfind, rfl⟩ := Option.map_eq_some_iff.1 hroom
  obtain ⟨hr, hw⟩ := Serial.of_find hfind
  exact ⟨hr, beq_iff_eq.1 hw⟩

end

/-! ## Members -/

/-- What `require_session` answers. -/
def Serial.session (env : Env) (request : Request) (σ : Serial) : Except Err SessionRecord :=
  match roomService.truthy request.session_cookie with
  | some token => match σ.sessionBy (env.hash_token token) with
    | some session => .ok session
    | none => .error (error .notAuthenticated "")
  | none => .error (error .notAuthenticated "")

/-- What `require_member` answers. -/
def Serial.member (env : Env) (room_token : Token) (request : Request) (σ : Serial) :
    Except Err (SessionRecord × Room) :=
  match σ.session env request with
  | .ok session => match σ.roomBy (env.hash_token room_token) with
    | some room =>
      if session.room_id = room.id then .ok (session, room)
      else .error (error .permissionDenied "You are not a member of this room")
    | none => .error (error .roomNotFound "")
  | .error e => .error e

section

variable {env : Env} {σ : Serial} {request : Request} {room_token : Token}

/-- `require_session` answers the session of the request, or raises. -/
theorem After.requireSession_iff (hu : UniqueColumns σ.db.rows)
    (Q : Except Err SessionRecord → Serial → Prop) :
    After (requireSession env request) Q σ ↔ Q (σ.session env request) σ := by
  unfold requireSession Serial.session
  cases roomService.truthy request.session_cookie with
  | none => exact Iff.rfl
  | some token =>
    refine (After.bind_iff _ _ _).trans ((After.getByTokenHash_iff hu _ _).trans ?_)
    dsimp only
    cases hs : σ.sessionBy (env.hash_token token) with
    | none => exact Iff.rfl
    | some s =>
      have hlive : decide (s.expires_at ≤ σ.rest.now) = false := by
        have hnow := (Serial.of_sessionBy hs).2.2
        simpa using hnow
      simp only [After.bind_iff, hasExpired, After.utcnow_iff, After.pure_iff, hlive,
        After.require_iff]
      simp

/-- `get_room_by_token` answers the room of the token, or raises. -/
theorem After.getRoomByToken_iff (hu : UniqueColumns σ.db.rows)
    (Q : Except Err Room → Serial → Prop) :
    After (DropRoom.getRoomByToken env room_token) Q σ ↔
      Q (match σ.roomBy (env.hash_token room_token) with
        | some room => .ok room
        | none => .error (error .roomNotFound "")) σ := by
  refine (After.bind_iff _ _ _).trans ((After.getRoomByAccessToken_iff hu _ _).trans ?_)
  cases σ.roomBy (env.hash_token room_token) <;> exact Iff.rfl

/-- `require_member` answers the session and the room of the request, or raises. -/
theorem After.requireMember_iff (hu : UniqueColumns σ.db.rows)
    (Q : Except Err (SessionRecord × Room) → Serial → Prop) :
    After (DropRoom.requireMember env room_token request) Q σ ↔
      Q (σ.member env room_token request) σ := by
  unfold Serial.member
  refine (After.bind_iff _ _ _).trans ((After.requireSession_iff hu _).trans ?_)
  cases σ.session env request with
  | error e => exact Iff.rfl
  | ok session =>
    refine (After.bind_iff _ _ _).trans ((After.getRoomByToken_iff hu _).trans ?_)
    cases σ.roomBy (env.hash_token room_token) with
    | none => exact Iff.rfl
    | some room =>
      refine (After.require_bind_iff _ _ _).trans ?_
      by_cases hid : session.room_id = room.id
      · simp [hid]
      · simp [hid]

/-- `require_session` answers as it should, or a statement fails. -/
theorem Ends.requireSession (hu : UniqueColumns σ.db.rows)
    {Q : Except Err SessionRecord → Serial → Prop}
    (hok : ∀ session, σ.session env request = .ok session → Q (.ok session) σ)
    (herr : ∀ e, Q (.error e) σ) : Ends (DropRoom.requireSession env request) Q σ := by
  unfold DropRoom.requireSession
  unfold Serial.session at hok
  cases ht : roomService.truthy request.session_cookie with
  | none => exact herr _
  | some token =>
    simp only [ht] at hok
    dsimp only
    refine .bind (.bind (.utcnow (.find ?_ _ ?_ herr)))
    · intro i j r r' hr hw hr' hw'
      simp only [Bool.and_eq_true, beq_iff_eq] at hw hw'
      exact hu.session_token_hash i j r r' hr hr' (hw.1.trans hw'.1.symm)
    cases hs : σ.sessionBy (env.hash_token token) with
    | none =>
      rw [Serial.sessionBy] at hs
      rw [hs]
      exact herr _
    | some session =>
      simp only [hs] at hok
      rw [Serial.sessionBy] at hs
      rw [hs]
      refine .bind (.bind (.utcnow ?_))
      exact .require_bind (fun _ => hok session rfl) fun _ => herr _

/-- `get_room_by_token` answers as it should, or the statement fails. -/
theorem Ends.getRoomByToken (hu : UniqueColumns σ.db.rows) {Q : Except Err Room → Serial → Prop}
    (hok : ∀ room, σ.roomBy (env.hash_token room_token) = some room → Q (.ok room) σ)
    (herr : ∀ e, Q (.error e) σ) : Ends (DropRoom.getRoomByToken env room_token) Q σ := by
  refine .bind (.find ?_ _ ?_ herr)
  · intro i j r r' hr hw hr' hw'
    simp only [beq_iff_eq] at hw hw'
    exact hu.access_token_hash i j r r' hr hr' (hw.trans hw'.symm)
  cases hroom : σ.roomBy (env.hash_token room_token) with
  | none =>
    rw [Serial.roomBy] at hroom
    rw [hroom]
    exact herr _
  | some room =>
    have hroom' := hroom
    rw [Serial.roomBy] at hroom'
    rw [hroom']
    exact hok room hroom

/-- `require_member` answers as it should, or a statement fails. -/
theorem Ends.requireMember (hu : UniqueColumns σ.db.rows)
    {Q : Except Err (SessionRecord × Room) → Serial → Prop}
    (hok : ∀ session room, σ.member env room_token request = .ok (session, room) →
      Q (.ok (session, room)) σ) (herr : ∀ e, Q (.error e) σ) :
    Ends (DropRoom.requireMember env room_token request) Q σ := by
  unfold Serial.member at hok
  refine .bind (.requireSession hu (fun session hsession => ?_) herr)
  refine .bind (.getRoomByToken hu (fun room hroom => ?_) herr)
  refine .require_bind (fun hid => hok session room ?_) fun _ => herr _
  simp only [hsession, hroom, if_pos hid]

/-- `require_room_owner` answers an owner, or a statement fails. -/
theorem Ends.requireRoomOwner (hu : UniqueColumns σ.db.rows)
    {Q : Except Err (SessionRecord × Room) → Serial → Prop}
    (hok : ∀ session room, σ.member env room_token request = .ok (session, room) →
      session.role = .owner → Q (.ok (session, room)) σ) (herr : ∀ e, Q (.error e) σ) :
    Ends (DropRoom.requireRoomOwner env room_token request) Q σ := by
  unfold Serial.member at hok
  refine .bind (.requireSession hu (fun session hsession => ?_) herr)
  refine .bind (.getRoomByToken hu (fun room hroom => ?_) herr)
  refine .require_bind (fun hid => ?_) fun _ => herr _
  refine .require_bind (fun howner => hok session room ?_ howner) fun _ => herr _
  simp only [hsession, hroom, if_pos hid]

/-- A member is one that the checks of a request find. -/
theorem Serial.of_member {session : SessionRecord} {room : Room}
    (h : σ.member env room_token request = .ok (session, room)) :
    After.Member env room_token request σ session room := by
  unfold Serial.member Serial.session at h
  cases ht : roomService.truthy request.session_cookie with
  | none => simp [ht] at h
  | some token =>
    cases hs : σ.sessionBy (env.hash_token token) with
    | none => simp [ht, hs] at h
    | some s =>
      cases hr : σ.roomBy (env.hash_token room_token) with
      | none => simp [ht, hs, hr] at h
      | some r =>
        simp only [ht, hs, hr] at h
        split_ifs at h with hid
        cases h
        obtain ⟨hrow, hhash, hlive⟩ := Serial.of_sessionBy hs
        obtain ⟨hroom, haccess⟩ := Serial.of_roomBy hr
        exact ⟨hrow, ⟨token, ht, hhash⟩, hlive, hroom, haccess, hid⟩

end

/-! ## The limiter -/

/-- The limiter admits a request. -/
def Serial.Admits (env : Env) (scope key : String) (limit : ℕ) (σ : Serial) : Prop :=
  env.rate_limit_enabled = true → (σ.rest.buckets.check scope key limit
    (seconds env.rate_limit_window_seconds) σ.rest.monotonic).1 = true

section

variable {env : Env} {σ : Serial} {scope key : String} {limit : ℕ}

/-- What the limiter answers a request. -/
theorem Ends.limiter {Q : Except Err Unit → Serial → Prop}
    (hok : σ.Admits env scope key limit → ∀ σ', σ.Quiet σ' → Q (.ok ()) σ')
    (herr : ∀ e σ', σ.Quiet σ' → Q (.error e) σ') :
    Ends (DropRoom.limiterCheck env scope key limit) Q σ := by
  unfold DropRoom.limiterCheck
  by_cases hon : env.rate_limit_enabled = true
  · rw [if_pos hon]
    refine .bind (.issue (fun x σ' hx => ?_) fun e he => he.elim)
    obtain ⟨y, hy⟩ : ∃ y, σ.rest.buckets.check scope key limit
        (seconds env.rate_limit_window_seconds) σ.rest.monotonic = y := ⟨_, rfl⟩
    rw [Serial.exec_of_ne_sql (by rintro q ⟨⟩), exec_checkRate hy] at hx
    cases hx
    refine .require (fun hyes => hok (fun _ => ?_) _ ⟨_, _, _, rfl⟩) fun _ =>
      herr _ _ ⟨_, _, _, rfl⟩
    rw [hy]
    exact hyes
  · rw [if_neg hon]
    exact hok (fun h => absurd h hon) σ (.refl σ)

/-- A request that the limiter admits. -/
theorem After.limiter_of_admits (h : σ.Admits env scope key limit)
    {Q : Except Err Unit → Serial → Prop} (hok : ∀ σ', σ.Quiet σ' → Q (.ok ()) σ') :
    After (DropRoom.limiterCheck env scope key limit) Q σ := by
  unfold DropRoom.limiterCheck
  by_cases hon : env.rate_limit_enabled = true
  · rw [if_pos hon]
    refine (After.bind_iff _ _ _).2 ((After.issue_iff _ _).2 fun x σ' hx => ?_)
    obtain ⟨y, hy⟩ : ∃ y, σ.rest.buckets.check scope key limit
        (seconds env.rate_limit_window_seconds) σ.rest.monotonic = y := ⟨_, rfl⟩
    have hyes := h hon
    rw [hy] at hyes
    rw [Serial.exec_of_ne_sql (by rintro q ⟨⟩), exec_checkRate hy] at hx
    cases hx
    exact (After.require_iff _ _ _).2 ⟨fun _ => hok _ ⟨_, _, _, rfl⟩, fun hno => absurd hyes hno⟩
  · rw [if_neg hon]
    exact hok σ (.refl σ)

end

/-! ## The parts of `join_by_code` -/

namespace rooms

/-- The checks at the start of `join_by_code`: the CSRF token, and the limiter. -/
def joinByCodeChecks (env : Env) (request : Request) : Op Unit := do
  validateCsrf env .post request
  limiterCheck env "join_by_code" (clientIp request) env.join_by_code_limit

/-- What `join_by_code` does once the request is past the limiter. -/
def joinFound (env : Env) (room_code : String) (body : rooms.JoinRequest) (request : Request) :
    Op (SessionRecord × Token × Token) := do
  let found ← roomRepository.getRoomByCode env room_code
  match found with
  | some room =>
    let (sess, token, _) ← (rooms.establishSession env room body request.session_cookie).tryCatch
      fun e => .raise (rooms.hideFailure e)
    commit
    let access_token := roomService.truthy (roomRepository.recoverAccessToken env room)
    pure (sess, token, access_token.getD room.room_code)
  | none => .raise (error .joinFailed "Room not found or has expired")

/-- `join_by_code`, cut where the room is found. -/
theorem joinByCode_eq (env : Env) (room_code : String) (body : rooms.JoinRequest)
    (request : Request) : rooms.joinByCode env room_code body request =
      withSession (joinByCodeChecks env request >>= fun _ =>
        joinFound env room_code body request) := by
  rw [joinByCodeChecks, bind_assoc]
  rfl

end rooms

end DropRoom
