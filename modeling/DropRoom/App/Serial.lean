import DropRoom.App.Footprint
import DropRoom.Store.Snapshot

/-!
# Programs that run one at a time

A program that runs from start to end with no other transaction open sees the database as a
snapshot. `Serial` is the world of the server with its database as a snapshot, and `runs_serial` says
that every run of a program on the world is a run on this simpler state; `exists_runs` is the
converse. `After` is what such a run ends in while nothing fails, where every command has exactly one
answer, so its rules are equivalences.
-/

namespace DropRoom

open Store Effect Prog

/-- The world while a single transaction is open: what it sees of the database, and the world but
for its database, which is empty. -/
structure Serial where
  db : Snapshot Table Row
  rest : World

namespace Serial

/-- What process `p` sees of the world. -/
def of (p : ℕ) (w : World) : Serial := ⟨.of p w.db, { w with db := fun _ => [] }⟩

/-- The answer to a command and the state after it, or `none` while it waits for a job. -/
def exec : (c : Cmd) → Serial → Option (Except Err (Resp c) × Serial)
  | .sql q, σ => some (.ok (σ.db.exec dialect q).1, { σ with db := (σ.db.exec dialect q).2 })
  | c, σ => (DropRoom.exec 0 c σ.rest).map fun (x, rest) => (x, { σ with rest })

/-- A command that is not a statement leaves the database alone. -/
theorem exec_of_ne_sql {c : Cmd} (hc : ∀ q, c ≠ .sql q) (σ : Serial) :
    exec c σ = (DropRoom.exec 0 c σ.rest).map fun (x, rest) => (x, { σ with rest }) := by
  cases c with
  | sql q => exact absurd rfl (hc q)
  | _ => rfl

/-- A machine of the server with its state as one program sees it. -/
def machine (m : Machine Cmd Resp Err World) : Machine Cmd Resp Err Serial where
  exec _ := exec
  fault := m.fault
  env _ _ := False

end Serial

/-! ## Runs on the world are runs on what the program sees -/

section

variable {m : Machine Cmd Resp Err World} {α : Type} {p : ℕ} {w w' : World} {c : Cmd}
  {x : Except Err (Resp c)}

/-- What the limiter answers, by what its buckets are and what they become. -/
theorem exec_checkRate {scope key : String} {limit window : ℕ} {y : Bool × Buckets}
    (hy : w.buckets.check scope key limit (seconds window) w.monotonic = y) :
    DropRoom.exec p (.checkRate scope key limit window) w =
      some (.ok y.1, { w with buckets := y.2 }) := by
  subst hy
  rfl

/-- A command that is not a statement is executed alike for every process and every database. -/
theorem exec_of_ne_sql (hc : ∀ q, c ≠ .sql q) (p q : ℕ) (w : World) (db : Db) :
    DropRoom.exec q c { w with db } =
      (DropRoom.exec p c w).map fun (x, w') => (x, { w' with db }) := by
  cases c with
  | sql q => exact absurd rfl (hc q)
  | put key data => cases data <;> rfl
  | dequeue =>
    simp only [DropRoom.exec]
    cases w.queue <;> rfl
  | checkRate scope key limit window =>
    -- The result has a name, so that nothing computes with the width of the window.
    obtain ⟨y, hy⟩ : ∃ y, w.buckets.check scope key limit (seconds window) w.monotonic = y :=
      ⟨_, rfl⟩
    rw [exec_checkRate (w := { w with db }) hy, exec_checkRate hy]
    rfl
  | _ => rfl

/-- A command of a program that runs alone. -/
theorem Faithful.exec_serial (hm : Faithful m) (hw : w.db.Alone p) :
    (∀ x σ, Serial.exec c (.of p w) = some (x, σ) → ∃ w', m.exec p c w = some (x, w') ∧
      Serial.of p w' = σ ∧ w'.db.Alone p) ∧
      ∀ x w', m.exec p c w = some (x, w') →
        Serial.exec c (.of p w) = some (x, .of p w') ∧ w'.db.Alone p := by
  rw [hm.exec_eq]
  by_cases hq : ∃ q, c = .sql q
  · obtain ⟨q, rfl⟩ := hq
    -- A statement does to the tables what it does to the rows that the process sees.
    obtain ⟨db, hexec, hof, halone⟩ := Snapshot.exec_of (D := dialect) hw q
    have hworld : DropRoom.exec p (.sql q) w =
        some (.ok (Snapshot.exec dialect q (.of p w.db)).1, { w with db }) := by
      rw [DropRoom.exec, hexec]
      rfl
    have hserial : Serial.exec (.sql q) (.of p w) =
        some (.ok (Snapshot.exec dialect q (.of p w.db)).1, .of p { w with db }) := by
      rw [Serial.exec, Serial.of, Serial.of, hof]
    constructor
    · intro x σ h
      rw [hserial] at h
      cases h
      exact ⟨_, hworld, rfl, halone⟩
    · intro x w' h
      rw [hworld] at h
      cases h
      exact ⟨hserial, halone⟩
  · have hq' : ∀ q, c ≠ .sql q := fun q h => hq ⟨q, h⟩
    -- Any other command works on the rest of the world alone.
    have hserial : Serial.exec c (.of p w) =
        (DropRoom.exec p c w).map fun (x, w') => (x, Serial.of p { w' with db := w.db }) := by
      have hexec := exec_of_ne_sql hq' p 0 w fun _ => []
      have hs : Serial.exec c (.of p w) = (DropRoom.exec 0 c { w with db := fun _ => [] }).map
          fun (x, rest) => (x, { Serial.of p w with rest }) := Serial.exec_of_ne_sql hq' _
      rw [hs, hexec, Option.map_map]
      rfl
    -- The tables stay as they are.
    have hdb : ∀ x w', DropRoom.exec p c w = some (x, w') → { w' with db := w.db } = w' := by
      intro x w' h
      rw [← hm.exec_eq] at h
      rw [← hm.db_eq (.exec h) hq']
    constructor
    · intro x σ h
      rw [hserial, Option.map_eq_some_iff] at h
      obtain ⟨⟨x', w'⟩, hx, he⟩ := h
      cases he
      refine ⟨w', hx, by rw [hdb _ _ hx], ?_⟩
      rw [← hdb _ _ hx]
      exact hw
    · intro x w' h
      rw [hserial, h]
      refine ⟨?_, ?_⟩
      · simp only [Option.map_some]
        rw [hdb _ _ h]
      · rw [← hdb _ _ h]
        exact hw

/-- A run of a program that runs alone. -/
theorem runs_serial (hm : Faithful m) {prog : Op α} {r : Except Err α}
    (h : m.Runs p prog w r w') (hw : w.db.Alone p) :
    (Serial.machine m).Runs 0 prog (.of p w) r (.of p w') ∧ w'.db.Alone p := by
  induction h with
  | ret a w => exact ⟨.ret a _, hw⟩
  | raise e w => exact ⟨.raise e _, hw⟩
  | call ha _ ih =>
    cases ha with
    | exec hx =>
      obtain ⟨hs, hw₁⟩ := (hm.exec_serial hw).2 _ _ hx
      obtain ⟨hr, hw'⟩ := ih hw₁
      exact ⟨.call (.exec hs) hr, hw'⟩
    | fault hf =>
      obtain ⟨hr, hw'⟩ := ih hw
      exact ⟨.call (.fault hf) hr, hw'⟩

/-- A run on what the program sees is a run on the world. -/
theorem exists_runs (hm : Faithful m) {prog : Op α} {r : Except Err α} {σ : Serial}
    (h : (Serial.machine m).Runs 0 prog (.of p w) r σ) (hw : w.db.Alone p) :
    ∃ w', m.Runs p prog w r w' ∧ Serial.of p w' = σ ∧ w'.db.Alone p := by
  generalize hσ : Serial.of p w = σ₀ at h
  induction h generalizing w with
  | ret a _ => exact ⟨w, .ret a w, hσ, hw⟩
  | raise e _ => exact ⟨w, .raise e w, hσ, hw⟩
  | call ha _ ih =>
    subst hσ
    cases ha with
    | exec hx =>
      obtain ⟨w₁, hx₁, hof, hw₁⟩ := (hm.exec_serial hw).1 _ _ hx
      obtain ⟨w', hr, hof', hw'⟩ := ih hw₁ hof
      exact ⟨w', .call (.exec hx₁) hr, hof', hw'⟩
    | fault hf =>
      obtain ⟨w', hr, hof', hw'⟩ := ih hw rfl
      exact ⟨w', .call (.fault hf) hr, hof', hw'⟩

end

/-- Every command but the wait for a job is executed. -/
theorem Serial.exists_exec {c : Cmd} (hc : c ≠ .dequeue) (σ : Serial) :
    ∃ x σ', Serial.exec c σ = some (x, σ') := by
  cases c with
  | put key data => cases data <;> exact ⟨_, _, rfl⟩
  | dequeue => exact absurd rfl hc
  | _ => exact ⟨_, _, rfl⟩

/-- A program that waits for no job has a run. -/
theorem Serial.exists_runs {α : Type} {prog : Op α} (h : prog.Only (· ≠ .dequeue)) (σ : Serial) :
    ∃ r σ', (Serial.machine calm).Runs 0 prog σ r σ' := by
  induction prog generalizing σ with
  | ret a => exact ⟨_, _, .ret a σ⟩
  | raise e => exact ⟨_, _, .raise e σ⟩
  | call c k ih =>
    obtain ⟨hc, hk⟩ := (only_call _ _).1 h
    obtain ⟨x, σ₁, hx⟩ := Serial.exists_exec hc σ
    obtain ⟨r, σ', hr⟩ := ih x (hk x) σ₁
    exact ⟨r, σ', .call (.exec hx) hr⟩

/-- While nothing fails, a program has one run. -/
theorem Serial.runs_unique {α : Type} {prog : Op α} {σ σ₁ σ₂ : Serial} {r r' : Except Err α}
    (h : (Serial.machine calm).Runs 0 prog σ r σ₁) (h' : (Serial.machine calm).Runs 0 prog σ r' σ₂) :
    r = r' ∧ σ₁ = σ₂ := by
  induction h with
  | ret a σ =>
    cases h'
    exact ⟨rfl, rfl⟩
  | raise e σ =>
    cases h'
    exact ⟨rfl, rfl⟩
  | call ha _ ih =>
    cases h' with | call ha' hr'
    cases ha with
    | exec hx =>
      cases ha' with
      | exec hx' =>
        rw [hx] at hx'
        cases hx'
        exact ih hr'
      | fault hf => exact hf.elim
    | fault hf => exact hf.elim

/-- A program that waits for no job has a run from every world in which it is alone. -/
theorem calm_exists_runs {α : Type} {env : Env} {K : List Kind} {prog : Op α} {p : ℕ} {w : World}
    (h : prog.Only (Issued env K)) (hK : Kind.dequeue ∉ K) (hw : w.db.Alone p) :
    ∃ r w', calm.Runs p prog w r w' := by
  have hne : ∀ c, Issued env K c → c ≠ .dequeue := by
    rintro c hc rfl
    cases hc with | dequeue hk => exact hK hk
  obtain ⟨r, σ, hr⟩ := Serial.exists_runs (h.mono hne) (.of p w)
  obtain ⟨w', hr', -, -⟩ := DropRoom.exists_runs calm_faithful hr hw
  exact ⟨r, w', hr'⟩

/-- A program with its own database session leaves no row locked. -/
theorem free_of_withSession {α : Type} {m : Machine Cmd Resp Err World} (hm : Faithful m)
    {body : Op α} {p : ℕ} {w w' : World} {r : Except Err α}
    (h : m.Runs p (withSession body) w r w') (hw : w.db.Alone p) : w'.db.Free := by
  refine (m.wp_iff_runs p _ (fun _ w => w.db.Free) w).1 ?_ r w' h
  refine wp_withSession (m.trans_monotone p) ((m.wp_iff_runs p _ _ w).2 fun r₁ w₁ hr₁ x w₂ hx => ?_)
  obtain ⟨rfl, rfl⟩ := hm.rollback hx
  exact (runs_serial hm hr₁ hw).2.free_rollback

/-! ## What lasts -/

/-- A command that only reads, counts requests, or concerns the sockets. -/
def Cmd.Quiet : Cmd → Prop
  | .sql (.select ..) => True
  | .getStream _ | .objectExists _ | .listKeys _ | .utcnow | .checkRate .. => True
  | .accept _ | .register .. | .unregister .. | .connectedAmong .. | .items _ | .socketsOf .. => True
  | .sendJson .. | .closeSocket .. => True
  | _ => False

/-- Only the buckets of the limiter and the sockets may have changed. -/
def Serial.Quiet (σ σ' : Serial) : Prop :=
  ∃ buckets manager outbox, σ' = { σ with rest := { σ.rest with buckets, manager, outbox } }

/-- Nothing has changed. -/
theorem Serial.Quiet.refl (σ : Serial) : σ.Quiet σ := ⟨_, _, _, rfl⟩

/-- Two quiet steps are one. -/
theorem Serial.Quiet.trans {σ σ' σ'' : Serial} (h : σ.Quiet σ') (h' : σ'.Quiet σ'') :
    σ.Quiet σ'' := by
  obtain ⟨_, _, _, rfl⟩ := h
  obtain ⟨_, _, _, rfl⟩ := h'
  exact ⟨_, _, _, rfl⟩

/-- A quiet command leaves the rows and the objects. -/
theorem Cmd.Quiet.exec {c : Cmd} (h : c.Quiet) {σ σ' : Serial} {x}
    (hx : Serial.exec c σ = some (x, σ')) : σ.Quiet σ' := by
  cases c with
  | sql q =>
    cases q with
    | select t where_ =>
      cases hx
      exact .refl σ
    | _ => exact h.elim
  | put key data => exact h.elim
  | deleteObject key => exact h.elim
  | uuid4 => exact h.elim
  | generateToken => exact h.elim
  | generateRoomCode => exact h.elim
  | enqueue job => exact h.elim
  | dequeue => exact h.elim
  | _ =>
    cases hx
    exact ⟨_, _, _, rfl⟩

/-- Only writing and deleting an object changes the storage. -/
theorem Serial.storage_exec {c : Cmd} (hc : ¬c.Stores) {σ σ' : Serial} {x}
    (hx : Serial.exec c σ = some (x, σ')) : σ'.rest.storage = σ.rest.storage := by
  by_cases hq : ∃ q, c = .sql q
  · obtain ⟨q, rfl⟩ := hq
    cases hx
    rfl
  · rw [Serial.exec_of_ne_sql fun q h => hq ⟨q, h⟩, Option.map_eq_some_iff] at hx
    obtain ⟨⟨y, w⟩, hy, he⟩ := hx
    cases he
    exact calm_faithful.storage_eq (p := 0) (.exec hy) hc

/-- Only a `COMMIT` changes what is committed. -/
theorem Serial.saved_exec {c : Cmd} (hc : c ≠ .sql .commit) {σ σ' : Serial} {x}
    (hx : Serial.exec c σ = some (x, σ')) : σ'.db.saved = σ.db.saved := by
  by_cases hq : ∃ q, c = .sql q
  · obtain ⟨q, rfl⟩ := hq
    cases hx
    exact Snapshot.saved_exec (fun h => hc (congrArg Cmd.sql h))
  · rw [Serial.exec_of_ne_sql fun q h => hq ⟨q, h⟩, Option.map_eq_some_iff] at hx
    obtain ⟨_, -, he⟩ := hx
    cases he
    rfl

/-- What a command makes of a row that is `v` before it and committed as `saved`. -/
inductive RowStep (t : Table) (i : ℕ) (v saved : Option (Row t)) : Cmd → Option (Row t) → Prop
  | kept (c : Cmd) : RowStep t i v saved c v
  | updated (u : Upd t) (r : Row t) (hv : v = some r) (hu : dialect.applies u r = true) :
      RowStep t i v saved (.sql (.updateAt t i u)) (some (dialect.set u r))
  | deleted (d : Del t) (r : Row t) (hv : v = some r) (hd : dialect.deletes d i r = true) :
      RowStep t i v saved (.sql (.deleteWhere t d)) none
  | inserted (r : Row t) (hv : v = none) : RowStep t i v saved (.sql (.insert t r)) (some r)
  | rolledBack : RowStep t i v saved (.sql .rollback) saved

/-- Every command makes of every row what `RowStep` says. -/
theorem Serial.rowStep {c : Cmd} {σ σ' : Serial} {x} (hx : Serial.exec c σ = some (x, σ'))
    (t : Table) (i : ℕ) : RowStep t i (σ.db.rows t i) (σ.db.saved t i) c (σ'.db.rows t i) := by
  by_cases hq : ∃ q, c = .sql q
  · obtain ⟨q, rfl⟩ := hq
    cases hx
    cases q with
    | select t' where_ => exact .kept _
    -- A row is updated if it is the one that is named and the update applies to it.
    | updateAt t' j u =>
      have hno : (∀ r, σ.db.rows t' j = some r → dialect.applies u r = false) ∨
          ∃ r, σ.db.rows t' j = some r ∧ dialect.applies u r = true := by
        cases hr : σ.db.rows t' j with
        | none => exact .inl fun r h => by cases h
        | some r => cases hu : dialect.applies u r <;> simp [hu]
      change RowStep t i _ _ _ ((σ.db.updateAt t' j _ _).2.rows t i)
      rcases hno with hno | ⟨r, hr, hu⟩
      · rw [Snapshot.updateAt_of_none hno]
        exact .kept _
      · rw [Snapshot.updateAt_of_some hr hu]
        by_cases ht : t = t'
        · subst ht
          by_cases hi : i = j
          · subst hi
            rw [Snapshot.rows_set_self (σ.db.rows_lt _ _ _ hr)]
            exact .updated u r hr hu
          · rw [Snapshot.rows_set_of_ne hi]
            exact .kept _
        · rw [Snapshot.rows_set_of_table ht]
          exact .kept _
    -- It is deleted if the condition holds of it.
    | deleteWhere t' d =>
      change RowStep t i _ _ _ ((σ.db.drop t' _).rows t i)
      by_cases ht : t = t'
      · subst ht
        rw [Snapshot.rows_drop]
        cases hr : σ.db.rows t i with
        | none => exact .kept _
        | some r =>
          cases hd : dialect.deletes d i r with
          | false =>
            rw [Option.filter_some, hd]
            exact .kept _
          | true =>
            rw [Option.filter_some, hd]
            exact .deleted d r rfl hd
      · rw [Snapshot.rows_drop_of_table ht]
        exact .kept _
    -- It is new if its number is the next one.
    | insert t' r =>
      change RowStep t i _ _ _ ((σ.db.add t' r).rows t i)
      by_cases ht : t = t'
      · subst ht
        by_cases hi : i = σ.db.count t
        · subst hi
          rw [Snapshot.rows_add_self]
          refine .inserted r ?_
          cases hr : σ.db.rows t (σ.db.count t) with
          | none => rfl
          | some r => exact absurd (σ.db.rows_lt _ _ _ hr) (Nat.lt_irrefl _)
        · rw [Snapshot.rows_add_of_ne hi]
          exact .kept _
      · rw [Snapshot.rows_add_of_table ht]
        exact .kept _
    | commit => exact .kept _
    | rollback => exact .rolledBack
  -- Whatever is not a statement leaves the rows.
  · rw [Serial.exec_of_ne_sql fun q h => hq ⟨q, h⟩, Option.map_eq_some_iff] at hx
    obtain ⟨_, -, he⟩ := hx
    cases he
    exact .kept _

/-- A `COMMIT` commits what the transaction sees. -/
theorem Serial.saved_commit {σ σ' : Serial} {x} (hx : Serial.exec (.sql .commit) σ = some (x, σ')) :
    σ'.db.saved = σ.db.rows := by
  cases hx
  rfl

/-- Every row of a table that is seen or committed satisfies `P`. -/
def Serial.All (t : Table) (P : ℕ → Row t → Prop) (σ : Serial) : Prop :=
  ∀ i r, σ.db.rows t i = some r ∨ σ.db.saved t i = some r → P i r

/-- A command keeps what it does to every row that it updates and inserts. -/
theorem Serial.All.exec {t : Table} {P : ℕ → Row t → Prop} {c : Cmd} {σ σ' : Serial} {x}
    (h : σ.All t P) (hx : Serial.exec c σ = some (x, σ'))
    (hupdate : ∀ i u r, c = .sql (.updateAt t i u) → dialect.applies u r = true → P i r →
      P i (dialect.set u r))
    (hinsert : ∀ i r, c = .sql (.insert t r) → P i r) : σ'.All t P := by
  rintro i r (hr | hr)
  · have hstep := Serial.rowStep hx t i
    rw [hr] at hstep
    generalize hv : some r = v at hstep
    cases hstep with
    | kept => exact h i r (.inl hv.symm)
    | updated u r' hr' hu =>
      cases hv
      exact hupdate i u r' rfl hu (h i r' (.inl hr'))
    | deleted d r' hr' hd => cases hv
    | inserted r' hr' =>
      cases hv
      exact hinsert i r rfl
    | rolledBack => exact h i r (.inr hv.symm)
  · by_cases hc : c = .sql .commit
    · subst hc
      rw [Serial.saved_commit hx] at hr
      exact h i r (.inl hr)
    · rw [Serial.saved_exec hc hx] at hr
      exact h i r (.inr hr)

/-- The record that an `id` of a request names. -/
def Serial.file (σ : Serial) : ℤ → Option FileRecord
  | .ofNat i => (σ.db.rows .files i).map fun r => toFile (i, r)
  | .negSucc _ => none

/-- The storage without the objects under some keys. -/
def Storage.eraseAll (s : Storage) (keys : List Key) : Storage := keys.foldl (fun s k => s.erase k) s

/-- What is found after several keys were deleted. -/
theorem Storage.lookup_eraseAll (s : Storage) (keys : List Key) (k : Key) :
    (s.eraseAll keys).lookup k = if k ∈ keys then none else s.lookup k := by
  induction keys generalizing s with
  | nil => simp [eraseAll]
  | cons key keys ih =>
    have h := ih (s.erase key)
    rw [eraseAll] at h ⊢
    rw [List.foldl_cons, h]
    by_cases hk : k = key
    · subst hk
      simp
    · simp [hk, AList.lookup_erase_ne hk]

/-! ## What a run ends in while nothing fails -/

/-- The program, run alone from `σ` while nothing fails, ends in `Q`. -/
def After {α : Type} (prog : Op α) (Q : Except Err α → Serial → Prop) (σ : Serial) : Prop :=
  prog.wp ((Serial.machine calm).trans 0) Q σ

namespace After

variable {α β : Type} {σ : Serial}

/-- Every run of the program on a world in which it is alone ends in `Q`. -/
theorem of_runs {p : ℕ} {w w' : World} {prog : Op α} {Q : Except Err α → Serial → Prop}
    {r : Except Err α} (h : After prog Q (.of p w)) (hr : calm.Runs p prog w r w')
    (hw : w.db.Alone p) : Q r (.of p w') :=
  ((Serial.machine calm).wp_iff_runs 0 prog Q _).1 h _ _ (runs_serial calm_faithful hr hw).1

/-- A program ends in `Q` when its run does. -/
theorem iff_of_runs {p : ℕ} {w w' : World} {prog : Op α} {Q : Except Err α → Serial → Prop}
    {r : Except Err α} (hr : calm.Runs p prog w r w') (hw : w.db.Alone p) :
    After prog Q (.of p w) ↔ Q r (.of p w') := by
  have hs := (runs_serial calm_faithful hr hw).1
  refine ((Serial.machine calm).wp_iff_runs 0 prog Q _).trans ⟨fun h => h _ _ hs, fun h r' σ h' => ?_⟩
  obtain ⟨rfl, rfl⟩ := Serial.runs_unique hs h'
  exact h

/-- A weaker postcondition. -/
theorem mono {prog : Op α} {Q Q' : Except Err α → Serial → Prop} (h : After prog Q σ)
    (hQ : ∀ r σ', Q r σ' → Q' r σ') : After prog Q' σ :=
  Prog.wp_mono (Machine.trans_monotone _ _) hQ h

/-- A postcondition that always holds. -/
theorem of_forall {prog : Op α} {Q : Except Err α → Serial → Prop} (hQ : ∀ r σ', Q r σ') :
    After prog Q σ :=
  ((Serial.machine calm).wp_iff_runs 0 prog Q σ).2 fun r σ' _ => hQ r σ'

/-- Two postconditions. -/
theorem and {prog : Op α} {Q Q' : Except Err α → Serial → Prop} (h : After prog Q σ)
    (h' : After prog Q' σ) : After prog (fun r σ' => Q r σ' ∧ Q' r σ') σ := by
  unfold After at h h' ⊢
  rw [(Serial.machine calm).wp_iff_runs] at h h' ⊢
  exact fun r σ' hr => ⟨h r σ' hr, h' r σ' hr⟩

section

variable {Q : Except Err α → Serial → Prop}

/-- A value. -/
@[simp] theorem pure_iff (a : α) : After (pure a) Q σ ↔ Q (.ok a) σ := Iff.rfl

/-- The end of a program. -/
@[simp] theorem ret_iff (a : α) : After (.ret a) Q σ ↔ Q (.ok a) σ := Iff.rfl

/-- An exception. -/
@[simp] theorem raise_iff (e : Err) : After (.raise e) Q σ ↔ Q (.error e) σ := Iff.rfl

/-- One program after the other, as long as nothing is raised. -/
theorem bind_iff (p : Op α) (f : α → Op β) (Q : Except Err β → Serial → Prop) :
    After (p >>= f) Q σ ↔ After p (fun x σ' => match x with
      | .ok a => After (f a) Q σ'
      | .error e => Q (.error e) σ') σ := by
  unfold After
  rw [Prog.wp_bind]
  refine iff_of_eq (congrArg (p.wp _ · σ) (funext fun x => funext fun σ' => ?_))
  cases x <;> rfl

/-- A handler goes on where the program has raised. -/
theorem tryCatch_iff (p : Op α) (h : Err → Op α) :
    After (p.tryCatch h) Q σ ↔ After p (fun x σ' => match x with
      | .ok a => Q (.ok a) σ'
      | .error e => After (h e) Q σ') σ := by
  unfold After
  rw [Prog.wp_tryCatch]
  refine iff_of_eq (congrArg (p.wp _ · σ) (funext fun x => funext fun σ' => ?_))
  cases x <;> rfl

/-- The result may be changed. -/
theorem map_iff (f : α → β) (p : Op α) (Q : Except Err β → Serial → Prop) :
    After (f <$> p) Q σ ↔ After p (fun x σ' => Q (x.map f) σ') σ := Prog.wp_map _ _ _ _

/-- A check passes or raises. -/
@[simp] theorem require_iff (b : Prop) [Decidable b] (e : Err)
    (Q : Except Err Unit → Serial → Prop) :
    After (Prog.require b e) Q σ ↔ (b → Q (.ok ()) σ) ∧ (¬b → Q (.error e) σ) :=
  Prog.wp_require _ _ _ _

/-- A check that is followed by a program. -/
theorem require_bind_iff (b : Prop) [Decidable b] (e : Err) (f : Unit → Op α) :
    After (Prog.require b e >>= f) Q σ ↔ (b → After (f ()) Q σ) ∧ (¬b → Q (.error e) σ) :=
  Prog.wp_require_bind _ _ _ _ _

end

/-- A command ends in what it is executed to. -/
theorem issue_iff (c : Cmd) (Q : Except Err (Resp c) → Serial → Prop) :
    After (issue c) Q σ ↔ ∀ x σ', Serial.exec c σ = some (x, σ') → Q x σ' := by
  refine (wp_issue (Machine.trans_monotone _ _) _ _ _).trans ⟨fun h x σ' hx => ?_, fun h x σ' ha => ?_⟩
  · exact h x σ' (.exec hx)
  · cases ha with
    | exec hx => exact h x σ' hx
    | fault hf => exact hf.elim

/-- A command that is executed to `x` and `σ'`. -/
theorem issue_of_exec {c : Cmd} {Q : Except Err (Resp c) → Serial → Prop} {x σ'}
    (h : Serial.exec c σ = some (x, σ')) : After (issue c) Q σ ↔ Q x σ' := by
  rw [issue_iff]
  constructor
  · exact fun hQ => hQ x σ' h
  · intro hQ x' σ'' h'
    rw [h] at h'
    cases h'
    exact hQ

/-! ### The rules of the commands -/

/-- A `SELECT` answers what the transaction sees. -/
@[simp] theorem select_iff (t : Table) (where_) (Q : Except Err (List (ℕ × Row t)) → Serial → Prop) :
    After (select t where_) Q σ ↔ Q (.ok (σ.db.select t where_)) σ := issue_of_exec rfl

/-- An `UPDATE` by the number of the row. -/
@[simp] theorem updateAt_iff (t : Table) (i : ℕ) (u : Upd t) (Q : Except Err Bool → Serial → Prop) :
    After (updateAt t i u) Q σ ↔
      Q (.ok (σ.db.updateAt t i (dialect.applies u) (dialect.set u)).1)
        { σ with db := (σ.db.updateAt t i (dialect.applies u) (dialect.set u)).2 } :=
  issue_of_exec rfl

/-- A `DELETE`. -/
@[simp] theorem deleteWhere_iff (t : Table) (d : Del t) (Q : Except Err ℕ → Serial → Prop) :
    After (deleteWhere t d) Q σ ↔ Q (.ok (σ.db.deleteWhere t (dialect.deletes d)).1)
      { σ with db := σ.db.drop t (dialect.deletes d) } := issue_of_exec rfl

/-- A new row takes the next number. -/
@[simp] theorem insert_iff (t : Table) (r : Row t) (Q : Except Err ℕ → Serial → Prop) :
    After (insert t r) Q σ ↔ Q (.ok (σ.db.count t)) { σ with db := σ.db.add t r } :=
  issue_of_exec rfl

/-- A commit makes the rows of the transaction the committed ones. -/
@[simp] theorem commit_iff (Q : Except Err Unit → Serial → Prop) :
    After commit Q σ ↔ Q (.ok ()) { σ with db := σ.db.commit } :=
  issue_of_exec rfl

/-- The end of a `with` block drops what is not committed. -/
@[simp] theorem closeDb_iff (Q : Except Err Unit → Serial → Prop) :
    After closeDb Q σ ↔ Q (.ok ()) { σ with db := σ.db.rollback } :=
  issue_of_exec rfl

/-- An object is stored whole. -/
@[simp] theorem put_ok_iff (key : Key) (data : Bytes) (Q : Except Err ℕ → Serial → Prop) :
    After (storage.put key (.ok data)) Q σ ↔ Q (.ok data.length)
      { σ with rest := { σ.rest with storage := σ.rest.storage.insert key data } } :=
  issue_of_exec rfl

/-- A body that breaks off stores nothing. -/
@[simp] theorem put_error_iff (key : Key) (e : Err) (Q : Except Err ℕ → Serial → Prop) :
    After (storage.put key (.error e)) Q σ ↔ Q (.error e) σ := issue_of_exec rfl

/-- An object is read, and an absent one is empty. -/
@[simp] theorem getStream_iff (key : Key) (Q : Except Err Bytes → Serial → Prop) :
    After (storage.getStream key) Q σ ↔ Q (.ok ((σ.rest.storage.lookup key).getD [])) σ :=
  issue_of_exec rfl

/-- An object is deleted. -/
@[simp] theorem delete_iff (key : Key) (Q : Except Err Unit → Serial → Prop) :
    After (storage.delete key) Q σ ↔ Q (.ok ())
      { σ with rest := { σ.rest with storage := σ.rest.storage.erase key } } := issue_of_exec rfl

/-- Whether there is an object. -/
@[simp] theorem exists_iff (key : Key) (Q : Except Err Bool → Serial → Prop) :
    After (storage.exists_ key) Q σ ↔ Q (.ok (σ.rest.storage.lookup key).isSome) σ :=
  issue_of_exec rfl

/-- The keys with the given beginning. -/
@[simp] theorem listKeys_iff (pre : Key) (Q : Except Err (List Key) → Serial → Prop) :
    After (storage.listKeys pre) Q σ ↔ Q (.ok (σ.rest.storage.listKeys pre)) σ := issue_of_exec rfl

/-- The clock. -/
@[simp] theorem utcnow_iff (Q : Except Err Time → Serial → Prop) :
    After utcnow Q σ ↔ Q (.ok σ.rest.now) σ := issue_of_exec rfl

/-- A uuid that was not drawn before. -/
@[simp] theorem uuid4_iff (Q : Except Err Uuid → Serial → Prop) :
    After uuid4 Q σ ↔ Q (.ok (σ.rest.uuids σ.rest.uuidsUsed))
      { σ with rest := { σ.rest with uuidsUsed := σ.rest.uuidsUsed + 1 } } := issue_of_exec rfl

/-- A job goes to the end of the queue. -/
@[simp] theorem enqueue_iff (job : Job) (Q : Except Err Unit → Serial → Prop) :
    After (enqueue job) Q σ ↔ Q (.ok ())
      { σ with rest := { σ.rest with queue := σ.rest.queue ++ [job] } } := issue_of_exec rfl

/-- A program with its own database session loses what it has not committed. -/
theorem withSession_iff (body : Op α) (Q : Except Err α → Serial → Prop) :
    After (withSession body) Q σ ↔
      After body (fun r σ' => Q r { σ' with db := σ'.db.rollback }) σ := by
  unfold withSession
  rw [bind_iff, tryCatch_iff]
  have hpost : ∀ (x : Except Err α) (σ' : Serial), (match x with
      | .ok a => After (do closeDb; pure a) Q σ'
      | .error e => After (do closeDb; .raise e) (fun x σ'' => match x with
        | .ok a => After (do closeDb; pure a) Q σ''
        | .error e => Q (.error e) σ'') σ') ↔
      Q x { σ' with db := σ'.db.rollback } := by
    rintro (e | a) σ'
    · simp only [bind_iff, closeDb_iff, raise_iff]
    · simp only [bind_iff, closeDb_iff, pure_iff]
  constructor
  · intro h
    exact h.mono fun r σ' hr => (hpost r σ').1 hr
  · intro h
    exact h.mono fun r σ' hr => (hpost r σ').2 hr

/-- Flushing a record over the row that it was loaded from. -/
theorem fileFlush_iff {loaded new : FileRecord}
    (hrow : σ.db.rows .files loaded.id = some loaded.toFileRow)
    (hnew : new.toFileRow = { loaded.toFileRow with
      content_type := new.content_type
      size_bytes := new.size_bytes
      total_size_bytes := new.total_size_bytes
      status := new.status }) (Q : Except Err Unit → Serial → Prop) :
    After (fileRepository.flush loaded new) Q σ ↔
      Q (.ok ()) { σ with db := σ.db.set .files loaded.id (some new.toFileRow) } := by
  unfold fileRepository.flush
  split
  · next hsame =>
    rw [hsame, Snapshot.set_eq_self hrow]
    exact Iff.rfl
  · have hu : σ.db.updateAt .files loaded.id
        (dialect.applies (t := Table.files) (.flush loaded.toFileRow new.toFileRow))
        (dialect.set (t := Table.files) (.flush loaded.toFileRow new.toFileRow)) =
        (true, σ.db.set .files loaded.id (some new.toFileRow)) := by
      rw [Snapshot.updateAt_of_some hrow rfl]
      have hset : FileRow.flush loaded.toFileRow new.toFileRow loaded.toFileRow = new.toFileRow := by
        rw [hnew]
        exact FileRow.flush_self _ _
      exact congrArg (fun r => (true, σ.db.set .files loaded.id (some r))) hset
    refine (bind_iff _ _ _).trans ((updateAt_iff _ _ _ _).trans ?_)
    rw [hu]
    simp

/-! ### What a program returns -/

/-- If the program returns, it ends in `Q`. -/
def Returns (prog : Op α) (Q : α → Serial → Prop) (σ : Serial) : Prop :=
  After prog (fun r σ' => ∀ a, r = .ok a → Q a σ') σ

section

variable {Q : α → Serial → Prop}

/-- A value. -/
@[simp] theorem returns_pure_iff (a : α) : Returns (pure a) Q σ ↔ Q a σ :=
  ⟨fun h => h a rfl, fun h _ hb => Except.ok.inj hb ▸ h⟩

/-- A program that raises does not return. -/
@[simp] theorem returns_raise (e : Err) : Returns (.raise e) Q σ := by
  rintro a ⟨⟩

/-- One program after the other. -/
theorem returns_bind_iff (p : Op β) (f : β → Op α) :
    Returns (p >>= f) Q σ ↔ Returns p (fun b σ' => Returns (f b) Q σ') σ := by
  unfold Returns
  rw [bind_iff]
  constructor
  · intro h
    refine h.mono ?_
    rintro (e | b) σ' hb b' ⟨⟩
    exact hb
  · intro h
    refine h.mono ?_
    rintro (e | b) σ' hb
    · rintro a ⟨⟩
    · exact hb b rfl

/-- A check that has passed. -/
theorem returns_require_iff (b : Prop) [Decidable b] (e : Err) {Q : Unit → Serial → Prop} :
    Returns (Prog.require b e) Q σ ↔ (b → Q () σ) := by
  unfold Returns
  rw [require_iff]
  refine ⟨fun h hb => h.1 hb () rfl, fun h => ⟨fun hb _ _ => h hb, ?_⟩⟩
  rintro - a ⟨⟩

/-- A `with` block drops what its body has not committed. -/
theorem returns_withSession_iff (body : Op α) :
    Returns (withSession body) Q σ ↔
      Returns body (fun a σ' => Q a { σ' with db := σ'.db.rollback }) σ :=
  withSession_iff body _

/-- A program that is known to return a value. -/
theorem returns_iff_of {prog : Op α} {a : α} {σ' : Serial}
    (h : ∀ Q, After prog Q σ ↔ Q (.ok a) σ') : Returns prog Q σ ↔ Q a σ' := by
  unfold Returns
  rw [h]
  exact ⟨fun hQ => hQ a rfl, fun hQ _ hb => Except.ok.inj hb ▸ hQ⟩

end

/-! ### Loops -/

/-- A loop whose body never fails and keeps `I`. -/
theorem forM {ι : Type} {f : ι → Op PUnit} {I : Serial → Prop} (l : List ι)
    (hf : ∀ i ∈ l, ∀ σ, I σ → After (f i) (fun r σ' => r = .ok ⟨⟩ ∧ I σ') σ) (hI : I σ) :
    After (l.forM f) (fun r σ' => r = .ok ⟨⟩ ∧ I σ') σ := by
  induction l generalizing σ with
  | nil => exact ⟨rfl, hI⟩
  | cons i l ih =>
    refine (bind_iff (f i) (fun _ => l.forM f) _).2 ((hf i List.mem_cons_self σ hI).mono ?_)
    rintro r σ' ⟨rfl, hI'⟩
    exact ih (fun j hj => hf j (List.mem_cons_of_mem _ hj)) hI'

/-- Deleting the objects under some keys. -/
theorem forM_delete_iff (keys : List Key) (Q : Except Err PUnit → Serial → Prop) :
    After (keys.forM storage.delete) Q σ ↔ Q (.ok ⟨⟩)
      { σ with rest := { σ.rest with storage := σ.rest.storage.eraseAll keys } } := by
  induction keys generalizing σ with
  | nil => rfl
  | cons key keys ih =>
    refine (bind_iff (storage.delete key) (fun _ => keys.forM storage.delete) Q).trans ?_
    rw [delete_iff]
    exact ih

/-! ### Programs that change nothing that lasts -/

/-- A program whose commands all keep `I`. -/
theorem only {prog : Op α} {P : Cmd → Prop} (h : prog.Only P) {I : Serial → Prop}
    (hI : ∀ c σ₁ x σ₂, P c → Serial.exec c σ₁ = some (x, σ₂) → I σ₁ → I σ₂) (hσ : I σ)
    {Q : Except Err α → Serial → Prop} (hQ : ∀ r σ', I σ' → Q r σ') : After prog Q σ := by
  refine ((Serial.machine calm).wp_iff_runs 0 prog Q σ).2 fun r σ' hr => hQ r σ' ?_
  refine hr.only (P := P) (I := I) (fun c σ₁ x σ₂ hc ha hσ₁ => ?_) h hσ
  cases ha with
  | exec hx => exact hI c σ₁ x σ₂ hc hx hσ₁
  | fault hf => exact hf.elim

/-- A program that only reads, counts requests and sends messages. -/
theorem quiet {prog : Op α} (h : prog.Only Cmd.Quiet) {Q : Except Err α → Serial → Prop}
    (hQ : ∀ r σ', σ.Quiet σ' → Q r σ') : After prog Q σ :=
  only h (fun _ _ _ _ hc hx hσ => hσ.trans (hc.exec hx)) (.refl σ) hQ

/-- A program that commits nothing leaves what is committed alone. -/
theorem unsaved {env : Env} {K : List Kind} {prog : Op α} (h : prog.Only (Issued env K))
    (hK : Kind.commit ∉ K) {Q : Except Err α → Serial → Prop}
    (hQ : ∀ r σ', σ'.db.saved = σ.db.saved → Q r σ') : After prog Q σ := by
  refine only h (fun c σ₁ x σ₂ hc hx hσ₁ => (Serial.saved_exec ?_ hx).trans hσ₁) rfl hQ
  rintro rfl
  cases hc with | commit hk => exact hK hk

/-- A program that changes no object leaves the storage alone. -/
theorem unstored {env : Env} {K : List Kind} {prog : Op α} (h : prog.Only (Issued env K))
    (hput : Kind.put ∉ K) (hdelete : Kind.deleteObject ∉ K) {Q : Except Err α → Serial → Prop}
    (hQ : ∀ r σ', σ'.rest.storage = σ.rest.storage → Q r σ') : After prog Q σ := by
  refine only h (fun c σ₁ x σ₂ hc hx hσ₁ => (Serial.storage_exec ?_ hx).trans hσ₁) rfl hQ
  intro hc'
  cases hc with
  | put hk => exact hput hk
  | deleteObject hk => exact hdelete hk
  | _ => exact hc'

/-- `limiter.check` admits a request or not. -/
theorem limiterCheck {env : Env} {scope key limit} {Q : Except Err Unit → Serial → Prop}
    (hQ : ∀ r σ', σ.Quiet σ' → Q r σ') : After (limiterCheck env scope key limit) Q σ := by
  refine quiet ?_ hQ
  unfold DropRoom.limiterCheck
  split
  · exact only_bind ((only_issue _).2 trivial) fun _ => only_require _ _
  · exact only_pure _

/-- `validate_csrf` changes nothing. -/
theorem validateCsrf {env : Env} {method request} {Q : Except Err Unit → Serial → Prop}
    (hQ : ∀ r, Q r σ) : After (validateCsrf env method request) Q σ := by
  cases method with
  | get => exact hQ _
  | _ =>
    unfold DropRoom.validateCsrf
    simp only
    split
    · rw [require_bind_iff, require_iff]
      exact ⟨fun _ => ⟨fun _ => hQ _, fun _ => hQ _⟩, fun _ => hQ _⟩
    · exact hQ _

/-- `manager.broadcast` never fails. -/
theorem broadcast {ch event exclude} {Q : Except Err Unit → Serial → Prop}
    (hQ : ∀ σ', σ.Quiet σ' → Q (.ok ()) σ') : After (broadcast ch event exclude) Q σ := by
  suffices h : After (DropRoom.broadcast ch event exclude) (fun r σ' => r = .ok () ∧ σ.Quiet σ') σ by
    refine h.mono ?_
    rintro r σ' ⟨rfl, hσ⟩
    exact hQ σ' hσ
  have hsend : ∀ ws σ', σ.Quiet σ' → After ((sendJson ws event).tryCatch fun _ => pure ())
      (fun r σ'' => r = .ok () ∧ σ.Quiet σ'') σ' := by
    intro ws σ' hσ
    have hsent : (Cmd.sendJson ws event).Quiet := trivial
    refine (tryCatch_iff _ _).2 ((issue_iff _ _).2 fun x σ'' hx => ?_)
    cases x with
    | ok u => exact ⟨rfl, hσ.trans (hsent.exec hx)⟩
    | error e => exact ⟨rfl, hσ.trans (hsent.exec hx)⟩
  unfold DropRoom.broadcast
  refine (bind_iff _ _ _).2 ((issue_iff _ _).2 fun x σ₁ hx => ?_)
  cases hx
  refine forM _ (fun item _ σ' hσ => ?_) ⟨_, _, _, rfl⟩
  split
  · exact ⟨rfl, hσ⟩
  · refine (bind_iff _ _ _).2 ((issue_iff _ _).2 fun x σ'' hx => ?_)
    cases hx
    exact forM _ (fun ws _ σ' hσ => hsend ws σ' hσ) hσ

/-- `_broadcast_progress` never fails. -/
theorem broadcastProgress {room rec_} {Q : Except Err Unit → Serial → Prop}
    (hQ : ∀ σ', σ.Quiet σ' → Q (.ok ()) σ') : After (uploads.broadcastProgress room rec_) Q σ := by
  unfold uploads.broadcastProgress
  dsimp only
  split
  · exact broadcast hQ
  · exact hQ σ (.refl σ)

/-! ### Reading by a key -/

/-- `scalar_one_or_none` of a list with at most one element. -/
theorem scalarOneOrNone_toList_iff (o : Option α) (Q : Except Err (Option α) → Serial → Prop) :
    After (scalarOneOrNone o.toList) Q σ ↔ Q (.ok o) σ := by
  cases o <;> exact Iff.rfl

/-- `scalar_one_or_none` answers an element of the list, if any. -/
theorem scalarOneOrNone {l : List α} {Q : Except Err (Option α) → Serial → Prop}
    (hQ : ∀ r, (∀ a, r = .ok (some a) → a ∈ l) → Q r σ) : After (scalarOneOrNone l) Q σ := by
  rcases l with _ | ⟨a, _ | ⟨b, l⟩⟩
  · exact hQ _ (by rintro a ⟨⟩)
  · refine hQ _ ?_
    rintro b ⟨⟩
    exact List.mem_cons_self
  · exact hQ _ (by rintro a ⟨⟩)

/-- `get_file_by_id` answers the record with that number. -/
theorem getFileById_iff (i : ℤ) (Q : Except Err (Option FileRecord) → Serial → Prop) :
    After (fileRepository.getFileById i) Q σ ↔ Q (.ok (σ.file i)) σ := by
  have hrows : (σ.db.select .files fun j _ => (j : ℤ) == i).map toFile = (σ.file i).toList := by
    rcases i with i | i
    · rw [Snapshot.select_at (i := i) fun j _ hj => by
        have hj' : (j : ℤ) = i := by simpa using hj
        omega]
      cases h : σ.db.rows .files i <;> simp [Serial.file, h, Option.filter]
    · refine List.map_eq_nil_iff.2 (List.eq_nil_iff_forall_not_mem.2 ?_)
      rintro ⟨j, r⟩ hj
      simpa using (Snapshot.mem_select.1 hj).2
  unfold fileRepository.getFileById
  rw [bind_iff, select_iff]
  simp only [hrows]
  exact scalarOneOrNone_toList_iff _ _

/-- `get_room_by_id` answers the room with that number. -/
theorem getRoomById_iff (i : ℕ) (Q : Except Err (Option Room) → Serial → Prop) :
    After (roomRepository.getRoomById i) Q σ ↔
      Q (.ok ((σ.db.rows .rooms i).map fun r => toRoom (i, r))) σ := by
  have hrows : (σ.db.select .rooms fun j _ => j == i).map toRoom =
      ((σ.db.rows .rooms i).map fun r => toRoom (i, r)).toList := by
    rw [Snapshot.select_at (i := i) (by intro j r hj; simpa using hj)]
    cases h : σ.db.rows .rooms i <;> simp [Option.filter]
  unfold roomRepository.getRoomById
  rw [bind_iff, select_iff]
  simp only [hrows]
  exact scalarOneOrNone_toList_iff _ _

/-- `_pending_session` finds the records of the room. -/
theorem pendingSession_iff (room : Room) (i : ℤ) (Q : Except Err FileRecord → Serial → Prop) :
    After (uploads.pendingSession room i) Q σ ↔
      (∀ rec_, σ.file i = some rec_ → rec_.room_id = room.id → Q (.ok rec_) σ) ∧
        ((∀ rec_, σ.file i = some rec_ → rec_.room_id ≠ room.id) →
          Q (.error (error .fileNotFound "")) σ) := by
  unfold uploads.pendingSession
  rw [bind_iff, getFileById_iff]
  cases h : σ.file i with
  | none => simp
  | some rec_ =>
    simp only [require_bind_iff, pure_iff, Option.some.injEq, forall_eq']

/-- The checks of a request of a member find its session and the room of a token. -/
structure Member (env : Env) (room_token : Token) (request : Request) (σ : Serial)
    (session : SessionRecord) (room : Room) : Prop where
  session_row : σ.db.rows .sessions session.id = some session.toSessionRow
  token : ∃ t, roomService.truthy request.session_cookie = some t ∧
    session.session_token_hash = env.hash_token t
  live : σ.rest.now < session.expires_at
  room_row : σ.db.rows .rooms room.id = some room.toRoomRow
  access : room.access_token_hash = env.hash_token room_token
  room_id : session.room_id = room.id

/-- A session that `get_by_token_hash` answers is a live row with that hash. -/
theorem getByTokenHash {h : TokenHash} {Q : Except Err (Option SessionRecord) → Serial → Prop}
    (hQ : ∀ r, (∀ s, r = .ok (some s) → σ.db.rows .sessions s.id = some s.toSessionRow ∧
      s.session_token_hash = h ∧ σ.rest.now < s.expires_at) → Q r σ) :
    After (sessionRepository.getByTokenHash h) Q σ := by
  unfold sessionRepository.getByTokenHash
  rw [bind_iff, utcnow_iff]
  refine (bind_iff _ _ _).2 ((select_iff _ _ _).2 ?_)
  refine scalarOneOrNone fun r hr => hQ r fun s hs => ?_
  obtain ⟨⟨i, row⟩, hi, rfl⟩ := List.mem_map.1 (hr s hs)
  obtain ⟨hrow, hw⟩ := Snapshot.mem_select.1 hi
  simp only [Bool.and_eq_true, beq_iff_eq, decide_eq_true_eq] at hw
  exact ⟨hrow, hw⟩

/-- A room that `get_room_by_token` answers is a row with the hash of the token. -/
theorem getRoomByToken {env : Env} {room_token : Token} {Q : Except Err Room → Serial → Prop}
    (hQ : ∀ r, (∀ room, r = .ok room → σ.db.rows .rooms room.id = some room.toRoomRow ∧
      room.access_token_hash = env.hash_token room_token) → Q r σ) :
    After (getRoomByToken env room_token) Q σ := by
  unfold DropRoom.getRoomByToken roomRepository.getRoomByAccessToken
  refine (bind_iff _ _ _).2 ((bind_iff _ _ _).2 ((select_iff _ _ _).2 ?_))
  refine scalarOneOrNone fun r hr => ?_
  rcases r with e | _ | room
  · exact hQ _ (by rintro room ⟨⟩)
  · exact hQ _ (by rintro room ⟨⟩)
  · refine hQ _ ?_
    rintro room ⟨⟩
    obtain ⟨⟨i, row⟩, hi, rfl⟩ := List.mem_map.1 (hr room rfl)
    obtain ⟨hrow, hw⟩ := Snapshot.mem_select.1 hi
    exact ⟨hrow, beq_iff_eq.1 hw⟩

/-- A session and a room that `require_member` answers belong together. -/
theorem requireMember {env : Env} {room_token : Token} {request : Request}
    {Q : Except Err (SessionRecord × Room) → Serial → Prop}
    (hQ : ∀ r, (∀ s room, r = .ok (s, room) → Member env room_token request σ s room) → Q r σ) :
    After (requireMember env room_token request) Q σ := by
  have hfail : ∀ e, Q (.error e) σ := fun e => hQ _ (by rintro s room ⟨⟩)
  unfold DropRoom.requireMember requireSession
  rw [bind_iff]
  split
  · next t ht =>
    rw [bind_iff]
    refine getByTokenHash fun r hr => ?_
    rcases r with e | _ | s
    · exact hfail e
    · exact hfail _
    · obtain ⟨hs, hh, hn⟩ := hr s rfl
      simp only [bind_iff, hasExpired, utcnow_iff, pure_iff, require_iff]
      refine ⟨fun _ => ?_, fun _ => hfail _⟩
      refine getRoomByToken fun r hr => ?_
      rcases r with e | room
      · exact hfail e
      · obtain ⟨hroom, ha⟩ := hr room rfl
        refine ⟨fun hid => hQ _ ?_, fun _ => hfail _⟩
        rintro s' room' ⟨⟩
        exact ⟨hs, ⟨t, ht, hh⟩, hn, hroom, ha, hid⟩
  · exact hfail _

end After

end DropRoom
