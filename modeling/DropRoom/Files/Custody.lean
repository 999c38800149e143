import DropRoom.Files.Vault
import DropRoom.Files.Entries
import DropRoom.Jobs.Retries

/-!
# The server keeps a vault

What the committed rows and the objects say is a vault (`Serial.vault`), and a task of the server
that runs alone makes only steps of the vault that it is allowed (`Allowed`), whatever fails in it.
`Sound` is what the vault rests on: the keys of the records are distinct `uuid4` texts, and the jobs
in the queue delete no object that is still needed.
-/

namespace DropRoom

open Effect Store Prog uploadService

/-- What the books say of a room. -/
def RoomRow.account (r : RoomRow) : RoomAccount :=
  ⟨r.status, r.storage_used_bytes, r.file_count⟩

/-- What the books say of a file. -/
def FileRow.entry (r : FileRow) : FileEntry := ⟨r.room_id, r.storage_key, r.status, r.size_bytes⟩

/-- The key of the object that a job deletes, if its payload has one. -/
def Job.storageKey : Job → Option Key
  | .deleteFileObject storage_key => storage_key
  | .cleanupOrphanedObject storage_key => storage_key
  | _ => none

/-- The object under a key is needed by no file, and will be needed by none. -/
def Serial.Spare (σ : Serial) (key : Key) : Prop :=
  (∀ f r, σ.db.saved .files f = some r → r.storage_key.text = key → r.status = .deleted) ∧
    ∀ n, σ.rest.uuidsUsed ≤ n → (σ.rest.uuids n).text ≠ key

/-- The records belong to rooms, their keys are distinct and were all drawn, no object is stored
under a key that is not drawn yet, and the jobs in the queue delete only what is spare. -/
structure Sound (σ : Serial) : Prop where
  injective : Function.Injective σ.rest.uuids
  owned : ∀ f r, σ.db.saved .files f = some r → ∃ room, σ.db.saved .rooms r.room_id = some room
  distinct : ∀ f g r r', σ.db.saved .files f = some r → σ.db.saved .files g = some r' →
    r.storage_key = r'.storage_key → f = g
  drawn : ∀ f r, σ.db.saved .files f = some r →
    ∃ n < σ.rest.uuidsUsed, r.storage_key = σ.rest.uuids n
  unused : ∀ n, σ.rest.uuidsUsed ≤ n → σ.rest.storage.lookup (σ.rest.uuids n).text = none
  queued : ∀ job ∈ σ.rest.queue, ∀ key, job.storageKey = some key → σ.Spare key

/-- What the committed rows and the objects say. -/
def Serial.vault (σ : Serial) (h : Sound σ) : Vault where
  account i := (σ.db.saved .rooms i).map RoomRow.account
  entries :=
    { entry := fun f => (σ.db.saved .files f).map FileRow.entry
      bound := σ.db.count .files
      entry_lt := fun f e he => by
        obtain ⟨r, hr, -⟩ := Option.map_eq_some_iff.1 he
        exact σ.db.saved_lt .files f r hr }
  objects key := σ.rest.storage.lookup key
  owned f e he := by
    obtain ⟨r, hr, rfl⟩ := Option.map_eq_some_iff.1 he
    obtain ⟨room, hroom⟩ := h.owned f r hr
    exact ⟨room.account, congrArg (Option.map _) hroom⟩
  distinct f g e e' he he' hkey := by
    obtain ⟨r, hr, rfl⟩ := Option.map_eq_some_iff.1 he
    obtain ⟨r', hr', rfl⟩ := Option.map_eq_some_iff.1 he'
    exact h.distinct f g r r' hr hr' hkey

/-- From one state to the other the vault makes steps that `ok` admits. -/
def Refines (ok : Vault.Act → Prop) (σ σ' : Serial) : Prop :=
  ∀ h : Sound σ, ∃ h' : Sound σ', Vault.Run ok (σ.vault h) (σ'.vault h')

namespace Refines

variable {ok : Vault.Act → Prop} {σ σ' σ'' : Serial}

/-- Refinements go one after the other. -/
theorem trans (h : Refines ok σ σ') (h' : Refines ok σ' σ'') : Refines ok σ σ'' := by
  intro hσ
  obtain ⟨hσ', hrun⟩ := h hσ
  obtain ⟨hσ'', hrun'⟩ := h' hσ'
  exact ⟨hσ'', hrun.trans hrun'⟩

/-- What a transaction has not committed is not in the vault. -/
theorem rollback (h : Refines ok σ σ') : Refines ok σ { σ' with db := σ'.db.rollback } := by
  intro hσ
  obtain ⟨hσ', hrun⟩ := h hσ
  exact ⟨⟨hσ'.injective, hσ'.owned, hσ'.distinct, hσ'.drawn, hσ'.unused, hσ'.queued⟩, hrun⟩

end Refines

/-! ## What every program keeps -/

/-- Numbers and keys are drawn in order, and nothing is put into the queue. -/
structure Serial.Draws (σ σ' : Serial) : Prop where
  uuids : σ'.rest.uuids = σ.rest.uuids
  uuidsUsed : σ.rest.uuidsUsed ≤ σ'.rest.uuidsUsed
  count : ∀ t, σ.db.count t ≤ σ'.db.count t
  queue : σ'.rest.queue ⊆ σ.rest.queue

/-- Nothing was drawn. -/
theorem Serial.Draws.of_eq {σ σ' : Serial} (huuids : σ'.rest.uuids = σ.rest.uuids)
    (hused : σ'.rest.uuidsUsed = σ.rest.uuidsUsed) (hcount : σ'.db.count = σ.db.count)
    (hqueue : σ'.rest.queue = σ.rest.queue) : σ.Draws σ' :=
  ⟨huuids, hused.ge, fun _ => by rw [hcount], fun _ h => hqueue ▸ h⟩

/-- Nothing was drawn. -/
theorem Serial.Draws.refl (σ : Serial) : σ.Draws σ := .of_eq rfl rfl rfl rfl

/-- What was drawn was drawn in order. -/
theorem Serial.Draws.trans {σ σ' σ'' : Serial} (h : σ.Draws σ') (h' : σ'.Draws σ'') :
    σ.Draws σ'' where
  uuids := h'.uuids.trans h.uuids
  uuidsUsed := h.uuidsUsed.trans h'.uuidsUsed
  count t := (h.count t).trans (h'.count t)
  queue := List.Subset.trans h'.queue h.queue

/-- A quiet step draws nothing. -/
theorem Serial.Quiet.draws {σ σ' : Serial} (h : σ.Quiet σ') : σ.Draws σ' := by
  obtain ⟨_, _, _, rfl⟩ := h
  exact .of_eq rfl rfl rfl rfl

/-- A statement inserts rows or leaves their number. -/
theorem count_exec {q : Sql Table Row Upd Del} {s : Snapshot Table Row} (t : Table) :
    s.count t ≤ (s.exec dialect q).2.count t := by
  cases q with
  | select => exact le_rfl
  | updateAt t' i u =>
    by_cases h : ∃ r, s.rows t' i = some r ∧ dialect.applies u r = true
    · obtain ⟨r, hr, hu⟩ := h
      simp [Snapshot.exec, Snapshot.updateAt_of_some hr hu]
    · have hno : ∀ r, s.rows t' i = some r → dialect.applies u r = false := fun r hr =>
        Bool.eq_false_iff.2 fun hu => h ⟨r, hr, hu⟩
      simp [Snapshot.exec, Snapshot.updateAt_of_none hno]
  | deleteWhere t' d => exact le_rfl
  | insert t' r =>
    by_cases ht : t = t'
    · subst ht
      simp [Snapshot.exec, Snapshot.insert]
    · simp [Snapshot.exec, Snapshot.insert, Snapshot.add, Function.update_of_ne ht]
  | commit => exact le_rfl
  | rollback => exact le_rfl

/-- A worker takes the first job off the queue. -/
theorem exec_dequeue {σ σ' : Serial} {x} (hx : Serial.exec .dequeue σ = some (x, σ')) :
    ∃ job jobs, σ.rest.queue = job :: jobs ∧ x = .ok job ∧
      σ' = { σ with rest := { σ.rest with queue := jobs } } := by
  change (DropRoom.exec 0 .dequeue σ.rest).map _ = _ at hx
  obtain ⟨⟨y, rest⟩, hy, he⟩ := Option.map_eq_some_iff.1 hx
  cases he
  cases hqueue : σ.rest.queue with
  | nil => simp [DropRoom.exec, hqueue] at hy
  | cons job jobs =>
    simp only [DropRoom.exec, hqueue, Option.some.injEq, Prod.mk.injEq] at hy
    obtain ⟨rfl, rfl⟩ := hy
    exact ⟨job, jobs, rfl, rfl, rfl⟩

/-- A command that puts nothing into the queue. -/
theorem draws_exec {c : Cmd} (henqueue : ∀ job, c ≠ .enqueue job) {σ σ' : Serial} {x}
    (hx : Serial.exec c σ = some (x, σ')) : σ.Draws σ' := by
  cases c with
  | sql q =>
    cases hx
    exact ⟨rfl, le_rfl, fun t => count_exec t, List.Subset.refl _⟩
  | enqueue job => exact absurd rfl (henqueue job)
  | dequeue =>
    obtain ⟨job, jobs, hqueue, -, rfl⟩ := exec_dequeue hx
    refine ⟨rfl, le_rfl, fun _ => le_rfl, ?_⟩
    rw [hqueue]
    exact List.subset_cons_self _ _
  | put key data => cases data <;> cases hx <;> exact .of_eq rfl rfl rfl rfl
  | uuid4 =>
    cases hx
    exact ⟨rfl, Nat.le_succ _, fun _ => le_rfl, List.Subset.refl _⟩
  | checkRate scope key limit window =>
    exact (Cmd.Quiet.exec (c := .checkRate scope key limit window) trivial hx).draws
  | _ =>
    cases hx
    exact .of_eq rfl rfl rfl rfl

/-- A program that puts nothing into the queue. -/
theorem Ends.draws {α : Type} {env : Env} {K : List Kind} {prog : Op α} {σ : Serial}
    (h : prog.Only (Issued env K)) (henqueue : Kind.enqueue ∉ K) :
    Ends prog (fun _ σ' => σ.Draws σ') σ := by
  refine Ends.only (I := fun σ' => σ.Draws σ') h ?_ (.refl σ) fun _ _ h => h
  intro c σ₁ x σ₂ hc hx hσ₁
  refine hσ₁.trans (draws_exec ?_ hx)
  rintro job rfl
  cases hc with
  | enqueue h => exact henqueue h

/-! ## Which objects a program touches -/

/-- Only objects under keys in `T`, or under keys that were drawn on the way, may have changed. -/
structure Serial.Touches (T : Key → Prop) (σ σ' : Serial) : Prop where
  draws : σ.Draws σ'
  kept : ∀ key, ¬T key →
    (∀ n, σ.rest.uuidsUsed ≤ n → n < σ'.rest.uuidsUsed → key ≠ (σ.rest.uuids n).text) →
    σ'.rest.storage.lookup key = σ.rest.storage.lookup key

/-- Nothing was touched. -/
theorem Serial.Touches.refl (T : Key → Prop) (σ : Serial) : σ.Touches T σ :=
  ⟨.refl σ, fun _ _ _ => rfl⟩

/-- What two steps touch. -/
theorem Serial.Touches.trans {T : Key → Prop} {σ σ' σ'' : Serial} (h : σ.Touches T σ')
    (h' : σ'.Touches T σ'') : σ.Touches T σ'' := by
  refine ⟨h.draws.trans h'.draws, fun key hkey hnew => ?_⟩
  have hle := h.draws.uuidsUsed
  have hle' := h'.draws.uuidsUsed
  refine (h'.kept key hkey fun n hn hlt => ?_).trans (h.kept key hkey fun n hn hlt => ?_)
  · rw [h.draws.uuids]
    exact hnew n (hle.trans hn) hlt
  · exact hnew n hn (hlt.trans_le hle')

/-- The program writes and deletes only objects under keys in `T`, and what it draws keys for. -/
def Handles {α : Type} (T : Key → Prop) (prog : Op α) : Prop :=
  ∀ σ, Ends prog (fun _ σ' => σ.Touches T σ') σ

namespace Handles

variable {α β : Type} {T : Key → Prop}

/-- A value. -/
theorem pure (a : α) : Handles T (pure a) := fun σ => .refl T σ

/-- An exception. -/
theorem raise (e : Err) : Handles T (.raise e : Op α) := fun σ => .refl T σ

/-- One program after the other. -/
theorem bind {p : Op β} {f : β → Op α} (hp : Handles T p) (hf : ∀ b, Handles T (f b)) :
    Handles T (p >>= f) := by
  intro σ
  refine Ends.bind ((hp σ).mono ?_)
  rintro (e | b) σ' hσ'
  · exact hσ'
  · exact (hf b σ').mono fun _ σ'' hσ'' => hσ'.trans hσ''

/-- A program with a handler. -/
theorem tryCatch {p : Op α} {f : Err → Op α} (hp : Handles T p) (hf : ∀ e, Handles T (f e)) :
    Handles T (p.tryCatch f) := by
  intro σ
  refine Ends.tryCatch ((hp σ).mono ?_)
  rintro (e | a) σ' hσ'
  · exact (hf e σ').mono fun _ σ'' hσ'' => hσ'.trans hσ''
  · exact hσ'

/-- A check. -/
theorem require {b : Prop} [Decidable b] {e : Err} : Handles T (Prog.require b e) := fun σ =>
  Ends.require (fun _ => .refl T σ) fun _ => .refl T σ

/-- A check that the program rests on. -/
theorem require_bind {b : Prop} [Decidable b] {e : Err} {f : Unit → Op α}
    (hf : b → Handles T (f ())) : Handles T (Prog.require b e >>= f) := fun σ =>
  Ends.require_bind (fun hb => hf hb σ) fun _ => .refl T σ

/-- A program that writes and deletes no object. -/
theorem of_only {prog : Op α} (env : Env) (K : List Kind) (h : prog.Only (Issued env K))
    (hput : Kind.put ∉ K) (hdelete : Kind.deleteObject ∉ K) (henqueue : Kind.enqueue ∉ K) :
    Handles T prog := by
  intro σ
  refine ((Ends.draws h henqueue).and
    (Ends.unstored (Q := fun _ σ' => σ'.rest.storage = σ.rest.storage) h hput hdelete
      fun _ _ hs => hs)).mono ?_
  rintro _ σ' ⟨hd, hs⟩
  exact ⟨hd, fun _ _ _ => by rw [hs]⟩

/-- An object is written, or not. -/
theorem put {key : Key} {data : Except Err Bytes} (hkey : T key) :
    Handles T (storage.put key data) := by
  intro σ
  refine Ends.issue (fun x σ' hx => ⟨draws_exec (by rintro job ⟨⟩) hx, fun k hk _ => ?_⟩)
    fun _ _ => .refl T σ
  have hne : k ≠ key := fun h => hk (h ▸ hkey)
  cases data with
  | error e =>
    cases hx
    rfl
  | ok data =>
    cases hx
    exact AList.lookup_insert_ne hne

/-- A deletion touches its key. -/
theorem delete {key : Key} (hkey : T key) : Handles T (storage.delete key) := fun σ => by
  refine Ends.delete ⟨.of_eq rfl rfl rfl rfl, fun k hk _ => ?_⟩ fun _ => .refl T σ
  have hne : k ≠ key := fun h => hk (h ▸ hkey)
  exact AList.lookup_erase_ne hne

/-- Deletions touch their keys. -/
theorem forM_delete {keys : List Key} (hkeys : ∀ key ∈ keys, T key) :
    Handles T (keys.forM storage.delete) := by
  induction keys with
  | nil => exact pure _
  | cons key keys ih =>
    refine bind (delete (hkeys key List.mem_cons_self)) fun _ => ih fun k hk => ?_
    exact hkeys k (List.mem_cons_of_mem key hk)

/-- What is done with the keys of a listing. -/
theorem listKeys_bind {pre : Key} {f : List Key → Op α}
    (hf : ∀ keys, (∀ key ∈ keys, pre <+: key) → Handles T (f keys)) :
    Handles T (storage.listKeys pre >>= f) := by
  intro σ
  refine Ends.bind (Ends.issue_of_exec rfl ?_ fun _ => .refl T σ)
  exact hf _ (fun key hkey => (mem_listKeys.1 hkey).2) σ

/-- A new key is drawn, and the object under it may be written. -/
theorem uuid4_bind {f : Uuid → Op α}
    (hf : ∀ u, Handles (fun key => T key ∨ key = u.text) (f u)) : Handles T (uuid4 >>= f) := by
  intro σ
  refine Ends.bind (Ends.issue (fun x σ₁ hx => ?_) fun e he => he.elim)
  cases hx
  refine (hf _ _).mono fun _ σ' hσ' => ?_
  have hle := hσ'.draws.uuidsUsed
  dsimp only at hle
  refine ⟨⟨hσ'.draws.uuids, by omega, hσ'.draws.count, hσ'.draws.queue⟩, fun key hkey hnew => ?_⟩
  refine hσ'.kept key ?_ fun n hn hlt => hnew n (Nat.le_of_succ_le hn) hlt
  rintro (hT | hu)
  · exact hkey hT
  · exact hnew _ le_rfl hle hu

end Handles

/-! ## From rows to entries -/

/-- The objects of the confirmed records are kept, and none is stored under a key that is still to be
drawn. -/
structure Serial.Scratches (σ σ' : Serial) : Prop where
  loose : ∀ f r, σ.db.saved .files f = some r → r.status = .confirmed →
    σ'.rest.storage.lookup r.storage_key.text = σ.rest.storage.lookup r.storage_key.text
  past : ∀ n, σ'.rest.uuidsUsed ≤ n →
    σ'.rest.storage.lookup (σ.rest.uuids n).text = σ.rest.storage.lookup (σ.rest.uuids n).text

/-- The same objects. -/
theorem Serial.Scratches.of_eq {σ σ' : Serial} (h : σ'.rest.storage = σ.rest.storage) :
    σ.Scratches σ' := ⟨fun _ _ _ _ => by rw [h], fun _ _ => by rw [h]⟩

/-- The key of a part is the key of no record, and is never drawn. -/
def Key.OfPart (key : Key) : Prop := ∃ u : Uuid, partPrefix u <+: key

/-- The object under the key is no confirmed record's, and never will be one's: it is a part, the
object of a record that is not confirmed, or spare. -/
def Serial.Loose (σ : Serial) (key : Key) : Prop :=
  Key.OfPart key ∨ (∃ f r, σ.db.saved .files f = some r ∧ r.status ≠ .confirmed ∧
    key = r.storage_key.text) ∨ σ.Spare key

/-- Only loose objects are written and deleted, and what is stored under keys that are drawn on the
way. -/
theorem Sound.scratches {σ σ' : Serial} (h : Sound σ) (hσ' : σ.Touches σ.Loose σ') :
    σ.Scratches σ' := by
  have hpart : ∀ u : Uuid, ¬Key.OfPart u.text := fun u ⟨u', hu'⟩ => not_partPrefix_isPrefix _ _ hu'
  have hle := hσ'.draws.uuidsUsed
  refine ⟨fun f r hr hconfirmed => hσ'.kept _ ?_ fun n hn _ htext => ?_,
    fun n hn => hσ'.kept _ ?_ fun m _ hlt htext => ?_⟩
  · rintro (hof | ⟨g, r', hr', hstatus, htext⟩ | hspare)
    · exact hpart _ hof
    · obtain rfl := h.distinct f g r r' hr hr' (Uuid.eq_of_text htext)
      obtain rfl := Option.some.inj (hr.symm.trans hr')
      exact hstatus hconfirmed
    · rw [hspare.1 f r hr rfl] at hconfirmed
      cases hconfirmed
  · obtain ⟨m, hm, hdrawn⟩ := h.drawn f r hr
    have heq := h.injective (hdrawn.symm.trans (Uuid.eq_of_text htext))
    omega
  · rintro (hof | ⟨g, r', hr', hstatus, htext⟩ | hspare)
    · exact hpart _ hof
    · obtain ⟨m, hm, hdrawn⟩ := h.drawn g r' hr'
      have heq := h.injective ((Uuid.eq_of_text htext).trans hdrawn)
      omega
    · exact hspare.2 n (hle.trans hn) rfl
  · have heq := h.injective (Uuid.eq_of_text htext)
    omega

section

variable {σ σ' : Serial} {f ρ : ℕ} {v : Option FileRow} {g : RoomRow → RoomRow}

/-- The new record is what it was, but for its size, its type and its status, or its key was drawn
just now. -/
def Serial.Continues (σ σ' : Serial) (f : ℕ) (r' : FileRow) : Prop :=
  (∃ r, σ.db.saved .files f = some r ∧ r'.storage_key = r.storage_key ∧ r'.room_id = r.room_id ∧
    (r.status = .deleted → r'.status = .deleted)) ∨
  (σ.rest.uuidsUsed < σ'.rest.uuidsUsed ∧ r'.storage_key = σ.rest.uuids σ.rest.uuidsUsed ∧
    ∃ room, σ.db.saved .rooms r'.room_id = some room)

/-- No object is stored under a key that is still to be drawn. -/
theorem Serial.Scratches.unused (hs : σ.Scratches σ') (h : Sound σ) (hd : σ.Draws σ') (n : ℕ)
    (hn : σ'.rest.uuidsUsed ≤ n) : σ'.rest.storage.lookup (σ.rest.uuids n).text = none :=
  (hs.past n hn).trans (h.unused n (hd.uuidsUsed.trans hn))

/-- A state stays sound while rooms stay, and at most one new record has a new key. -/
theorem Sound.step (h : Sound σ) (hd : σ.Draws σ')
    (hunused : ∀ n, σ'.rest.uuidsUsed ≤ n →
      σ'.rest.storage.lookup (σ.rest.uuids n).text = none)
    (hrooms : ∀ i, (∃ room, σ.db.saved .rooms i = some room) →
      ∃ room, σ'.db.saved .rooms i = some room)
    (hfiles : ∀ i r', σ'.db.saved .files i = some r' → σ.Continues σ' i r')
    (hnew : ∀ i r', σ'.db.saved .files i = some r' →
      r'.storage_key = σ.rest.uuids σ.rest.uuidsUsed → i = f) : Sound σ' := by
  -- A record of before has a key drawn before.
  have hfresh : ∀ i r, σ.db.saved .files i = some r →
      r.storage_key ≠ σ.rest.uuids σ.rest.uuidsUsed := by
    intro i r hr hkey
    obtain ⟨n, hn, hdrawn⟩ := h.drawn i r hr
    have heq := h.injective (hdrawn.symm.trans hkey)
    omega
  refine ⟨by rw [hd.uuids]; exact h.injective, fun i r' hr' => ?_, fun i j r r' hr hr' hkey => ?_,
    fun i r' hr' => ?_, fun n hn => ?_, fun job hjob key hkey => ?_⟩
  · rcases hfiles i r' hr' with ⟨r, hr, -, hsame, -⟩ | ⟨-, -, hexists⟩
    · exact hrooms _ (hsame ▸ h.owned i r hr)
    · exact hrooms _ hexists
  · rcases hfiles i r hr with ⟨r₀, hr₀, hsame, -⟩ | ⟨-, hdrawn, -⟩
    · rcases hfiles j r' hr' with ⟨r₁, hr₁, hsame', -⟩ | ⟨-, hdrawn', -⟩
      · exact h.distinct i j r₀ r₁ hr₀ hr₁ (hsame.symm.trans (hkey.trans hsame'))
      · exact absurd (hsame.symm.trans (hkey.trans hdrawn')) (hfresh i r₀ hr₀)
    · exact (hnew i r hr hdrawn).trans (hnew j r' hr' (hkey.symm.trans hdrawn)).symm
  · rw [hd.uuids]
    rcases hfiles i r' hr' with ⟨r, hr, hsame, -⟩ | ⟨hlt, hdrawn, -⟩
    · obtain ⟨n, hn, hdrawn⟩ := h.drawn i r hr
      exact ⟨n, hn.trans_le hd.uuidsUsed, hsame.trans hdrawn⟩
    · exact ⟨_, hlt, hdrawn⟩
  · rw [hd.uuids]
    exact hunused n hn
  · obtain ⟨hspare, hahead⟩ := h.queued job (hd.queue hjob) key hkey
    refine ⟨fun i r' hr' htext => ?_, fun n hn => ?_⟩
    · rcases hfiles i r' hr' with ⟨r, hr, hsame, -, hstatus⟩ | ⟨-, hdrawn, -⟩
      · exact hstatus (hspare i r hr (by rw [← hsame, htext]))
      · exact absurd (by rw [← hdrawn, htext]) (hahead _ le_rfl)
    · rw [hd.uuids]
      exact hahead n (hd.uuidsUsed.trans hn)

/-- A change of one record and its room keeps the state sound. -/
theorem Sound.change (h : Sound σ) (hd : σ.Draws σ')
    (hc : Change σ.db.saved σ'.db.saved f v ρ g)
    (hunused : ∀ n, σ'.rest.uuidsUsed ≤ n →
      σ'.rest.storage.lookup (σ.rest.uuids n).text = none)
    (hv : ∀ r', v = some r' → σ.Continues σ' f r') : Sound σ' := by
  refine h.step (f := f) hd hunused ?_ (fun i r' hr' => ?_) fun i r' hr' hkey => ?_
  · rintro i ⟨room, hroom⟩
    rw [hc.rooms]
    split
    · exact ⟨g room, congrArg (Option.map g) hroom⟩
    · exact ⟨room, hroom⟩
  · rw [hc.files] at hr'
    split at hr'
    · next hi => exact hi ▸ hv r' hr'
    · exact .inl ⟨r', hr', rfl, rfl, id⟩
  · by_contra hi
    rw [hc.files, if_neg hi] at hr'
    obtain ⟨n, hn, hdrawn⟩ := h.drawn i r' hr'
    have heq := h.injective (hdrawn.symm.trans hkey)
    omega

/-- A state stays sound while its entries stay. -/
theorem Sound.of_entries (h : Sound σ) (hd : σ.Draws σ')
    (hunused : ∀ n, σ'.rest.uuidsUsed ≤ n →
      σ'.rest.storage.lookup (σ.rest.uuids n).text = none)
    (hrooms : ∀ i, (∃ room, σ.db.saved .rooms i = some room) →
      ∃ room, σ'.db.saved .rooms i = some room)
    (hfiles : ∀ i, (σ'.db.saved .files i).map FileRow.entry =
      (σ.db.saved .files i).map FileRow.entry) : Sound σ' := by
  have hsame : ∀ i r', σ'.db.saved .files i = some r' →
      ∃ r, σ.db.saved .files i = some r ∧ r.entry = r'.entry := by
    intro i r' hr'
    have hi := hfiles i
    rw [hr', Option.map_some] at hi
    exact Option.map_eq_some_iff.1 hi.symm
  refine h.step (f := 0) hd hunused hrooms (fun i r' hr' => ?_) fun i r' hr' hkey => ?_
  · obtain ⟨r, hr, hentry⟩ := hsame i r' hr'
    injection hentry with hroom hkey hstatus
    exact .inl ⟨r, hr, hkey.symm, hroom.symm, fun hdeleted => hstatus.symm.trans hdeleted⟩
  · obtain ⟨r, hr, hentry⟩ := hsame i r' hr'
    obtain ⟨n, hn, hdrawn⟩ := h.drawn i r hr
    have heq := h.injective (hdrawn.symm.trans ((congrArg FileEntry.storage_key hentry).trans hkey))
    omega

/-- One entry of the vault has changed. -/
theorem entry_of_change (hc : Change σ.db.saved σ'.db.saved f v ρ g) (h : Sound σ) (h' : Sound σ') :
    (σ'.vault h').entries.entry =
      Function.update (σ.vault h).entries.entry f (v.map FileRow.entry) := by
  funext i
  change (σ'.db.saved .files i).map FileRow.entry = _
  rw [hc.files]
  by_cases hi : i = f
  · rw [if_pos hi, hi, Function.update_self]
  · rw [if_neg hi, Function.update_of_ne hi]
    rfl

/-- The accounts are those that were there before. -/
theorem account_of_id (hc : Change σ.db.saved σ'.db.saved f v ρ id) (h : Sound σ) (h' : Sound σ') :
    (σ'.vault h').account = (σ.vault h).account := by
  funext i
  change (σ'.db.saved .rooms i).map RoomRow.account = (σ.db.saved .rooms i).map RoomRow.account
  rw [hc.rooms, Option.map_id, id, ite_self]

/-- One account of the vault has changed. -/
theorem account_of_change (hc : Change σ.db.saved σ'.db.saved f v ρ g) {row : RoomRow}
    (hrow : σ.db.saved .rooms ρ = some row) (h : Sound σ) (h' : Sound σ') :
    (σ'.vault h').account =
      Function.update (σ.vault h).account ρ (some (g row).account) := by
  funext i
  change (σ'.db.saved .rooms i).map RoomRow.account = _
  rw [hc.rooms]
  by_cases hi : i = ρ
  · rw [if_pos hi, hi, Function.update_self, hrow]
    rfl
  · rw [if_neg hi, Function.update_of_ne hi]
    rfl

/-- Objects that belong to no confirmed record. -/
theorem objects_of_scratches (hs : σ.Scratches σ') (h : Sound σ) (h' : Sound σ') {i : ℕ}
    {e : FileEntry} (he : (σ.vault h).entries.entry i = some e) (hc : e.status = .confirmed) :
    (σ'.vault h').objects e.storage_key.text = (σ.vault h).objects e.storage_key.text := by
  obtain ⟨r, hr, rfl⟩ := Option.map_eq_some_iff.1 he
  exact hs.loose i r hr hc

variable {ok : Vault.Act → Prop}

/-- No account and no entry changes, and objects that nobody needs have come and gone. -/
theorem refines_scratch (hok : ok .scratch) (hd : σ.Draws σ') (hs : σ.Scratches σ')
    (hrooms : ∀ i, (σ'.db.saved .rooms i).map RoomRow.account =
      (σ.db.saved .rooms i).map RoomRow.account)
    (hfiles : ∀ i, (σ'.db.saved .files i).map FileRow.entry =
      (σ.db.saved .files i).map FileRow.entry) : Refines ok σ σ' := by
  intro h
  have hstay : ∀ i, (∃ room, σ.db.saved .rooms i = some room) →
      ∃ room, σ'.db.saved .rooms i = some room := by
    rintro i ⟨room, hroom⟩
    have hi := hrooms i
    rw [hroom, Option.map_some] at hi
    obtain ⟨room', hroom', -⟩ := Option.map_eq_some_iff.1 hi
    exact ⟨room', hroom'⟩
  have h' := h.of_entries hd (hs.unused h hd) hstay hfiles
  exact ⟨h', .single hok ⟨hd.count .files, .scratch (funext hrooms) (funext hfiles)
    fun i e => objects_of_scratches hs h h'⟩⟩

/-- A record changes after objects that nobody needs have come and gone. -/
theorem refines_change {act : Vault.Act} (hscratch : ok .scratch) (hok : ok act)
    (hd : σ.Draws σ') (hc : Change σ.db.saved σ'.db.saved f v ρ g) (hs : σ.Scratches σ')
    (hv : ∀ r', v = some r' → σ.Continues σ' f r')
    (hact : ∀ h h', Vault.Change ((σ.vault h).withObjects (σ'.vault h').objects) (σ'.vault h') act) :
    Refines ok σ σ' := by
  intro h
  have h' := h.change hd hc (hs.unused h hd) hv
  exact ⟨h', .scratch_first hscratch hok (hd.count .files) (fun i e => objects_of_scratches hs h h')
    (hact h h')⟩

end

/-! ## Requests -/

/-- What becomes of a request: it makes steps that `ok` admits. -/
def Serial.Result (ok : Vault.Act → Prop) (σ σ' : Serial) : Prop :=
  ok .scratch → σ.Draws σ' → Refines ok σ σ'

section

variable {ok : Vault.Act → Prop} {σ σ₁ σ' : Serial} {α : Type} {env : Env} {request : Request}

/-- Nothing is committed, and only objects that nobody needs have come and gone. -/
theorem Serial.Scratches.result (hs : σ.Scratches σ') (hsaved : σ'.db.saved = σ.db.saved) :
    σ.Result ok σ' := fun hok hd =>
  refines_scratch hok hd hs (fun _ => by rw [hsaved]) fun _ => by rw [hsaved]

/-- A quiet step is no act at all. -/
theorem Serial.Quiet.result (h : σ.Quiet σ') : σ.Result ok σ' := by
  obtain ⟨_, _, _, rfl⟩ := h
  refine Serial.Scratches.result (.of_eq ?_) ?_
  · rfl
  · rfl

/-- A request with its own database session. -/
theorem refines_of_result {K : List Kind} {prog : Op α} (hok : ok .scratch)
    (honly : (withSession prog).Only (Issued env K)) (henqueue : Kind.enqueue ∉ K)
    (h : Ends prog (fun _ σ' => σ.Result ok σ') σ) :
    Ends (withSession prog) (fun _ σ' => Refines ok σ σ') σ := by
  have hresult : Ends (withSession prog) (fun _ σ' => σ.Draws σ' → Refines ok σ σ') σ := by
    refine .withSession (h.mono fun _ σ' hσ' hd => ?_)
    exact (hσ' hok ⟨hd.uuids, hd.uuidsUsed, hd.count, hd.queue⟩).rollback
  exact (hresult.and (Ends.draws honly henqueue)).mono fun _ σ' hσ' => hσ'.1 hσ'.2

/-- A check that is passed, or fails. -/
theorem ends_check {β : Type} {p : Op β} {f : β → Op α} {I : β → Prop} (hσ₁ : σ.Quiet σ₁)
    (hp : p.Only Cmd.Quiet) (hI : Yields p (fun b _ => I b) σ₁)
    (hf : ∀ b σ₂, I b → σ.Quiet σ₂ → Ends (f b) (fun _ σ' => σ.Result ok σ') σ₂) :
    Ends (p >>= f) (fun _ σ' => σ.Result ok σ') σ₁ :=
  .check_bind hp hI (fun b σ₂ hb hσ₂ => hf b σ₂ hb (hσ₁.trans hσ₂))
    fun _ _ hσ₂ => (hσ₁.trans hσ₂).result

/-- The checks of a member. -/
theorem ends_checkMember {room_token : Token} {f : SessionRecord × Room → Op α}
    (hf : ∀ session room σ₁, After.Member env room_token request σ session room → σ.Quiet σ₁ →
      Ends (f (session, room)) (fun _ σ' => σ.Result ok σ') σ₁) :
    Ends (requireMember env room_token request >>= f) (fun _ σ' => σ.Result ok σ') σ :=
  ends_check (.refl σ) quiet_requireMember
    (I := fun x => After.Member env room_token request σ x.1 x.2) (.member fun _ _ h => h)
    fun x σ₁ hm hσ₁ => hf x.1 x.2 σ₁ hm hσ₁

/-- A request that starts with `validate_csrf`. -/
theorem ends_checkCsrf {method : Method} {f : Unit → Op α} (hσ₁ : σ.Quiet σ₁)
    (hf : ∀ σ₂, σ.Quiet σ₂ → Ends (f ()) (fun _ σ' => σ.Result ok σ') σ₂) :
    Ends (validateCsrf env method request >>= f) (fun _ σ' => σ.Result ok σ') σ₁ :=
  ends_check hσ₁ quiet_validateCsrf (I := fun _ => True) (.of_forall fun _ _ => trivial)
    fun _ σ₂ _ hσ₂ => hf σ₂ hσ₂

/-- A request that goes on with the limiter. -/
theorem ends_checkLimiter {scope key : String} {limit : ℕ} {f : Unit → Op α} (hσ₁ : σ.Quiet σ₁)
    (hf : ∀ σ₂, σ.Quiet σ₂ → Ends (f ()) (fun _ σ' => σ.Result ok σ') σ₂) :
    Ends (limiterCheck env scope key limit >>= f) (fun _ σ' => σ.Result ok σ') σ₁ :=
  ends_check hσ₁ quiet_limiterCheck (I := fun _ => True) (.of_forall fun _ _ => trivial)
    fun _ σ₂ _ hσ₂ => hf σ₂ hσ₂

/-- The record that the request names. -/
theorem ends_pendingSession {room : Room} {upload_id : ℤ} {f : FileRecord → Op α}
    (hσ₁ : σ.Quiet σ₁) (hf : ∀ rec_ σ₂, σ.file upload_id = some rec_ → rec_.room_id = room.id →
      σ.Quiet σ₂ → Ends (f rec_) (fun _ σ' => σ.Result ok σ') σ₂) :
    Ends (uploads.pendingSession room upload_id >>= f) (fun _ σ' => σ.Result ok σ') σ₁ := by
  refine ends_check hσ₁ quiet_pendingSession
    (I := fun rec_ => σ.file upload_id = some rec_ ∧ rec_.room_id = room.id) ?_
    fun rec_ σ₂ hrec hσ₂ => hf rec_ σ₂ hrec.1 hrec.2 hσ₂
  obtain ⟨_, _, _, rfl⟩ := hσ₁
  refine Ends.pendingSession (fun rec_ hfile hroom => ?_) fun e => ?_
  · rintro _ ⟨⟩
    exact ⟨hfile, hroom⟩
  · rintro _ ⟨⟩

/-- A service that writes and deletes only loose objects. -/
theorem ends_scratches {p : Op α} {T : Key → Prop} (h : Sound σ) (hσ₁ : σ.Quiet σ₁)
    (hT : Handles T p) (hloose : ∀ key, T key → σ.Loose key) :
    Ends p (fun _ σ' => σ.Scratches σ') σ₁ := by
  refine (hT σ₁).mono fun _ σ' hσ' => ?_
  obtain ⟨_, _, _, rfl⟩ := hσ₁
  exact h.scratches ⟨⟨hσ'.draws.uuids, hσ'.draws.uuidsUsed, hσ'.draws.count, hσ'.draws.queue⟩,
    fun key hkey => hσ'.kept key fun hT' => hkey (hloose key hT')⟩

/-- A service whose outcome is committed. -/
theorem ends_commit {β : Type} {K : List Kind} {p : Op β} {f : β → Op α} {Q : β → Serial → Prop}
    (hσ₁ : σ.Quiet σ₁) (honly : p.Only (Issued env K)) (hcommit : Kind.commit ∉ K)
    (hf : ∀ b, (f b).Only Cmd.Quiet) (hs : Ends p (fun _ σ' => σ.Scratches σ') σ₁)
    (hp : Yields p Q σ₁)
    (hQ : ∀ b σ₂ σ', Q b σ₂ → Serial.Quiet { σ₂ with db := σ₂.db.commit } σ' → σ.Draws σ' →
      σ.Scratches σ' → Refines ok σ σ') :
    Ends (p >>= fun b => commit >>= fun _ => f b) (fun _ σ' => σ.Result ok σ') σ₁ := by
  have hsaved : σ₁.db.saved = σ.db.saved := by
    obtain ⟨_, _, _, rfl⟩ := hσ₁
    rfl
  have hposts : Posts σ.db.saved (fun σ' => σ.Draws σ' → σ.Scratches σ' → Refines ok σ σ')
      (p >>= fun b => commit >>= fun _ => f b) σ₁ :=
    .bind honly hcommit hsaved (hp.mono fun b σ₂ hb hσ₂ =>
      .commit_bind (hf b) hσ₂ fun σ' hσ' hd hs => hQ b σ₂ σ' hb hσ' hd hs)
  -- The `COMMIT` and what follows it leave the objects and the keys alone.
  have hscratches : Ends (p >>= fun b => commit >>= fun _ => f b) (fun _ σ' => σ.Scratches σ') σ₁ := by
    refine Ends.bind (hs.mono ?_)
    rintro (e | b) σ₂ hσ₂
    · exact hσ₂
    · refine Ends.bind (Ends.commit (Ends.quiet (hf b) fun _ σ' hσ' => ?_) fun _ => hσ₂)
      obtain ⟨_, _, _, rfl⟩ := hσ'
      exact ⟨hσ₂.loose, hσ₂.past⟩
  refine (hposts.and hscratches).mono ?_
  rintro _ σ' ⟨hsaved | hrefines, hs⟩
  · exact hs.result hsaved
  · exact fun _ hd => hrefines hd hs

end

end DropRoom
