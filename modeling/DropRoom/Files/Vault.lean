import DropRoom.App.World
import DropRoom.Store.Register
import Mathlib.Tactic.Abel

/-!
# The vault

What the server is for, as far as files go: rooms have an account, files are entered under the room
that they belong to, and the bytes of a confirmed file are in storage under its key. The operations
on a vault (`Vault.Change`) say which entries, accounts and objects may change together; what they
leave of the accounts and of the bytes is proved here, and the server is shown elsewhere to do
nothing else.
-/

namespace DropRoom

open Store

/-- A key is known from its text. -/
theorem Uuid.eq_of_text {u u' : Uuid} (h : u.text = u'.text) : u = u' := by
  cases u
  cases u'
  cases h
  rfl

/-- What the books say of a room. -/
structure RoomAccount where
  status : RoomStatus
  storage_used_bytes : ℤ
  file_count : ℤ

/-- What the books say of a file. -/
structure FileEntry where
  room_id : ℕ
  storage_key : Uuid
  status : FileStatus
  size_bytes : ℕ

/-- The account with more bytes and files. -/
def RoomAccount.add (a : RoomAccount) (bytes files : ℤ) : RoomAccount :=
  { a with
    storage_used_bytes := a.storage_used_bytes + bytes
    file_count := a.file_count + files }

/-- The books, and the objects by their keys. Every entry belongs to an account, and no two have the
same key. -/
structure Vault where
  account : ℕ → Option RoomAccount
  entries : Register FileEntry
  objects : Key → Option Bytes
  owned : ∀ f e, entries.entry f = some e → ∃ a, account e.room_id = some a
  distinct : ∀ f g e e', entries.entry f = some e → entries.entry g = some e' →
    e.storage_key = e'.storage_key → f = g

/-- What may happen to a vault: a room or one of its files is concerned. -/
inductive Vault.Act
  | scratch
  | opens
  | reserve (ρ f : ℕ)
  | stage (ρ f : ℕ)
  | confirm (ρ f : ℕ)
  | release (ρ f : ℕ)
  | expire (ρ f : ℕ)
  | abort (ρ f : ℕ)
  | close (ρ : ℕ)
  | lose (ρ f : ℕ)
  deriving DecidableEq

namespace Vault

/-- What each act changes. -/
inductive Change (v v' : Vault) : Act → Prop
  /-- Objects that are no confirmed file's come and go. -/
  | scratch (ha : v'.account = v.account) (he : v'.entries.entry = v.entries.entry)
      (ho : ∀ f e, v.entries.entry f = some e → e.status = .confirmed →
        v'.objects e.storage_key.text = v.objects e.storage_key.text) : Change v v' .scratch
  /-- Rooms are opened. -/
  | opens (ha : ∀ ρ, v'.account ρ = v.account ρ ∨
        v.account ρ = none ∧ v'.account ρ = some ⟨.active, 0, 0⟩)
      (he : v'.entries.entry = v.entries.entry) (ho : v'.objects = v.objects) :
      Change v v' .opens
  /-- An entry is made for a file to come. -/
  | reserve {f : ℕ} {e : FileEntry} (hf : v.entries.bound ≤ f)
      (hp : e.status = .pending) (ha : v'.account = v.account)
      (he : v'.entries.entry = Function.update v.entries.entry f (some e))
      (ho : v'.objects = v.objects) : Change v v' (.reserve e.room_id f)
  /-- More of a file to come is there. -/
  | stage {f n : ℕ} {e : FileEntry} (hf : v.entries.entry f = some e)
      (hp : e.status = .pending) (ha : v'.account = v.account)
      (he : v'.entries.entry = Function.update v.entries.entry f (some { e with size_bytes := n }))
      (ho : v'.objects = v.objects) : Change v v' (.stage e.room_id f)
  /-- A file whose bytes are there is confirmed, and its room is charged. -/
  | confirm {f : ℕ} {e : FileEntry} {a : RoomAccount} {data : Bytes}
      (hf : v.entries.entry f = some e) (hp : e.status = .pending)
      (hρ : v.account e.room_id = some a) (hactive : a.status = .active)
      (hdata : v.objects e.storage_key.text = some data)
      (ha : v'.account = Function.update v.account e.room_id (some (a.add data.length 1)))
      (he : v'.entries.entry = Function.update v.entries.entry f
        (some { e with status := .confirmed, size_bytes := data.length }))
      (ho : v'.objects = v.objects) : Change v v' (.confirm e.room_id f)
  /-- A file is given up, and its room is credited. -/
  | release {f : ℕ} {e : FileEntry} {a : RoomAccount}
      (hf : v.entries.entry f = some e) (hc : e.status = .confirmed)
      (hρ : v.account e.room_id = some a)
      (ha : v'.account = Function.update v.account e.room_id (some (a.add (-e.size_bytes) (-1))))
      (he : v'.entries.entry =
        Function.update v.entries.entry f (some { e with status := .deleted }))
      (ho : v'.objects = v.objects) : Change v v' (.release e.room_id f)
  /-- A file that has not come is given up. -/
  | expire {f : ℕ} {e : FileEntry} (hf : v.entries.entry f = some e)
      (hp : e.status = .pending) (ha : v'.account = v.account)
      (he : v'.entries.entry = Function.update v.entries.entry f none)
      (ho : v'.objects = v.objects) : Change v v' (.expire e.room_id f)
  /-- An entry is struck out, whatever it says. -/
  | abort {f : ℕ} {e : FileEntry} (hf : v.entries.entry f = some e)
      (ha : v'.account = v.account)
      (he : v'.entries.entry = Function.update v.entries.entry f none)
      (ho : v'.objects = v.objects) : Change v v' (.abort e.room_id f)
  /-- A room is closed with all its files. -/
  | close {ρ : ℕ} {a : RoomAccount} (hρ : v.account ρ = some a)
      (ha : v'.account = Function.update v.account ρ (some { a with status := .deleted }))
      (he : ∀ f, v'.entries.entry f = (v.entries.entry f).filter fun e => e.room_id != ρ)
      (ho : v'.objects = v.objects) : Change v v' (.close ρ)
  /-- The bytes of a file are lost. -/
  | lose {f : ℕ} {e : FileEntry} (hf : v.entries.entry f = some e)
      (hc : e.status = .confirmed) (ha : v'.account = v.account)
      (he : v'.entries.entry = v.entries.entry)
      (ho : v'.objects = Function.update v.objects e.storage_key.text none) :
      Change v v' (.lose e.room_id f)

/-- A step of a vault. Numbers of entries are not used again. -/
structure Step (act : Act) (v v' : Vault) : Prop where
  bound : v.entries.bound ≤ v'.entries.bound
  change : Change v v' act

/-- Steps of which each is admitted. -/
def Run (ok : Act → Prop) : Vault → Vault → Prop :=
  Relation.ReflTransGen fun v v' => ∃ act, ok act ∧ Step act v v'

section

variable {v v' : Vault}

/-- What one step keeps, a run keeps. -/
theorem Run.preserves {ok : Act → Prop} {P : Vault → Prop}
    (hstep : ∀ act v v', ok act → Step act v v' → P v → P v') (h : Run ok v v')
    (hv : P v) : P v' := by
  induction h with
  | refl => exact hv
  | tail _ hlast ih =>
    obtain ⟨act, hok, hs⟩ := hlast
    exact hstep act _ _ hok hs ih

/-- A run may be allowed more. -/
theorem Run.mono {ok ok' : Act → Prop} (hok : ∀ act, ok act → ok' act) {v v' : Vault}
    (h : Run ok v v') : Run ok' v v' := by
  refine Relation.ReflTransGen.mono ?_ _ _ h
  rintro v v' ⟨act, hact, hs⟩
  exact ⟨act, hok act hact, hs⟩

/-- One step is a run. -/
theorem Run.single {ok : Act → Prop} {act : Act} (hok : ok act)
    (h : Step act v v') : Run ok v v' :=
  Relation.ReflTransGen.single ⟨act, hok, h⟩

/-- The books of a vault with other objects. -/
def withObjects (v : Vault) (objects : Key → Option Bytes) : Vault := { v with objects }

/-- The objects of no confirmed file are changed first. -/
theorem Run.scratch_first {ok : Act → Prop} {act : Act} (hscratch : ok .scratch) (hok : ok act)
    (hbound : v.entries.bound ≤ v'.entries.bound)
    (ho : ∀ f e, v.entries.entry f = some e → e.status = .confirmed →
      v'.objects e.storage_key.text = v.objects e.storage_key.text)
    (h : Change (v.withObjects v'.objects) v' act) : Run ok v v' :=
  .head (b := v.withObjects v'.objects) ⟨.scratch, hscratch, le_rfl, .scratch rfl rfl ho⟩
    (.single ⟨act, hok, hbound, h⟩)

/-- The objects of no confirmed file are changed last. -/
theorem Run.scratch_last {ok : Act → Prop} {act : Act} (hscratch : ok .scratch) (hok : ok act)
    (hbound : v.entries.bound ≤ v'.entries.bound)
    (ho : ∀ f e, v'.entries.entry f = some e → e.status = .confirmed →
      v'.objects e.storage_key.text = v.objects e.storage_key.text)
    (h : Change v (v'.withObjects v.objects) act) : Run ok v v' :=
  .head (b := v'.withObjects v.objects) ⟨act, hok, hbound, h⟩
    (.single ⟨.scratch, hscratch, le_rfl, .scratch rfl rfl ho⟩)

/-- The vault with a new entry. -/
def enter (v : Vault) (f : ℕ) (e : FileEntry) (hroom : ∃ a, v.account e.room_id = some a)
    (hkey : ∀ g e', v.entries.entry g = some e' → e'.storage_key ≠ e.storage_key) : Vault where
  account := v.account
  entries :=
    { entry := Function.update v.entries.entry f (some e)
      bound := max v.entries.bound (f + 1)
      entry_lt := fun i e' he' => by
        by_cases hi : i = f
        · omega
        · rw [Function.update_of_ne hi] at he'
          have hlt := v.entries.entry_lt i e' he'
          omega }
  objects := v.objects
  owned i e' he' := by
    change Function.update v.entries.entry f (some e) i = some e' at he'
    by_cases hi : i = f
    · rw [hi, Function.update_self] at he'
      cases he'
      exact hroom
    · rw [Function.update_of_ne hi] at he'
      exact v.owned i e' he'
  distinct i j e₁ e₂ h₁ h₂ heq := by
    change Function.update v.entries.entry f (some e) i = some e₁ at h₁
    change Function.update v.entries.entry f (some e) j = some e₂ at h₂
    by_cases hi : i = f
    · by_cases hj : j = f
      · rw [hi, hj]
      · rw [hi, Function.update_self] at h₁
        rw [Function.update_of_ne hj] at h₂
        cases h₁
        exact absurd heq.symm (hkey j e₂ h₂)
    · by_cases hj : j = f
      · rw [hj, Function.update_self] at h₂
        rw [Function.update_of_ne hi] at h₁
        cases h₂
        exact absurd heq (hkey i e₁ h₁)
      · rw [Function.update_of_ne hi] at h₁
        rw [Function.update_of_ne hj] at h₂
        exact v.distinct i j e₁ e₂ h₁ h₂ heq

/-- A new file that is confirmed at once. -/
theorem Run.upload {ok : Act → Prop} {f : ℕ} {e : FileEntry} {a : RoomAccount} {data : Bytes}
    (hscratch : ok .scratch) (hreserve : ok (.reserve e.room_id f))
    (hconfirm : ok (.confirm e.room_id f)) (hf : v.entries.bound ≤ f) (hp : e.status = .pending)
    (hroom : v.account e.room_id = some a) (hactive : a.status = .active)
    (hkey : ∀ g e', v.entries.entry g = some e' → e'.storage_key ≠ e.storage_key)
    (hdata : v'.objects e.storage_key.text = some data)
    (ha : v'.account = Function.update v.account e.room_id (some (a.add data.length 1)))
    (he : v'.entries.entry = Function.update v.entries.entry f
      (some { e with status := .confirmed, size_bytes := data.length }))
    (ho : ∀ g e', v.entries.entry g = some e' → e'.status = .confirmed →
      v'.objects e'.storage_key.text = v.objects e'.storage_key.text) : Run ok v v' := by
  have hlt : f < v'.entries.bound :=
    v'.entries.entry_lt f _ (by rw [he, Function.update_self])
  have hreserved : Change v (v.enter f e ⟨a, hroom⟩ hkey) (.reserve e.room_id f) :=
    .reserve (e := e) hf hp rfl rfl rfl
  refine .head ⟨.reserve e.room_id f, hreserve, le_max_left _ _, hreserved⟩ ?_
  have hle : (v.enter f e ⟨a, hroom⟩ hkey).entries.bound ≤ v'.entries.bound :=
    max_le (by omega) hlt
  refine Run.scratch_first hscratch hconfirm hle (fun g e' hg hc => ?_)
    (.confirm (f := f) (e := e) (Function.update_self ..) hp hroom hactive hdata ha ?_ rfl)
  · -- The new entry is pending, the others are as before.
    change Function.update v.entries.entry f (some e) g = some e' at hg
    by_cases hgf : g = f
    · rw [hgf, Function.update_self] at hg
      cases hg
      rw [hp] at hc
      cases hc
    · rw [Function.update_of_ne hgf] at hg
      exact ho g e' hg hc
  · change _ = Function.update (Function.update v.entries.entry f (some e)) f _
    rw [Function.update_idem, he]

end

/-! ## The accounts -/

/-- What a file counts for in the account of room `ρ`: its bytes, and one file, once it is
confirmed. -/
def measure (ρ : ℕ) (e : FileEntry) : ℤ × ℤ :=
  if e.room_id = ρ ∧ e.status = .confirmed then (e.size_bytes, 1) else 0

/-- What the account of a room says of its files. -/
def charged (v : Vault) (ρ : ℕ) : ℤ × ℤ :=
  Register.weight (fun a : RoomAccount => (a.storage_used_bytes, a.file_count)) (v.account ρ)

/-- By how much the account of a room differs from the files that are entered for it. -/
def off (v : Vault) (ρ : ℕ) : ℤ × ℤ := v.charged ρ - v.entries.total (measure ρ)

/-- What an act strikes out of the entries of a room while the account keeps it. -/
def struck (v : Vault) (ρ : ℕ) : Act → ℤ × ℤ
  | .abort _ f => Register.weight (measure ρ) (v.entries.entry f)
  | _ => 0

section

variable {v v' : Vault} {ρ : ℕ} {act : Act}

/-- A file of another room does not count. -/
theorem measure_of_room {e : FileEntry} (h : e.room_id ≠ ρ) : measure ρ e = 0 := if_neg fun he => h he.1

/-- A file that is not confirmed does not count. -/
theorem measure_of_status {e : FileEntry} (h : e.status ≠ .confirmed) : measure ρ e = 0 :=
  if_neg fun he => h he.2

/-- The accounts of the other rooms stay. -/
theorem charged_of_ne {σ : ℕ} {a : Option RoomAccount}
    (ha : v'.account = Function.update v.account σ a) (h : σ ≠ ρ) : v'.charged ρ = v.charged ρ := by
  unfold charged
  rw [ha, Function.update_of_ne h.symm]

/-- What is added to one account. -/
theorem charged_add {σ : ℕ} {a : RoomAccount} {bytes files : ℤ} (hσ : v.account σ = some a)
    (ha : v'.account = Function.update v.account σ (some (a.add bytes files))) :
    v'.charged σ = v.charged σ + (bytes, files) := by
  unfold charged
  rw [ha, Function.update_self, hσ]
  rfl

/-- A step other than the closing of the room moves the account as it moves the files, unless it
strikes an entry out. -/
theorem off_step (h : Step act v v') (hclose : act ≠ .close ρ) :
    v'.off ρ = v.off ρ + v.struck ρ act := by
  have hsame : v'.account = v.account → v'.charged ρ = v.charged ρ := fun ha => by
    unfold charged
    rw [ha]
  have hentries : v'.entries.entry = v.entries.entry →
      v'.entries.total (measure ρ) = v.entries.total (measure ρ) := fun he =>
    Register.total_congr _ fun i => by rw [he]
  unfold off struck
  cases h.change with
  | scratch ha he ho => rw [hsame ha, hentries he, add_zero]
  | opens ha he ho =>
    rw [hentries he, add_zero]
    rcases ha ρ with hkept | ⟨hnone, hopened⟩
    · rw [charged, hkept, charged]
    · rw [charged, hopened, charged, hnone]
      rfl
  -- A pending entry does not count.
  | @reserve f e hf hp ha he ho =>
    have hnone : v.entries.entry f = none := by
      refine Option.eq_none_iff_forall_ne_some.2 fun e' he' => ?_
      exact absurd (v.entries.entry_lt f e' he') (Nat.not_lt.2 hf)
    rw [hsame ha, Register.total_update _ he, hnone, Register.weight_none, Register.weight_some,
      measure_of_status (by rw [hp]; decide), sub_zero, add_zero, add_zero]
  | @stage f n e hf hp ha he ho =>
    rw [hsame ha, Register.total_update _ he, hf, Register.weight_some, Register.weight_some,
      measure_of_status (by rw [hp]; decide), measure_of_status (by simp [hp]), sub_zero, add_zero,
      add_zero]
  -- The account grows by what the entry counts from now on.
  | @confirm f e a data hf hp hσ hactive hdata ha he ho =>
    rw [Register.total_update _ he, hf, Register.weight_some, Register.weight_some,
      measure_of_status (e := e) (by rw [hp]; decide), sub_zero, add_zero]
    by_cases hρ : e.room_id = ρ
    · subst hρ
      rw [charged_add hσ ha, measure, if_pos ⟨rfl, rfl⟩, add_sub_add_right_eq_sub]
    · rw [charged_of_ne ha hρ, measure_of_room (by exact hρ), add_zero]
  -- And it shrinks by what the entry has counted.
  | @release f e a hf hc hσ ha he ho =>
    rw [Register.total_update _ he, hf, Register.weight_some, Register.weight_some,
      measure_of_status (e := { e with status := .deleted }) (by simp), add_zero, add_zero]
    by_cases hρ : e.room_id = ρ
    · subst hρ
      have hneg : ((-e.size_bytes : ℤ), (-1 : ℤ)) = -((e.size_bytes : ℤ), (1 : ℤ)) := rfl
      rw [charged_add hσ ha, measure, if_pos ⟨rfl, hc⟩, hneg]
      abel
    · rw [charged_of_ne ha hρ, measure_of_room hρ, sub_zero]
  | @expire f e hf hp ha he ho =>
    rw [hsame ha, Register.total_update _ he, hf, Register.weight_some, Register.weight_none,
      measure_of_status (by rw [hp]; decide), sub_zero, add_zero, add_zero]
  -- Here the account stays: what a confirmed entry counted is struck.
  | @abort f e hf ha he ho =>
    rw [hsame ha, Register.total_update _ he, Register.weight_none, add_zero]
    abel
  -- Another room is closed.
  | @close σ a hσ ha he ho =>
    have hρ : σ ≠ ρ := fun hρ => hclose (by rw [hρ])
    rw [charged_of_ne ha hρ, add_zero]
    congr 1
    refine Register.total_congr _ fun i => ?_
    rw [he]
    -- An entry that is filtered out belongs to the other room.
    cases hi : v.entries.entry i with
    | none => rfl
    | some e =>
      by_cases hroom : e.room_id = σ
      · rw [Register.weight_some, measure_of_room (by rw [hroom]; exact hρ)]
        simp [Option.filter, hroom]
      · simp [Option.filter, hroom]
  | lose hf hc ha he ho => rw [hsame ha, hentries he, add_zero]

/-- A closed room stays closed. -/
theorem closed_step (h : Step act v v') {a : RoomAccount} (hρ : v.account ρ = some a)
    (hclosed : a.status = .deleted) : ∃ a', v'.account ρ = some a' ∧ a'.status = .deleted := by
  have hupdate : ∀ {σ : ℕ} {b b' : RoomAccount}, v.account σ = some b →
      v'.account = Function.update v.account σ (some b') →
      (b.status = .deleted → b'.status = .deleted) →
      ∃ a', v'.account ρ = some a' ∧ a'.status = .deleted := by
    intro σ b b' hσ ha hb
    by_cases hρσ : ρ = σ
    · subst hρσ
      obtain rfl := Option.some.inj (hρ.symm.trans hσ)
      exact ⟨b', by rw [ha, Function.update_self], hb hclosed⟩
    · exact ⟨a, by rw [ha, Function.update_of_ne hρσ, hρ], hclosed⟩
  have hsame : v'.account = v.account → ∃ a', v'.account ρ = some a' ∧ a'.status = .deleted :=
    fun ha => ⟨a, by rw [ha, hρ], hclosed⟩
  cases h.change with
  | scratch ha => exact hsame ha
  | opens ha =>
    rcases ha ρ with hkept | ⟨hnone, -⟩
    · exact ⟨a, hkept.trans hρ, hclosed⟩
    · rw [hρ] at hnone
      cases hnone
  | reserve hf hp ha => exact hsame ha
  | stage hf hp ha => exact hsame ha
  | confirm hf hp hσ hactive hdata ha => exact hupdate hσ ha id
  | release hf hc hσ ha => exact hupdate hσ ha id
  | expire hf hp ha => exact hsame ha
  | abort hf ha => exact hsame ha
  | close hσ ha => exact hupdate hσ ha fun _ => rfl
  | lose hf hc ha => exact hsame ha

/-- The room is closed. -/
def Closed (v : Vault) (ρ : ℕ) : Prop := ∃ a, v.account ρ = some a ∧ a.status = .deleted

/-- A closed room stays closed. -/
theorem Run.closed {ok : Act → Prop} (h : Run ok v v') (hρ : v.Closed ρ) : v'.Closed ρ := by
  refine h.preserves (P := fun v => v.Closed ρ) ?_ hρ
  rintro act v v' - hs ⟨a, ha, hclosed⟩
  exact closed_step hs ha hclosed

/-- A run that strikes nothing out keeps the account of a room that is not closed. -/
theorem Run.off {ok : Act → Prop} (h : Run ok v v') (habort : ∀ ρ f, ¬ok (.abort ρ f)) :
    v'.Closed ρ ∨ v'.off ρ = v.off ρ := by
  refine h.preserves (P := fun v' => v'.Closed ρ ∨ v'.off ρ = v.off ρ) ?_ (.inr rfl)
  rintro act v₁ v₂ hok hs (⟨a, ha, hclosed⟩ | hoff)
  · exact .inl (closed_step hs ha hclosed)
  · by_cases hclose : act = .close ρ
    · subst hclose
      cases hs.change with
      | close hρ ha => exact .inl ⟨_, by rw [ha, Function.update_self], rfl⟩
    · rw [off_step hs hclose, hoff]
      cases act with
      | abort ρ' f => exact absurd hok (habort ρ' f)
      | _ => exact .inr (add_zero _)

/-- A run that can only strike out one entry. -/
theorem Run.off_abort {ok : Act → Prop} {f : ℕ} (h : Run ok v v')
    (hok : ∀ act, ok act → act = .scratch ∨ ∃ ρ', act = .abort ρ' f) :
    v'.off ρ + Register.weight (measure ρ) (v'.entries.entry f) =
      v.off ρ + Register.weight (measure ρ) (v.entries.entry f) := by
  refine h.preserves (P := fun v' => v'.off ρ + Register.weight (measure ρ) (v'.entries.entry f) =
    v.off ρ + Register.weight (measure ρ) (v.entries.entry f)) ?_ rfl
  rintro act v₁ v₂ hact hs hoff
  rw [← hoff]
  rcases hok act hact with rfl | ⟨ρ', rfl⟩
  · rw [off_step hs (by simp)]
    cases hs.change with
    | scratch ha he ho =>
      rw [he]
      exact congrArg (fun x => x + _) (add_zero _)
  · rw [off_step hs (by simp)]
    cases hs.change with
    | abort hf ha he ho => rw [he, Function.update_self, struck, Register.weight_none, add_zero]

/-! ## The bytes -/

/-- The file is confirmed with these bytes in storage. -/
def Keeps (v : Vault) (f : ℕ) (e : FileEntry) (data : Bytes) : Prop :=
  v.entries.entry f = some e ∧ e.status = .confirmed ∧ v.objects e.storage_key.text = some data

/-- The number is used up: no file is confirmed under it any more. -/
def Gone (v : Vault) (f : ℕ) : Prop :=
  f < v.entries.bound ∧ ∀ e, v.entries.entry f = some e → e.status = .deleted

/-- A step leaves a confirmed entry as it is, or it is one of those that take the file away. -/
theorem entry_step (h : Step act v v') {f : ℕ} {e : FileEntry} (hentry : v.entries.entry f = some e)
    (hconfirmed : e.status = .confirmed) :
    v'.entries.entry f = some e ∨ v'.Gone f ∧
      (act = .release e.room_id f ∨ act = .abort e.room_id f ∨ act = .close e.room_id) := by
  have hbound : f < v'.entries.bound := (v.entries.entry_lt f e hentry).trans_le h.bound
  have hsame : v'.entries.entry = v.entries.entry → v'.entries.entry f = some e := fun he => by
    rw [he, hentry]
  have hother : ∀ {g : ℕ} {w : Option FileEntry}, f ≠ g →
      v'.entries.entry = Function.update v.entries.entry g w → v'.entries.entry f = some e :=
    fun hg he => by rw [he, Function.update_of_ne hg, hentry]
  -- What happens to a pending entry does not happen to this one.
  have hpending : ∀ {g : ℕ} {e' : FileEntry}, v.entries.entry g = some e' → e'.status = .pending →
      f ≠ g := by
    rintro g e' hg hp rfl
    obtain rfl := Option.some.inj (hentry.symm.trans hg)
    rw [hp] at hconfirmed
    cases hconfirmed
  cases h.change with
  | scratch ha he ho => exact .inl (hsame he)
  | opens ha he ho => exact .inl (hsame he)
  | reserve hg hp ha he ho =>
    have hlt := v.entries.entry_lt f e hentry
    exact .inl (hother (by omega) he)
  | stage hg hp ha he ho => exact .inl (hother (hpending hg hp) he)
  | confirm hg hp hρ hactive hbytes ha he ho => exact .inl (hother (hpending hg hp) he)
  | expire hg hp ha he ho => exact .inl (hother (hpending hg hp) he)
  | @release g e' a hg hc hρ ha he ho =>
    by_cases hfg : f = g
    · subst hfg
      obtain rfl := Option.some.inj (hentry.symm.trans hg)
      refine .inr ⟨⟨hbound, fun e' he' => ?_⟩, .inl rfl⟩
      rw [he, Function.update_self] at he'
      cases he'
      rfl
    · exact .inl (hother hfg he)
  | @abort g e' hg ha he ho =>
    by_cases hfg : f = g
    · subst hfg
      obtain rfl := Option.some.inj (hentry.symm.trans hg)
      refine .inr ⟨⟨hbound, fun e' he' => ?_⟩, .inr (.inl rfl)⟩
      rw [he, Function.update_self] at he'
      cases he'
    · exact .inl (hother hfg he)
  -- A room that is closed takes its entries with it.
  | @close σ a hσ ha he ho =>
    by_cases hroom : e.room_id = σ
    · subst hroom
      refine .inr ⟨⟨hbound, fun e' he' => ?_⟩, .inr (.inr rfl)⟩
      rw [he, hentry] at he'
      simp [Option.filter] at he'
    · refine .inl ?_
      rw [he, hentry]
      simp [Option.filter, hroom]
  | lose hg hc ha he ho => exact .inl (hsame he)

/-- A step leaves the bytes of a confirmed file, or loses them. -/
theorem object_step (h : Step act v v') {f : ℕ} {e : FileEntry} (hentry : v.entries.entry f = some e)
    (hconfirmed : e.status = .confirmed) :
    v'.objects e.storage_key.text = v.objects e.storage_key.text ∨ act = .lose e.room_id f := by
  cases h.change with
  | scratch ha he ho => exact .inl (ho f e hentry hconfirmed)
  | @lose g e' hg hc ha he ho =>
    by_cases hkey : e.storage_key = e'.storage_key
    · obtain rfl := v.distinct f g e e' hentry hg hkey
      obtain rfl := Option.some.inj (hentry.symm.trans hg)
      exact .inr rfl
    · rw [ho, Function.update_of_ne fun htext => hkey (Uuid.eq_of_text htext)]
      exact .inl rfl
  | opens ha he ho => exact .inl (by rw [ho])
  | reserve hg hp ha he ho => exact .inl (by rw [ho])
  | stage hg hp ha he ho => exact .inl (by rw [ho])
  | confirm hg hp hρ hactive hbytes ha he ho => exact .inl (by rw [ho])
  | release hg hc hρ ha he ho => exact .inl (by rw [ho])
  | expire hg hp ha he ho => exact .inl (by rw [ho])
  | abort hg ha he ho => exact .inl (by rw [ho])
  | close hσ ha he ho => exact .inl (by rw [ho])

/-- A step keeps a confirmed file with its bytes, or it is one of those that take the file away. -/
theorem keeps_step (h : Step act v v') {f : ℕ} {e : FileEntry} {data : Bytes} (hf : v.Keeps f e data) :
    v'.Keeps f e data ∨ act = .lose e.room_id f ∨ v'.Gone f ∧
      (act = .release e.room_id f ∨ act = .abort e.room_id f ∨ act = .close e.room_id) := by
  obtain ⟨hentry, hconfirmed, hdata⟩ := hf
  rcases entry_step h hentry hconfirmed with hentry' | hgone
  · exact (object_step h hentry hconfirmed).imp
      (fun hobject => ⟨hentry', hconfirmed, hobject.trans hdata⟩) .inl
  · exact .inr (.inr hgone)

/-- A number that is used up is not used again. -/
theorem gone_step (h : Step act v v') {f : ℕ} (hf : v.Gone f) : v'.Gone f := by
  obtain ⟨hlt, hdeleted⟩ := hf
  refine ⟨hlt.trans_le h.bound, ?_⟩
  have hsame : v'.entries.entry = v.entries.entry →
      ∀ e, v'.entries.entry f = some e → e.status = .deleted := fun he e hfe =>
    hdeleted e (by rw [← he, hfe])
  -- An entry that is written elsewhere, or written deleted, leaves it gone.
  have hupdate : ∀ {g : ℕ} {w : Option FileEntry},
      v'.entries.entry = Function.update v.entries.entry g w →
      (f = g → ∀ e, w = some e → e.status = .deleted) →
      ∀ e, v'.entries.entry f = some e → e.status = .deleted := by
    intro g w he hg e hfe
    by_cases hfg : f = g
    · subst hfg
      rw [he, Function.update_self] at hfe
      exact hg rfl e hfe
    · rw [he, Function.update_of_ne hfg] at hfe
      exact hdeleted e hfe
  have hpending : ∀ {g : ℕ} {e : FileEntry}, v.entries.entry g = some e → e.status = .pending →
      f ≠ g := by
    rintro g e hg hp rfl
    rw [hdeleted e hg] at hp
    cases hp
  cases h.change with
  | scratch ha he ho => exact hsame he
  | opens ha he ho => exact hsame he
  -- A new entry has a number from the bound on.
  | reserve hg hp ha he ho => exact hupdate he fun hfg => by omega
  | stage hg hp ha he ho => exact hupdate he fun hfg => absurd hfg (hpending hg hp)
  | confirm hg hp hρ hactive hbytes ha he ho =>
    exact hupdate he fun hfg => absurd hfg (hpending hg hp)
  | expire hg hp ha he ho => exact hupdate he fun _ e h => by cases h
  | release hg hc hρ ha he ho =>
    refine hupdate he fun _ e h => ?_
    cases h
    rfl
  | abort hg ha he ho => exact hupdate he fun _ e h => by cases h
  | close hσ ha he ho =>
    intro e hfe
    rw [he, Option.filter_eq_some_iff] at hfe
    exact hdeleted e hfe.1
  | lose hg hc ha he ho => exact hsame he

/-- What a run makes of a confirmed entry: it stays as it is, or the file is taken away for good. -/
theorem Run.entry {ok : Act → Prop} (h : Run ok v v') {f : ℕ} {e : FileEntry}
    (hentry : v.entries.entry f = some e) (hconfirmed : e.status = .confirmed) :
    v'.entries.entry f = some e ∨ v'.Gone f ∧
      (ok (.release e.room_id f) ∨ ok (.abort e.room_id f) ∨ ok (.close e.room_id)) := by
  refine h.preserves (P := fun v' => v'.entries.entry f = some e ∨ v'.Gone f ∧
    (ok (.release e.room_id f) ∨ ok (.abort e.room_id f) ∨ ok (.close e.room_id))) ?_ (.inl hentry)
  rintro act v₁ v₂ hok hs (hentry₁ | ⟨hgone, hact⟩)
  · refine (entry_step hs hentry₁ hconfirmed).imp id (And.imp_right ?_)
    rintro (rfl | rfl | rfl)
    · exact .inl hok
    · exact .inr (.inl hok)
    · exact .inr (.inr hok)
  · exact .inr ⟨gone_step hs hgone, hact⟩

/-- A number that is used up stays so. -/
theorem Run.gone {ok : Act → Prop} (h : Run ok v v') {f : ℕ} (hf : v.Gone f) : v'.Gone f :=
  h.preserves (P := fun v => v.Gone f) (fun _ _ _ _ hs hgone => gone_step hs hgone) hf

/-- In a run that loses no bytes, a file that is confirmed in the end as in the beginning is the same
file with the same bytes. -/
theorem Run.keeps {ok : Act → Prop} (h : Run ok v v') {f : ℕ} {e : FileEntry} {data : Bytes}
    (hlose : ¬ok (.lose e.room_id f)) (hf : v.Keeps f e data) : v'.Keeps f e data ∨ v'.Gone f := by
  refine h.preserves (P := fun v => v.Keeps f e data ∨ v.Gone f) ?_ (.inl hf)
  rintro act v v' hok hs (hkeeps | hgone)
  · rcases keeps_step hs hkeeps with hkept | rfl | ⟨hgone, -⟩
    · exact .inl hkept
    · exact absurd hok hlose
    · exact .inr hgone
  · exact .inr (gone_step hs hgone)

/-- The bytes of every confirmed file are in storage, as many as its entry says, unless they were
lost. -/
def Intact (lost : ℕ → ℕ → Prop) (v : Vault) : Prop :=
  ∀ f e, v.entries.entry f = some e → e.status = .confirmed → lost e.room_id f ∨
    ∃ data, v.objects e.storage_key.text = some data ∧ data.length = e.size_bytes

/-- Only a step that loses bytes leaves a confirmed file without them. -/
theorem intact_step {lost : ℕ → ℕ → Prop} (h : Step act v v')
    (hlose : ∀ ρ f, act = .lose ρ f → lost ρ f) (hv : v.Intact lost) : v'.Intact lost := by
  intro f e hf hc
  -- An entry that was confirmed already has its object, unless this very step loses it.
  have hkept : v.entries.entry f = some e → lost e.room_id f ∨
      ∃ data, v'.objects e.storage_key.text = some data ∧ data.length = e.size_bytes := by
    intro hf₀
    rcases hv f e hf₀ hc with hlost | ⟨data, hdata, hlength⟩
    · exact .inl hlost
    · rcases object_step h hf₀ hc with hobject | hact
      · exact .inr ⟨data, hobject.trans hdata, hlength⟩
      · exact .inl (hlose _ _ hact)
  -- A step that writes an entry without confirming it leaves the confirmed ones.
  have hupdate : ∀ {g : ℕ} {w : Option FileEntry},
      v'.entries.entry = Function.update v.entries.entry g w →
      (∀ e, w = some e → e.status ≠ .confirmed) → lost e.room_id f ∨
      ∃ data, v'.objects e.storage_key.text = some data ∧ data.length = e.size_bytes := by
    intro g w he hw
    by_cases hfg : f = g
    · subst hfg
      rw [he, Function.update_self] at hf
      exact absurd hc (hw e hf)
    · rw [he, Function.update_of_ne hfg] at hf
      exact hkept hf
  cases h.change with
  | scratch ha he ho => exact hkept (by rw [← he, hf])
  | opens ha he ho => exact hkept (by rw [← he, hf])
  | reserve hg hp ha he ho =>
    refine hupdate he fun e' he' => ?_
    cases he'
    rw [hp]
    decide
  | @stage g n e' hg hp ha he ho =>
    refine hupdate he fun e₁ he₁ => ?_
    cases he₁
    change e'.status ≠ .confirmed
    rw [hp]
    decide
  -- The entry is confirmed with the size of the object that is there.
  | @confirm g e' a data hg hp hρ hactive hdata ha he ho =>
    by_cases hfg : f = g
    · subst hfg
      rw [he, Function.update_self] at hf
      cases hf
      exact .inr ⟨data, by rw [ho]; exact hdata, rfl⟩
    · rw [he, Function.update_of_ne hfg] at hf
      exact hkept hf
  | release hg hc' hρ ha he ho =>
    refine hupdate he fun e' he' => ?_
    cases he'
    exact fun h => by cases h
  | expire hg hp ha he ho => exact hupdate he fun e' he' => by cases he'
  | abort hg ha he ho => exact hupdate he fun e' he' => by cases he'
  | close hσ ha he ho =>
    rw [he, Option.filter_eq_some_iff] at hf
    exact hkept hf.1
  | lose hg hc' ha he ho => exact hkept (by rw [← he, hf])

/-- The files stay intact but for those that are lost. -/
theorem Run.intact {lost : ℕ → ℕ → Prop} {ok : Act → Prop} (h : Run ok v v')
    (hlose : ∀ ρ f, ok (.lose ρ f) → lost ρ f) (hv : v.Intact lost) : v'.Intact lost := by
  refine h.preserves (P := fun v => v.Intact lost) ?_ hv
  rintro act v v' hok hs hv
  refine intact_step hs (fun ρ f hact => hlose ρ f ?_) hv
  rw [← hact]
  exact hok

end

end Vault

end DropRoom
