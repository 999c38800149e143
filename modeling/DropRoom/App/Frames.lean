import DropRoom.App.Checks

/-!
# What a program leaves alone

A relation between the rows before and after is kept by a program when each of its statements keeps
it (`Ends.confined`); that an observation of the rows stays the same is such a relation
(`Ends.frame`).
-/

namespace DropRoom

open Effect Store Prog

/-- What the admitted statements make of a row is related to what it was by the preorder `R`. -/
structure Confined (P : Cmd → Prop)
    (R : (t : Table) → ℕ → Option (Row t) → Option (Row t) → Prop) : Prop where
  refl : ∀ t i v, R t i v v
  trans : ∀ t i v₁ v₂ v₃, R t i v₁ v₂ → R t i v₂ v₃ → R t i v₁ v₃
  updateAt : ∀ t i u r, P (.sql (.updateAt t i u)) → dialect.applies u r = true →
    R t i (some r) (some (dialect.set u r))
  deleteWhere : ∀ t d i r, P (.sql (.deleteWhere t d)) → dialect.deletes d i r = true →
    R t i (some r) none
  insert : ∀ t i r, P (.sql (.insert t r)) → R t i none (some r)

/-- What is seen and what is committed are both related to what was committed in `σ₀`. -/
def Related (R : (t : Table) → ℕ → Option (Row t) → Option (Row t) → Prop) (σ₀ σ : Serial) : Prop :=
  ∀ t i, R t i (σ₀.db.saved t i) (σ.db.rows t i) ∧ R t i (σ₀.db.saved t i) (σ.db.saved t i)

section

variable {P : Cmd → Prop} {R : (t : Table) → ℕ → Option (Row t) → Option (Row t) → Prop}
  {σ σ' σ₀ : Serial}

/-- A command keeps the relation. -/
theorem Confined.exec (h : Confined P R) {c : Cmd} (hc : P c) {x}
    (hx : Serial.exec c σ = some (x, σ')) (hσ : Related R σ₀ σ) : Related R σ₀ σ' := by
  intro t i
  obtain ⟨hrows, hsaved⟩ := hσ t i
  constructor
  · have hstep := Serial.rowStep hx t i
    generalize σ.db.rows t i = v at hstep hrows
    generalize σ'.db.rows t i = v' at hstep ⊢
    cases hstep with
    | kept => exact hrows
    | updated u r hv hu =>
      subst hv
      exact h.trans _ _ _ _ _ hrows (h.updateAt t i u r hc hu)
    | deleted d r hv hd =>
      subst hv
      exact h.trans _ _ _ _ _ hrows (h.deleteWhere t d i r hc hd)
    | inserted r hv =>
      subst hv
      exact h.trans _ _ _ _ _ hrows (h.insert t i r hc)
    | rolledBack => exact hsaved
  · by_cases hcommit : c = .sql .commit
    · subst hcommit
      rw [Serial.saved_commit hx]
      exact hrows
    · rw [Serial.saved_exec hcommit hx]
      exact hsaved

/-- A program keeps the relation that its statements keep. -/
theorem Ends.confined {α : Type} {prog : Op α} (hprog : prog.Only P) (h : Confined P R)
    (hσ : σ.db.rows = σ.db.saved) {Q : Except Err α → Serial → Prop}
    (hQ : ∀ r σ', (∀ t i, R t i (σ.db.saved t i) (σ'.db.saved t i)) → Q r σ') :
    Ends prog Q σ := by
  refine Ends.only (I := Related R σ) hprog (fun c σ₁ x σ₂ hc hx hσ₁ => h.exec hc hx hσ₁) ?_
    fun r σ' hσ' => hQ r σ' fun t i => (hσ' t i).2
  intro t i
  rw [hσ]
  exact ⟨h.refl _ _ _, h.refl _ _ _⟩

end

section

variable {P : Cmd → Prop} {V : Table → Type} {f : (t : Table) → ℕ → Option (Row t) → V t}

/-- No admitted statement changes what `f` observes of a row. -/
structure Invisible (P : Cmd → Prop) {V : Table → Type}
    (f : (t : Table) → ℕ → Option (Row t) → V t) : Prop where
  updateAt : ∀ t i u r, P (.sql (.updateAt t i u)) → dialect.applies u r = true →
    f t i (some (dialect.set u r)) = f t i (some r)
  deleteWhere : ∀ t d i r, P (.sql (.deleteWhere t d)) → dialect.deletes d i r = true →
    f t i none = f t i (some r)
  insert : ∀ t i r, P (.sql (.insert t r)) → f t i (some r) = f t i none

/-- The statements confine every row to what `f` observes of it. -/
theorem Invisible.confined (h : Invisible P f) :
    Confined P fun t i v v' => f t i v' = f t i v where
  refl _ _ _ := rfl
  trans _ _ _ _ _ h₁ h₂ := h₂.trans h₁
  updateAt := h.updateAt
  deleteWhere := h.deleteWhere
  insert := h.insert

/-- A program keeps what its statements keep. -/
theorem Ends.frame {α : Type} {prog : Op α} (hprog : prog.Only P) (h : Invisible P f) {σ : Serial}
    (hσ : σ.db.rows = σ.db.saved) {Q : Except Err α → Serial → Prop}
    (hQ : ∀ r σ', (∀ t i, f t i (σ'.db.saved t i) = f t i (σ.db.saved t i)) → Q r σ') :
    Ends prog Q σ :=
  .confined hprog h.confined hσ hQ

end

/-- A program that writes no object adds nothing to the storage. -/
theorem Ends.storesNothing {env : Env} {K : List Kind} {α : Type} {prog : Op α} {σ : Serial}
    (h : prog.Only (Issued env K)) (hK : Kind.put ∉ K) {Q : Except Err α → Serial → Prop}
    (hQ : ∀ r σ', (∀ key data, σ'.rest.storage.lookup key = some data →
      σ.rest.storage.lookup key = some data) → Q r σ') : Ends prog Q σ := by
  refine Ends.only (I := fun σ' => ∀ key data, σ'.rest.storage.lookup key = some data →
    σ.rest.storage.lookup key = some data) h ?_ (fun _ _ h => h) hQ
  intro c σ₁ x σ₂ hc hx hσ₁ key data hdata
  by_cases hdelete : ∃ k, c = .deleteObject k
  · obtain ⟨k, rfl⟩ := hdelete
    cases hx
    by_cases hkey : key = k
    · subst hkey
      rw [AList.lookup_erase] at hdata
      cases hdata
    · exact hσ₁ key data ((AList.lookup_erase_ne hkey).symm.trans hdata)
  · rw [Serial.storage_exec ?_ hx] at hdata
    · exact hσ₁ key data hdata
    · intro hstores
      cases hc with
      | put hk => exact hK hk
      | deleteObject hk k => exact hdelete ⟨k, rfl⟩
      | _ => exact hstores

end DropRoom
