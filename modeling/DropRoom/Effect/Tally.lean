import Mathlib.Algebra.BigOperators.Group.Finset.Basic
import Mathlib.Algebra.GroupWithZero.Nat
import Mathlib.Data.Finset.Card

/-!
# Counting phases

How many of the first `n` processes are in a phase of a given kind, what the phases of the first `n`
processes add up to, and what one step, which changes the phase of one process, does to these
numbers.
-/

namespace DropRoom.Effect

variable {L : Type} {n p : ℕ} {φ : ℕ → L} {l : L} {P Q : L → Prop} [DecidablePred P]
  [DecidablePred Q]

/-- The number of processes below `n` whose phase satisfies `P`. -/
def tally (n : ℕ) (φ : ℕ → L) (P : L → Prop) [DecidablePred P] : ℕ :=
  ((Finset.range n).filter fun p => P (φ p)).card

/-- A step between two phases of the same kind leaves the tally. -/
theorem tally_update_of_iff (h : P (φ p) ↔ P l) :
    tally n (Function.update φ p l) P = tally n φ P := by
  refine congrArg Finset.card (Finset.filter_congr fun q _ => ?_)
  by_cases hq : q = p
  · subst hq
    rw [Function.update_self, h]
  · rw [Function.update_of_ne hq]

/-- A step into the kind adds one. -/
theorem tally_update_succ (hp : p < n) (h : ¬P (φ p)) (hl : P l) :
    tally n (Function.update φ p l) P = tally n φ P + 1 := by
  have hset : ((Finset.range n).filter fun q => P (Function.update φ p l q)) =
      Insert.insert p ((Finset.range n).filter fun q => P (φ q)) := by
    ext q
    by_cases hq : q = p
    · subst hq
      simp [hp, hl]
    · simp [hq]
  rw [tally, hset, Finset.card_insert_of_notMem (by simp [h]), tally]

/-- A process of the kind is counted. -/
theorem tally_pos (hp : p < n) (h : P (φ p)) : 0 < tally n φ P :=
  Finset.card_pos.2 ⟨p, Finset.mem_filter.2 ⟨Finset.mem_range.2 hp, h⟩⟩

/-- A process is counted when there is a tally. -/
theorem exists_of_tally_pos (h : 0 < tally n φ P) : ∃ p < n, P (φ p) := by
  obtain ⟨p, hp⟩ := Finset.card_pos.1 h
  obtain ⟨hn, hP⟩ := Finset.mem_filter.1 hp
  exact ⟨p, Finset.mem_range.1 hn, hP⟩

/-- Nobody is counted when nobody is of the kind. -/
theorem tally_eq_zero (h : ∀ p < n, ¬P (φ p)) : tally n φ P = 0 :=
  Finset.card_eq_zero.2 (Finset.filter_eq_empty_iff.2 fun p hp => h p (Finset.mem_range.1 hp))

/-- Two kinds with the same members have the same tally. -/
theorem tally_congr (h : ∀ p < n, P (φ p) ↔ Q (φ p)) : tally n φ P = tally n φ Q :=
  congrArg Finset.card (Finset.filter_congr fun p hp => h p (Finset.mem_range.1 hp))

/-- Two processes of the kind are counted twice. -/
theorem two_le_tally {q : ℕ} (hp : p < n) (hq : q < n) (hne : p ≠ q) (h : P (φ p))
    (h' : P (φ q)) : 2 ≤ tally n φ P :=
  Finset.one_lt_card.2 ⟨p, Finset.mem_filter.2 ⟨Finset.mem_range.2 hp, h⟩, q,
    Finset.mem_filter.2 ⟨Finset.mem_range.2 hq, h'⟩, hne⟩

/-- What the phases of the processes below `n` add up to, each with its weight. -/
def total (n : ℕ) (φ : ℕ → L) (g : L → ℕ) : ℕ := (Finset.range n).sum fun p => g (φ p)

/-- A step adds the weight of the new phase and takes that of the old one. -/
theorem total_update (g : L → ℕ) (hp : p < n) :
    total n (Function.update φ p l) g + g (φ p) = total n φ g + g l := by
  have hmem : p ∈ Finset.range n := Finset.mem_range.2 hp
  have hnew := Finset.add_sum_erase _ (fun q => g (Function.update φ p l q)) hmem
  have hold := Finset.add_sum_erase _ (fun q => g (φ q)) hmem
  have hrest : ((Finset.range n).erase p).sum (fun q => g (Function.update φ p l q)) =
      ((Finset.range n).erase p).sum fun q => g (φ q) := by
    refine Finset.sum_congr rfl fun q hq => ?_
    rw [Function.update_of_ne (Finset.ne_of_mem_erase hq)]
  rw [Function.update_self] at hnew
  unfold total
  omega

/-- A step between two phases of the same weight leaves the total. -/
theorem total_update_of_eq (g : L → ℕ) (h : g l = g (φ p)) :
    total n (Function.update φ p l) g = total n φ g := by
  refine Finset.sum_congr rfl fun q _ => ?_
  by_cases hq : q = p
  · subst hq
    rw [Function.update_self, h]
  · rw [Function.update_of_ne hq]

/-- Two sequences of the same weights have the same total. -/
theorem total_congr {L' : Type} {ψ : ℕ → L'} {g : L → ℕ} {g' : L' → ℕ}
    (h : ∀ p < n, g (φ p) = g' (ψ p)) : total n φ g = total n ψ g' :=
  Finset.sum_congr rfl fun p hp => h p (Finset.mem_range.1 hp)

/-- Nothing adds up to nothing. -/
theorem total_eq_zero {g : L → ℕ} (h : ∀ p < n, g (φ p) = 0) : total n φ g = 0 :=
  Finset.sum_eq_zero fun p hp => h p (Finset.mem_range.1 hp)

end DropRoom.Effect
