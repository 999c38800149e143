import Mathlib.Algebra.BigOperators.Group.Finset.Piecewise
import Mathlib.Algebra.Order.BigOperators.Group.Finset

/-!
# Registers

Numbered entries, finitely many of which are present, and the totals over them. A total depends on
the entries only (`Register.total_congr`), and an entry that changes moves it by the difference
(`Register.total_update`).
-/

namespace DropRoom.Store

/-- Entries under numbers below a bound. -/
structure Register (E : Type) where
  entry : ℕ → Option E
  bound : ℕ
  entry_lt : ∀ i e, entry i = some e → i < bound

namespace Register

variable {E G : Type} {r r' : Register E}

section

variable [AddCommMonoid G] (g : E → G)

/-- What an entry that may be absent adds to a total. -/
def weight (v : Option E) : G := v.elim 0 g

/-- An absent entry weighs nothing. -/
@[simp] theorem weight_none : weight g none = 0 := rfl

/-- The weight of an entry. -/
@[simp] theorem weight_some (e : E) : weight g (some e) = g e := rfl

/-- The sum of `g` over the entries. -/
def total (r : Register E) : G := ∑ i ∈ Finset.range r.bound, weight g (r.entry i)

/-- Numbers without an entry add nothing. -/
theorem total_eq_sum {n : ℕ} (h : r.bound ≤ n) :
    r.total g = ∑ i ∈ Finset.range n, weight g (r.entry i) := by
  refine Finset.sum_subset (Finset.range_mono h) fun i _ hi => ?_
  have hnone : r.entry i = none := by
    refine Option.eq_none_iff_forall_ne_some.2 fun e he => hi ?_
    exact Finset.mem_range.2 (r.entry_lt i e he)
  rw [hnone, weight_none]

/-- Registers whose entries weigh the same have the same total. -/
theorem total_congr (h : ∀ i, weight g (r'.entry i) = weight g (r.entry i)) :
    r'.total g = r.total g := by
  rw [total_eq_sum g (le_max_left r'.bound r.bound), total_eq_sum g (le_max_right r'.bound r.bound)]
  exact Finset.sum_congr rfl fun i _ => h i

end

/-- One entry has become `v`. -/
theorem total_update [AddCommGroup G] (g : E → G) {i : ℕ} {v : Option E}
    (h : r'.entry = Function.update r.entry i v) :
    r'.total g = r.total g - weight g (r.entry i) + weight g v := by
  have hi : i ∈ Finset.range (max (max r'.bound r.bound) (i + 1)) := by
    rw [Finset.mem_range]
    omega
  have hle : max r'.bound r.bound ≤ max (max r'.bound r.bound) (i + 1) := le_max_left _ _
  rw [total_eq_sum g ((le_max_left r'.bound r.bound).trans hle),
    total_eq_sum g ((le_max_right r'.bound r.bound).trans hle), h,
    ← Finset.add_sum_erase _ _ hi, ← Finset.add_sum_erase _ _ hi, Function.update_self]
  have hothers : ∀ j ∈ (Finset.range (max (max r'.bound r.bound) (i + 1))).erase i,
      weight g (Function.update r.entry i v j) = weight g (r.entry j) := by
    intro j hj
    rw [Function.update_of_ne (Finset.ne_of_mem_erase hj)]
  rw [Finset.sum_congr rfl hothers]
  rw [add_sub_cancel_left, add_comm]

end Register

end DropRoom.Store
