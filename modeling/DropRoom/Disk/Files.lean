import Mathlib.Data.List.AList
import Mathlib.Logic.Function.Basic
import Mathlib.Tactic.Common

/-!
# Files with names

A directory gives names to files, and a file is known by its number for as long as it is open, whatever
its name becomes. `rename` moves a name over another in one step, `unlink` takes the name away; neither
touches what is in the file. No file has two names and every number was given out once: that is part
of the type.
-/

namespace DropRoom.Store

/-- A directory, and the files that were ever created in it. -/
structure Files (N B : Type) [DecidableEq N] where
  dir : AList fun _ : N => ℕ
  data : ℕ → List B
  count : ℕ
  dir_lt : ∀ n i, dir.lookup n = some i → i < count
  dir_inj : ∀ n n' i, dir.lookup n = some i → dir.lookup n' = some i → n = n'

namespace Files

variable {N B : Type} [DecidableEq N] (s : Files N B) {n n' : N} {i : ℕ}

/-- The number of the file with a name. -/
def number (n : N) : Option ℕ := s.dir.lookup n

/-- What is in the file with a name. -/
def content (n : N) : Option (List B) := (s.number n).map s.data

/-- The empty directory. -/
def empty : Files N B where
  dir := ∅
  data _ := []
  count := 0
  dir_lt _ _ h := by cases h
  dir_inj _ _ _ h := by cases h

/-- A new empty file under the name. -/
def create (n : N) : Files N B where
  dir := s.dir.insert n s.count
  data := Function.update s.data s.count []
  count := s.count + 1
  dir_lt n' i h := by
    by_cases hn : n' = n
    · rw [hn, AList.lookup_insert] at h
      cases h
      omega
    · rw [AList.lookup_insert_ne hn] at h
      have hlt := s.dir_lt n' i h
      omega
  dir_inj n₁ n₂ i h₁ h₂ := by
    by_cases hn₁ : n₁ = n <;> by_cases hn₂ : n₂ = n
    · rw [hn₁, hn₂]
    · rw [hn₁, AList.lookup_insert] at h₁
      rw [AList.lookup_insert_ne hn₂] at h₂
      cases h₁
      exact absurd (s.dir_lt _ _ h₂) (Nat.lt_irrefl _)
    · rw [hn₂, AList.lookup_insert] at h₂
      rw [AList.lookup_insert_ne hn₁] at h₁
      cases h₂
      exact absurd (s.dir_lt _ _ h₁) (Nat.lt_irrefl _)
    · rw [AList.lookup_insert_ne hn₁] at h₁
      rw [AList.lookup_insert_ne hn₂] at h₂
      exact s.dir_inj _ _ _ h₁ h₂

/-- Write at the end of a file. -/
def append (i : ℕ) (bs : List B) : Files N B :=
  { s with data := Function.update s.data i (s.data i ++ bs) }

/-- What is found after an erasure was there before, under another name. -/
theorem lookup_erase_eq_some {d : AList fun _ : N => ℕ} (h : (d.erase n').lookup n = some i) :
    n ≠ n' ∧ d.lookup n = some i := by
  by_cases hn : n = n'
  · rw [hn, AList.lookup_erase] at h
    cases h
  · rw [AList.lookup_erase_ne hn] at h
    exact ⟨hn, h⟩

/-- Take a name away. -/
def unlink (n : N) : Files N B where
  dir := s.dir.erase n
  data := s.data
  count := s.count
  dir_lt n' i h := s.dir_lt n' i (lookup_erase_eq_some h).2
  dir_inj n₁ n₂ i h₁ h₂ :=
    s.dir_inj n₁ n₂ i (lookup_erase_eq_some h₁).2 (lookup_erase_eq_some h₂).2

/-- Give the file `i`, whose name is `n`, the name `n'` instead. -/
def move (n n' : N) (i : ℕ) (hi : s.number n = some i) : Files N B where
  dir := (s.dir.erase n).insert n' i
  data := s.data
  count := s.count
  dir_lt m j h := by
    by_cases hm : m = n'
    · rw [hm, AList.lookup_insert] at h
      cases h
      exact s.dir_lt _ _ hi
    · rw [AList.lookup_insert_ne hm] at h
      exact s.dir_lt _ _ (lookup_erase_eq_some h).2
  dir_inj m₁ m₂ j h₁ h₂ := by
    by_cases hm₁ : m₁ = n' <;> by_cases hm₂ : m₂ = n'
    · rw [hm₁, hm₂]
    · rw [hm₁, AList.lookup_insert] at h₁
      rw [AList.lookup_insert_ne hm₂] at h₂
      cases h₁
      obtain ⟨hne, h₂⟩ := lookup_erase_eq_some h₂
      exact absurd (s.dir_inj _ _ _ h₂ hi) hne
    · rw [hm₂, AList.lookup_insert] at h₂
      rw [AList.lookup_insert_ne hm₁] at h₁
      cases h₂
      obtain ⟨hne, h₁⟩ := lookup_erase_eq_some h₁
      exact absurd (s.dir_inj _ _ _ h₁ hi) hne
    · rw [AList.lookup_insert_ne hm₁] at h₁
      rw [AList.lookup_insert_ne hm₂] at h₂
      exact s.dir_inj _ _ _ (lookup_erase_eq_some h₁).2 (lookup_erase_eq_some h₂).2

/-- Move a name over another, which is lost; nothing happens where there is no file. -/
def rename (n n' : N) : Files N B :=
  match h : s.number n with
  | some i => s.move n n' i h
  | none => s

/-- The names, in the order in which they were given. -/
def names : List N := s.dir.keys

/-! ## The number of a name -/

/-- A new name gets the next number. -/
theorem number_create (m : N) :
    (s.create n).number m = if m = n then some s.count else s.number m := by
  unfold number create
  split
  · next h => rw [h, AList.lookup_insert]
  · next h => rw [AList.lookup_insert_ne h]

/-- Writing leaves the directory. -/
@[simp] theorem number_append (bs : List B) (m : N) : (s.append i bs).number m = s.number m := rfl

/-- A name is taken out of the directory. -/
theorem number_unlink (m : N) :
    (s.unlink n).number m = if m = n then none else s.number m := by
  unfold number unlink
  split
  · next h => rw [h, AList.lookup_erase]
  · next h => rw [AList.lookup_erase_ne h]

/-- Renaming a file that is there moves its number. -/
theorem rename_eq (hi : s.number n = some i) : s.rename n n' = s.move n n' i hi := by
  unfold rename
  split
  · next j hj =>
    obtain rfl : j = i := Option.some.inj (hj.symm.trans hi)
    rfl
  · next hnone =>
    rw [hnone] at hi
    cases hi

/-- The number goes over to the new name. -/
theorem number_rename (hi : s.number n = some i) (m : N) :
    (s.rename n n').number m = if m = n' then some i else if m = n then none else s.number m := by
  rw [rename_eq s hi]
  unfold number move
  split
  · next h => rw [h, AList.lookup_insert]
  · next h =>
    rw [AList.lookup_insert_ne h]
    split
    · next h' => rw [h', AList.lookup_erase]
    · next h' => rw [AList.lookup_erase_ne h']

/-- The numbers in the directory were given out before. -/
theorem number_lt (h : s.number n = some i) : i < s.count := s.dir_lt n i h

/-- No two names have one number. -/
theorem number_inj (h : s.number n = some i) (h' : s.number n' = some i) : n = n' :=
  s.dir_inj n n' i h h'

/-- The names are those with a number. -/
theorem mem_names : n ∈ s.names ↔ s.number n ≠ none := by
  rw [number, Option.ne_none_iff_isSome, AList.lookup_isSome]
  rfl

/-! ## The data -/

/-- The bytes outlive their name. -/
@[simp] theorem data_unlink : (s.unlink n).data = s.data := rfl

/-- Renaming moves no byte. -/
@[simp] theorem data_rename : (s.rename n n').data = s.data := by
  unfold rename
  split <;> rfl

/-- Renaming makes no file. -/
@[simp] theorem count_rename : (s.rename n n').count = s.count := by
  unfold rename
  split <;> rfl

/-- A new file is empty. -/
theorem data_create : (s.create n).data = Function.update s.data s.count [] := rfl

/-- Writing goes to one file. -/
theorem data_append (bs : List B) :
    (s.append i bs).data = Function.update s.data i (s.data i ++ bs) := rfl

/-! ## What is in the file with a name -/

/-- A new file leaves the content of the others. -/
theorem content_create_of_ne {m : N} (h : m ≠ n) : (s.create n).content m = s.content m := by
  rw [content, number_create, if_neg h, data_create, content]
  cases hm : s.number m with
  | none => rfl
  | some j =>
    have hlt := s.number_lt hm
    rw [Option.map_some, Option.map_some, Function.update_of_ne (by omega)]

/-- The content under each name after writing to one file. -/
theorem content_append (h : s.number n = some i) (bs : List B) (m : N) :
    (s.append i bs).content m = if m = n then some (s.data i ++ bs) else s.content m := by
  rw [content, number_append, data_append, content]
  split
  · next hm => rw [hm, h, Option.map_some, Function.update_self]
  · next hm =>
    cases hj : s.number m with
    | none => rfl
    | some j =>
      have hne : j ≠ i := by
        rintro rfl
        exact hm (s.number_inj hj h)
      rw [Option.map_some, Option.map_some, Function.update_of_ne hne]

/-- The content under each name after one is taken away. -/
theorem content_unlink (m : N) :
    (s.unlink n).content m = if m = n then none else s.content m := by
  rw [content, number_unlink, data_unlink, content]
  split <;> rfl

/-- The content under each name after a renaming. -/
theorem content_rename (h : s.number n = some i) (m : N) :
    (s.rename n n').content m =
      if m = n' then some (s.data i) else if m = n then none else s.content m := by
  rw [content, number_rename s h, data_rename, content]
  split
  · rfl
  · split <;> rfl

end Files

end DropRoom.Store
