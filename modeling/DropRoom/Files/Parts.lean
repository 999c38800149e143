import DropRoom.App.Services
import DropRoom.App.World

/-!
# The keys of staged chunks

`part_key` writes the index of a chunk behind the storage key of its upload, and
`complete_upload_session` reads it back from the listing of the keys with that prefix. The round
trip is exact: what `missing` reports is what is not in storage, and `parts` are the part keys in
the order of their indices.
-/

namespace DropRoom

namespace uploadService

/-! ## The text of an index -/

/-- A padded index consists of digits. -/
theorem isDigit_of_mem_pad {i : ℕ} {c : Char} (h : c ∈ pad i) : c.isDigit = true := by
  rcases List.mem_append.1 h with h | h
  · rw [List.eq_of_mem_replicate h]
    rfl
  · exact Nat.isDigit_of_mem_toDigits (by decide) (by decide) h

/-- A padded number is not empty. -/
theorem pad_ne_nil (i : ℕ) : pad i ≠ [] := by
  intro h
  exact Nat.toDigits_ne_nil (List.append_eq_nil_iff.1 h).2

/-- A padded number consists of digits. -/
theorem isDigits_pad (i : ℕ) : isDigits (pad i) = true := by
  rw [isDigits, Bool.and_eq_true]
  refine ⟨?_, List.all_eq_true.2 fun c hc => isDigit_of_mem_pad hc⟩
  cases h : pad i with
  | nil => exact absurd h (pad_ne_nil i)
  | cons c l => rfl

/-- Reading a padded index back gives the index. -/
theorem parseInt_pad (i : ℕ) : parseInt (pad i) = i := by
  have h : parseInt (pad i) = Nat.ofDigitChars 10 (pad i) 0 := rfl
  rw [h, pad, Nat.ofDigitChars_append, Nat.ofDigitChars_replicate_zero, Nat.mul_zero,
    Nat.ofDigitChars_ten_toDigits]

/-- A padded number tells the number. -/
theorem pad_injective {i j : ℕ} (h : pad i = pad j) : i = j := by
  rw [← parseInt_pad i, h, parseInt_pad]

/-- There is no dot in a padded index. -/
theorem ne_dot_of_mem_pad {i : ℕ} {c : Char} (h : c ∈ pad i) : c ≠ '.' := by
  rintro rfl
  have hd := isDigit_of_mem_pad h
  revert hd
  decide

/-! ## Part keys -/

/-- What follows the last dot of a part key is the index. -/
theorem keySuffix_partKey (k : Uuid) (i : ℕ) : keySuffix (partKey k i) = pad i := by
  have hrev : (partKey k i).reverse = (pad i).reverse ++ '.' :: k.text.reverse := by
    simp [partKey]
  rw [keySuffix, hrev, List.takeWhile_append_of_pos]
  · simp
  · intro c hc
    simpa using ne_dot_of_mem_pad (List.mem_reverse.1 hc)

/-- The key of a part tells its index. -/
theorem partKey_injective (k : Uuid) {i j : ℕ} (h : partKey k i = partKey k j) : i = j := by
  refine pad_injective ?_
  rw [← keySuffix_partKey k i, h, keySuffix_partKey]

/-- A storage key is no part key: it has no dot. -/
theorem text_ne_partKey (k k' : Uuid) (i : ℕ) : k.text ≠ partKey k' i := by
  intro h
  refine k.noDot ?_
  rw [h, partKey]
  simp

/-- The keys of the parts begin with the prefix of the upload. -/
theorem partPrefix_isPrefix_partKey (k : Uuid) (i : ℕ) : partPrefix k <+: partKey k i :=
  ⟨pad i, by simp [partPrefix, partKey]⟩

/-- The storage key of an upload does not have the prefix of its parts. -/
theorem not_partPrefix_isPrefix (k k' : Uuid) : ¬partPrefix k <+: k'.text := by
  intro h
  exact k'.noDot (h.subset (by simp [partPrefix]))

/-! ## Listings -/

/-- The keys of a storage are those that it looks up. -/
theorem mem_keys_iff {s : Storage} {key : Key} : key ∈ s.keys ↔ s.lookup key ≠ none :=
  AList.mem_keys.symm.trans AList.lookup_eq_none.not_left.symm

/-- The keys that a listing returns. -/
theorem mem_listKeys {s : Storage} {pre key : Key} :
    key ∈ s.listKeys pre ↔ key ∈ s.keys ∧ pre <+: key := by
  rw [Storage.listKeys, List.mem_insertionSort, List.mem_filter, List.isPrefixOf_iff_prefix]

/-- A listing of part keys is read as the indices of these keys. -/
theorem lookup_received {k : Uuid} {keys : List Key} (h : ∀ key ∈ keys, ∃ i, key = partKey k i)
    (i : ℕ) :
    (received keys).lookup i = if partKey k i ∈ keys then some (partKey k i) else none := by
  -- The keys that were read before are in the accumulator `d`.
  have hfold : ∀ d : AList fun _ : ℕ => Key,
      (keys.foldl (fun d k => if isDigits (keySuffix k) then d.insert (parseInt (keySuffix k)) k
        else d) d).lookup i = if partKey k i ∈ keys then some (partKey k i) else d.lookup i := by
    induction keys with
    | nil => exact fun d => (if_neg (List.not_mem_nil)).symm
    | cons key keys ih =>
      intro d
      obtain ⟨j, rfl⟩ := h key List.mem_cons_self
      rw [List.foldl_cons, ih fun key' hk => h key' (List.mem_cons_of_mem _ hk),
        keySuffix_partKey, if_pos (isDigits_pad j), parseInt_pad]
      by_cases hi : partKey k i ∈ keys
      · rw [if_pos hi, if_pos (List.mem_cons_of_mem _ hi)]
      · rw [if_neg hi]
        by_cases hij : i = j
        · subst hij
          rw [AList.lookup_insert, if_pos List.mem_cons_self]
        · rw [AList.lookup_insert_ne hij, if_neg]
          intro hm
          rcases List.mem_cons.1 hm with hm | hm
          · exact hij (partKey_injective k hm)
          · exact hi hm
  rw [received, hfold]
  simp

/-- What is received was listed. -/
theorem mem_of_lookup_received {keys : List Key} {i : ℕ} {key : Key}
    (h : (received keys).lookup i = some key) : key ∈ keys := by
  -- What the accumulator `d` holds was listed before.
  have hfold : ∀ d : AList fun _ : ℕ => Key,
      (keys.foldl (fun d k => if isDigits (keySuffix k) then d.insert (parseInt (keySuffix k)) k
        else d) d).lookup i = some key → key ∈ keys ∨ d.lookup i = some key := by
    clear h
    induction keys with
    | nil => exact fun d h => .inr h
    | cons k keys ih =>
      intro d h
      rw [List.foldl_cons] at h
      rcases ih _ h with hk | hd
      · exact .inl (List.mem_cons_of_mem _ hk)
      · split at hd
        · by_cases hi : i = parseInt (keySuffix k)
          · rw [hi, AList.lookup_insert] at hd
            obtain rfl := Option.some.inj hd
            exact .inl List.mem_cons_self
          · rw [AList.lookup_insert_ne hi] at hd
            exact .inr hd
        · exact .inr hd
  rcases hfold ∅ h with hk | hd
  · exact hk
  · rw [AList.lookup_empty] at hd
    cases hd

/-- The parts that are read were listed. -/
theorem mem_of_mem_parts {keys : List Key} {n : ℕ} {key : Key} (h : key ∈ parts keys n) :
    key ∈ keys := by
  obtain ⟨i, -, hi⟩ := List.mem_filterMap.1 h
  exact mem_of_lookup_received hi

/-- Every key with the prefix of the parts of an upload is one of its part keys. -/
def OnlyParts (s : Storage) (k : Uuid) : Prop :=
  ∀ key ∈ s.keys, partPrefix k <+: key → ∃ i, key = partKey k i

variable {s : Storage} {k : Uuid}

/-- What a listing tells of a chunk. -/
theorem OnlyParts.lookup_received (h : OnlyParts s k) (i : ℕ) :
    (received (s.listKeys (partPrefix k))).lookup i =
      if partKey k i ∈ s.keys then some (partKey k i) else none := by
  rw [uploadService.lookup_received (k := k)]
  · refine if_congr ?_ rfl rfl
    rw [mem_listKeys]
    exact and_iff_left (partPrefix_isPrefix_partKey k i)
  · intro key hk
    obtain ⟨hk, hp⟩ := mem_listKeys.1 hk
    exact h key hk hp

/-- The chunks that are missing are those that are not in storage. -/
theorem OnlyParts.mem_missing (h : OnlyParts s k) {n i : ℕ} :
    i ∈ missing (s.listKeys (partPrefix k)) n ↔ i < n ∧ s.lookup (partKey k i) = none := by
  rw [missing, List.mem_filter, List.mem_range, h.lookup_received, AList.lookup_eq_none,
    AList.mem_keys]
  refine and_congr_right fun _ => ?_
  split <;> simp [*]

/-- When no chunk is missing, the parts are read in order. -/
theorem OnlyParts.parts_eq (h : OnlyParts s k) {n : ℕ}
    (hm : missing (s.listKeys (partPrefix k)) n = []) :
    parts (s.listKeys (partPrefix k)) n = (List.range n).map (partKey k) := by
  rw [parts, ← List.filterMap_eq_map]
  refine List.filterMap_congr fun i hi => ?_
  rw [h.lookup_received, if_pos]
  · rfl
  · by_contra hn
    have hmem : i ∈ missing (s.listKeys (partPrefix k)) n :=
      h.mem_missing.2 ⟨List.mem_range.1 hi, AList.lookup_eq_none.2 fun h' => hn (AList.mem_keys.1 h')⟩
    rw [hm] at hmem
    cases hmem

/-- The first `m` chunks, one after the other. -/
def concat (chunk : ℕ → Bytes) (m : ℕ) : Bytes := ((List.range m).map chunk).flatten

variable {chunk : ℕ → Bytes}

/-- One chunk more. -/
theorem concat_succ (m : ℕ) : concat chunk (m + 1) = concat chunk m ++ chunk m := by
  simp [concat, List.range_succ]

/-- More chunks are longer, when none of them is empty. -/
theorem length_concat_strictMono (h : ∀ i, chunk i ≠ []) :
    StrictMono fun m => (concat chunk m).length := by
  refine strictMono_nat_of_lt_succ fun m => ?_
  rw [concat_succ, List.length_append]
  exact Nat.lt_add_of_pos_right (List.length_pos_iff.2 (h m))

/-- The length tells how many chunks there are. -/
theorem length_concat_inj (h : ∀ i, chunk i ≠ []) {m n : ℕ} :
    (concat chunk m).length = (concat chunk n).length ↔ m = n :=
  (length_concat_strictMono h).injective.eq_iff

end uploadService

end DropRoom
