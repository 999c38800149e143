import DropRoom.Files.Chunks
import Mathlib.Algebra.BigOperators.Group.List.Basic
import Mathlib.Algebra.GroupWithZero.Nat

/-!
# The bytes that are staged for an upload

`store_chunk` adds the length of a chunk to the size of the record, while a chunk that is sent again
replaces the object of its index. `Sends` is the history of an upload with every accepted chunk and
the size that was answered for it. The sizes are those of the staged objects exactly when no index is
sent twice, and nothing but the client keeps the staged objects within the declared size.
-/

namespace DropRoom

open Effect Store Prog uploadService chunks

/-! ## The size of what is staged -/

/-- The sizes of the objects under the part keys of an upload, summed up. -/
def Storage.stagedBytes (s : Storage) (k : Uuid) : ℕ :=
  ((s.listKeys (partPrefix k)).map fun key => ((s.lookup key).getD []).length).sum

section

variable {s s' : Storage} {k : Uuid}

/-- A listing names each key once. -/
theorem nodup_listKeys (s : Storage) (pre : Key) : (s.listKeys pre).Nodup :=
  (List.perm_insertionSort _ _).nodup_iff.2 (s.keys_nodup.filter _)

/-- A listing after an object is stored, in some order. -/
theorem listKeys_insert_perm {pre key : Key} (hpre : pre <+: key) (data : Bytes) :
    (Storage.listKeys (s.insert key data) pre).Perm (key :: (s.listKeys pre).erase key) := by
  refine (List.perm_ext_iff_of_nodup (nodup_listKeys _ _) ?_).2 fun key' => ?_
  · exact List.nodup_cons.2 ⟨(nodup_listKeys s pre).not_mem_erase, (nodup_listKeys s pre).erase key⟩
  · rw [mem_listKeys, List.mem_cons, (nodup_listKeys s pre).mem_erase_iff, mem_listKeys,
      ← AList.mem_keys, ← AList.mem_keys, AList.mem_insert]
    by_cases hkey : key' = key
    · subst hkey
      simp [hpre]
    · simp [hkey]

/-- Storing a chunk adds its size, less the size of the object that it replaces. -/
theorem stagedBytes_insert (i : ℕ) (data : Bytes) :
    Storage.stagedBytes (s.insert (partKey k i) data) k +
      ((s.lookup (partKey k i)).getD []).length = s.stagedBytes k + data.length := by
  have hpre := partPrefix_isPrefix_partKey k i
  have hothers : ((s.listKeys (partPrefix k)).erase (partKey k i)).map (fun key =>
      (((s.insert (partKey k i) data).lookup key).getD []).length) =
      ((s.listKeys (partPrefix k)).erase (partKey k i)).map fun key =>
        ((s.lookup key).getD []).length := by
    refine List.map_congr_left fun key hkey => ?_
    rw [AList.lookup_insert_ne ((nodup_listKeys s _).mem_erase_iff.1 hkey).1]
  rw [Storage.stagedBytes, ((listKeys_insert_perm hpre data).map _).sum_eq, List.map_cons,
    List.sum_cons, hothers, AList.lookup_insert, Option.getD_some, Storage.stagedBytes]
  by_cases hmem : partKey k i ∈ s.listKeys (partPrefix k)
  · have hsum := ((List.perm_cons_erase hmem).map fun key => ((s.lookup key).getD []).length).sum_eq
    rw [List.map_cons, List.sum_cons] at hsum
    omega
  · have hnone : s.lookup (partKey k i) = none := by
      by_contra hsome
      exact hmem (mem_listKeys.2 ⟨mem_keys_iff.2 hsome, hpre⟩)
    rw [List.erase_of_not_mem hmem, hnone, Option.getD_none, List.length_nil]
    omega

/-- What is staged depends on the keys that start with the storage key. -/
theorem stagedBytes_congr (h : ∀ key, k.text <+: key → s'.lookup key = s.lookup key) :
    s'.stagedBytes k = s.stagedBytes k := by
  have hpart : ∀ key, partPrefix k <+: key → s'.lookup key = s.lookup key :=
    fun key hpre => h key ((List.prefix_append _ _).trans hpre)
  have hperm : (s'.listKeys (partPrefix k)).Perm (s.listKeys (partPrefix k)) := by
    refine (List.perm_ext_iff_of_nodup (nodup_listKeys _ _) (nodup_listKeys _ _)).2 fun key => ?_
    rw [mem_listKeys, mem_listKeys, mem_keys_iff, mem_keys_iff]
    exact and_congr_left fun hpre => by rw [hpart key hpre]
  rw [Storage.stagedBytes, (hperm.map _).sum_eq, Storage.stagedBytes]
  refine congrArg List.sum (List.map_congr_left fun key hkey => ?_)
  rw [hpart key (mem_listKeys.1 hkey).2]

/-- Nothing is staged where no key has the prefix. -/
theorem stagedBytes_of_none (h : ∀ key, k.text <+: key → s.lookup key = none) :
    s.stagedBytes k = 0 := by
  have hnil : s.listKeys (partPrefix k) = [] := by
    refine List.eq_nil_iff_forall_not_mem.2 fun key hkey => ?_
    obtain ⟨hkey, hpre⟩ := mem_listKeys.1 hkey
    exact mem_keys_iff.1 hkey (h key ((List.prefix_append _ _).trans hpre))
  rw [Storage.stagedBytes, hnil]
  rfl

end

/-! ## Chunks that are sent again -/

namespace staging

/-- The chunks of an upload that were sent, with their indices. -/
abbrev Sent : Type := List (ℕ × Bytes)

/-- The bytes that were sent. -/
def sentBytes (sent : Sent) : ℕ := (sent.map fun c => c.2.length).sum

/-- The bytes that are left of what was sent: a chunk counts unless its index is sent again. -/
def latestBytes : Sent → ℕ
  | [] => 0
  | c :: sent => (if c.1 ∈ sent.map Prod.fst then 0 else c.2.length) + latestBytes sent

/-- What was sent last for an index. -/
def latest : Sent → ℕ → Option Bytes
  | [], _ => none
  | c :: sent, i => (latest sent i).or (if c.1 = i then some c.2 else none)

variable {sent : Sent}

/-- An index has no data if it was never sent. -/
theorem latest_eq_none_iff {i : ℕ} : latest sent i = none ↔ i ∉ sent.map Prod.fst := by
  induction sent with
  | nil => simp [latest]
  | cons c sent ih =>
    rw [latest, Option.or_eq_none_iff, ih, List.map_cons, List.mem_cons, not_or, and_comm]
    exact and_congr_left fun _ => by simp [eq_comm]

/-- The data that was sent last counts. -/
theorem latest_concat (c : ℕ × Bytes) :
    latest (sent ++ [c]) = Function.update (latest sent) c.1 (some c.2) := by
  funext i
  induction sent with
  | nil => by_cases h : i = c.1 <;> simp [latest, Function.update, h, eq_comm]
  | cons d sent ih =>
    rw [List.cons_append, latest, ih]
    by_cases h : i = c.1
    · subst h
      simp
    · simp [Function.update_of_ne h, latest]

/-- A chunk that is sent takes the place of what was sent last for its index. -/
theorem latestBytes_concat (c : ℕ × Bytes) :
    latestBytes (sent ++ [c]) + ((latest sent c.1).getD []).length =
      latestBytes sent + c.2.length := by
  induction sent with
  | nil => simp [latestBytes, latest]
  | cons d sent ih =>
    rw [List.cons_append, latestBytes, latestBytes, latest]
    by_cases hd : d.1 ∈ sent.map Prod.fst
    · have hd' : d.1 ∈ (sent ++ [c]).map Prod.fst := by simp_all
      rw [if_pos hd, if_pos hd']
      have hor : (latest sent c.1).or (if d.1 = c.1 then some d.2 else none) =
          latest sent c.1 := by
        split
        · next heq =>
          have hsome : latest sent c.1 ≠ none := fun h => latest_eq_none_iff.1 h (heq ▸ hd)
          obtain ⟨data, hdata⟩ := Option.ne_none_iff_exists'.1 hsome
          rw [hdata]
          rfl
        · exact Option.or_none
      rw [hor]
      omega
    · rw [if_neg hd]
      by_cases heq : d.1 = c.1
      · have hnone : latest sent c.1 = none := latest_eq_none_iff.2 (heq ▸ hd)
        rw [hnone, Option.getD_none, List.length_nil] at ih
        rw [if_pos (by simp [heq]), if_pos heq, hnone, Option.none_or, Option.getD_some]
        omega
      · have hd' : d.1 ∉ (sent ++ [c]).map Prod.fst := by simp_all
        rw [if_neg hd', if_neg heq, Option.or_none]
        omega

/-- What is staged is no more than what was sent. -/
theorem latestBytes_le : latestBytes sent ≤ sentBytes sent := by
  induction sent with
  | nil => exact le_rfl
  | cons c sent ih =>
    have hsum : sentBytes (c :: sent) = c.2.length + sentBytes sent := rfl
    rw [latestBytes, hsum]
    split <;> omega

/-- Everything that was sent is left exactly when no index was sent twice. -/
theorem latestBytes_eq_iff (hne : ∀ c ∈ sent, c.2 ≠ []) :
    latestBytes sent = sentBytes sent ↔ (sent.map Prod.fst).Nodup := by
  induction sent with
  | nil => simp [latestBytes, sentBytes]
  | cons c sent ih =>
    have hsum : sentBytes (c :: sent) = c.2.length + sentBytes sent := rfl
    have hpos : 0 < c.2.length := List.length_pos_iff.2 (hne c List.mem_cons_self)
    have hle := @latestBytes_le sent
    rw [List.map_cons, List.nodup_cons, ← ih fun d hd => hne d (List.mem_cons_of_mem _ hd),
      latestBytes, hsum]
    split
    · next hmem => exact iff_of_false (by omega) fun h => h.1 hmem
    · next hmem =>
      rw [and_iff_right hmem]
      omega

/-! ## Histories of an upload -/

/-- A chunk that was accepted: the size that was answered, the size that the record then had, and
the bytes that were then staged. -/
structure Accepted where
  sent : ℕ × Bytes
  returned : ℕ
  recorded : ℕ
  staged : ℕ

/-- The history of upload `f` of room `ρ` with the declared size `total`, and the chunks that were
accepted for it. A request for a chunk that is refused belongs to the history like one that is
accepted. -/
inductive Sends (env : Env) (ρ f total : ℕ) : World → List Accepted → Prop
  | created {p w w' room_token} {body : uploads.UploadSessionCreate} {request rec_}
      (hw : w.db.Free) (hnew : ∀ key ∈ w.storage.keys, ¬(w.uuids w.uuidsUsed).text <+: key)
      (hr : calm.Runs p (uploads.createUploadSession env room_token body request) w (.ok rec_) w')
      (hf : rec_.id = f) (hρ : rec_.room_id = ρ) (htotal : body.total_size_bytes = total) :
      Sends env ρ f total w' []
  | accepted {p w w' calls room_token index data request rec_ row}
      (h : Sends env ρ f total w calls)
      (hr : calm.Runs p (uploads.uploadChunk env room_token f index (.ok data) request) w
        (.ok rec_) w') (hrow : w'.db.committed .files f = some row) :
      Sends env ρ f total w' (calls ++ [{
        sent := (index.toNat, data)
        returned := rec_.size_bytes
        recorded := row.size_bytes
        staged := w'.storage.stagedBytes row.storage_key }])
  | refused {p w w' calls room_token index body request e} (h : Sends env ρ f total w calls)
      (hr : calm.Runs p (uploads.uploadChunk env room_token f index body request) w
        (.error e) w') : Sends env ρ f total w' calls
  | elsewhere {w w' calls} (h : Sends env ρ f total w calls) (hw' : w'.db.Free)
      (hsame : ∀ row, w'.db.committed .files f = some row → row.status = .pending →
        w.db.committed .files f = some row ∧
          ∀ key, row.storage_key.text <+: key → w'.storage.lookup key = w.storage.lookup key) :
      Sends env ρ f total w' calls

/-- The chunks of a history. -/
def sentOf (calls : List Accepted) : Sent := calls.map Accepted.sent

/-- What a history makes of its upload while it is pending, and what was answered in it. -/
structure Inv (f total : ℕ) (w : World) (calls : List Accepted) : Prop where
  nonempty : ∀ call ∈ calls, call.sent.2 ≠ []
  size : ∀ row, w.db.committed .files f = some row → row.status = .pending →
    row.size_bytes = sentBytes (sentOf calls) ∧ row.total_size_bytes = some total ∧
      w.storage.stagedBytes row.storage_key = latestBytes (sentOf calls)
  answers : ∀ pre call, pre ++ [call] <+: calls →
    call.returned = sentBytes (sentOf (pre ++ [call])) ∧ call.recorded = call.returned ∧
      call.staged = latestBytes (sentOf (pre ++ [call]))

variable {env : Env} {ρ f total : ℕ} {w : World} {calls : List Accepted}

/-- One chunk more was sent. -/
theorem sentBytes_concat (c : ℕ × Bytes) :
    sentBytes (sent ++ [c]) = sentBytes sent + c.2.length := by
  simp [sentBytes]

/-- A history of sent chunks is a history of an upload. -/
theorem Sends.uploaded (h : Sends env ρ f total w calls) :
    Uploaded env ρ f w (latest (sentOf calls)) := by
  induction h with
  | created hw hnew hr hf hρ _ => exact .created hw hnew hr hf hρ
  | @accepted p w w' calls room_token index data request rec_ row h hr hrow ih =>
    rw [sentOf, List.map_append, List.map_singleton, latest_concat]
    exact .stored ih hr
  | @refused p w w' calls room_token index body request e h hr ih =>
    obtain ⟨hw, -⟩ := ih.staged
    obtain ⟨hstorage, hsaved⟩ := (After.of_runs (after_uploadChunk (Snapshot.rows_of_free hw)) hr
      (hw.alone p)).2 e rfl
    have hstorage : w'.storage = w.storage := hstorage
    have hsaved : w'.db.committed = w.db.committed := hsaved
    refine .elsewhere ih (free_of_withSession calm_faithful hr (hw.alone p)) fun row hrow _ => ?_
    rw [hsaved] at hrow
    exact ⟨hrow, fun key _ => by rw [hstorage]⟩
  | elsewhere _ hw' hsame ih => exact .elsewhere ih hw' hsame

/-- The step of the answers: a new call has the size of everything that was sent. -/
theorem answers_concat {call : Accepted}
    (h : ∀ pre c, pre ++ [c] <+: calls → c.returned = sentBytes (sentOf (pre ++ [c])) ∧
      c.recorded = c.returned ∧ c.staged = latestBytes (sentOf (pre ++ [c])))
    (hreturned : call.returned = sentBytes (sentOf (calls ++ [call])))
    (hrecorded : call.recorded = call.returned)
    (hstaged : call.staged = latestBytes (sentOf (calls ++ [call]))) :
    ∀ pre c, pre ++ [c] <+: calls ++ [call] → c.returned = sentBytes (sentOf (pre ++ [c])) ∧
      c.recorded = c.returned ∧ c.staged = latestBytes (sentOf (pre ++ [c])) := by
  intro pre c hpre
  rcases List.prefix_concat_iff.1 hpre with heq | hpre
  · obtain ⟨rfl, hc⟩ := List.append_inj' heq rfl
    obtain rfl := List.singleton_inj.1 hc
    exact ⟨hreturned, hrecorded, hstaged⟩
  · exact h pre c hpre

/-- Every history keeps the invariant. -/
theorem Sends.inv (h : Sends env ρ f total w calls) : Inv f total w calls := by
  induction h with
  -- A new upload has no byte and, its key being new, no part.
  | @created p w w' room_token body request rec_ hw hnew hr hf hρ htotal =>
    obtain ⟨hs, -, row', hrow', hkey, -, hsize, htotal'⟩ :=
      After.of_runs returns_create hr (hw.alone p) rec_ rfl
    have hs : w'.storage = w.storage := hs
    have hrow' : w'.db.committed .files rec_.id = some row' := hrow'
    have hkey : row'.storage_key = w.uuids w.uuidsUsed := hkey
    refine ⟨by simp, fun row hrow _ => ?_, fun pre call hpre => ?_⟩
    · rw [← hf, hrow'] at hrow
      cases hrow
      refine ⟨hsize, htotal ▸ htotal', stagedBytes_of_none fun key hpre => ?_⟩
      by_contra hsome
      rw [hs, ← ne_eq, ← mem_keys_iff] at hsome
      exact hnew key hsome (hkey ▸ hpre)
    · simp at hpre
  -- A chunk adds its length to the record, also where it replaces a part.
  | @accepted p w w' calls room_token index data request rec_ row' h hr hrow' ih =>
    obtain ⟨hw, hstaged⟩ := h.uploaded.staged
    obtain ⟨data', row, hdata, hstore⟩ := (After.of_runs
      (after_uploadChunk (Snapshot.rows_of_free hw)) hr (hw.alone p)).1 rec_ rfl
    cases hdata
    have hs : w'.storage = _ := hstore.storage
    have hsaved : w'.db.committed .files f = _ := hstore.saved
    rw [hsaved] at hrow'
    cases hrow'
    have hrow : w.db.committed .files f = some row := hstore.found
    obtain ⟨hsize, htotal, hbytes⟩ := ih.size row hrow hstore.pending
    -- What was staged under the part key before is what was sent last for the index.
    have hold : w.storage.lookup (partKey row.storage_key index.toNat) =
        latest (sentOf calls) index.toNat := (hstaged row hrow hstore.pending).lookup _
    have hinsert := @stagedBytes_insert w.storage row.storage_key index.toNat data
    have hlatest := @latestBytes_concat (sentOf calls) (index.toNat, data)
    dsimp only at hlatest
    rw [hold] at hinsert
    have hsent : ∀ call : Accepted, sentOf (calls ++ [call]) = sentOf calls ++ [call.sent] := by
      intro call
      simp [sentOf]
    have hstagedBytes : w'.storage.stagedBytes row.storage_key =
        latestBytes (sentOf calls ++ [(index.toNat, data)]) := by
      rw [hs]
      change Storage.stagedBytes (w.storage.insert _ _) _ = _
      omega
    have hsizes : row.size_bytes + data.length =
        sentBytes (sentOf calls ++ [(index.toNat, data)]) := by
      rw [sentBytes_concat, hsize]
    refine ⟨?_, fun row₁ hrow₁ _ => ?_, ?_⟩
    · intro call hcall
      rcases List.mem_append.1 hcall with hcall | hcall
      · exact ih.nonempty call hcall
      · obtain rfl := List.mem_singleton.1 hcall
        exact hstore.data_ne
    · rw [hsaved] at hrow₁
      cases hrow₁
      rw [hsent]
      exact ⟨hsizes, htotal, hstagedBytes⟩
    · refine answers_concat ih.answers ?_ ?_ ?_
      · rw [hsent]
        exact hstore.returned.trans hsizes
      · exact hstore.returned.symm
      · rw [hsent]
        exact hstagedBytes
  -- A refused chunk leaves storage and rows as they were.
  | @refused p w w' calls room_token index body request e h hr ih =>
    obtain ⟨hw, -⟩ := h.uploaded.staged
    obtain ⟨hstorage, hsaved⟩ := (After.of_runs (after_uploadChunk (Snapshot.rows_of_free hw)) hr
      (hw.alone p)).2 e rfl
    have hstorage : w'.storage = w.storage := hstorage
    have hsaved : w'.db.committed = w.db.committed := hsaved
    refine ⟨ih.nonempty, fun row hrow hpending => ?_, ih.answers⟩
    rw [hsaved] at hrow
    rw [hstorage]
    exact ih.size row hrow hpending
  -- Whatever else happens leaves the record and its parts.
  | @elsewhere w w' calls h hw' hsame ih =>
    refine ⟨ih.nonempty, fun row hrow hpending => ?_, ih.answers⟩
    obtain ⟨hrow, hlookup⟩ := hsame row hrow hpending
    rw [stagedBytes_congr hlookup]
    exact ih.size row hrow hpending

/-- The declared size is one that the settings allow. -/
theorem Sends.total_le (h : Sends env ρ f total w calls) : total ≤ env.max_file_size_bytes := by
  induction h with
  | @created p w w' room_token body request rec_ hw _ hr _ _ htotal =>
    exact htotal ▸ (After.of_runs returns_create hr (hw.alone p) rec_ rfl).2.1
  | accepted _ _ _ ih => exact ih
  | refused _ _ ih => exact ih
  | elsewhere _ _ _ ih => exact ih

/-- Every accepted chunk continues a history. -/
theorem Sends.send (h : Sends env ρ f total w calls) {p : ℕ} {w' : World} {room_token : Token}
    {index : ℤ} {data : Bytes} {request : Request} {rec_ : FileRecord}
    (hr : calm.Runs p (uploads.uploadChunk env room_token f index (.ok data) request) w
      (.ok rec_) w') :
    ∃ call, call.sent = (index.toNat, data) ∧ Sends env ρ f total w' (calls ++ [call]) := by
  obtain ⟨hw, -⟩ := h.uploaded.staged
  obtain ⟨data', row, -, hstore⟩ := (After.of_runs
    (after_uploadChunk (Snapshot.rows_of_free hw)) hr (hw.alone p)).1 rec_ rfl
  exact ⟨_, rfl, .accepted h hr hstore.saved⟩

/-- The upload of one byte, once its chunk is stored. -/
theorem sends_storedWorld :
    ∃ call : Accepted, call.sent = (0, [65]) ∧ Sends .plain 0 0 1 storedWorld [call] := by
  obtain ⟨rec_, hid, hcreate⟩ := calm.exists_runs_ok 0
    (uploads.createUploadSession .plain "a" oneByte .owner) .owned
    (fun rec_ => (rec_.id, rec_.room_id)) (b := (0, 0)) (by decide)
  obtain ⟨_, -, hstore⟩ := calm.exists_runs_ok 0
    (uploads.uploadChunk .plain "a" 0 0 (.ok [65]) .owner) createdWorld (fun _ => ())
    (b := ()) (by decide)
  have hcreated : Sends .plain 0 0 1 createdWorld [] := by
    refine .created World.holding_free ?_ hcreate (Prod.mk.inj hid).1 (Prod.mk.inj hid).2 rfl
    intro key hkey
    cases hkey
  exact hcreated.send hstore

/-- Chunks that are stored one after the other continue a history. -/
theorem Sends.storeAll {ρ total : ℕ} {w w' : World} {calls : List Accepted} {cs : List (ℤ × Bytes)}
    (h : Sends .plain ρ 0 total w calls) (hr : calm.Runs 0 (storeAll cs) w (.ok ()) w') :
    ∃ calls', sentOf calls' = cs.map (fun c => (c.1.toNat, c.2)) ∧
      Sends .plain ρ 0 total w' (calls ++ calls') := by
  induction cs generalizing w calls with
  | nil =>
    cases hr
    exact ⟨[], rfl, by rwa [List.append_nil]⟩
  | cons c cs ih =>
    obtain ⟨_, w₁, hstore, hrest⟩ := hr.of_bind_ok
    obtain ⟨call, hcall, h₁⟩ := h.send hstore
    obtain ⟨calls', hcalls, h'⟩ := ih h₁ hrest
    refine ⟨call :: calls', ?_, by rwa [List.append_assoc] at h'⟩
    rw [sentOf, List.map_cons, hcall, List.map_cons]
    exact congrArg _ hcalls

/-- The upload of three bytes with some of its chunks stored. -/
theorem exists_sends {cs : List (ℤ × Bytes)}
    (h : (calm.eval 0 (storeAll cs) openedWorld).map (fun x => x.1.toOption.map id) =
      some (some ())) :
    ∃ w calls, sentOf calls = cs.map (fun c => (c.1.toNat, c.2)) ∧ Sends .plain 0 0 3 w calls := by
  obtain ⟨rec_, hid, hcreate⟩ := calm.exists_runs_ok 0
    (uploads.createUploadSession .plain "a" threeBytes .owner) .owned
    (fun rec_ => (rec_.id, rec_.room_id)) (b := (0, 0)) (by decide)
  obtain ⟨⟨⟩, -, hstore⟩ := calm.exists_runs_ok 0 (storeAll cs) openedWorld id (b := ()) h
  have hcreated : Sends .plain 0 0 3 openedWorld [] := by
    refine .created World.holding_free ?_ hcreate (Prod.mk.inj hid).1 (Prod.mk.inj hid).2 rfl
    intro key hkey
    cases hkey
  obtain ⟨calls, hcalls, h'⟩ := hcreated.storeAll hstore
  exact ⟨_, calls, hcalls, h'⟩

end staging

open staging

/-- For every upload and every sequence of accepted chunks, in any order and with any repetition, every
size that is answered and recorded is that of the staged objects exactly when no index is sent
twice. -/
theorem store_chunk_sizes_iff {env : Env} {ρ f total : ℕ} {w : World} {calls : List Accepted}
    (h : Sends env ρ f total w calls) :
    (∀ call ∈ calls, call.returned = call.staged ∧ call.recorded = call.staged) ↔
      (calls.map fun call => call.sent.1).Nodup := by
  have hinv := h.inv
  have hne : ∀ pre, pre <+: calls → ∀ c ∈ sentOf pre, c.2 ≠ [] := by
    intro pre hpre c hc
    obtain ⟨call, hcall, rfl⟩ := List.mem_map.1 hc
    exact hinv.nonempty call (hpre.subset hcall)
  have hindices : ∀ l : List Accepted, (l.map fun call => call.sent.1) = (sentOf l).map Prod.fst := by
    intro l
    simp [sentOf]
  rw [hindices]
  constructor
  · intro hexact
    -- The last answer tells of all chunks.
    rcases List.eq_nil_or_concat' calls with rfl | ⟨pre, call, rfl⟩
    · exact List.nodup_nil
    · obtain ⟨hreturned, -, hstaged⟩ := hinv.answers pre call List.prefix_rfl
      refine (latestBytes_eq_iff (hne _ List.prefix_rfl)).1 ?_
      rw [← hstaged, ← hreturned]
      exact (hexact call (by simp)).1.symm
  · intro hnodup call hcall
    obtain ⟨pre, suf, hsplit⟩ := List.append_of_mem hcall
    have hpre : pre ++ [call] <+: calls := ⟨suf, by rw [hsplit, List.append_assoc]; rfl⟩
    obtain ⟨hreturned, hrecorded, hstaged⟩ := hinv.answers pre call hpre
    have hsub : (sentOf (pre ++ [call])).map Prod.fst <+: (sentOf calls).map Prod.fst :=
      (hpre.map _).map _
    have hall := (latestBytes_eq_iff (hne _ hpre)).2 (hnodup.sublist hsub.sublist)
    have hexact : call.returned = call.staged := by omega
    exact ⟨hexact, hrecorded.trans hexact⟩

/-- Two chunks of an upload, the second before the first. -/
theorem store_chunk_sizes_iff_backward : ∃ w calls, Sends .plain 0 0 3 w calls ∧
    sentOf calls = [(1, [67]), (0, [65, 66])] ∧
    ∀ call ∈ calls, call.returned = call.staged ∧ call.recorded = call.staged := by
  obtain ⟨w, calls, hsent, h⟩ := @exists_sends [(1, [67]), (0, [65, 66])] (by decide)
  refine ⟨w, calls, h, hsent, (store_chunk_sizes_iff h).2 ?_⟩
  have hindices : calls.map (fun call => call.sent.1) = (sentOf calls).map Prod.fst := by
    simp [sentOf]
  rw [hindices, hsent]
  decide

/-- The chunk of an upload is sent again: two bytes are answered and one is staged. -/
theorem store_chunk_size_of_retry : ∃ w calls, Sends .plain 0 0 1 w calls ∧
    ∃ call ∈ calls, call.returned = 2 ∧ call.staged = 1 := by
  obtain ⟨first, hfirst, h⟩ := sends_storedWorld
  obtain ⟨_, -, hr⟩ := calm.exists_runs_ok 0
    (uploads.uploadChunk .plain "a" 0 0 (.ok [65]) .owner) storedWorld (fun _ => ())
    (b := ()) (by decide)
  obtain ⟨again, hagain, h'⟩ := h.send hr
  obtain ⟨hreturned, -, hstaged⟩ := h'.inv.answers [first] again List.prefix_rfl
  have hsent : sentOf ([first] ++ [again]) = [(0, [65]), (0, [65])] := by
    rw [sentOf, List.map_append, List.map_singleton, List.map_singleton, hfirst, hagain]
    rfl
  rw [hsent] at hreturned hstaged
  exact ⟨_, _, h', again, by simp, hreturned, hstaged⟩

/-- For every upload and every sequence of requests for its chunks, what is staged stays within the
declared size, which is one that the settings allow, exactly when at every point of the sequence the
chunks that were accepted last for the indices do. -/
theorem staged_within_iff {env : Env} {ρ f total : ℕ} {w : World} {calls : List Accepted}
    (h : Sends env ρ f total w calls) :
    total ≤ env.max_file_size_bytes ∧
      ((∀ call ∈ calls, call.staged ≤ total) ↔
        ∀ pre, pre <+: calls → latestBytes (sentOf pre) ≤ total) := by
  refine ⟨h.total_le, fun hstaged pre hpre => ?_, fun hlatest call hcall => ?_⟩
  · rcases List.eq_nil_or_concat' pre with rfl | ⟨pre, call, rfl⟩
    · exact Nat.zero_le _
    · rw [← (h.inv.answers pre call hpre).2.2]
      exact hstaged call (hpre.subset (by simp))
  · obtain ⟨pre, suf, hsplit⟩ := List.append_of_mem hcall
    have hpre : pre ++ [call] <+: calls := ⟨suf, by rw [hsplit, List.append_assoc]; rfl⟩
    rw [(h.inv.answers pre call hpre).2.2]
    exact hlatest _ hpre

/-- Two chunks of an upload, one of which is sent twice, are within its size, although four bytes are
sent for three. -/
theorem staged_within_iff_shuffled : ∃ w calls, Sends .plain 0 0 3 w calls ∧
    sentOf calls = [(1, [67]), (0, [66]), (0, [65, 66])] ∧ ∀ call ∈ calls, call.staged ≤ 3 := by
  obtain ⟨w, calls, hsent, h⟩ := @exists_sends shuffled (by decide)
  refine ⟨w, calls, h, hsent, (staged_within_iff h).2.2 fun pre hpre => ?_⟩
  have hall : ∀ l ∈ (shuffled.map fun c => (c.1.toNat, c.2)).inits, latestBytes l ≤ 3 := by decide
  refine hall _ ((List.mem_inits _ _).2 ?_)
  rw [← hsent]
  exact hpre.map _

/-- For an upload of one byte, two bytes are staged. -/
theorem staged_beyond_total : ∃ w calls, Sends .plain 0 0 1 w calls ∧
    ∃ call ∈ calls, call.staged = 2 := by
  obtain ⟨first, hfirst, h⟩ := sends_storedWorld
  obtain ⟨_, -, hr⟩ := calm.exists_runs_ok 0
    (uploads.uploadChunk .plain "a" 0 1 (.ok [65]) .owner) storedWorld (fun _ => ())
    (b := ()) (by decide)
  obtain ⟨second, hsecond, h'⟩ := h.send hr
  obtain ⟨-, -, hstaged⟩ := h'.inv.answers [first] second List.prefix_rfl
  have hsent : sentOf ([first] ++ [second]) = [(0, [65]), (1, [65])] := by
    rw [sentOf, List.map_append, List.map_singleton, List.map_singleton, hfirst, hsecond]
    rfl
  rw [hsent] at hstaged
  exact ⟨_, _, h', second, by simp, hstaged⟩

end DropRoom
