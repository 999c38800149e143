import DropRoom.Files.Chunks
import Mathlib.Algebra.Order.Floor.Div

/-!
# The chunks that the client sends

`uploadInChunks` of the room page cuts a file into chunks of the server's `chunkSizeBytes`, and counts
them with a chunk size of its own. The chunks are the file exactly when both sizes give the same
number of chunks (`client_agrees_iff`).
-/

namespace DropRoom

open Effect Store Prog uploadService chunks

namespace client

/-- `assumedChunkSize`. -/
def assumedChunkSize : ℕ := 8 * 1024 * 1024

/-- `Math.ceil(file.size / assumedChunkSize)`. -/
def totalChunks (size : ℕ) : ℕ := size ⌈/⌉ assumedChunkSize

/-- `file.slice(start, end)`, where what lies behind the end of the file is cut off. -/
def slice (file : Bytes) (start stop : ℕ) : Bytes := (file.take stop).drop start

/-- The body of the request for a chunk. -/
def chunk (chunkSizeBytes : ℕ) (file : Bytes) (index : ℕ) : Bytes :=
  let start := index * chunkSizeBytes
  slice file start (start + chunkSizeBytes)

/-! ## Cutting a file -/

section

variable {c n : ℕ} {file : Bytes}

/-- How long the slice of an index is. -/
theorem length_chunk (index : ℕ) :
    (chunk c file index).length = min (index * c + c) file.length - index * c := by
  simp [chunk, slice]

/-- The slice of an index is cut out of the file. -/
theorem chunk_eq (index : ℕ) : chunk c file index = (file.drop (index * c)).take c := by
  rw [chunk, slice, List.drop_take, Nat.add_sub_cancel_left]

/-- The first `n` chunks are the first `n * c` bytes. -/
theorem concat_chunk (n : ℕ) : concat (chunk c file) n = file.take (n * c) := by
  induction n with
  | zero => simp [concat]
  | succ n ih => rw [concat_succ, ih, chunk_eq, Nat.succ_mul, List.take_add]

/-- The chunks make up the file when there are enough of them. -/
theorem concat_chunk_eq_iff : concat (chunk c file) n = file ↔ file.length ≤ n * c := by
  rw [concat_chunk, List.take_eq_self_iff]

/-- No chunk is empty when there are not too many of them. -/
theorem chunk_ne_nil_iff (hc : 0 < c) : (∀ index < n, chunk c file index ≠ []) ↔
    ∀ index < n, index * c < file.length := by
  refine forall₂_congr fun index _ => ?_
  rw [← List.length_pos_iff, length_chunk]
  omega

/-- The number of chunks of `c` bytes. -/
theorem eq_ceilDiv_iff (hc : 0 < c) :
    ((∀ index < n, index * c < file.length) ∧ file.length ≤ n * c) ↔ n = file.length ⌈/⌉ c := by
  have hle : ∀ m, file.length ⌈/⌉ c ≤ m ↔ file.length ≤ m * c := by
    intro m
    rw [ceilDiv_le_iff_le_mul hc, Nat.mul_comm]
  constructor
  · rintro ⟨hlt, henough⟩
    refine le_antisymm ?_ ((hle n).2 henough)
    by_contra hn
    have hfew := hlt _ (Nat.lt_of_not_le hn)
    have hall := (hle _).1 le_rfl
    omega
  · rintro rfl
    refine ⟨fun index hindex => ?_, (hle _).1 le_rfl⟩
    by_contra hfew
    exact absurd ((hle index).2 (Nat.le_of_not_lt hfew)) (Nat.not_le.2 hindex)

/-- A byte is in one chunk only, that of its offset. -/
theorem existsUnique_chunk (hc : 0 < c) (henough : file.length ≤ n * c) {k : ℕ}
    (hk : k < file.length) : ∃! index, index < n ∧ index * c ≤ k ∧ k < index * c + c := by
  refine ⟨k / c, ⟨?_, Nat.div_mul_le_self k c, Nat.lt_div_mul_add hc⟩, ?_⟩
  · exact Nat.div_lt_of_lt_mul (by rw [Nat.mul_comm]; omega)
  · rintro index ⟨-, hlo, hhi⟩
    refine (Nat.div_eq_of_lt_le hlo ?_).symm
    rwa [Nat.succ_mul]

end

/-! ## What the server makes of the chunks -/

section

variable {env : Env} {σ : Serial} {rec_ : FileRecord} {index : ℕ} {data : Bytes}

/-- `store_chunk` accepts the chunks that are neither empty nor too long. -/
theorem storeChunk_iff (hrow : σ.db.rows .files rec_.id = some rec_.toFileRow)
    (hpending : rec_.status = .pending) :
    After (storeChunk env rec_ index data) (fun r _ => (∃ stored, r = .ok stored) ↔
      data ≠ [] ∧ data.length ≤ env.upload_chunk_size_bytes) σ := by
  have hfail : ∀ e : Err, ¬∃ stored : FileRecord, Except.error e = .ok stored := by
    rintro e ⟨stored, h⟩
    cases h
  unfold storeChunk
  refine (After.require_bind_iff _ _ _).2 ⟨fun _ => ?_, fun h => absurd hpending h⟩
  refine (After.require_bind_iff _ _ _).2 ⟨fun hempty => ?_, fun h => ?_⟩
  swap
  · exact iff_of_false (hfail _) fun hdata => h hdata.1
  refine (After.require_bind_iff _ _ _).2 ⟨fun hlong => ?_, fun h => ?_⟩
  swap
  · exact iff_of_false (hfail _) fun hdata => h hdata.2
  refine (After.bind_iff _ _ _).2 ((After.put_ok_iff _ _ _).2 ?_)
  refine (After.bind_iff _ _ _).2 ((After.fileFlush_iff ?_ ?_ _).2 ((After.pure_iff _).2 ?_))
  · exact hrow
  · rfl
  · exact iff_of_true ⟨_, rfl⟩ ⟨hempty, hlong⟩

/-- Flushing a record succeeds, or finds that the record is gone. -/
theorem after_flush {loaded new : FileRecord} {Q : Except Err Unit → Serial → Prop}
    (hQ : ∀ r σ', r = .ok () ∨ r = .error .exception → Q r σ') :
    After (fileRepository.flush loaded new) Q σ := by
  unfold fileRepository.flush
  split
  · exact hQ _ _ (.inl rfl)
  · refine (After.bind_iff _ _ _).2 ((After.updateAt_iff _ _ _ _).2 ?_)
    refine (After.require_iff _ _ _).2 ⟨fun _ => hQ _ _ (.inl rfl), fun _ => hQ _ _ (.inr rfl)⟩

/-- The errors of the other classes. -/
theorem error_ne {α : Type} {cls : ErrorClass} (hcls : cls ≠ .dropRoomError) (text detail : String) :
    (.error (error cls text) : Except Err α) ≠ .error (error .dropRoomError detail) := by
  intro h
  injection h with h
  injection h with h
  exact hcls h

/-- `complete_upload_session` complains neither about a missing chunk nor about the size when all
chunks are staged and have the declared size in total. -/
theorem after_complete_detail {room : Room} {actor : SessionRecord} {ρ n : ℕ}
    {chunk : ℕ → Option Bytes}
    (hstaged : rec_.status = .pending → Staged env ρ rec_.toFileRow chunk σ.rest.storage)
    (hall : ∀ i < n, chunk i ≠ none)
    (htotal : rec_.total_size_bytes = some (object chunk n).length) :
    After (uploadService.completeUploadSession env room actor rec_ n)
      (fun r _ => ∀ detail, r ≠ .error (error .dropRoomError detail)) σ := by
  unfold uploadService.completeUploadSession authorizeChunkedUpload
  refine (After.require_bind_iff _ _ _).2 ⟨fun _ => ?_, fun _ => error_ne (by decide) _⟩
  refine (After.bind_iff _ _ _).2 ((After.require_bind_iff _ _ _).2 ⟨fun _ => ?_, fun _ => ?_⟩)
  swap
  · exact error_ne (by decide) _
  refine (After.require_iff _ _ _).2 ⟨fun _ => ?_, fun _ => error_ne (by decide) _⟩
  refine (After.require_bind_iff _ _ _).2 ⟨fun hpending => ?_, fun _ => error_ne (by decide) _⟩
  have hs := hstaged hpending
  refine (After.bind_iff _ _ _).2 ((After.listKeys_iff _ _).2 ?_)
  -- The client has sent every slice, so none is missing.
  have hmissing : missing (σ.rest.storage.listKeys (partPrefix rec_.storage_key)) n = [] := by
    refine List.eq_nil_iff_forall_not_mem.2 fun i hi => ?_
    obtain ⟨hin, hnone⟩ := hs.only.mem_missing.1 hi
    exact hall i hin ((hs.lookup i).symm.trans hnone)
  refine (After.require_bind_iff _ _ _).2 ⟨fun _ => ?_, fun h => absurd hmissing h⟩
  rw [hs.only.parts_eq hmissing]
  unfold assembleUpload
  refine (After.bind_iff _ _ _).2 ((After.tryCatch_iff _ _).2
    ((assemble_iff _ _ (hs.flatten_parts n) _).2 ?_))
  dsimp only
  -- And the slices add up to the declared size.
  rw [htotal, Option.getD_some, if_neg (by simp)]
  split
  · refine (After.bind_iff _ _ _).2 ((After.delete_iff _ _).2 ((After.raise_iff _).2 ?_))
    exact error_ne (by decide) _
  · unfold confirmUpload claimQuota
    refine (After.bind_iff _ _ _).2 ((After.updateAt_iff _ _ _ _).2 ?_)
    dsimp only
    split
    · refine (After.bind_iff _ _ _).2 (after_flush fun r σ' hr => ?_)
      rcases hr with rfl | rfl
      · refine (After.bind_iff _ _ _).2 ((After.insert_iff _ _ _).2 ?_)
        refine (After.bind_iff _ _ _).2 ((After.forM_delete_iff _ _).2 ((After.pure_iff _).2 ?_))
        exact fun detail h => by cases h
      · exact fun detail h => by cases h
    · refine (After.bind_iff _ _ _).2 ((After.delete_iff _ _).2 ?_)
      refine (After.bind_iff _ _ _).2 ((After.forM_delete_iff _ _).2 ((After.raise_iff _).2 ?_))
      exact error_ne (by decide) _

end

/-- A program that runs alone sees what is committed. -/
theorem rows_of_committed {w : World} (hw : w.db.Free) (p : ℕ) (t : Table) (i : ℕ) :
    (Serial.of p w).db.rows t i = w.db.committed t i :=
  congrFun (congrFun (Snapshot.rows_of_free hw) t) i

/-- What makes client and server agree on the chunks of a file. -/
structure Agree (env : Env) (file : Bytes) : Prop where
  /-- `store_chunk` accepts every chunk, for every pending record. -/
  accepted : ∀ index < totalChunks file.length, ∀ (p : ℕ) (w : World) (rec_ : FileRecord),
    w.db.Free → w.db.committed .files rec_.id = some rec_.toFileRow → rec_.status = .pending →
    ∀ r w', calm.Runs p (storeChunk env rec_ index
      (chunk env.upload_chunk_size_bytes file index)) w r w' → ∃ stored, r = .ok stored
  /-- Every byte of the file is in exactly one chunk. -/
  disjoint : ∀ k < file.length, ∃! index, index < totalChunks file.length ∧
    index * env.upload_chunk_size_bytes ≤ k ∧
      k < index * env.upload_chunk_size_bytes + env.upload_chunk_size_bytes
  /-- The chunks one after the other are the file. -/
  whole : concat (chunk env.upload_chunk_size_bytes file) (totalChunks file.length) = file
  /-- In every history in which these chunks were stored for an upload of the size of the file,
  `complete_upload_session` complains neither about a missing chunk nor about the size. -/
  completes : ∀ (ρ f : ℕ) (w : World) (stored : ℕ → Option Bytes), Uploaded env ρ f w stored →
    (∀ index < totalChunks file.length,
      stored index = some (chunk env.upload_chunk_size_bytes file index)) →
    ∀ (p : ℕ) (room : Room) (actor : SessionRecord) (rec_ : FileRecord), rec_.id = f →
      w.db.committed .files f = some rec_.toFileRow →
      rec_.total_size_bytes = some file.length →
      ∀ r w', calm.Runs p (uploadService.completeUploadSession env room actor rec_
        (totalChunks file.length)) w r w' → ∀ detail, r ≠ .error (error .dropRoomError detail)

end client

open client

/-- For every file and every configured chunk size, client and server agree on the chunks of the file
exactly when it has as many chunks of the configured size as of 8 MiB. -/
theorem client_agrees_iff (env : Env) (file : Bytes) (hchunk : 0 < env.upload_chunk_size_bytes) :
    Agree env file ↔ totalChunks file.length = file.length ⌈/⌉ env.upload_chunk_size_bytes := by
  rw [← eq_ceilDiv_iff hchunk, ← concat_chunk_eq_iff (n := totalChunks file.length),
    ← chunk_ne_nil_iff hchunk]
  constructor
  · intro h
    refine ⟨fun index hindex => ?_, h.whole⟩
    -- A pending record, to which the chunk is stored.
    have hw := uploaded_storedWorld.staged.1
    have halone := hw.alone 0
    obtain ⟨row, hrow, hpending⟩ : ∃ row, storedWorld.db.committed .files 0 = some row ∧
        row.status = .pending := ⟨_, storedRow, rfl⟩
    have honly : (storeChunk env (toFile (0, row)) index
        (chunk env.upload_chunk_size_bytes file index)).Only (Issued env [.put, .flushFile]) :=
      only_storeChunk (by decide) (by decide) _ _ _
    obtain ⟨r, w', hr⟩ := calm_exists_runs honly (by decide) halone
    have hok := h.accepted index hindex 0 storedWorld (toFile (0, row)) hw hrow hpending r w' hr
    have hrow' : (Serial.of 0 storedWorld).db.rows .files (toFile (0, row)).id = some row :=
      (rows_of_committed hw 0 _ _).trans hrow
    have hiff := After.of_runs (storeChunk_iff hrow' hpending) hr halone
    exact (hiff.1 hok).1
  · rintro ⟨hne, hwhole⟩
    refine ⟨?_, ?_, hwhole, ?_⟩
    · intro index hindex p w rec_ hw hrow hpending r w' hr
      have halone := hw.alone p
      refine (After.of_runs (storeChunk_iff ?_ hpending) hr halone).2 ⟨hne index hindex, ?_⟩
      · exact (rows_of_committed hw p _ _).trans hrow
      · rw [length_chunk]
        omega
    · exact fun k hk => existsUnique_chunk hchunk (concat_chunk_eq_iff.1 hwhole) hk
    · intro ρ f w stored h hstored p room actor rec_ hid hrow htotal r w' hr
      obtain ⟨hw, hstaged⟩ := h.staged
      have hobject : object stored (totalChunks file.length) = file := by
        refine Eq.trans (congrArg List.flatten (List.map_congr_left fun i hi => ?_)) hwhole
        rw [hstored i (List.mem_range.1 hi), Option.getD_some]
      subst hid
      refine After.of_runs (after_complete_detail (hstaged _ hrow) ?_ ?_) hr (hw.alone p)
      · intro i hi hnone
        rw [hstored i hi] at hnone
        cases hnone
      · rw [hobject]
        exact htotal

/-- With the default chunk size they agree, here on the three chunks of a file. -/
theorem client_agrees_iff_chunked : Agree .plain (List.replicate 20000000 65) ∧
    totalChunks (List.replicate 20000000 (65 : UInt8)).length = 3 := by
  have hchunks : totalChunks (List.replicate 20000000 (65 : UInt8)).length = 3 := by
    rw [List.length_replicate]
    rfl
  refine ⟨(client_agrees_iff .plain _ (by decide)).2 ?_, hchunks⟩
  rw [hchunks, List.length_replicate]
  rfl

/-- With chunks of one byte, the second byte of a file is never sent. -/
theorem client_disagrees : ¬Agree { Env.plain with upload_chunk_size_bytes := 1 } [65, 66] :=
  fun h => absurd h.whole (by decide)

end DropRoom
