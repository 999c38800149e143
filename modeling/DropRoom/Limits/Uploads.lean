import DropRoom.Limits.Limiter
import DropRoom.Files.Slices

/-!
# The limit of the upload requests

An upload makes one request for the session and one for each chunk, and the limiter counts all of them
in the bucket `"upload"` of the client. Nothing relates the number of chunks that a file may have to
`upload_limit`: the requests of a file with at most `upload_limit - 1` chunks are always admitted, and
those of a larger file are not when they all come within one window.
-/

namespace DropRoom

open InMemoryRateLimiter client uploads

section

variable {T : Type} [Ring T] [LinearOrder T]

/-- `RateLimiterDeps.check`: whether the call is admitted. -/
def RateLimiterDeps.check (s : Settings) (b : InMemoryRateLimiter T) (scope key : String)
    (limit window_seconds : Option ℕ) (now : T) : Bool × InMemoryRateLimiter T :=
  if s.rate_limit_enabled then
    b.check scope key (limit.getD s.generic_limit)
      ((window_seconds.getD s.rate_limit_window_seconds : ℕ) : T) now
  else (true, b)

namespace uploads

/-- The call of the limiter in `create_upload_session` and in `upload_chunk`. -/
def checkUpload (s : Settings) (b : InMemoryRateLimiter T) (client_ip : String) (now : T) :
    Bool × InMemoryRateLimiter T :=
  RateLimiterDeps.check s b "upload" client_ip (some s.upload_limit) none now

/-- The limiter admits the requests at these times. -/
def admitsAll (s : Settings) (client_ip : String) : InMemoryRateLimiter T → List T → Bool
  | _, [] => true
  | b, now :: times =>
    let (admitted, b') := checkUpload s b client_ip now
    admitted && admitsAll s client_ip b' times

/-- How many requests `uploadInChunks` makes that are counted: none for an empty file, and otherwise
one `createUploadSession` and one `uploadChunk` for each chunk. -/
def requests (size : ℕ) : ℕ := if size = 0 then 0 else 1 + totalChunks size

/-- The files that need no more than `n` requests. -/
theorem requests_le_iff {size n : ℕ} :
    requests size ≤ n ↔ size ≤ (n - 1) * assumedChunkSize := by
  have hceil : ∀ m, totalChunks size ≤ m ↔ size ≤ m * assumedChunkSize := by
    intro m
    rw [totalChunks, ceilDiv_le_iff_le_mul (by decide), Nat.mul_comm]
  unfold requests
  by_cases hsize : size = 0
  · rw [if_pos hsize, hsize]
    exact iff_of_true (Nat.zero_le _) (Nat.zero_le _)
  · rw [if_neg hsize, ← hceil]
    have hpos : 0 < totalChunks size := by
      by_contra hzero
      have hle := (hceil 0).1 (by omega)
      omega
    omega

/-! ## Few requests -/

/-- A call when the window is not full, and the count after it. -/
theorem check_of_lt {b : InMemoryRateLimiter T} {scope key : String} {limit : ℕ}
    (h : (b.bucket (scope, key)).2 < limit) (window now : T) :
    (b.check scope key limit window now).1 = true ∧
      ((b.check scope key limit window now).2.bucket (scope, key)).2 ≤
        (b.bucket (scope, key)).2 + 1 := by
  rcases hv : b.bucket (scope, key) with ⟨start, count⟩
  rw [hv] at h
  rw [check_of_bucket hv]
  by_cases hopen : window ≤ now - start
  · rw [if_pos hopen, bucket_insert]
    exact ⟨rfl, Nat.le_add_left 1 count⟩
  · rw [if_neg hopen, if_neg (Nat.not_le.2 h), bucket_insert]
    exact ⟨rfl, Nat.le_refl _⟩

/-- As many requests as the window has room for are admitted, whenever they come. -/
theorem admitsAll_of_le {s : Settings} {client_ip : String} {b : InMemoryRateLimiter T}
    {times : List T} (h : s.rate_limit_enabled = true →
      (b.bucket ("upload", client_ip)).2 + times.length ≤ s.upload_limit) :
    admitsAll s client_ip b times = true := by
  induction times generalizing b with
  | nil => rfl
  | cons now times ih =>
    rw [List.length_cons] at h
    rw [admitsAll, checkUpload, RateLimiterDeps.check, Option.getD_some, Option.getD_none]
    by_cases hon : s.rate_limit_enabled = true
    · have hroom := h hon
      have hlt : (b.bucket ("upload", client_ip)).2 < s.upload_limit := by omega
      obtain ⟨hadmitted, hcount⟩ := check_of_lt hlt (s.rate_limit_window_seconds : T) now
      rw [if_pos hon, Bool.and_eq_true]
      exact ⟨hadmitted, ih fun _ => by omega⟩
    · rw [if_neg hon]
      exact ih fun hon' => absurd hon' hon

/-! ## Many requests -/

/-- Of requests that all come at the clock value 0, no more are admitted than the window has room
for. -/
theorem not_admitsAll_replicate [IsStrictOrderedRing T] {s : Settings}
    (hon : s.rate_limit_enabled = true) (hwindow : 0 < s.rate_limit_window_seconds)
    {client_ip : String} {count : ℕ} {b : InMemoryRateLimiter T} {n : ℕ}
    (hb : b.bucket ("upload", client_ip) = (0, count)) (hcount : count ≤ s.upload_limit)
    (hn : s.upload_limit < count + n) :
    admitsAll s client_ip b (List.replicate n (0 : T)) = false := by
  induction n generalizing b count with
  | zero => omega
  | succ n ih =>
    have hclosed : ¬(s.rate_limit_window_seconds : T) ≤ 0 - 0 := by
      rw [sub_zero, not_le]
      exact_mod_cast hwindow
    rw [List.replicate_succ, admitsAll, checkUpload, RateLimiterDeps.check, if_pos hon,
      Option.getD_some, Option.getD_none, check_of_bucket hb, if_neg hclosed]
    by_cases hfull : s.upload_limit ≤ count
    · rw [if_pos hfull]
      rfl
    · rw [if_neg hfull]
      exact ih (bucket_insert b _ _) (by omega) (by omega)

end uploads

/-- Whenever the requests of an upload come, from an address that has made none before, the limiter
admits them: that is so exactly for files that have less chunks than `upload_limit`, unless the
limiter is switched off. -/
theorem upload_never_throttled_iff [IsStrictOrderedRing T] (s : Settings)
    (hwindow : 0 < s.rate_limit_window_seconds) (size : ℕ) (client_ip : String)
    (b : InMemoryRateLimiter T) (hb : b.lookup ("upload", client_ip) = none) :
    (∀ times : List T, times.length = requests size → times.Pairwise (· ≤ ·) →
        (∀ now ∈ times, 0 ≤ now) → admitsAll s client_ip b times = true) ↔
      (s.rate_limit_enabled = true → size ≤ (s.upload_limit - 1) * assumedChunkSize) := by
  have hbucket : b.bucket ("upload", client_ip) = (0, 0) := by rw [bucket, hb, Option.getD_none]
  rw [← requests_le_iff]
  constructor
  · intro h hon
    by_contra hmany
    have hall := h (List.replicate (requests size) 0) List.length_replicate
      (List.pairwise_replicate.2 (.inr le_rfl))
      (fun now hnow => (List.eq_of_mem_replicate hnow).ge)
    rw [not_admitsAll_replicate hon hwindow hbucket (Nat.zero_le _) (by omega)] at hall
    cases hall
  · intro h times hlen _ _
    refine admitsAll_of_le fun hon => ?_
    have hfew := h hon
    rw [hbucket, hlen]
    omega

end

/-- With the default settings, neither of the two requests for a file of 8 MiB is throttled. -/
theorem upload_never_throttled_small :
    requests (8 * 1024 * 1024) = 2 ∧ admitsAll {} "203.0.113.7" ∅ ([0, 1] : List ℚ) = true := by
  refine ⟨rfl, (upload_never_throttled_iff {} (by decide) (8 * 1024 * 1024) "203.0.113.7" ∅ rfl).2
    (fun _ => by decide) [0, 1] rfl ?_ ?_⟩
  · simp
  · simp

/-- With the default settings, a file of 256 MiB may be uploaded, and yet the limiter refuses one of
the 33 requests for it when they come at once. -/
theorem large_upload_throttled : ∃ size, 0 < size ∧
    size ≤ ({} : Settings).max_file_size_bytes ∧ ∃ times : List ℚ, times.length = requests size ∧
      times.Pairwise (· ≤ ·) ∧ (∀ now ∈ times, 0 ≤ now) ∧
        admitsAll {} "203.0.113.7" ∅ times = false := by
  refine ⟨256 * 1024 * 1024, by decide, by decide, List.replicate 33 0, ?_, ?_, ?_, ?_⟩
  · rfl
  · exact List.pairwise_replicate.2 (.inr le_rfl)
  · exact fun now hnow => (List.eq_of_mem_replicate hnow).ge
  · exact not_admitsAll_replicate rfl (by decide) rfl (Nat.zero_le _) (by decide)

end DropRoom
