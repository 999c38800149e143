import DropRoom.Disk.Backends

/-!
# A put that fails

`LocalStorageBackend.put` and `S3StorageBackend.put` under every plan of failures: which of the requests
raise is given in advance, and each of them may. The local backend fills a temp file and moves it over
the key, so that all it has to undo is the temp file. The S3 backend, when anything after the creation
of its temp file raises, deletes the key itself, whatever was stored under it before.
-/

namespace DropRoom

open Effect Store Prog

/-- The host on which the requests of a plan fail, and no others. -/
def planned (plan : Sys → Option Exn) : Machine Sys Sys.Answer Exn Host where
  exec _ c w := match plan c with
    | some e => some (.error e, w)
    | none => Host.exec c w
  fault _ _ := False
  env _ _ := False

/-- The backends. -/
inductive Backend
  | localStorage | s3Storage
  deriving DecidableEq

namespace Backend

/-- `put`. -/
def put : Backend → (tmp key : Key) → List Bytes → Io ℕ
  | localStorage => LocalStorageBackend.put
  | s3Storage => S3StorageBackend.put

/-- The object under a key. -/
def object : Backend → Host → Key → Option Bytes
  | localStorage, w, key => w.object key
  | s3Storage, w, key => w.bucket.lookup key

/-- What `put` should do: on success the key holds the data, on an error every key holds what it held
before. -/
def Kept (b : Backend) (key : Key) (data : List Bytes) (w w' : Host) : Except Exn ℕ → Prop
  | .ok n => n = data.flatten.length ∧
      ∀ k, b.object w' k = if k = key then some data.flatten else b.object w k
  | .error _ => ∀ k, b.object w' k = b.object w k

end Backend

namespace puts

/-- One of the requests is to fail. -/
def Fails (plan : Sys → Option Exn) (requests : List Sys) : Prop := ∃ c ∈ requests, plan c ≠ none

/-- Whether a list of requests meets a failure is decided. -/
instance (plan : Sys → Option Exn) (requests : List Sys) : Decidable (Fails plan requests) :=
  inferInstanceAs (Decidable (∃ c ∈ requests, plan c ≠ none))

/-- The requests that write the data from the `i`-th chunk on. -/
def writes (fd : ℕ) : ℕ → List Bytes → List Sys
  | i, [] => [.anext i]
  | i, chunk :: data => .anext i :: .write fd i chunk :: writes fd (i + 1) data

/-- The requests that fill a file that was created. -/
def fills (fd : ℕ) (data : List Bytes) : List Sys := .fdopen fd :: writes fd 0 data ++ [.close fd]

section

variable {plan : Sys → Option Exn} {α : Type}

/-- Nothing fails in a list if nothing fails in its head and its tail. -/
theorem not_fails_cons {c : Sys} {l : List Sys} :
    ¬Fails plan (c :: l) ↔ plan c = none ∧ ¬Fails plan l := by
  simp [Fails]

/-- Nothing fails in two lists if nothing fails in either. -/
theorem not_fails_append {l l' : List Sys} :
    ¬Fails plan (l ++ l') ↔ ¬Fails plan l ∧ ¬Fails plan l' := by
  simp only [Fails, List.mem_append]
  grind

/-- A request for which no failure is planned is executed. -/
theorem exec_of_none {c : Sys} (hc : plan c = none) (w : Host) :
    (planned plan).exec 0 c w = Host.exec c w := by
  simp only [planned, hc]

/-- A request for which a failure is planned fails, and does nothing. -/
theorem exec_of_some {c : Sys} {e : Exn} (hc : plan c = some e) (w : Host) :
    (planned plan).exec 0 c w = some (.error e, w) := by
  simp only [planned, hc]

/-- A request needs what its one answer needs. -/
theorem ask_wp {c : Sys} {x : Except Exn c.Answer} {w w' : Host}
    (hx : (planned plan).exec 0 c w = some (x, w')) {Q : Except Exn c.Answer → Host → Prop}
    (h : Q x w') : (ask c).wp ((planned plan).trans 0) Q w := by
  rw [ask, wp_perform ((planned plan).trans_monotone 0)]
  intro y w₁ ha
  cases ha with
  | exec hy =>
    cases hx.symm.trans hy
    exact h
  | fault hf => cases hf

/-- A request that does not fail. -/
theorem ask_bind {c : Sys} {a : c.Answer} {w w' : Host} (hc : plan c = none)
    (hx : Host.exec c w = some (.ok a, w')) {f : c.Answer → Io α} {Q : Except Exn α → Host → Prop}
    (h : (f a).wp ((planned plan).trans 0) Q w') :
    (ask c >>= f).wp ((planned plan).trans 0) Q w := by
  rw [wp_bind]
  exact ask_wp ((exec_of_none hc w).trans hx) h

/-- A request that fails. -/
theorem ask_bind_error {c : Sys} {e : Exn} {w : Host} (hc : plan c = some e) {f : c.Answer → Io α}
    {Q : Except Exn α → Host → Prop} (h : Q (.error e) w) :
    (ask c >>= f).wp ((planned plan).trans 0) Q w := by
  rw [wp_bind]
  exact ask_wp (exec_of_some hc w) h

/-- A name that is in use is not chosen. -/
theorem mkstemp_bind {path : Path} {w : Host} (hc : plan (.mkstemp path) = none) {f : ℕ → Io α}
    {Q : Except Exn α → Host → Prop} (h : w.files.number path = none →
      (f w.files.count).wp ((planned plan).trans 0) Q (w.created path)) :
    (ask (.mkstemp path) >>= f).wp ((planned plan).trans 0) Q w := by
  cases hfresh : w.files.number path with
  | none => exact ask_bind hc (Host.exec_mkstemp hfresh) (h hfresh)
  | some i =>
    rw [wp_bind, ask, wp_perform ((planned plan).trans_monotone 0)]
    intro x w₁ ha
    cases ha with
    | exec hx =>
      rw [exec_of_none hc, Host.exec_mkstemp_of_used hfresh] at hx
      cases hx
    | fault hf => cases hf

/-- The temp file is taken away, unless that fails. -/
theorem unlink_wp {which : Exn → Bool} {path : Path} {w : Host} {i : ℕ}
    (hi : w.files.number path = some i) {Q : Except Exn Unit → Host → Prop}
    (hok : plan (.unlink path) = none → Q (.ok ()) (w.unlinked path))
    (herr : ∀ e, plan (.unlink path) = some e →
      if which e = true then Q (.ok ()) w else Q (.error e) w) :
    (suppress which (ask (.unlink path))).wp ((planned plan).trans 0) Q w := by
  refine wp_suppress ((planned plan).trans_monotone 0) ?_
  cases hc : plan (.unlink path) with
  | none =>
    exact ask_wp ((exec_of_none hc w).trans (Host.exec_unlink hi))
      ⟨fun _ => hok hc, fun e he => by cases he⟩
  | some e =>
    refine ask_wp (exec_of_some hc w) ⟨(fun he => by cases he), fun e' he => ?_⟩
    cases he
    exact herr e hc

/-! ## Filling the temp file -/

/-- Writing nothing changes nothing. -/
theorem append_nil (w : Host) (fd : ℕ) : w.append fd [] = w := by
  unfold Host.append Files.append
  rw [List.append_nil, Function.update_eq_self]

/-- Writing twice is writing at once. -/
theorem append_append (w : Host) (fd : ℕ) (bs bs' : Bytes) :
    (w.append fd bs).append fd bs' = w.append fd (bs ++ bs') := by
  unfold Host.append Files.append
  dsimp only
  rw [Function.update_idem, Function.update_self, List.append_assoc]

/-- The loop over the data. -/
theorem writeAll_wp {fd i total : ℕ} {data : List Bytes} {w : Host} {Q : Except Exn ℕ → Host → Prop}
    (hok : ¬Fails plan (writes fd i data) →
      Q (.ok (total + data.flatten.length)) (w.append fd data.flatten))
    (herr : Fails plan (writes fd i data) → ∀ e bs, Q (.error e) (w.append fd bs)) :
    (writeAll fd i data total).wp ((planned plan).trans 0) Q w := by
  induction data generalizing i total w with
  -- The stream is asked once more, and says that it is at its end.
  | nil =>
    cases hnext : plan (.anext i) with
    | none =>
      refine ask_bind hnext rfl ?_
      have h := hok (by simp [Fails, writes, hnext])
      rwa [List.flatten_nil, append_nil] at h
    | some e =>
      refine ask_bind_error hnext ?_
      have h := herr ⟨_, List.mem_singleton_self _, by simp [hnext]⟩ e []
      rwa [append_nil] at h
  -- It may fail before the chunk, and the write may fail.
  | cons chunk data ih =>
    cases hnext : plan (.anext i) with
    | some e =>
      refine ask_bind_error hnext ?_
      have h := herr ⟨_, List.mem_cons_self, by simp [hnext]⟩ e []
      rwa [append_nil] at h
    | none =>
      refine ask_bind hnext rfl ?_
      cases hwrite : plan (.write fd i chunk) with
      | some e =>
        refine ask_bind_error hwrite ?_
        have h := herr ⟨_, List.mem_cons_of_mem _ List.mem_cons_self, by simp [hwrite]⟩ e []
        rwa [append_nil] at h
      | none =>
        refine ask_bind hwrite rfl (ih (fun hrest => ?_) fun hrest e bs => ?_)
        · have h := hok (not_fails_cons.2 ⟨hnext, not_fails_cons.2 ⟨hwrite, hrest⟩⟩)
          rw [List.flatten_cons, ← append_append, List.length_append, ← Nat.add_assoc] at h
          exact h
        · obtain ⟨c, hc, hfail⟩ := hrest
          have h := herr ⟨c, List.mem_cons_of_mem _ (List.mem_cons_of_mem _ hc), hfail⟩ e (chunk ++ bs)
          rw [← append_append] at h
          exact h

/-- The file is filled, or something was written to it and an exception is raised. -/
theorem withFile_wp {fd : ℕ} {data : List Bytes} {w : Host} {Q : Except Exn ℕ → Host → Prop}
    (hok : ¬Fails plan (fills fd data) → Q (.ok data.flatten.length) (w.append fd data.flatten))
    (herr : Fails plan (fills fd data) → ∀ e bs, Q (.error e) (w.append fd bs)) :
    (withFile fd (writeAll fd 0 data 0)).wp ((planned plan).trans 0) Q w := by
  cases hopen : plan (.fdopen fd) with
  | some e =>
    refine ask_bind_error hopen ?_
    have h := herr ⟨_, List.mem_cons_self, by simp [hopen]⟩ e []
    rwa [append_nil] at h
  | none =>
    refine ask_bind hopen rfl ?_
    unfold withFinally
    rw [wp_andThen]
    have hclose : ∀ c ∈ [Sys.close fd], c ∈ fills fd data :=
      fun c hc => List.mem_cons_of_mem _ (List.mem_append_right _ hc)
    refine writeAll_wp (fun hwrites => ?_) fun hwrites e bs => ?_
    · rw [Nat.zero_add]
      cases hc : plan (.close fd) with
      | none =>
        refine ask_bind hc rfl (hok (not_fails_cons.2 ⟨hopen, not_fails_append.2 ⟨hwrites, ?_⟩⟩))
        simp [Fails, hc]
      | some e =>
        refine ask_bind_error hc (herr ⟨_, hclose _ (List.mem_singleton_self _), ?_⟩ e _)
        simp [hc]
    · obtain ⟨c, hmem, hfail⟩ := hwrites
      have h := herr ⟨c, List.mem_cons_of_mem _ (List.mem_append_left _ hmem), hfail⟩
      cases hc : plan (.close fd) with
      | none => exact ask_bind hc rfl (h e bs)
      | some e' => exact ask_bind_error hc (h e' bs)

/-! ## The local backend -/

/-- The new file has the next number. -/
theorem number_created (w : Host) (path : Path) :
    (w.created path).files.number path = some w.files.count := by
  rw [Host.created, Files.number_create, if_pos rfl]

/-- The content under each name after a new file was filled. -/
theorem content_filled (w : Host) (path : Path) (bs : Bytes) (p : Path) :
    ((w.created path).append w.files.count bs).files.content p =
      if p = path then some bs else w.files.content p := by
  unfold Host.append
  rw [Files.content_append _ (number_created w path)]
  have hdata : (w.created path).files.data w.files.count = [] := Function.update_self ..
  rw [hdata, List.nil_append]
  split
  · rfl
  · next h => exact Files.content_create_of_ne _ h

/-- The requests before the temp file of the local backend is there. -/
def opens (tmp key : Key) : List Sys := [.mkdirRoot, .mkdirParent key, .mkstemp (.root tmp)]

/-- Taking the temp file away. -/
theorem undo_wp {tmp : Key} {e : Exn} {bs : Bytes} {w : Host} (hfresh : w.object tmp = none)
    {Q : Except Exn ℕ → Host → Prop}
    (hok : plan (.unlink (.root tmp)) = none → ∀ w', (∀ k, w'.object k = w.object k) →
      Q (.error e) w')
    (herr : plan (.unlink (.root tmp)) ≠ none → ∀ e w', w'.object tmp ≠ w.object tmp →
      Q (.error e) w') :
    (suppress Exn.isOSError (ask (.unlink (.root tmp))) >>= fun _ => (.raise e : Io ℕ)).wp
      ((planned plan).trans 0) Q ((w.created (.root tmp)).append w.files.count bs) := by
  rw [wp_bind]
  have hnumber : ((w.created (.root tmp)).append w.files.count bs).files.number (.root tmp) =
      some w.files.count := number_created w (.root tmp)
  refine unlink_wp hnumber (fun hc => ?_) fun e' hc => ?_
  · refine hok hc _ fun k => ?_
    rw [Host.object, Host.unlinked, Files.content_unlink, content_filled, Host.object]
    simp only [Path.root.injEq]
    split
    · next hk => rw [hk]; exact hfresh.symm
    · rfl
  · have hleft : ((w.created (.root tmp)).append w.files.count bs).object tmp ≠ w.object tmp := by
      rw [hfresh, Host.object, content_filled, if_pos rfl]
      exact Option.some_ne_none _
    split
    · exact herr (by simp [hc]) e _ hleft
    · exact herr (by simp [hc]) e' _ hleft

/-- What a put of the local backend ends in: it fails before there is a temp file; it succeeds; it fails
and its temp file is gone; or the temp file is left. -/
theorem local_wp {tmp key : Key} {data : List Bytes} {w : Host} {Q : Except Exn ℕ → Host → Prop}
    (hopens : Fails plan (opens tmp key) → ∀ e, Q (.error e) w)
    (hok : ¬Fails plan (opens tmp key) →
      ¬Fails plan (fills w.files.count data ++ [.replace (.root tmp) (.root key)]) → ∀ w',
        (∀ k, w'.object k = if k = key then some data.flatten else w.object k) →
          Q (.ok data.flatten.length) w')
    (hundone : ¬Fails plan (opens tmp key) →
      Fails plan (fills w.files.count data ++ [.replace (.root tmp) (.root key)]) →
        plan (.unlink (.root tmp)) = none → ∀ e w', (∀ k, w'.object k = w.object k) → Q (.error e) w')
    (hleft : ¬Fails plan (opens tmp key) →
      Fails plan (fills w.files.count data ++ [.replace (.root tmp) (.root key)]) →
        plan (.unlink (.root tmp)) ≠ none → ∀ e w', w'.object tmp ≠ w.object tmp → Q (.error e) w') :
    (LocalStorageBackend.put tmp key data).wp ((planned plan).trans 0) Q w := by
  unfold LocalStorageBackend.put
  -- The directories and the temporary file are made outside the `try`.
  cases hroot : plan .mkdirRoot with
  | some e => exact ask_bind_error hroot (hopens ⟨_, List.mem_cons_self, by simp [hroot]⟩ e)
  | none =>
  refine ask_bind hroot rfl ?_
  cases hparent : plan (.mkdirParent key) with
  | some e =>
    exact ask_bind_error hparent (hopens ⟨.mkdirParent key, by simp [opens], by simp [hparent]⟩ e)
  | none =>
  refine ask_bind hparent rfl ?_
  cases htemp : plan (.mkstemp (.root tmp)) with
  | some e =>
    exact ask_bind_error htemp (hopens ⟨.mkstemp (.root tmp), by simp [opens], by simp [htemp]⟩ e)
  | none =>
  refine mkstemp_bind htemp fun hfresh => ?_
  -- From here on the `except` removes the temporary file.
  have hopened : ¬Fails plan (opens tmp key) := by simp [Fails, opens, hroot, hparent, htemp]
  have hobject : w.object tmp = none := by rw [Host.object, Files.content, hfresh, Option.map_none]
  have hnumber : ∀ bs, ((w.created (.root tmp)).append w.files.count bs).files.number (.root tmp) =
      some w.files.count := fun _ => number_created w (.root tmp)
  rw [wp_tryCatch, wp_bind]
  refine withFile_wp (fun hfills => ?_) fun hfills e bs => ?_
  · cases hreplace : plan (.replace (.root tmp) (.root key)) with
    | none =>
      have hcontent := content_filled w (.root tmp) data.flatten (.root tmp)
      rw [if_pos rfl] at hcontent
      refine ask_bind hreplace (Host.exec_replace hcontent) (hok hopened ?_ _ fun k => ?_)
      · exact not_fails_append.2 ⟨hfills, by simp [Fails, hreplace]⟩
      -- The key has the bytes of the temporary file, and the temporary name is free again.
      · have hdata := hcontent
        rw [Files.content, hnumber, Option.map_some] at hdata
        rw [Host.object, Host.replaced, Files.content_rename _ (hnumber _), hdata, content_filled,
          Host.object]
        simp only [Path.root.injEq]
        split
        · rfl
        · split
          · next hk => rw [hk]; exact hobject.symm
          · rfl
    | some e =>
      refine ask_bind_error hreplace ?_
      have hfail : Fails plan (fills w.files.count data ++ [.replace (.root tmp) (.root key)]) :=
        ⟨_, List.mem_append_right _ (List.mem_singleton_self _), by simp [hreplace]⟩
      exact undo_wp hobject (hundone hopened hfail · e) (hleft hopened hfail)
  · obtain ⟨c, hc, hfail⟩ := hfills
    have hfail : Fails plan (fills w.files.count data ++ [.replace (.root tmp) (.root key)]) :=
      ⟨c, List.mem_append_left _ hc, hfail⟩
    exact undo_wp hobject (hundone hopened hfail · e) (hleft hopened hfail)

/-! ## The S3 backend -/

/-- The `finally` of the S3 backend leaves the bucket alone. -/
theorem lastly_wp {tmp : Key} {fd : ℕ} {w : Host} {x : Except Exn ℕ}
    (hnumber : w.files.number (.temp tmp) = some fd)
    (hunlink : ∀ e, plan (.unlink (.temp tmp)) = some e → e.isOSError = true)
    {Q : Except Exn ℕ → Host → Prop} (h : ∀ w', w'.bucket = w.bucket → Q x w') :
    (lastly (suppress Exn.isOSError (ask (.unlink (.temp tmp)))) x).wp
      ((planned plan).trans 0) Q w := by
  have hlast : ∀ (f : Unit → Io ℕ), (∀ w', w'.bucket = w.bucket →
      (f ()).wp ((planned plan).trans 0) Q w') →
        (suppress Exn.isOSError (ask (.unlink (.temp tmp))) >>= f).wp
          ((planned plan).trans 0) Q w := by
    intro f hf
    rw [wp_bind]
    refine unlink_wp hnumber (fun _ => hf _ rfl) fun e he => ?_
    rw [if_pos (hunlink e he)]
    exact hf w rfl
  cases x with
  | ok a => exact hlast _ h
  | error e => exact hlast _ h

/-- The `except` of the S3 backend, and then its `finally`. -/
theorem discard_wp {tmp key : Key} {fd : ℕ} {w : Host} {e : Exn}
    (hnumber : w.files.number (.temp tmp) = some fd)
    (hunlink : ∀ e, plan (.unlink (.temp tmp)) = some e → e.isOSError = true)
    {Q : Except Exn ℕ → Host → Prop} (h : ∀ e w', w'.bucket =
      (if plan (.deleteObject key) = none then w.bucket.erase key else w.bucket) → Q (.error e) w') :
    (suppress Exn.isException (ask (.deleteObject key)) >>= fun _ => (.raise e : Io ℕ)).wp
      ((planned plan).trans 0) (fun x w' =>
        (lastly (suppress Exn.isOSError (ask (.unlink (.temp tmp)))) x).wp
          ((planned plan).trans 0) Q w') w := by
  rw [wp_bind]
  refine wp_suppress ((planned plan).trans_monotone 0) ?_
  cases hc : plan (.deleteObject key) with
  | none =>
    rw [hc, if_pos rfl] at h
    refine ask_wp ((exec_of_none hc w).trans rfl) ⟨fun _ => ?_, fun e he => by cases he⟩
    have hnumber' : ({ w with bucket := w.bucket.erase key } : Host).files.number (.temp tmp) =
        some fd := hnumber
    exact lastly_wp hnumber' hunlink fun w' hw' => h e w' hw'
  | some e' =>
    rw [hc, if_neg (Option.some_ne_none e')] at h
    refine ask_wp (exec_of_some hc w) ⟨(fun he => by cases he), fun e'' he => ?_⟩
    cases he
    split
    · exact lastly_wp hnumber hunlink fun w' hw' => h e w' hw'
    · exact lastly_wp hnumber hunlink fun w' hw' => h e' w' hw'

/-- The requests before the temp file of the S3 backend is there. -/
def s3Opens (tmp : Key) : List Sys := [.createBucket, .mkstemp (.temp tmp)]

/-- The bucket after an exception of the S3 backend: whether the object was uploaded or not, what is
under the key is deleted, unless that fails. -/
def s3Failed (plan : Sys → Option Exn) (tmp key : Key) (data : List Bytes) (w : Host) : Storage :=
  let reached := if Fails plan (fills w.files.count data ++ [.uploadFileobj (.temp tmp) key]) then
    w.bucket else w.bucket.insert key data.flatten
  if plan (.deleteObject key) = none then reached.erase key else reached

/-- What a put of the S3 backend ends in. -/
theorem s3_wp {tmp key : Key} {data : List Bytes} {w : Host}
    (hunlink : ∀ e, plan (.unlink (.temp tmp)) = some e → e.isOSError = true)
    {Q : Except Exn ℕ → Host → Prop} (hopens : Fails plan (s3Opens tmp) → ∀ e, Q (.error e) w)
    (hok : ¬Fails plan (s3Opens tmp) →
      ¬Fails plan (fills w.files.count data ++ [.uploadFileobj (.temp tmp) key, .resume]) → ∀ w',
        w'.bucket = w.bucket.insert key data.flatten → Q (.ok data.flatten.length) w')
    (hfail : ¬Fails plan (s3Opens tmp) →
      Fails plan (fills w.files.count data ++ [.uploadFileobj (.temp tmp) key, .resume]) → ∀ e w',
        w'.bucket = s3Failed plan tmp key data w → Q (.error e) w') :
    (S3StorageBackend.put tmp key data).wp ((planned plan).trans 0) Q w := by
  unfold S3StorageBackend.put
  -- The bucket and the temporary file are made outside the `try`.
  cases hcreate : plan .createBucket with
  | some e => exact ask_bind_error hcreate (hopens ⟨_, List.mem_cons_self, by simp [hcreate]⟩ e)
  | none =>
  refine ask_bind hcreate rfl ?_
  cases htemp : plan (.mkstemp (.temp tmp)) with
  | some e =>
    exact ask_bind_error htemp (hopens ⟨.mkstemp (.temp tmp), by simp [s3Opens], by simp [htemp]⟩ e)
  | none =>
  refine mkstemp_bind htemp fun hfresh => ?_
  -- From here on the `except` deletes the key, and the `finally` removes the temporary file.
  have hopened : ¬Fails plan (s3Opens tmp) := by simp [Fails, s3Opens, hcreate, htemp]
  have hnumber : ∀ bs, ((w.created (.temp tmp)).append w.files.count bs).files.number (.temp tmp) =
      some w.files.count := fun _ => number_created w (.temp tmp)
  unfold withFinally
  rw [wp_andThen, wp_tryCatch, wp_bind]
  refine withFile_wp (fun hfills => ?_) fun hfills e bs => ?_
  · have hcontent := content_filled w (.temp tmp) data.flatten (.temp tmp)
    rw [if_pos rfl] at hcontent
    cases hupload : plan (.uploadFileobj (.temp tmp) key) with
    | some e =>
      have hmem : Sys.uploadFileobj (.temp tmp) key ∈ [Sys.uploadFileobj (.temp tmp) key] :=
        List.mem_singleton_self _
      -- The upload itself fails: the bucket has the old object until the `except` deletes it.
      have hreached : Fails plan (fills w.files.count data ++ [.uploadFileobj (.temp tmp) key]) :=
        ⟨_, List.mem_append_right _ hmem, by simp [hupload]⟩
      have hall : Fails plan (fills w.files.count data ++ [.uploadFileobj (.temp tmp) key, .resume]) :=
        ⟨_, List.mem_append_right _ List.mem_cons_self, by simp [hupload]⟩
      refine ask_bind_error hupload (discard_wp (hnumber _) hunlink fun e w' hw' => ?_)
      refine hfail hopened hall e w' (hw'.trans ?_)
      rw [s3Failed, if_pos hreached]
      rfl
    | none =>
      refine ask_bind hupload (Host.exec_uploadFileobj hcontent) ?_
      have hreached : ¬Fails plan (fills w.files.count data ++ [.uploadFileobj (.temp tmp) key]) :=
        not_fails_append.2 ⟨hfills, by simp [Fails, hupload]⟩
      have hnumber' : (((w.created (.temp tmp)).append w.files.count data.flatten).uploaded key
          data.flatten).files.number (.temp tmp) = some w.files.count := hnumber data.flatten
      cases hresume : plan .resume with
      | none =>
        refine ask_bind hresume rfl ?_
        change (lastly _ (.ok data.flatten.length)).wp _ Q _
        refine lastly_wp hnumber' hunlink fun w' hw' => ?_
        refine hok hopened (not_fails_append.2 ⟨hfills, ?_⟩) w' hw'
        simp [Fails, hupload, hresume]
      -- The object is there, but the caller is never told: the `except` deletes the new object.
      | some e =>
        have hall : Fails plan
            (fills w.files.count data ++ [.uploadFileobj (.temp tmp) key, .resume]) :=
          ⟨.resume, List.mem_append_right _ (by simp), by simp [hresume]⟩
        refine ask_bind_error hresume (discard_wp hnumber' hunlink fun e w' hw' => ?_)
        refine hfail hopened hall e w' (hw'.trans ?_)
        rw [s3Failed, if_neg hreached]
        rfl
  -- The chunks could not be written, so nothing was uploaded.
  · obtain ⟨c, hc, hfails⟩ := hfills
    have hreached : Fails plan (fills w.files.count data ++ [.uploadFileobj (.temp tmp) key]) :=
      ⟨c, List.mem_append_left _ hc, hfails⟩
    have hall : Fails plan (fills w.files.count data ++ [.uploadFileobj (.temp tmp) key, .resume]) :=
      ⟨c, List.mem_append_left _ hc, hfails⟩
    refine discard_wp (hnumber bs) hunlink fun e w' hw' => ?_
    refine hfail hopened hall e w' (hw'.trans ?_)
    rw [s3Failed, if_pos hreached]
    rfl

end

end puts

open puts

/-- When a put keeps what it should. The local backend: no temp file was there yet, or nothing fails, or
the temp file is taken away again. The S3 backend: no temp file was there yet, or nothing fails, or the
`delete_object` of its clean-up fails, and the object either was not uploaded or is the old one. -/
def Backend.Safe (plan : Sys → Option Exn) (tmp key : Key) (data : List Bytes) (w : Host) :
    Backend → Prop
  | .localStorage => Fails plan (opens tmp key) ∨
      ¬Fails plan (fills w.files.count data ++ [.replace (.root tmp) (.root key)]) ∨
        plan (.unlink (.root tmp)) = none
  | .s3Storage => Fails plan (s3Opens tmp) ∨
      ¬Fails plan (fills w.files.count data ++ [.uploadFileobj (.temp tmp) key, .resume]) ∨
        plan (.deleteObject key) ≠ none ∧
          (Fails plan (fills w.files.count data ++ [.uploadFileobj (.temp tmp) key]) ∨
            w.bucket.lookup key = some data.flatten)

/-- What is found after an object was stored. -/
theorem lookup_insert (s : Storage) (key : Key) (object : Bytes) (k : Key) :
    (s.insert key object).lookup k = if k = key then some object else s.lookup k := by
  split
  · next hk => rw [hk, AList.lookup_insert]
  · next hk => rw [AList.lookup_insert_ne hk]

/-- A `put` of the local backend keeps the old object exactly where the plan is safe for it. -/
theorem kept_local_iff {plan : Sys → Option Exn} {tmp key : Key} {data : List Bytes} {w w' : Host}
    {r : Except Exn ℕ}
    (hr : (planned plan).Runs 0 (LocalStorageBackend.put tmp key data) w r w') :
    Backend.localStorage.Kept key data w w' r ↔
      Backend.localStorage.Safe plan tmp key data w := by
  refine ((planned plan).wp_iff_runs 0 _ (fun r w' => Backend.localStorage.Kept key data w w' r ↔
    Backend.localStorage.Safe plan tmp key data w) w).1 ?_ r w' hr
  refine local_wp ?_ ?_ ?_ ?_
  · intro hopens e
    exact iff_of_true (fun k => rfl) (.inl hopens)
  · intro hopens hfills w' hobject
    exact iff_of_true ⟨rfl, hobject⟩ (.inr (.inl hfills))
  · intro hopens hfills hunlink e w' hobject
    exact iff_of_true hobject (.inr (.inr hunlink))
  · intro hopens hfills hunlink e w' hobject
    refine iff_of_false (fun hkept => hobject (hkept tmp)) ?_
    rintro (h | h | h)
    · exact hopens h
    · exact h hfills
    · exact hunlink h

/-- A `put` of the S3 backend keeps the old object exactly where the plan is safe for it. -/
theorem kept_s3_iff {plan : Sys → Option Exn} (hplan : ∀ c e, plan c = some e → c.Raises e)
    {tmp key : Key} {data : List Bytes} {w w' : Host} {r : Except Exn ℕ}
    (hold : w.bucket.lookup key ≠ none)
    (hr : (planned plan).Runs 0 (S3StorageBackend.put tmp key data) w r w') :
    Backend.s3Storage.Kept key data w w' r ↔ Backend.s3Storage.Safe plan tmp key data w := by
  refine ((planned plan).wp_iff_runs 0 _ (fun r w' => Backend.s3Storage.Kept key data w w' r ↔
    Backend.s3Storage.Safe plan tmp key data w) w).1 ?_ r w' hr
  have hunlink : ∀ e, plan (.unlink (.temp tmp)) = some e → e.isOSError = true := by
    intro e he
    obtain rfl : e = .osError := hplan _ _ he
    rfl
  refine s3_wp hunlink ?_ ?_ ?_
  -- Nothing was begun.
  · intro hopens e
    exact iff_of_true (fun k => rfl) (.inl hopens)
  · intro hopens hfills w' hbucket
    refine iff_of_true ⟨rfl, fun k => ?_⟩ (.inr (.inl hfills))
    exact (congrArg (AList.lookup k) hbucket).trans (lookup_insert _ _ _ _)
  -- The put has failed: it depends on whether the old object was deleted, and whether the bucket
  -- had the new one.
  · intro hopens hfills e w' hbucket
    have hkept : Backend.s3Storage.Kept key data w w' (.error e) ↔
        ∀ k, (s3Failed plan tmp key data w).lookup k = w.bucket.lookup k := by
      rw [← hbucket]
      rfl
    have hsafe : Backend.s3Storage.Safe plan tmp key data w ↔ plan (.deleteObject key) ≠ none ∧
        (Fails plan (fills w.files.count data ++ [.uploadFileobj (.temp tmp) key]) ∨
          w.bucket.lookup key = some data.flatten) :=
      (or_iff_right hopens).trans (or_iff_right (not_not_intro hfills))
    rw [hkept, hsafe, s3Failed]
    by_cases hdelete : plan (.deleteObject key) = none
    · -- the object is lost, whether the new one has reached the bucket or not
      refine iff_of_false (fun h => hold ?_) fun h => h.1 hdelete
      have hkey := h key
      rwa [if_pos hdelete, AList.lookup_erase, eq_comm] at hkey
    · rw [if_neg hdelete]
      by_cases hreached : Fails plan (fills w.files.count data ++ [.uploadFileobj (.temp tmp) key])
      · rw [if_pos hreached]
        exact iff_of_true (fun k => rfl) ⟨hdelete, .inl hreached⟩
      · rw [if_neg hreached, and_iff_right hdelete, or_iff_right hreached]
        constructor
        · intro h
          rw [← h key, AList.lookup_insert]
        · intro h k
          rw [lookup_insert]
          split
          · next hk => rw [hk, h]
          · rfl

/-- For every content of the store, every key that holds an object, every data and every plan of
failures: a put of either backend keeps the contract exactly when it is safe. -/
theorem put_keeps_old_iff (b : Backend) {plan : Sys → Option Exn}
    (hplan : ∀ c e, plan c = some e → c.Raises e) {tmp key : Key} {data : List Bytes} {w w' : Host}
    {r : Except Exn ℕ} {old : Bytes} (hold : b.object w key = some old)
    (hr : (planned plan).Runs 0 (b.put tmp key data) w r w') :
    b.Kept key data w w' r ↔ b.Safe plan tmp key data w := by
  cases b with
  | localStorage => exact kept_local_iff hr
  | s3Storage =>
    refine kept_s3_iff hplan (fun hnone => ?_) hr
    rw [Backend.object, hnone] at hold
    cases hold

namespace puts

/-- A host on which both backends hold an object under one key. -/
def stored : Host where
  files := (Files.empty.create (.root ['k'])).append 0 [65]
  bucket := AList.insert ['k'] [65] ∅
  log := []

/-- The plan in which the data raises after the first chunk. -/
def broken : Sys → Option Exn
  | .anext 1 => some .exception
  | _ => none

/-- The failure is one that the request can have. -/
theorem raises_of_broken {c : Sys} {e : Exn} (h : broken c = some e) : c.Raises e := by
  unfold broken at h
  split at h
  · trivial
  · cases h

end puts

/-- The stream breaks off: the local backend keeps the old object. -/
theorem put_keeps_old_local : ∃ w', (planned broken).Runs 0
    (Backend.localStorage.put ['t'] ['k'] [[66], [67]]) stored (.error .exception) w' ∧
      Backend.localStorage.object w' ['k'] = some [65] := by
  have hr := (planned broken).runs_error 0 (Backend.localStorage.put ['t'] ['k'] [[66], [67]]) stored
    (e := .exception) (by decide)
  have hold : Backend.localStorage.object stored ['k'] = some [65] := by decide
  have hkept := (put_keeps_old_iff .localStorage (fun _ _ => raises_of_broken) hold hr).2
    (.inr (.inr rfl))
  exact ⟨_, hr, (hkept ['k']).trans hold⟩

/-- The stream breaks off: the S3 backend has deleted the old object. -/
theorem s3_put_loses_old : ∃ w', (planned broken).Runs 0
    (Backend.s3Storage.put ['t'] ['k'] [[66], [67]]) stored (.error .exception) w' ∧
      Backend.s3Storage.object stored ['k'] = some [65] ∧
        Backend.s3Storage.object w' ['k'] = none := by
  refine ⟨_, (planned broken).runs_error 0 (Backend.s3Storage.put ['t'] ['k'] [[66], [67]]) stored
    (e := .exception) (by decide), by decide, by decide⟩

end DropRoom
