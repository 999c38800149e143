import DropRoom.Files.Streaming

/-!
# The content type of a text

The content type of a file is decided by its first 256 KiB. A text that is longer may be cut inside
one of its characters there, and what is left of it is no UTF-8.
-/

namespace DropRoom

open Effect Store Prog uploadService chunks

namespace magic

/-! ## Cutting UTF-8 -/

/-- The first byte of a character is no continuation. -/
theorem isCont_eq_false {b : UInt8} (h : b ≤ 0x7F ∨ 0xC2 ≤ b) : isCont b = false := by
  rw [isCont, Bool.and_eq_false_iff, decide_eq_false_iff_not, decide_eq_false_iff_not]
  simp only [UInt8.le_iff_toNat_le, UInt8.reduceToNat] at h ⊢
  omega

/-- An ASCII character in front. -/
theorem isUtf8_cons {a : UInt8} (ha : a ≤ 0x7F) (l : Bytes) : isUtf8 (a :: l) = isUtf8 l :=
  (isUtf8.eq_def (a :: l)).trans (if_pos ha)

/-- Before a character. -/
theorem take_zero_iff {a : UInt8} (l : Bytes) (ha : a ≤ 0x7F ∨ 0xC2 ≤ a) :
    isUtf8 ((a :: l).take 0) = true ↔ ∀ b, (a :: l)[0]? = some b → isCont b = false := by
  refine iff_of_true rfl ?_
  rintro b ⟨⟩
  exact isCont_eq_false ha

/-- Inside a character. -/
theorem take_inside_iff {l : Bytes} {n : ℕ} {b : UInt8} (hb : l[n]? = some b)
    (hcont : isCont b = true) (htake : isUtf8 (l.take n) = false) :
    isUtf8 (l.take n) = true ↔ ∀ b, l[n]? = some b → isCont b = false := by
  rw [htake]
  refine iff_of_false Bool.false_ne_true fun h => ?_
  rw [h b hb] at hcont
  cases hcont

/-- A text that is cut after `n` bytes is UTF-8 exactly when no character goes on there. -/
theorem isUtf8_take_iff {l : Bytes} (h : isUtf8 l = true) (n : ℕ) :
    isUtf8 (l.take n) = true ↔ ∀ b, l[n]? = some b → isCont b = false := by
  fun_induction isUtf8 l generalizing n with
  | case1 => simp [isUtf8]
  -- One byte: the cut is before it or after it.
  | case2 a l ha ih =>
    cases n with
    | zero => exact take_zero_iff l (.inl ha)
    | succ n =>
      rw [List.take_succ_cons, isUtf8_cons ha, List.getElem?_cons_succ]
      exact ih h n
  -- Two bytes: a cut between them leaves the first alone, and the second continues it.
  | case3 a ha h₂ b l ih =>
    have hlead : 0xC2 ≤ a := by simp_all
    rw [Bool.and_eq_true] at h
    rcases n with _ | _ | n
    · exact take_zero_iff _ (.inr hlead)
    · exact take_inside_iff rfl h.1 (by simp [isUtf8, ha, h₂])
    · have hstep : isUtf8 ((a :: b :: l).take (n + 2)) = isUtf8 (l.take n) := by
        simp [isUtf8, ha, h₂, h.1]
      rw [hstep, List.getElem?_cons_succ, List.getElem?_cons_succ]
      exact ih h.2 n
  | case4 => cases h
  -- Three bytes.
  | case5 a ha h₂ h₃ b c l ih =>
    have hlead : 0xC2 ≤ a := by
      simp only [Bool.and_eq_true, decide_eq_true_eq] at h₃
      exact UInt8.le_trans (show (0xC2 : UInt8) ≤ 0xE0 by decide) h₃.1
    simp only [Bool.and_eq_true] at h
    obtain ⟨⟨⟨⟨hb, hc⟩, h₄⟩, h₅⟩, hl⟩ := h
    rcases n with _ | _ | _ | n
    · exact take_zero_iff _ (.inr hlead)
    · exact take_inside_iff rfl hb (by simp [isUtf8, ha, h₂, h₃])
    · exact take_inside_iff rfl hc (by simp [isUtf8, ha, h₂, h₃])
    · have hstep : isUtf8 ((a :: b :: c :: l).take (n + 3)) = isUtf8 (l.take n) := by
        simp [isUtf8, ha, h₂, h₃, h₄, h₅, hb, hc]
      rw [hstep, List.getElem?_cons_succ, List.getElem?_cons_succ, List.getElem?_cons_succ]
      exact ih hl n
  | case6 => cases h
  -- Four bytes.
  | case7 a ha h₂ h₃ h₄ b c d l ih =>
    have hlead : 0xC2 ≤ a := by
      simp only [Bool.and_eq_true, decide_eq_true_eq] at h₄
      exact UInt8.le_trans (show (0xC2 : UInt8) ≤ 0xF0 by decide) h₄.1
    simp only [Bool.and_eq_true] at h
    obtain ⟨⟨⟨⟨⟨hb, hc⟩, hd⟩, h₅⟩, h₆⟩, hl⟩ := h
    rcases n with _ | _ | _ | _ | n
    · exact take_zero_iff _ (.inr hlead)
    · exact take_inside_iff rfl hb (by simp [isUtf8, ha, h₂, h₃, h₄])
    · exact take_inside_iff rfl hc (by simp [isUtf8, ha, h₂, h₃, h₄])
    · exact take_inside_iff rfl hd (by simp [isUtf8, ha, h₂, h₃, h₄])
    · have hstep : isUtf8 ((a :: b :: c :: d :: l).take (n + 4)) = isUtf8 (l.take n) := by
        simp [isUtf8, ha, h₂, h₃, h₄, h₅, h₆, hb, hc, hd]
      rw [hstep, List.getElem?_cons_succ, List.getElem?_cons_succ, List.getElem?_cons_succ,
        List.getElem?_cons_succ]
      exact ih hl n
  | case8 => cases h
  | case9 => cases h

/-! ## Classifying a text -/

/-- UTF-8 that is not empty, without NUL and without a known signature. -/
structure IsText (content : Bytes) : Prop where
  ne_nil : content ≠ []
  utf8 : isUtf8 content = true
  noNul : 0 ∉ content
  unsigned : ∀ sig ∈ signatures, ¬sig.1 <+: content

/-- The MIME type of the client, or `text/plain` when none was given. -/
def clientType (client_mime : Option String) : String :=
  (roomService.truthy client_mime).getD "text/plain"

/-- No character of the content goes on behind its first block. -/
def CutBetween (content : Bytes) : Prop := ∀ b, content[chunkSize]? = some b → isCont b = false

variable {content : Bytes} {client_mime : Option String}

/-- No beginning of a text is taken for another type. -/
theorem sniff_take (h : IsText content) (n : ℕ) : sniff (content.take n) = none := by
  have hno : ∀ sig ∈ signatures, sig.1.isPrefixOf (content.take n) = false := by
    intro sig hsig
    refine Bool.eq_false_iff.2 fun hpre => h.unsigned sig hsig ?_
    exact (List.isPrefixOf_iff_prefix.1 hpre).trans (List.take_prefix n content)
  have hzip := hno (ascii "PK" ++ [0x03, 0x04], "application/zip", "zip") (by simp [signatures])
  rw [sniff, if_neg (by simp [hzip]), List.find?_eq_none.2 fun sig hsig => by simp [hno sig hsig]]
  rfl

/-- What has no signature is a text or not. -/
theorem normalize_of_sniff {pre : Bytes} (h : sniff pre = none) :
    normalizeContentType pre client_mime =
      if isPlainText pre then clientType client_mime else "application/octet-stream" := by
  unfold normalizeContentType
  rw [h]
  refine if_congr Iff.rfl ?_ rfl
  rcases client_mime with _ | mime
  · rfl
  · by_cases hmime : mime = "" <;> simp [clientType, roomService.truthy, hmime]

/-- The beginning of a text has the type of the client as long as it is UTF-8. -/
theorem normalize_take (h : IsText content) {n : ℕ} (hn : 0 < n) :
    normalizeContentType (content.take n) client_mime =
      if isUtf8 (content.take n) then clientType client_mime else "application/octet-stream" := by
  have hne : (content.take n).isEmpty = false := by
    rw [List.isEmpty_eq_false_iff, Ne, List.take_eq_nil_iff, not_or]
    exact ⟨hn.ne', h.ne_nil⟩
  have hnul : (content.take n).contains 0 = false := by
    rw [List.contains_eq_mem, decide_eq_false_iff_not]
    exact fun hmem => h.noNul (List.mem_of_mem_take hmem)
  rw [normalize_of_sniff (sniff_take h n), isPlainText, hne, hnul, Bool.not_false, Bool.true_and,
    Bool.and_true]

/-- A whole text has the type of the client. -/
theorem normalize_whole (h : IsText content) :
    normalizeContentType content client_mime = clientType client_mime := by
  have hall := @normalize_take content client_mime h content.length (List.length_pos_iff.2 h.ne_nil)
  rwa [List.take_length, h.utf8, if_pos rfl] at hall

/-- When the first block of a text has the type of the client. -/
theorem normalize_block_iff (h : IsText content) :
    normalizeContentType (content.take chunkSize) client_mime = clientType client_mime ↔
      CutBetween content ∨ client_mime = some "application/octet-stream" := by
  have hclient : "application/octet-stream" = clientType client_mime ↔
      client_mime = some "application/octet-stream" := by
    rcases client_mime with _ | mime
    · decide
    · by_cases hmime : mime = ""
      · subst hmime
        decide
      · rw [clientType, roomService.truthy, if_neg hmime]
        simp [eq_comm]
  have hcut : CutBetween content ↔ isUtf8 (content.take chunkSize) = true :=
    (isUtf8_take_iff h.utf8 chunkSize).symm
  rw [normalize_take h (by decide), hcut]
  split
  · next hutf8 => exact iff_of_true rfl (.inl hutf8)
  · next hutf8 => rw [hclient, or_iff_right hutf8]

end magic

/-! ## Uploads of a text -/

/-- `_chunks`: the uploaded file in blocks of 256 KiB. -/
def files.chunks (content : Bytes) : fileService.Source :=
  if content = [] then []
  else .ok (content.take (256 * 1024)) :: files.chunks (content.drop (256 * 1024))
termination_by content.length
decreasing_by
  rw [List.length_drop]
  have := List.length_pos_iff.2 ‹_›
  omega

namespace texts

open magic

variable {env : Env} {σ : Serial} {room_token : Token} {request : Request} {content : Bytes}

/-- The blocks are the file, and the first of them is its first block. -/
theorem chunks_eq (hne : content ≠ []) :
    ∃ datas : List Bytes, files.chunks content = datas.map .ok ∧ datas.flatten = content ∧
      datas.headD [] = content.take chunkSize := by
  have hdatas : ∀ content, ∃ datas : List Bytes, files.chunks content = datas.map .ok ∧
      datas.flatten = content := by
    intro content
    fun_induction files.chunks content with
    | case1 => exact ⟨[], rfl, rfl⟩
    | case2 content hne ih =>
      obtain ⟨datas, hchunks, hflatten⟩ := ih
      refine ⟨content.take (256 * 1024) :: datas, by rw [hchunks]; rfl, ?_⟩
      rw [List.flatten_cons, hflatten, List.take_append_drop]
  obtain ⟨datas, hchunks, hflatten⟩ := hdatas (content.drop (256 * 1024))
  have hsize : 256 * 1024 = chunkSize := by decide
  refine ⟨content.take (256 * 1024) :: datas, ?_, ?_, ?_⟩
  · rw [files.chunks, if_neg hne, hchunks]
    rfl
  · rw [List.flatten_cons, hflatten, List.take_append_drop]
  · rw [List.headD_cons, hsize]

/-- What the upload endpoint records for a file: the type of its first block. -/
theorem returns_upload {filename content_type : Option String} (hne : content ≠ []) :
    After.Returns (files.upload env room_token filename content_type (files.chunks content) request)
      (fun view σ' => view.content_type =
          some (normalizeContentType (content.take chunkSize) content_type) ∧
        ∃ row, σ'.db.saved .files view.id = some row ∧ row.content_type = view.content_type) σ := by
  obtain ⟨datas, hchunks, -, hhead⟩ := chunks_eq hne
  refine (After.returns_withSession_iff _).2 ((After.returns_bind_iff _ _).2 ?_)
  refine After.requireMember fun r _ => ?_
  rintro ⟨session_rec, room⟩ rfl
  refine (After.returns_bind_iff _ _).2 (After.validateCsrf fun r => ?_)
  rintro ⟨⟩ rfl
  refine (After.returns_bind_iff _ _).2 (After.limiterCheck fun r σ' _ => ?_)
  rintro ⟨⟩ rfl
  refine (After.returns_bind_iff _ _).2 (streaming.writes_uploadFile.after.mono ?_)
  rintro r σ₁ hout rec_ rfl
  obtain ⟨datas', hchunks', hconfirmed⟩ := hout
  rw [hchunks] at hchunks'
  obtain rfl := List.map_injective_iff.2 (fun _ _ h => Except.ok.inj h) hchunks'
  refine (After.returns_bind_iff _ _).2 ((After.returns_iff_of After.commit_iff).2 ?_)
  refine (After.returns_bind_iff _ _).2 (After.broadcast fun σ₂ hσ₂ => ?_)
  obtain ⟨_, _, _, rfl⟩ := hσ₂
  rintro _ ⟨⟩
  refine (After.returns_pure_iff _).2 ⟨?_, rec_.toFileRow, hconfirmed.row, rfl⟩
  rw [← hhead]
  exact hconfirmed.content_type

/-- What completing an upload records for it: the type of the first block of its object. -/
theorem returns_complete {f : ℕ} {body : uploads.UploadSessionComplete} {chunk : ℕ → Option Bytes}
    {ρ : ℕ} (hσ : σ.db.rows = σ.db.saved)
    (hstaged : ∀ row, σ.db.saved .files f = some row → row.status = .pending →
      Staged env ρ row chunk σ.rest.storage) :
    After.Returns (uploads.completeUploadSession env room_token f body request) (fun _ σ' =>
      ∃ row row', σ.db.saved .files f = some row ∧ σ'.db.saved .files f = some row' ∧
        row'.content_type = some (normalizeContentType
          ((object chunk body.totalChunks).take chunkSize) row.content_type)) σ := by
  refine (After.returns_withSession_iff _).2 ((After.returns_bind_iff _ _).2 ?_)
  refine After.requireMember fun r hm => ?_
  rintro ⟨actor, room⟩ rfl
  refine (After.returns_bind_iff _ _).2 (After.validateCsrf fun r => ?_)
  rintro ⟨⟩ rfl
  by_cases hgood : (actor.role = .owner ∨ room.guest_upload_enabled = true) ∧ room.id = ρ
  · obtain ⟨hactor, rfl⟩ := hgood
    have hafter := @after_completeAs env σ room actor chunk f body hσ (hm _ _ rfl).room_row hactor
      hstaged
    refine hafter.mono fun r σ' hc view hview => ?_
    obtain ⟨row, hrow, hrow', -, -⟩ := hc.ok view hview
    exact ⟨row, _, hrow, hrow', rfl⟩
  · -- The checks of the service refuse an actor that may not upload, and a record of another room.
    unfold uploads.completeAs
    refine (After.returns_bind_iff _ _).2 ((After.pendingSession_iff _ _ _).2 ⟨?_, ?_⟩)
    · rintro rec_ hrec hid _ ⟨⟩
      obtain ⟨row, hrow, rfl⟩ := Option.map_eq_some_iff.1 hrec
      unfold uploadService.completeUploadSession authorizeChunkedUpload
      simp only [After.returns_bind_iff, After.returns_require_iff]
      intro _ _ hactor hpending
      refine absurd ⟨hactor, ?_⟩ hgood
      exact hid.symm.trans (hstaged row (hσ ▸ hrow) hpending).room_id
    · rintro - rec_ ⟨⟩

/-! ## A text that is cut -/

/-- A text of ASCII letters with one character of two bytes at its end. -/
def accented (n : ℕ) : Bytes := List.replicate (n + 1) 0x61 ++ [0xC3, 0xA9]

section

variable (n : ℕ)

/-- The letters and the two bytes at the end. -/
theorem length_accented : (accented n).length = n + 3 := by
  rw [accented, List.length_append, List.length_replicate]
  rfl

/-- ASCII characters in front. -/
theorem isUtf8_replicate (l : Bytes) : isUtf8 (List.replicate n 0x61 ++ l) = isUtf8 l := by
  induction n with
  | zero => rfl
  | succ n ih => rw [List.replicate_succ, List.cons_append, isUtf8_cons (by decide), ih]

/-- It is a text. -/
theorem isText_accented : IsText (accented n) where
  ne_nil h := by
    have hlength := length_accented n
    rw [h] at hlength
    cases hlength
  utf8 := by
    rw [accented, isUtf8_replicate]
    decide
  noNul h := by
    rcases List.mem_append.1 h with h | h
    · cases List.eq_of_mem_replicate h
    · revert h
      decide
  unsigned := by
    -- The text starts with a letter with which no signature starts.
    have hletter : accented n = 0x61 :: (List.replicate n 0x61 ++ [0xC3, 0xA9]) := rfl
    have hhead : ∀ sig ∈ signatures, sig.1.head? ≠ some 0x61 ∧ sig.1 ≠ [] := by decide
    intro sig hsig hpre
    obtain ⟨hne, hnil⟩ := hhead sig hsig
    rw [hletter, List.prefix_cons_iff] at hpre
    rcases hpre with hpre | ⟨rest, hpre, -⟩
    · exact hnil hpre
    · exact hne (by rw [hpre]; rfl)

/-- The bytes of the last character. -/
theorem accented_getElem? (i : ℕ) : (accented n)[n + 1 + i]? = ([0xC3, 0xA9] : Bytes)[i]? := by
  have hi : n + 1 + i - (n + 1) = i := by omega
  rw [accented, List.getElem?_append_right, List.length_replicate, hi]
  rw [List.length_replicate]
  omega

end

/-- A text whose last character lies across the end of the first block. -/
def long : Bytes := accented (chunkSize - 2)

/-- A text whose last character is all that lies behind the first block. -/
def longer : Bytes := accented (chunkSize - 1)

/-- The long text is cut inside a character. -/
theorem not_cutBetween_long : ¬CutBetween long := by
  intro h
  have hbyte : long[chunkSize]? = some 0xA9 := accented_getElem? _ 1
  exact absurd (h _ hbyte) (by decide)

/-- The longer text is cut between two characters. -/
theorem cutBetween_longer : CutBetween longer := by
  intro b hb
  have hbyte : longer[chunkSize]? = some 0xC3 := accented_getElem? _ 0
  rw [hbyte] at hb
  cases hb
  decide

/-- The owner of the room uploads a text. -/
theorem exists_upload {content : Bytes} (h : IsText content)
    (hsize : content.length ≤ 2 * chunkSize) :
    ∃ view w', calm.Runs 0 (files.upload .plain "a" none none (files.chunks content) .owner) .owned
      (.ok view) w' := by
  have halone : World.owned.db.Alone 0 := World.holding_free.alone 0
  obtain ⟨datas, hchunks, hflatten, -⟩ := chunks_eq h.ne_nil
  obtain ⟨⟨actor, room⟩, hauth, hmember⟩ := calm.exists_runs_ok 0 (requireMember .plain "a" .owner)
    .owned (fun a => a) (b := (toSession (0, .owner), toRoom (0, .plain))) (by decide)
  obtain ⟨⟨⟩, -, hcsrf⟩ := calm.exists_runs_ok 0 (validateCsrf .plain .post .owner) .owned
    (fun _ => ()) (b := ()) (by decide)
  obtain ⟨⟨⟩, -, hlimit⟩ := calm.exists_runs_ok 0 (limiterCheck .plain "upload" "unknown" 30) .owned
    (fun _ => ()) (b := ()) (by decide)
  cases hauth
  -- The checks pass, and leave the rows and the objects.
  have hsame₁ := After.of_runs (Q := fun _ σ => σ = .of 0 .owned)
    (After.requireMember fun _ _ => rfl) hmember halone
  have hsame₂ := After.of_runs (Q := fun _ σ => σ = .of 0 .owned)
    (After.validateCsrf fun _ => rfl) hcsrf halone
  have hquiet := After.of_runs (Q := fun _ σ => (Serial.of 0 .owned).Quiet σ)
    (After.limiterCheck fun _ _ h => h) hlimit halone
  have hblock : 2 * chunkSize = 524288 := rfl
  have hok : After (files.upload .plain "a" none none (files.chunks content) .owner)
      (fun r _ => ∃ view, r = .ok view) (.of 0 .owned) := by
    refine (After.withSession_iff _ _).2 ((After.bind_iff _ _ _).2 ?_)
    refine (After.iff_of_runs hmember halone).2 ?_
    rw [hsame₁]
    refine (After.bind_iff _ _ _).2 ((After.iff_of_runs hcsrf halone).2 ?_)
    rw [hsame₂]
    refine (After.bind_iff _ _ _).2 ((After.iff_of_runs hlimit halone).2 ?_)
    obtain ⟨_, _, _, hσ⟩ := hquiet
    rw [hσ, hchunks]
    refine (After.bind_iff _ _ _).2 ((streaming.after_uploadFile_ok rfl rfl ?_ ?_).mono ?_)
    · have hmax : Env.plain.max_file_size_bytes = 1024 * 1024 * 1024 := rfl
      rw [hflatten]
      omega
    · rw [hflatten]
      refine ⟨.plain, rfl, rfl, by decide, ?_⟩
      have hmax : Env.plain.max_room_storage_bytes = 2 * 1024 * 1024 * 1024 := rfl
      have hnone : RoomRow.plain.storage_used_bytes = 0 := rfl
      omega
    · rintro _ σ' ⟨rec_, rfl⟩
      refine (After.bind_iff _ _ _).2 ((After.commit_iff _).2 ?_)
      refine (After.bind_iff _ _ _).2 (After.broadcast fun σ'' _ => ?_)
      exact (After.pure_iff _).2 ⟨_, rfl⟩
  have honly : (files.upload .plain "a" none none (files.chunks content) .owner).Only
      (Issued .plain (Route.upload "a" none none (files.chunks content)).kinds) :=
    only_upload _ _ _ _
  obtain ⟨r, w', hr⟩ := calm_exists_runs honly (by simp [Route.kinds, uploadKinds]) halone
  obtain ⟨view, rfl⟩ := hok.of_runs hr halone
  exact ⟨view, w', hr⟩

end texts

open magic texts

/-- For every text, the first block has the type of the whole, and so the upload endpoint and the
completion of an upload in chunks record the type of the client or `text/plain`, exactly when no
character goes on behind the first 256 KiB or the client itself gave `application/octet-stream`. -/
theorem text_recognised_iff {env : Env} {content : Bytes} (h : IsText content) :
    (∀ content_type, normalizeContentType (content.take chunkSize) content_type =
        normalizeContentType content content_type ↔
      CutBetween content ∨ content_type = some "application/octet-stream") ∧
    (∀ p w room_token filename content_type request view w', w.db.Free →
      calm.Runs p (files.upload env room_token filename content_type (files.chunks content) request)
        w (.ok view) w' →
      ∃ row, w'.db.committed .files view.id = some row ∧
        (row.content_type = some (clientType content_type) ↔
          CutBetween content ∨ content_type = some "application/octet-stream")) ∧
    ∀ ρ f w chunk, Uploaded env ρ f w chunk →
      ∀ p room_token (body : uploads.UploadSessionComplete) request view w',
        object chunk body.totalChunks = content →
        calm.Runs p (uploads.completeUploadSession env room_token f body request) w (.ok view) w' →
        ∃ row row', w.db.committed .files f = some row ∧ w'.db.committed .files f = some row' ∧
          (row'.content_type = some (clientType row.content_type) ↔
            CutBetween content ∨ row.content_type = some "application/octet-stream") := by
  refine ⟨fun content_type => ?_, ?_, ?_⟩
  · rw [normalize_whole h]
    exact normalize_block_iff h
  · intro p w room_token filename content_type request view w' hw hr
    obtain ⟨hview, row, hrow, htype⟩ := After.of_runs (returns_upload h.ne_nil) hr (hw.alone p) view rfl
    refine ⟨row, hrow, ?_⟩
    rw [htype, hview, Option.some_inj]
    exact normalize_block_iff h
  · intro ρ f w chunk hu p room_token body request view w' hobject hr
    obtain ⟨hw, hstaged⟩ := hu.staged
    obtain ⟨row, row', hrow, hrow', htype⟩ := After.of_runs
      (returns_complete (Snapshot.rows_of_free hw) hstaged) hr (hw.alone p) view rfl
    refine ⟨row, row', hrow, hrow', ?_⟩
    rw [htype, hobject, Option.some_inj]
    exact normalize_block_iff h

/-- The owner of a room uploads a text that is cut between two characters. -/
theorem text_recognised_iff_longer : chunkSize < longer.length ∧ ∃ view w',
    calm.Runs 0 (files.upload .plain "a" none none (files.chunks longer) .owner) .owned
      (.ok view) w' ∧
    ∃ row, w'.db.committed .files view.id = some row ∧ row.content_type = some "text/plain" := by
  have hlength : longer.length = chunkSize + 2 := length_accented _
  have htext : IsText longer := isText_accented _
  obtain ⟨view, w', hr⟩ := exists_upload htext (by
    rw [hlength]
    decide)
  have hfree : World.owned.db.Free := World.holding_free
  obtain ⟨row, hrow, htype⟩ :=
    (text_recognised_iff (isText_accented (chunkSize - 1))).2.1 _ _ _ _ _ _ _ _ hfree hr
  refine ⟨?_, view, w', hr, row, hrow, htype.2 (.inl cutBetween_longer)⟩
  rw [hlength]
  exact Nat.lt_add_of_pos_right Nat.two_pos

/-- The owner of a room uploads a text that is cut inside a character. -/
theorem text_cut : IsText long ∧ ∃ view w', calm.Runs 0 (files.upload .plain "a" none none
      (files.chunks long) .owner) .owned (.ok view) w' ∧
    view.content_type = some "application/octet-stream" := by
  have htext : IsText long := isText_accented _
  have halone : World.owned.db.Alone 0 := World.holding_free.alone 0
  obtain ⟨view, w', hr⟩ := exists_upload htext (by
    rw [long, length_accented]
    decide)
  refine ⟨htext, view, w', hr, ?_⟩
  have htype := (After.of_runs (returns_upload htext.ne_nil) hr halone view rfl).1
  rw [htype, Option.some_inj, normalize_take htext (by decide), if_neg]
  rw [isUtf8_take_iff htext.utf8]
  exact not_cutBetween_long

end DropRoom
