import DropRoom.App.Services
import DropRoom.Text.Header

/-!
# The name of a downloaded file

The `Content-Disposition` that `download` answers names the file twice: in a quoted string, from which
quotes and line breaks are meant to be taken, and percent-encoded. What is taken is a backslash with a
quote, and a backslash with the letter `n`.
-/

namespace DropRoom

open Text

namespace files

/-- The characters that `urllib.parse.quote` leaves as they are, as bytes. -/
def safe (b : UInt8) : Bool :=
  let c := Char.ofNat b.toNat
  b.toNat < 128 && (c.isAlphanum || c ∈ ['_', '.', '-', '~', '/'])

/-- `quote(filename)`. -/
def quote (filename : List Char) : List Char := percentEncode safe filename

/-- `filename.replace('\\\"', '_').replace('\\n', '')`. -/
def replaced (filename : List Char) : List Char :=
  replacePair '\\' 'n' [] (replacePair '\\' '"' ['_'] filename)

/-- What follows the quoted string in the value. -/
def extended (filename : List Char) : List Char :=
  "; filename*=UTF-8''".toList ++ quote filename

/-- `disposition`. -/
def disposition (filename : List Char) : List Char :=
  "attachment; filename=\"".toList ++ replaced filename ++ '"' :: extended filename

end files

namespace disposition

open files

/-- The value of the header is one that a client reads the name from. -/
structure Readable (filename : List Char) : Prop where
  /-- Starlette encodes it in Latin-1. -/
  latin1 : ∀ c ∈ files.disposition filename, c.toNat ≤ 0xFF
  /-- It is one line. -/
  oneLine : '\r' ∉ files.disposition filename ∧ '\n' ∉ files.disposition filename
  /-- The quoted string that starts behind `filename=` ends where the name does. -/
  quoted : ∃ inside,
    scan false (replaced filename ++ '"' :: extended filename) = some (inside, extended filename)
  /-- The other parameter stands for the name. -/
  encoded : percentDecode (quote filename) = some filename

/-- The characters of the name that a header can hold. -/
def Plain (c : Char) : Prop := c.toNat ≤ 0xFF ∧ c ≠ '\r' ∧ c ≠ '\n'

/-- Whether a character is plain is decided. -/
instance (c : Char) : Decidable (Plain c) := inferInstanceAs (Decidable (_ ∧ _ ∧ _))

/-- Read from the left, where a backslash with a quote counts as an ordinary character and a backslash
with an `n` as nothing, every quote is escaped by a backslash and the last backslash escapes
something. -/
def escapes : Bool → List Char → Bool
  | escaped, [] => !escaped
  | _, '\\' :: '"' :: s => escapes false s
  | escaped, '\\' :: 'n' :: s => escapes escaped s
  | true, _ :: s => escapes false s
  | false, c :: s => c != '"' && escapes (c == '\\') s

/-! ## The two parameters -/

/-- The bytes that are not escaped are ASCII, and none is `%`. -/
theorem safe_ascii : ∀ b, safe b = true → b.toNat < 128 ∧ b ≠ 0x25 := by
  intro b hb
  rw [safe, Bool.and_eq_true, decide_eq_true_eq] at hb
  refine ⟨hb.1, ?_⟩
  rintro rfl
  exact absurd hb.2 (by decide)

/-- The ASCII characters from `-` on are plain. -/
theorem plain_of_lt : ∀ n < 128, 0x2D ≤ n → Plain (Char.ofNat n) := by decide

/-- A byte below `-` is escaped. -/
theorem le_of_safe : ∀ n < 0x2D, safe (UInt8.ofNat n) = false := by decide

/-- The backslash is plain. -/
theorem plain_backslash : Plain '\\' := by decide

/-- The quote is plain. -/
theorem plain_quotes : Plain '"' := by decide

/-- An encoded name is plain. -/
theorem plain_quote (filename : List Char) : ∀ c ∈ quote filename, Plain c := by
  have hpercent : Plain '%' := by decide
  have hdigit : ∀ n < 16, Plain (hexDigit n) := by decide
  refine forall_percentEncode (fun b hb => ?_) hpercent hdigit filename
  refine plain_of_lt b.toNat (safe_ascii b hb).1 ?_
  by_contra hlt
  have hunsafe := le_of_safe b.toNat (by omega)
  rw [UInt8.ofNat_toNat, hb] at hunsafe
  cases hunsafe

/-- The value is plain exactly when the name is. -/
theorem plain_disposition_iff (filename : List Char) :
    (∀ c ∈ files.disposition filename, Plain c) ↔ ∀ c ∈ filename, Plain c := by
  have hn : Plain 'n' := by decide
  have hunderscore : ∀ c ∈ ['_'], Plain c := List.forall_mem_singleton.2 (by decide)
  have hnothing : ∀ c ∈ [], Plain c := List.forall_mem_nil _
  have hopening : ∀ c ∈ "attachment; filename=\"".toList, Plain c := by simp [Plain]
  have hbetween : ∀ c ∈ "; filename*=UTF-8''".toList, Plain c := by simp [Plain]
  have hreplaced : (∀ c ∈ replaced filename, Plain c) ↔ ∀ c ∈ filename, Plain c :=
    (forall_replacePair plain_backslash hn hnothing).trans
      (forall_replacePair plain_backslash plain_quotes hunderscore)
  have hextended : ∀ c ∈ extended filename, Plain c :=
    List.forall_mem_append.2 ⟨hbetween, plain_quote filename⟩
  constructor
  · intro h
    exact hreplaced.1 fun c hc => h c (List.mem_append_left _ (List.mem_append_right _ hc))
  · intro h
    have hquoted := List.forall_mem_append.2 ⟨hopening, hreplaced.2 h⟩
    exact List.forall_mem_append.2 ⟨hquoted, List.forall_mem_cons.2 ⟨plain_quotes, hextended⟩⟩

/-! ## The quoted string -/

/-- An escaped quote is replaced. -/
theorem replaced_quote (s : List Char) : replaced ('\\' :: '"' :: s) = '_' :: replaced s := by
  rw [replaced, replacePair_pair]
  exact replacePair_cons fun h => absurd h (by decide)

/-- An escaped line break is dropped. -/
theorem replaced_n (s : List Char) : replaced ('\\' :: 'n' :: s) = replaced s := by
  have hletter : replacePair '\\' '"' ['_'] ('n' :: s) = 'n' :: replacePair '\\' '"' ['_'] s :=
    replacePair_cons fun h => absurd h (by decide)
  have hkept : replacePair '\\' '"' ['_'] ('\\' :: 'n' :: s) =
      '\\' :: replacePair '\\' '"' ['_'] ('n' :: s) := by
    refine replacePair_cons fun _ h => ?_
    cases h
  rw [replaced, hkept, hletter, replacePair_pair]
  rfl

/-- Every other character is kept. -/
theorem replaced_cons {c : Char} {s : List Char} (hquote : ∀ s', c = '\\' → s = '"' :: s' → False)
    (hn : ∀ s', c = '\\' → s = 'n' :: s' → False) : replaced (c :: s) = c :: replaced s := by
  have hfirst : c = '\\' → s.head? ≠ some '"' := by
    intro hc h
    obtain ⟨s', hs⟩ := List.head?_eq_some_iff.1 h
    exact hquote s' hc hs
  have hsecond : c = '\\' → (replacePair '\\' '"' ['_'] s).head? ≠ some 'n' := by
    intro hc h
    rcases head?_replacePair (a := '\\') (b := '"') (s := s) (List.cons_ne_nil '_' []) with he | he
    · obtain ⟨s', hs⟩ := List.head?_eq_some_iff.1 (he.symm.trans h)
      exact hn s' hc hs
    · exact absurd (he.symm.trans h) (by decide)
  rw [replaced, replacePair_cons hfirst, replacePair_cons hsecond]
  rfl

/-- After the replacements a name is quotable exactly when it escapes what it has to. -/
theorem quotable_replaced (escaped : Bool) (filename : List Char) :
    quotable escaped (replaced filename) = escapes escaped filename := by
  fun_induction escapes escaped filename with
  | case1 escaped => rfl
  | case2 escaped s ih =>
    rw [replaced_quote, ← ih]
    cases escaped <;> rfl
  | case3 escaped s ih => rw [replaced_n, ih]
  | case4 c s hquote hn ih => rw [replaced_cons hquote hn, quotable, ih]
  | case5 c s hquote hn ih => rw [replaced_cons hquote hn, quotable, ih]

/-! ## The header -/

/-- The header names the file exactly when the name is plain and its quotes are escaped. -/
theorem readable_iff (filename : List Char) :
    Readable filename ↔ (∀ c ∈ filename, Plain c) ∧ escapes false filename = true := by
  rw [← quotable_replaced, ← scan_iff (t := extended filename), ← plain_disposition_iff]
  constructor
  · intro h
    exact ⟨fun c hc => ⟨h.latin1 c hc, ne_of_mem_of_not_mem hc h.oneLine.1,
      ne_of_mem_of_not_mem hc h.oneLine.2⟩, h.quoted⟩
  · rintro ⟨hplain, hquoted⟩
    exact {
      latin1 := fun c hc => (hplain c hc).1
      oneLine := ⟨fun hc => (hplain _ hc).2.1 rfl, fun hc => (hplain _ hc).2.2 rfl⟩
      quoted := hquoted
      encoded := percentDecode_percentEncode safe_ascii filename }

/-- A name of at most 255 characters is stored as it is given. -/
theorem safeName_of_length {name : String} (hname : name ≠ "") (hlength : name.toList.length ≤ 255) :
    safeName (some name) = name := by
  have htruthy : roomService.truthy (some name) = some name := by
    simp [roomService.truthy, hname]
  rw [safeName, htruthy]
  show String.ofList (name.toList.take 255) = name
  rw [List.take_of_length_le hlength, String.ofList_toList]

/-- The header of a download names the file, whatever name was sent for it, exactly when the name that
is stored has no line breaks, no characters that Latin-1 lacks and no quote that it does not escape
itself. -/
theorem download_readable_iff (filename : Option String) :
    Readable (safeName filename).toList ↔
      (∀ c ∈ (safeName filename).toList, Plain c) ∧
        escapes false (safeName filename).toList = true :=
  readable_iff _

/-- A file whose name is a quote is stored under this name, and its header is not readable. -/
theorem download_unreadable : safeName (some "\"") = "\"" ∧
    ¬Readable (safeName (some "\"")).toList := by
  have hname : safeName (some "\"") = "\"" := safeName_of_length (by decide) (by decide)
  refine ⟨hname, ?_⟩
  rw [hname, readable_iff]
  exact fun h => absurd h.2 (by decide)

end disposition

end DropRoom
