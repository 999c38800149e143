import Mathlib.Data.List.Basic
import Mathlib.Tactic.Common

/-!
# Text in header fields

Percent-encoding of UTF-8, quoted strings, and the replacement of a pair of characters, over lists of
characters. Percent-decoding undoes percent-encoding (`percentDecode_percentEncode`). A text in front
of a closing quote is read as one quoted string exactly when it is `quotable` (`scan_iff`).
-/

namespace DropRoom.Text

/-! ## Percent-encoding -/

/-- The hexadecimal digit of a number below 16. -/
def hexDigit (n : ℕ) : Char := Char.ofNat (if n < 10 then 48 + n else 55 + n)

/-- The number of a hexadecimal digit. -/
def hexValue (c : Char) : Option ℕ :=
  if '0' ≤ c ∧ c ≤ '9' then some (c.toNat - 48)
  else if 'A' ≤ c ∧ c ≤ 'F' then some (c.toNat - 55)
  else if 'a' ≤ c ∧ c ≤ 'f' then some (c.toNat - 87)
  else none

section

variable {safe : UInt8 → Bool}

/-- A byte: as it is when it is safe, or as `%` with two digits. -/
def encodeByte (safe : UInt8 → Bool) (b : UInt8) : List Char :=
  if safe b then [Char.ofNat b.toNat]
  else ['%', hexDigit (b.toNat / 16), hexDigit (b.toNat % 16)]

/-- The UTF-8 of a text, percent-encoded. -/
def percentEncode (safe : UInt8 → Bool) (s : List Char) : List Char :=
  (s.flatMap String.utf8EncodeChar).flatMap (encodeByte safe)

/-- The bytes that a percent-encoded text stands for. -/
def decodeBytes : List Char → Option (List UInt8)
  | [] => some []
  | '%' :: x :: y :: s => do
    let hi ← hexValue x
    let lo ← hexValue y
    let rest ← decodeBytes s
    pure (UInt8.ofNat (16 * hi + lo) :: rest)
  | c :: s => do
    let rest ← decodeBytes s
    pure (UInt8.ofNat c.toNat :: rest)

/-- The text that a percent-encoded text stands for. -/
def percentDecode (s : List Char) : Option (List Char) := do
  let bytes ← decodeBytes s
  let chars ← bytes.toByteArray.utf8Decode?
  pure chars.toList

/-- A hexadecimal digit is read back. -/
theorem hexValue_hexDigit : ∀ n < 16, hexValue (hexDigit n) = some n := by decide

/-- The character of a byte below 128 is the byte. -/
theorem char_of_byte : ∀ n < 128, UInt8.ofNat (Char.ofNat n).toNat = UInt8.ofNat n := by decide

/-- A character that is no escape stands for its byte. -/
theorem decodeBytes_cons {c : Char} (hc : c ≠ '%') (s : List Char) :
    decodeBytes (c :: s) = (decodeBytes s).map (UInt8.ofNat c.toNat :: ·) := by
  rw [decodeBytes]
  · cases decodeBytes s <;> rfl
  · rintro x y s ⟨⟩
    exact absurd rfl hc

/-- Decoding a byte that was encoded, where safe bytes are ASCII and not the percent sign. -/
theorem decodeBytes_encodeByte (hsafe : ∀ b, safe b = true → b.toNat < 128 ∧ b ≠ 0x25) (b : UInt8)
    (s : List Char) :
    decodeBytes (encodeByte safe b ++ s) = (decodeBytes s).map (b :: ·) := by
  rw [encodeByte]
  split
  · next hb =>
    obtain ⟨hlt, hne⟩ := hsafe b hb
    have hbyte : UInt8.ofNat (Char.ofNat b.toNat).toNat = b := by
      rw [char_of_byte _ hlt]
      simp
    have hchar : Char.ofNat b.toNat ≠ '%' := by
      intro h
      rw [h] at hbyte
      exact hne hbyte.symm
    rw [List.singleton_append, decodeBytes_cons hchar, hbyte]
  · have hlt : b.toNat < 256 := b.toNat_lt
    have hsum : 16 * (b.toNat / 16) + b.toNat % 16 = b.toNat := by omega
    simp only [List.cons_append, List.nil_append, decodeBytes]
    rw [hexValue_hexDigit _ (by omega), hexValue_hexDigit _ (by omega)]
    simp only [Option.bind_eq_bind, Option.bind_some, hsum, UInt8.ofNat_toNat]
    cases decodeBytes s <;> rfl

/-- Percent-decoding gives the text back. -/
theorem percentDecode_percentEncode (hsafe : ∀ b, safe b = true → b.toNat < 128 ∧ b ≠ 0x25)
    (s : List Char) : percentDecode (percentEncode safe s) = some s := by
  have hbytes : ∀ bytes : List UInt8,
      decodeBytes (bytes.flatMap (encodeByte safe)) = some bytes := by
    intro bytes
    induction bytes with
    | nil => rfl
    | cons b bytes ih => rw [List.flatMap_cons, decodeBytes_encodeByte hsafe, ih]; rfl
  have hchars : (s.flatMap String.utf8EncodeChar).toByteArray.utf8Decode? = some s.toArray :=
    List.utf8Decode?_utf8Encode
  rw [percentDecode, percentEncode, hbytes]
  simp only [Option.bind_eq_bind, Option.bind_some, hchars]
  rfl

/-- What holds of the safe characters, of `%` and of the digits holds of an encoded text. -/
theorem forall_percentEncode {P : Char → Prop} (hsafe : ∀ b, safe b = true → P (Char.ofNat b.toNat))
    (hpercent : P '%') (hdigit : ∀ n < 16, P (hexDigit n)) (s : List Char) :
    ∀ c ∈ percentEncode safe s, P c := by
  intro c hc
  obtain ⟨b, -, hb⟩ := List.mem_flatMap.1 hc
  have hlt : b.toNat < 256 := b.toNat_lt
  rw [encodeByte] at hb
  split at hb
  · next hb' =>
    rw [List.mem_singleton.1 hb]
    exact hsafe b hb'
  · rcases List.mem_cons.1 hb with rfl | hb
    · exact hpercent
    · rcases List.mem_cons.1 hb with rfl | hb
      · exact hdigit _ (by omega)
      · rw [List.mem_singleton.1 hb]
        exact hdigit _ (by omega)

end

/-! ## Quoted strings -/

/-- What a quoted string holds and what follows it, for the text behind its opening quote; `escaped`
tells that a backslash came before. -/
def scan : Bool → List Char → Option (List Char × List Char)
  | _, [] => none
  | true, c :: s => (scan false s).map fun r => (c :: r.1, r.2)
  | false, c :: s =>
    if c = '"' then some ([], s)
    else if c = '\\' then scan true s
    else (scan false s).map fun r => (c :: r.1, r.2)

/-- Every quote of the text is escaped, and its last backslash escapes something. -/
def quotable : Bool → List Char → Bool
  | escaped, [] => !escaped
  | true, _ :: s => quotable false s
  | false, c :: s => c != '"' && quotable (c == '\\') s

/-- The rest of a quoted string is shorter than the whole. -/
theorem scan_length {escaped : Bool} {s inside rest : List Char}
    (h : scan escaped s = some (inside, rest)) : rest.length < s.length := by
  induction s generalizing escaped inside with
  | nil => cases escaped <;> cases h
  | cons c s ih =>
    have hmap : ∀ e, (scan e s).map (fun r => (c :: r.1, r.2)) = some (inside, rest) →
        rest.length < (c :: s).length := by
      intro e he
      obtain ⟨⟨inside', rest'⟩, hs, heq⟩ := Option.map_eq_some_iff.1 he
      cases heq
      exact Nat.lt_succ_of_lt (ih hs)
    cases escaped with
    | true => exact hmap false h
    | false =>
      rw [scan] at h
      split at h
      · cases h
        exact Nat.lt_succ_self _
      · split at h
        · exact Nat.lt_succ_of_lt (ih h)
        · exact hmap false h

/-- A text in front of a closing quote is one quoted string exactly when it is quotable. -/
theorem scan_iff {escaped : Bool} {s t : List Char} :
    (∃ inside, scan escaped (s ++ '"' :: t) = some (inside, t)) ↔ quotable escaped s = true := by
  have hmap : ∀ (c : Char) (e : Bool) (s : List Char),
      (∃ inside, (scan e s).map (fun r => (c :: r.1, r.2)) = some (inside, t)) ↔
        ∃ inside, scan e s = some (inside, t) := by
    intro c e s
    constructor
    · rintro ⟨inside, h⟩
      obtain ⟨⟨inside', rest'⟩, hs, heq⟩ := Option.map_eq_some_iff.1 h
      cases heq
      exact ⟨inside', hs⟩
    · rintro ⟨inside, h⟩
      exact ⟨c :: inside, by rw [h]; rfl⟩
  induction s generalizing escaped with
  | nil =>
    cases escaped with
    | false => exact iff_of_true ⟨[], rfl⟩ rfl
    | true =>
      refine iff_of_false ?_ Bool.false_ne_true
      -- The closing quote is escaped, and the string goes on behind it.
      rintro ⟨inside, h⟩
      obtain ⟨⟨inside', rest'⟩, hs, heq⟩ := Option.map_eq_some_iff.1 h
      cases heq
      exact absurd (scan_length hs) (Nat.lt_irrefl _)
  | cons c s ih =>
    cases escaped with
    | true => exact (hmap c false _).trans ih
    | false =>
      rw [List.cons_append, scan, quotable]
      by_cases hquote : c = '"'
      · subst hquote
        refine iff_of_false ?_ Bool.false_ne_true
        rintro ⟨inside, h⟩
        rw [if_pos rfl] at h
        have hlength := congrArg List.length (Prod.mk.inj (Option.some.inj h)).2
        rw [List.length_append, List.length_cons] at hlength
        omega
      · rw [if_neg hquote, bne_iff_ne.2 hquote, Bool.true_and]
        by_cases hbackslash : c = '\\'
        · subst hbackslash
          rw [if_pos rfl]
          exact ih
        · rw [if_neg hbackslash, beq_eq_false_iff_ne.2 hbackslash]
          exact (hmap c false _).trans ih

/-! ## Replacing a pair of characters -/

/-- `s.replace(ab, new)`. -/
def replacePair (a b : Char) (new : List Char) : List Char → List Char
  | c :: d :: s =>
    if c = a ∧ d = b then new ++ replacePair a b new s else c :: replacePair a b new (d :: s)
  | s => s

section

variable {a b : Char} {new s : List Char}

/-- The pair is replaced. -/
theorem replacePair_pair : replacePair a b new (a :: b :: s) = new ++ replacePair a b new s :=
  if_pos ⟨rfl, rfl⟩

/-- A character that does not begin the pair stays. -/
theorem replacePair_cons {c : Char} (h : c = a → s.head? ≠ some b) :
    replacePair a b new (c :: s) = c :: replacePair a b new s := by
  cases s with
  | nil => rfl
  | cons d s =>
    refine if_neg ?_
    rintro ⟨rfl, rfl⟩
    exact h rfl rfl

/-- The first character is the first one of the text or of what is put in. -/
theorem head?_replacePair (hnew : new ≠ []) :
    (replacePair a b new s).head? = s.head? ∨ (replacePair a b new s).head? = new.head? := by
  fun_cases replacePair a b new s with
  | case1 c d s => exact .inr (List.head?_append_of_ne_nil _ hnew)
  | case2 c d s hne => exact .inl rfl
  | case3 s => exact .inl rfl

/-- What holds of both characters of the pair and of what is put in holds of all characters after the
replacement when it does before. -/
theorem forall_replacePair {P : Char → Prop} (ha : P a) (hb : P b) (hnew : ∀ c ∈ new, P c) :
    (∀ c ∈ replacePair a b new s, P c) ↔ ∀ c ∈ s, P c := by
  fun_induction replacePair a b new s with
  | case1 c d s hpair ih =>
    obtain ⟨rfl, rfl⟩ := hpair
    rw [List.forall_mem_append, List.forall_mem_cons, List.forall_mem_cons, ih,
      and_iff_right hnew, and_iff_right ha, and_iff_right hb]
  | case2 c d s hne ih =>
    rw [List.forall_mem_cons, ih]
    exact List.forall_mem_cons.symm
  | case3 s => exact Iff.rfl

end

end DropRoom.Text
