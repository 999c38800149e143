import DropRoom.Disk.Backends
import DropRoom.Files.Parts

/-!
# What the local storage lists

Any number of calls of `LocalStorageBackend` at once, each of them one request after the other. A put
writes to a temp file that lies in the directory of its key, and `list_keys` lists the files there
are: as long as the put goes on, its temp file is one of them. Between two puts the listing is right,
and then nothing that deletes what was listed can meet a temp file.
-/

namespace DropRoom

open Effect Store Prog

/-- The suffix that `put` asks `mkstemp` for. -/
def partSuffix : Key := ['.', 'p', 'a', 'r', 't']

/-- The path has the form of a temp file. -/
def IsPart (key : Key) : Prop := partSuffix <:+ key

/-- Whether a key ends in `.part` is decided. -/
instance (key : Key) : Decidable (IsPart key) := inferInstanceAs (Decidable (partSuffix <:+ key))

/-- The key is the name of a file, so `root / key` lies in the root itself. -/
def IsName (key : Key) : Prop := '/' ∉ key ∧ key ≠ [] ∧ key ≠ ['.'] ∧ key ≠ ['.', '.']

/-- Whether a key is a plain name is decided. -/
instance (key : Key) : Decidable (IsName key) :=
  inferInstanceAs (Decidable ('/' ∉ key ∧ key ≠ [] ∧ key ≠ ['.'] ∧ key ≠ ['.', '.']))

/-- A call of the local backend, or a sweep of the scheduler. The name of the temp file of a put is
given without its suffix. -/
inductive StorageCall
  | put (name key : Key) (data : List Bytes)
  | getStream (key : Key) (n : ℕ)
  | delete (key : Key)
  | exists_ (key : Key)
  | listKeys (pre : Key)
  | sweepOrphans (known : List Key) (limit : ℕ)

/-- What a call returns. -/
inductive StorageReturn
  | size (n : ℕ)
  | chunks (read : List Bytes × Bool)
  | done
  | found (b : Bool)
  | keys (l : List Key)
  deriving DecidableEq

namespace StorageCall

/-- The program of a call. -/
def program : StorageCall → Io StorageReturn
  | put name key data => StorageReturn.size <$> LocalStorageBackend.put (name ++ partSuffix) key data
  | getStream key n => StorageReturn.chunks <$> LocalStorageBackend.getStream key n
  | delete key => (fun _ => .done) <$> LocalStorageBackend.delete key
  | exists_ key => StorageReturn.found <$> LocalStorageBackend.exists_ key
  | listKeys pre => StorageReturn.keys <$> LocalStorageBackend.listKeys pre
  | sweepOrphans known limit => (fun _ => .done) <$> DropRoom.sweepOrphans known limit

/-- The key that a call names. -/
def key? : StorageCall → Option Key
  | put _ key _ | getStream key _ | delete key | exists_ key => some key
  | listKeys _ | sweepOrphans .. => none

end StorageCall

namespace listing

/-- The keys that are there after all of this: those of the start and those that were put, unless they
have been deleted since. -/
def Live (start : Key → Prop) : List Entry → Key → Prop
  | [], k => start k
  | .stored key _ :: log, k => k = key ∨ Live start log k
  | .deleted key :: log, k => k ≠ key ∧ Live start log k
  | .listed .. :: log, k | .probed .. :: log, k => Live start log k

/-- Every answer was true when it was given. -/
def Truthful (start : Key → Prop) : List Entry → Prop
  | [] => True
  | .listed pre keys :: log =>
    (∀ k, k ∈ keys ↔ pre <+: k ∧ Live start log k) ∧ Truthful start log
  | .probed key found :: log => (found = true ↔ Live start log key) ∧ Truthful start log
  | .stored .. :: log | .deleted _ :: log => Truthful start log

/-- The objects that are there at the start. A temp file that was left is none. -/
def start (w : Host) (k : Key) : Prop := w.object k ≠ none ∧ ¬IsPart k

/-- The object was stored as a whole under the key: it was there at the start, or a put has ended with
it. -/
def Whole (w₀ : Host) (log : List Entry) (key : Key) (object : Bytes) : Prop :=
  w₀.object key = some object ∨ .stored key object ∈ log

/-! ## Phases -/

/-- How far a call has come. -/
inductive Stage
  | fresh
  /-- The file exists, and the bytes were written to it. -/
  | filling (fd : ℕ) (written : Bytes)
  /-- Nothing is left of the temp file. -/
  | over
  /-- The bytes were read from the file, with or without its end. -/
  | reading (fd : ℕ) (got : Bytes) (eof : Bool)
  | absent
  | listed (keys : List Key)

/-- A call and how far it has come. -/
structure Phase where
  call : StorageCall
  stage : Stage

/-- The requests that a call may make. -/
inductive Allows : Phase → Sys → Prop
  | mkdirRoot {name key data} : Allows ⟨.put name key data, .fresh⟩ .mkdirRoot
  | mkdirParent {name key data} : Allows ⟨.put name key data, .fresh⟩ (.mkdirParent key)
  | mkstemp {name key data} :
      Allows ⟨.put name key data, .fresh⟩ (.mkstemp (.root (name ++ partSuffix)))
  | fdopen {call fd written} : Allows ⟨call, .filling fd written⟩ (.fdopen fd)
  | anext {call fd written} (i) : Allows ⟨call, .filling fd written⟩ (.anext i)
  | close {call fd written} : Allows ⟨call, .filling fd written⟩ (.close fd)
  | write {call fd written} (i chunk) : Allows ⟨call, .filling fd written⟩ (.write fd i chunk)
  | replace {name key data fd} : Allows ⟨.put name key data, .filling fd data.flatten⟩
      (.replace (.root (name ++ partSuffix)) (.root key))
  | undo {name key data fd written} : Allows ⟨.put name key data, .filling fd written⟩
      (.unlink (.root (name ++ partSuffix)))
  | probe {key n} : Allows ⟨.getStream key n, .fresh⟩ (.exists_ (.root key))
  | openRead {key n} : Allows ⟨.getStream key n, .fresh⟩ (.openRead (.root key))
  | read {key n fd got eof} : Allows ⟨.getStream key n, .reading fd got eof⟩ (.read fd got.length)
  | delete {key} : Allows ⟨.delete key, .fresh⟩ (.unlink (.root key))
  | exists_ {key} : Allows ⟨.exists_ key, .fresh⟩ (.exists_ (.root key))
  | listKeys {pre} : Allows ⟨.listKeys pre, .fresh⟩ (.listKeys pre)
  | sweepList {known limit} : Allows ⟨.sweepOrphans known limit, .fresh⟩ (.listKeys [])
  | sweepDelete {known limit keys k} (hk : k ∈ keys) :
      Allows ⟨.sweepOrphans known limit, .listed keys⟩ (.unlink (.root k))

/-- The stage after an answer. -/
def Stage.next : Stage → (c : Sys) → Except Exn c.Answer → Stage
  | fresh, .mkstemp _, .ok fd => filling fd []
  | filling fd written, .write _ _ chunk, .ok _ => filling fd (written ++ chunk)
  | filling .., .replace .., .ok _ => .over
  | filling .., .unlink _, .ok _ => .over
  | fresh, .exists_ _, .ok false => absent
  | fresh, .openRead _, .ok fd => reading fd [] false
  | reading fd got eof, .read .., .ok chunk => reading fd (got ++ chunk) (eof || chunk.isEmpty)
  | fresh, .listKeys _, .ok keys => listed keys
  | stage, _, _ => stage

/-- The monitor of the calls. -/
def monitor : Monitor Sys Sys.Answer Exn Phase where
  allowed := Allows
  next l c x := ⟨l.call, l.stage.next c x⟩

/-- The start of some calls. -/
def starting (w : Host) (calls : ℕ → StorageCall) :
    Conf Sys Sys.Answer Exn StorageReturn Host Phase where
  world := w
  phase p := ⟨calls p, .fresh⟩
  proc p := (calls p).program

/-- The prefix that a request lists. -/
def listed? : Sys → Option Key
  | .listKeys pre => some pre
  | _ => none

/-- No temp file is under the prefix that is listed. -/
def Quiescent : Guard Sys Host Phase := fun _ c w _ =>
  ∀ pre ∈ listed? c, ∀ k ∈ w.keys, IsPart k → ¬pre <+: k

/-- Whether the storage is quiescent for a call is decided. -/
instance (p : ℕ) (c : Sys) (w : Host) (φ : ℕ → Phase) : Decidable (Quiescent p c w φ) :=
  inferInstanceAs (Decidable (∀ pre ∈ listed? c, ∀ k ∈ w.keys, IsPart k → ¬pre <+: k))

/-! ## The invariant -/

section

variable {w₀ w : Host} {calls : ℕ → StorageCall} {φ : ℕ → Phase}

/-- A process reads a whole object of the key that it was asked for, to which nobody writes any more. -/
structure Reads (w₀ : Host) (calls : ℕ → StorageCall) (w : Host) (φ : ℕ → Phase) (p fd : ℕ)
    (got : Bytes) (eof : Bool) : Prop where
  whole : ∃ key n, calls p = .getStream key n ∧ Whole w₀ w.log key (w.files.data fd)
  part : got <+: w.files.data fd
  all : eof = true → got = w.files.data fd
  lt : fd < w.files.count
  still q written : (φ q).stage ≠ .filling fd written

/-- What holds at every moment. -/
structure Inv (w₀ : Host) (calls : ℕ → StorageCall) (w : Host) (φ : ℕ → Phase) : Prop where
  call p : (φ p).call = calls p
  /-- The temp file of a put holds what the put has written. -/
  filling p fd written : (φ p).stage = .filling fd written → ∃ name key data,
    calls p = .put name key data ∧ w.files.number (.root (name ++ partSuffix)) = some fd ∧
      w.files.data fd = written
  /-- Two puts do not share a temp file. -/
  distinct p q fd written written' : (φ p).stage = .filling fd written →
    (φ q).stage = .filling fd written' → p = q
  /-- Besides temp files there are just the objects that are live. -/
  live k : Live (start w₀) w.log k ↔ w.object k ≠ none ∧ ¬IsPart k
  whole k object : ¬IsPart k → w.object k = some object → Whole w₀ w.log k object
  stored k object : .stored k object ∈ w.log →
    ∃ q name data, calls q = .put name k data ∧ object = data.flatten
  truthful : Truthful (start w₀) w.log
  reading p fd got eof : (φ p).stage = .reading fd got eof → Reads w₀ calls w φ p fd got eof
  absent p : (φ p).stage = .absent → ∃ key, (calls p).key? = some key ∧ .probed key false ∈ w.log
  listed p keys : (φ p).stage = .listed keys → ∀ k ∈ keys, ¬IsPart k

/-- A temporary name ends in `.part`. -/
theorem isPart_append (name : Key) : IsPart (name ++ partSuffix) := List.suffix_append _ _

/-- The invariant does not look at a phase that stays as it is. -/
theorem Inv.update_self (h : Inv w₀ calls w φ) (p : ℕ) :
    Inv w₀ calls w (Function.update φ p (φ p)) := by
  rwa [Function.update_eq_self]

/-- The file of an object is not the temp file of a put. -/
theorem Inv.ne_filling (h : Inv w₀ calls w φ) {k : Key} {fd : ℕ} (hk : ¬IsPart k)
    (hfd : w.files.number (.root k) = some fd) (q : ℕ) (written : Bytes) :
    (φ q).stage ≠ .filling fd written := by
  intro hq
  obtain ⟨name, key, data, -, hnumber, -⟩ := h.filling q fd written hq
  have hname := Path.root.inj (w.files.number_inj hfd hnumber)
  rw [hname] at hk
  exact hk (isPart_append name)

/-- Only the process that moves changes its stage. -/
theorem stage_cases {p q : ℕ} {st st' : Stage}
    (h : (Function.update φ p ⟨(φ p).call, st⟩ q).stage = st') :
    q = p ∧ st = st' ∨ q ≠ p ∧ (φ q).stage = st' := by
  by_cases hq : q = p
  · rw [hq, Function.update_self] at h
    exact .inl ⟨hq, h⟩
  · rw [Function.update_of_ne hq] at h
    exact .inr ⟨hq, h⟩

/-- The stages move, the calls stay. -/
theorem call_update {p : ℕ} (st : Stage) (q : ℕ) :
    (Function.update φ p ⟨(φ p).call, st⟩ q).call = (φ q).call := by
  by_cases hq : q = p
  · rw [hq, Function.update_self]
  · rw [Function.update_of_ne hq]

/-- What was stored whole stays in the log. -/
theorem Whole.cons {key : Key} {object : Bytes} (h : Whole w₀ w.log key object) (e : Entry) :
    Whole w₀ (e :: w.log) key object :=
  h.imp_right (List.mem_cons_of_mem e)

/-- A probe that found nothing stays in the log. -/
theorem Inv.absent_of (h : Inv w₀ calls w φ) {p : ℕ} {st : Stage} {log : List Entry}
    (hlog : ∀ e ∈ w.log, e ∈ log)
    (hst : st = .absent → ∃ key, (calls p).key? = some key ∧ .probed key false ∈ log) (q : ℕ)
    (hnow : (Function.update φ p ⟨(φ p).call, st⟩ q).stage = .absent) :
    ∃ key, (calls q).key? = some key ∧ .probed key false ∈ log := by
  obtain ⟨rfl, hp⟩ | ⟨-, hq⟩ := stage_cases hnow
  · exact hst hp
  · obtain ⟨key, hkey, hmem⟩ := h.absent q hq
    exact ⟨key, hkey, hlog _ hmem⟩

/-- A listing without temporary names stays one. -/
theorem Inv.listed_of (h : Inv w₀ calls w φ) {p : ℕ} {st : Stage}
    (hst : ∀ keys, st = .listed keys → ∀ k ∈ keys, ¬IsPart k) (q : ℕ) (keys : List Key)
    (hnow : (Function.update φ p ⟨(φ p).call, st⟩ q).stage = .listed keys) :
    ∀ k ∈ keys, ¬IsPart k := by
  obtain ⟨-, hp⟩ | ⟨-, hq⟩ := stage_cases hnow
  · exact hst keys hp
  · exact h.listed q keys hq

/-! ## Steps -/

/-- A temp file is created. -/
theorem Inv.mkstemp (h : Inv w₀ calls w φ) {p : ℕ} {name key : Key} {data : List Bytes}
    (hp : calls p = .put name key data) (hfresh : w.files.number (.root (name ++ partSuffix)) = none) :
    Inv w₀ calls (w.created (.root (name ++ partSuffix)))
      (Function.update φ p ⟨(φ p).call, .filling w.files.count []⟩) := by
  -- The new name is a temporary one, so no object is touched.
  have hobject : ∀ {k}, ¬IsPart k → (w.created (.root (name ++ partSuffix))).object k = w.object k := by
    intro k hk
    refine Files.content_create_of_ne _ fun hname => hk ?_
    rw [Path.root.inj hname]
    exact isPart_append name
  -- The new file has a number that no file had.
  have hdata : ∀ {fd}, fd < w.files.count →
      (w.created (.root (name ++ partSuffix))).files.data fd = w.files.data fd :=
    fun hlt => Function.update_of_ne (by omega) _ _
  have hlt : ∀ q fd written, (φ q).stage = .filling fd written → fd < w.files.count := by
    intro q fd written hq
    obtain ⟨name', key', data', -, hnumber, -⟩ := h.filling q fd written hq
    exact w.files.number_lt hnumber
  constructor
  case call => exact fun q => (call_update _ q).trans (h.call q)
  case filling =>
    intro q fd written hnow
    obtain ⟨rfl, hst⟩ | ⟨-, hq⟩ := stage_cases hnow
    · cases hst
      refine ⟨name, key, data, hp, ?_, Function.update_self ..⟩
      rw [Host.created, Files.number_create, if_pos rfl]
    · obtain ⟨name', key', data', hcall, hnumber, hwritten⟩ := h.filling q fd written hq
      refine ⟨name', key', data', hcall, ?_, (hdata (hlt q fd written hq)).trans hwritten⟩
      rw [Host.created, Files.number_create, if_neg, hnumber]
      intro hname
      rw [hname, hfresh] at hnumber
      cases hnumber
  case distinct =>
    intro q q' fd written written' hnow hnow'
    obtain ⟨rfl, hst⟩ | ⟨-, hq⟩ := stage_cases hnow
    · obtain ⟨rfl, -⟩ | ⟨-, hq'⟩ := stage_cases hnow'
      · rfl
      · cases hst
        exact absurd (hlt q' _ _ hq') (Nat.lt_irrefl _)
    · obtain ⟨rfl, hst⟩ | ⟨-, hq'⟩ := stage_cases hnow'
      · cases hst
        exact absurd (hlt q _ _ hq) (Nat.lt_irrefl _)
      · exact h.distinct q q' fd written written' hq hq'
  case live =>
    intro k
    refine (h.live k).trans (and_congr_left fun hk => ?_)
    rw [hobject hk]
  case whole => exact fun k object hk hobj => h.whole k object hk ((hobject hk).symm.trans hobj)
  case stored => exact h.stored
  case truthful => exact h.truthful
  -- A file that is being read is an older one.
  case reading =>
    intro q fd got eof hnow
    obtain ⟨-, hst⟩ | ⟨-, hq⟩ := stage_cases hnow
    · cases hst
    · have hold := h.reading q fd got eof hq
      have hsame := hdata hold.lt
      refine ⟨hsame ▸ hold.whole, hsame ▸ hold.part, hsame ▸ hold.all, Nat.lt_succ_of_lt hold.lt, ?_⟩
      intro q' written hnow'
      obtain ⟨-, hst⟩ | ⟨-, hq'⟩ := stage_cases hnow'
      · cases hst
        exact Nat.lt_irrefl _ hold.lt
      · exact hold.still q' written hq'
  case absent => exact h.absent_of (fun e he => he) fun hst => by cases hst
  case listed => exact h.listed_of fun keys hst => by cases hst

/-- More is written to a temp file. -/
theorem Inv.write (h : Inv w₀ calls w φ) {p fd : ℕ} {written : Bytes}
    (hp : (φ p).stage = .filling fd written) (chunk : Bytes) :
    Inv w₀ calls (w.append fd chunk)
      (Function.update φ p ⟨(φ p).call, .filling fd (written ++ chunk)⟩) := by
  obtain ⟨name, key, data, hcall, hnumber, hwritten⟩ := h.filling p fd written hp
  -- The chunk goes into the temporary file, and objects have other names.
  have hobject : ∀ {k}, ¬IsPart k → (w.append fd chunk).object k = w.object k := by
    intro k hk
    refine (Files.content_append _ hnumber chunk _).trans (if_neg fun hname => hk ?_)
    rw [Path.root.inj hname]
    exact isPart_append name
  have hdata : ∀ {fd'}, fd' ≠ fd → (w.append fd chunk).files.data fd' = w.files.data fd' :=
    fun hne => Function.update_of_ne hne _ _
  constructor
  case call => exact fun q => (call_update _ q).trans (h.call q)
  case filling =>
    intro q fd' written' hnow
    obtain ⟨rfl, hst⟩ | ⟨hne, hq⟩ := stage_cases hnow
    · cases hst
      refine ⟨name, key, data, hcall, hnumber, ?_⟩
      rw [← hwritten]
      exact Function.update_self ..
    · obtain ⟨name', key', data', hcall', hnumber', hwritten'⟩ := h.filling q fd' written' hq
      refine ⟨name', key', data', hcall', hnumber', (hdata ?_).trans hwritten'⟩
      rintro rfl
      exact hne (h.distinct q p fd' _ _ hq hp)
  case distinct =>
    intro q q' fd' written₁ written₂ hnow hnow'
    obtain ⟨rfl, hst⟩ | ⟨-, hq⟩ := stage_cases hnow
    · obtain ⟨rfl, -⟩ | ⟨-, hq'⟩ := stage_cases hnow'
      · rfl
      · cases hst
        exact h.distinct q q' fd _ _ hp hq'
    · obtain ⟨rfl, hst⟩ | ⟨-, hq'⟩ := stage_cases hnow'
      · cases hst
        exact h.distinct q q' fd _ _ hq hp
      · exact h.distinct q q' fd' _ _ hq hq'
  case live =>
    intro k
    refine (h.live k).trans (and_congr_left fun hk => ?_)
    rw [hobject hk]
  case whole => exact fun k object hk hobj => h.whole k object hk ((hobject hk).symm.trans hobj)
  case stored => exact h.stored
  case truthful => exact h.truthful
  -- Nobody reads a temporary file: `still` says so of the file that is read.
  case reading =>
    intro q fd' got eof hnow
    obtain ⟨-, hst⟩ | ⟨-, hq⟩ := stage_cases hnow
    · cases hst
    · have hold := h.reading q fd' got eof hq
      have hne : fd' ≠ fd := by
        rintro rfl
        exact hold.still p written hp
      have hsame := hdata hne
      refine ⟨hsame ▸ hold.whole, hsame ▸ hold.part, hsame ▸ hold.all, hold.lt, ?_⟩
      intro q' written' hnow'
      obtain ⟨-, hst⟩ | ⟨-, hq'⟩ := stage_cases hnow'
      · cases hst
        exact hne rfl
      · exact hold.still q' written' hq'
  case absent => exact h.absent_of (fun e he => he) fun hst => by cases hst
  case listed => exact h.listed_of fun keys hst => by cases hst

/-- A step that writes to no file and begins none. -/
theorem Inv.move (h : Inv w₀ calls w φ) {p : ℕ} {st : Stage} {w' : Host}
    (hdata : w'.files.data = w.files.data) (hcount : w'.files.count = w.files.count)
    (hlog : ∀ e ∈ w.log, e ∈ w'.log)
    (hfilling : ∀ fd written, st = .filling fd written → (φ p).stage = .filling fd written)
    (hnumber : ∀ q fd written name, (Function.update φ p ⟨(φ p).call, st⟩ q).stage =
      .filling fd written → w.files.number (.root (name ++ partSuffix)) = some fd →
        w'.files.number (.root (name ++ partSuffix)) = some fd)
    (hlive : ∀ k, Live (start w₀) w'.log k ↔ w'.object k ≠ none ∧ ¬IsPart k)
    (hwhole : ∀ k object, ¬IsPart k → w'.object k = some object → Whole w₀ w'.log k object)
    (hstored : ∀ k object, .stored k object ∈ w'.log →
      ∃ q name data, calls q = .put name k data ∧ object = data.flatten)
    (htruthful : Truthful (start w₀) w'.log)
    (hreading : ∀ fd got eof, st = .reading fd got eof → Reads w₀ calls w φ p fd got eof)
    (habsent : st = .absent → ∃ key, (calls p).key? = some key ∧ .probed key false ∈ w'.log)
    (hlisted : ∀ keys, st = .listed keys → ∀ k ∈ keys, ¬IsPart k) :
    Inv w₀ calls w' (Function.update φ p ⟨(φ p).call, st⟩) := by
  -- Whoever fills a file now was filling it before.
  have hwas : ∀ q fd written, (Function.update φ p ⟨(φ p).call, st⟩ q).stage = .filling fd written →
      (φ q).stage = .filling fd written := by
    intro q fd written hnow
    obtain ⟨rfl, hst⟩ | ⟨-, hq⟩ := stage_cases hnow
    · exact hfilling fd written hst
    · exact hq
  constructor
  case call => exact fun q => (call_update _ q).trans (h.call q)
  case filling =>
    intro q fd written hnow
    obtain ⟨name, key, data, hcall, hn, hwritten⟩ := h.filling q fd written (hwas q fd written hnow)
    refine ⟨name, key, data, hcall, hnumber q fd written name hnow hn, ?_⟩
    rw [hdata, hwritten]
  case distinct =>
    intro q q' fd written written' hnow hnow'
    exact h.distinct q q' fd written written' (hwas q fd written hnow) (hwas q' fd written' hnow')
  case live => exact hlive
  case whole => exact hwhole
  case stored => exact hstored
  case truthful => exact htruthful
  case reading =>
    intro q fd got eof hnow
    have hold : Reads w₀ calls w φ q fd got eof := by
      obtain ⟨rfl, hst⟩ | ⟨-, hq⟩ := stage_cases hnow
      · exact hreading fd got eof hst
      · exact h.reading q fd got eof hq
    obtain ⟨key, n, hcall, hobject⟩ := hold.whole
    constructor
    case whole => exact ⟨key, n, hcall, hdata ▸ hobject.imp_right (hlog _)⟩
    case part => exact hdata ▸ hold.part
    case all => exact hdata ▸ hold.all
    case lt => exact hcount ▸ hold.lt
    case still => exact fun q' written hq' => hold.still q' written (hwas q' fd written hq')
  case absent => exact h.absent_of hlog habsent
  case listed => exact h.listed_of hlisted

/-- The temp file of a put becomes its object. -/
theorem Inv.replace (h : Inv w₀ calls w φ) {p fd : ℕ} {name key : Key} {data : List Bytes}
    (hcall : calls p = .put name key data) (hkey : ¬IsPart key)
    (hp : (φ p).stage = .filling fd data.flatten)
    (hnumber : w.files.number (.root (name ++ partSuffix)) = some fd)
    (hdata : w.files.data fd = data.flatten) :
    Inv w₀ calls (w.replaced (.root (name ++ partSuffix)) (.root key) data.flatten)
      (Function.update φ p ⟨(φ p).call, .over⟩) := by
  -- The key has the bytes of the temporary file now, and other objects are as they were.
  have hobject : ∀ {k}, ¬IsPart k →
      (w.replaced (.root (name ++ partSuffix)) (.root key) data.flatten).object k =
        if k = key then some data.flatten else w.object k := by
    intro k hk
    rw [Host.object, Host.replaced, Files.content_rename _ hnumber, hdata, Host.object]
    simp only [Path.root.injEq]
    split
    · rfl
    · refine if_neg fun hname => hk ?_
      rw [hname]
      exact isPart_append name
  refine h.move (Files.data_rename _) (Files.count_rename _) (fun e he => List.mem_cons_of_mem _ he)
    (fun _ _ hst => by cases hst) ?_ ?_ ?_ ?_ h.truthful (fun _ _ _ hst => by cases hst)
    (fun hst => by cases hst) fun _ hst => by cases hst
  -- Another put has a temporary file of its own, under its own name.
  · intro q fd' written name' hnow hn
    obtain ⟨-, hst⟩ | ⟨hne, hq⟩ := stage_cases hnow
    · cases hst
    · refine (Files.number_rename _ hnumber _).trans ?_
      rw [if_neg, if_neg, hn]
      · intro hname
        rw [hname, hnumber] at hn
        cases hn
        exact hne (h.distinct q p fd _ _ hq hp)
      · intro hname
        rw [← Path.root.inj hname] at hkey
        exact hkey (isPart_append name')
  -- The log says that the key is live.
  · intro k
    change k = key ∨ Live (start w₀) w.log k ↔ _
    by_cases hk : IsPart k
    · refine iff_of_false ?_ fun hlive => hlive.2 hk
      rintro (rfl | hlive)
      · exact hkey hk
      · exact ((h.live k).1 hlive).2 hk
    · rw [h.live, hobject hk]
      split
      · next heq => simp [heq, hkey]
      · next hne => simp [hne]
  · intro k object hk hobj
    rw [hobject hk] at hobj
    split at hobj
    · next heq =>
      cases hobj
      exact .inr (heq ▸ List.mem_cons_self)
    · exact (h.whole k object hk hobj).cons _
  · intro k object hmem
    obtain heq | hmem := List.mem_cons.1 hmem
    · cases heq
      exact ⟨p, name, data, hcall, rfl⟩
    · exact h.stored k object hmem

/-- A name goes, which is no name of a temp file that another put still needs. -/
theorem Inv.unlink (h : Inv w₀ calls w φ) {p : ℕ} {st : Stage} {k₀ : Key}
    (hfilling : ∀ fd written, st = .filling fd written → (φ p).stage = .filling fd written)
    (hothers : ∀ q fd written name, (Function.update φ p ⟨(φ p).call, st⟩ q).stage =
      .filling fd written → w.files.number (.root (name ++ partSuffix)) = some fd →
        name ++ partSuffix ≠ k₀)
    (hreading : ∀ fd got eof, st = .reading fd got eof → (φ p).stage = .reading fd got eof)
    (habsent : st = .absent → (φ p).stage = .absent)
    (hlisted : ∀ keys, st = .listed keys → (φ p).stage = .listed keys) :
    Inv w₀ calls (w.unlinked (.root k₀)) (Function.update φ p ⟨(φ p).call, st⟩) := by
  -- The name is gone, and nothing else.
  have hobject : ∀ k, (w.unlinked (.root k₀)).object k = if k = k₀ then none else w.object k := by
    intro k
    rw [Host.object, Host.unlinked, Files.content_unlink, Host.object]
    simp only [Path.root.injEq]
  refine h.move rfl rfl (fun e he => List.mem_cons_of_mem _ he) hfilling ?_ ?_ ?_ ?_ h.truthful
    (fun fd got eof hst => h.reading p fd got eof (hreading fd got eof hst)) ?_
    fun keys hst => h.listed p keys (hlisted keys hst)
  · intro q fd written name hnow hn
    refine (Files.number_unlink _ _).trans ?_
    rw [if_neg, hn]
    exact fun hname => hothers q fd written name hnow hn (Path.root.inj hname)
  · intro k
    change k ≠ k₀ ∧ Live (start w₀) w.log k ↔ _
    rw [h.live, hobject]
    split
    · next heq => simp [heq]
    · next hne => simp [hne]
  · intro k object hk hobj
    rw [hobject] at hobj
    split at hobj
    · cases hobj
    · exact (h.whole k object hk hobj).cons _
  · intro k object hmem
    obtain heq | hmem := List.mem_cons.1 hmem
    · cases heq
    · exact h.stored k object hmem
  · intro hst
    obtain ⟨key, hkey, hmem⟩ := h.absent p (habsent hst)
    exact ⟨key, hkey, List.mem_cons_of_mem _ hmem⟩

/-- A question is answered. -/
theorem Inv.answer (h : Inv w₀ calls w φ) {p : ℕ} {st : Stage} {e : Entry}
    (hlive : ∀ k, Live (start w₀) (e :: w.log) k ↔ Live (start w₀) w.log k)
    (hentry : ∀ k object, e ≠ .stored k object) (htruthful : Truthful (start w₀) (e :: w.log))
    (hfilling : ∀ fd written, st = .filling fd written → (φ p).stage = .filling fd written)
    (hreading : ∀ fd got eof, st = .reading fd got eof → (φ p).stage = .reading fd got eof)
    (habsent : st = .absent → ∃ key, (calls p).key? = some key ∧ .probed key false ∈ e :: w.log)
    (hlisted : ∀ keys, st = .listed keys → ∀ k ∈ keys, ¬IsPart k) :
    Inv w₀ calls { w with log := e :: w.log } (Function.update φ p ⟨(φ p).call, st⟩) := by
  refine h.move rfl rfl (fun e he => List.mem_cons_of_mem _ he) hfilling (fun _ _ _ _ _ hn => hn) ?_
    ?_ ?_ htruthful (fun fd got eof hst => h.reading p fd got eof (hreading fd got eof hst)) habsent
    hlisted
  · exact fun k => (hlive k).trans (h.live k)
  · exact fun k object hk hobj => (h.whole k object hk hobj).cons _
  · intro k object hmem
    obtain heq | hmem := List.mem_cons.1 hmem
    · exact absurd heq.symm (hentry k object)
    · exact h.stored k object hmem

/-- A stage changes, and nothing else. -/
theorem Inv.stage (h : Inv w₀ calls w φ) {p : ℕ} {fd : ℕ} {got : Bytes} {eof : Bool}
    (hreads : Reads w₀ calls w φ p fd got eof) :
    Inv w₀ calls w (Function.update φ p ⟨(φ p).call, .reading fd got eof⟩) := by
  refine h.move rfl rfl (fun _ he => he) (fun _ _ hst => by cases hst) (fun _ _ _ _ _ hn => hn)
    h.live h.whole h.stored h.truthful (fun _ _ _ hst => ?_) (fun hst => by cases hst)
    fun _ hst => by cases hst
  cases hst
  exact hreads

/-- A file is opened. -/
theorem Inv.openRead (h : Inv w₀ calls w φ) {p fd n : ℕ} {key : Key}
    (hcall : calls p = .getStream key n) (hkey : ¬IsPart key)
    (hnumber : w.files.number (.root key) = some fd) :
    Inv w₀ calls w (Function.update φ p ⟨(φ p).call, .reading fd [] false⟩) := by
  refine h.stage ⟨⟨key, n, hcall, h.whole key _ hkey ?_⟩, List.nil_prefix, (fun heof => by cases heof),
    w.files.number_lt hnumber, h.ne_filling hkey hnumber⟩
  rw [Host.object, Files.content, hnumber, Option.map_some]

/-- A file is read on. -/
theorem Inv.read (h : Inv w₀ calls w φ) {p fd : ℕ} {got : Bytes} {eof : Bool}
    (hp : (φ p).stage = .reading fd got eof) (m : ℕ) (hm : 0 < m) :
    Inv w₀ calls w (Function.update φ p ⟨(φ p).call,
      .reading fd (got ++ ((w.files.data fd).drop got.length).take m)
        (eof || (((w.files.data fd).drop got.length).take m).isEmpty)⟩) := by
  have hold := h.reading p fd got eof hp
  obtain ⟨rest, hrest⟩ := hold.part
  have hdrop : (w.files.data fd).drop got.length = rest := by rw [← hrest, List.drop_left]
  refine h.stage ⟨hold.whole, ?_, fun heof => ?_, hold.lt, hold.still⟩
  · rw [hdrop, ← hrest]
    exact (List.prefix_append_right_inj got).2 (List.take_prefix m rest)
  · rw [hdrop] at heof ⊢
    have hnil : rest = [] := by
      obtain heof | hempty := Bool.or_eq_true_iff.1 heof
      · have hall := hold.all heof
        rw [← hrest] at hall
        exact List.self_eq_append_right.1 hall
      · rw [List.isEmpty_iff, List.take_eq_nil_iff] at hempty
        exact hempty.resolve_left (by omega)
    rw [hnil, List.take_nil, ← hrest, hnil]

/-- The keys are those with an object. -/
theorem mem_keys {k : Key} : k ∈ w.keys ↔ w.object k ≠ none := by
  rw [Host.keys, List.mem_insertionSort, List.mem_filterMap, Host.object, Files.content,
    Ne, Option.map_eq_none_iff, ← Ne, ← Files.mem_names]
  constructor
  · rintro ⟨path, hpath, hk⟩
    cases path with
    | root key =>
      cases hk
      exact hpath
    | temp name => cases hk
  · exact fun hk => ⟨.root k, hk, rfl⟩

/-- A system call that fails leads nowhere. -/
theorem next_error (st : Stage) (c : Sys) (e : Exn) : st.next c (.error e) = st := by
  cases st <;> cases c <;> rfl

/-- A request that changes nothing. -/
theorem Inv.same (h : Inv w₀ calls w φ) {p : ℕ} {st : Stage} (hst : (φ p).stage = st) :
    Inv w₀ calls w (Function.update φ p ⟨(φ p).call, st⟩) := by
  rw [← hst]
  exact h.update_self p

/-- The listing is right where there is no temp file. -/
theorem Inv.list (h : Inv w₀ calls w φ) {p : ℕ} {pre : Key}
    (hquiet : ∀ k ∈ w.keys, IsPart k → ¬pre <+: k) :
    Inv w₀ calls
      { w with log := .listed pre (w.keys.filter fun key => pre.isPrefixOf key) :: w.log }
      (Function.update φ p ⟨(φ p).call, .listed (w.keys.filter fun key => pre.isPrefixOf key)⟩) := by
  have hmem : ∀ k, (k ∈ w.keys.filter fun key => pre.isPrefixOf key) ↔
      pre <+: k ∧ Live (start w₀) w.log k := by
    intro k
    rw [List.mem_filter, mem_keys, List.isPrefixOf_iff_prefix, h.live, and_comm]
    refine and_congr_right fun hpre => (and_iff_left_of_imp fun hobj hpart => ?_).symm
    exact hquiet k (mem_keys.2 hobj) hpart hpre
  refine h.answer (fun k => Iff.rfl) (fun _ _ he => by cases he) ⟨hmem, h.truthful⟩
    (fun _ _ hst => by cases hst) (fun _ _ _ hst => by cases hst) (fun hst => by cases hst) ?_
  intro keys hst k hk
  cases hst
  exact ((h.live k).1 ((hmem k).1 hk).2).2

/-- An object is asked for. -/
theorem Inv.probe (h : Inv w₀ calls w φ) {p : ℕ} {key : Key} (hcall : (calls p).key? = some key)
    (hkey : ¬IsPart key) :
    Inv w₀ calls
      { w with log := .probed key (w.files.number (.root key)).isSome :: w.log }
      (Function.update φ p ⟨(φ p).call,
        Stage.next .fresh (.exists_ (.root key)) (.ok (w.files.number (.root key)).isSome)⟩) := by
  have hfound : (w.files.number (.root key)).isSome = true ↔ Live (start w₀) w.log key := by
    rw [h.live, and_iff_left hkey, Host.object, Files.content, Ne, Option.map_eq_none_iff,
      Option.isSome_iff_ne_none]
  cases hnumber : (w.files.number (.root key)).isSome with
  | false =>
    rw [hnumber] at hfound
    refine h.answer (fun k => Iff.rfl) (fun _ _ he => by cases he) ⟨hfound, h.truthful⟩
      (fun _ _ hst => by cases hst) (fun _ _ _ hst => by cases hst) (fun _ => ?_)
      fun _ hst => by cases hst
    exact ⟨key, hcall, List.mem_cons_self⟩
  | true =>
    rw [hnumber] at hfound
    exact h.answer (fun k => Iff.rfl) (fun _ _ he => by cases he) ⟨hfound, h.truthful⟩
      (fun _ _ hst => by cases hst) (fun _ _ _ hst => by cases hst) (fun hst => by cases hst)
      fun _ hst => by cases hst

/-- An object is deleted, or was not there. -/
theorem Inv.delete (h : Inv w₀ calls w φ) {p : ℕ} {k : Key} (hk : ¬IsPart k) {st : Stage}
    (hst : (φ p).stage = st) {x : Except Exn Unit} {w' : Host}
    (hx : Host.exec (.unlink (.root k)) w = some (x, w')) :
    Inv w₀ calls w' (Function.update φ p ⟨(φ p).call, st⟩) := by
  cases hnumber : w.files.number (.root k) with
  | none =>
    simp only [Host.exec, hnumber] at hx
    cases hx
    exact h.same hst
  | some fd =>
    rw [Host.exec_unlink hnumber] at hx
    cases hx
    refine h.unlink (fun _ _ hf => hst.trans hf) (fun q fd' written name hnow hn hname => ?_)
      (fun _ _ _ hr => hst.trans hr) (fun ha => hst.trans ha) fun _ hl => hst.trans hl
    rw [← hname] at hk
    exact hk (isPart_append name)

/-- Every step keeps the invariant, if no listing meets a temp file. -/
theorem Inv.step (hkeys : ∀ p key, (calls p).key? = some key → ¬IsPart key)
    (h : Inv w₀ calls w φ) {p : ℕ} {c : Sys} {x : Except Exn c.Answer} {w' : Host}
    (hallow : Allows (φ p) c) (hguard : Quiescent p c w φ) (ha : host.Answer p c w x w') :
    Inv w₀ calls w' (Function.update φ p (monitor.next (φ p) c x)) := by
  change Inv w₀ calls w' (Function.update φ p ⟨(φ p).call, (φ p).stage.next c x⟩)
  cases ha with
  -- A call that raises changes nothing.
  | fault _ =>
    rw [next_error]
    exact h.same rfl
  | exec hx =>
    replace hx : Host.exec c w = some (x, w') := hx
    obtain ⟨call, st, hl⟩ : ∃ call st, φ p = ⟨call, st⟩ := ⟨_, _, rfl⟩
    have hcall : calls p = call := (h.call p).symm.trans (congrArg Phase.call hl)
    have hst : (φ p).stage = st := congrArg Phase.stage hl
    rw [hst]
    rw [hl] at hallow
    cases hallow with
    -- These neither add nor remove a name.
    | mkdirRoot | mkdirParent | fdopen | anext | close =>
      cases hx
      exact h.same hst
    | @mkstemp name key data =>
      cases hfresh : w.files.number (.root (name ++ partSuffix)) with
      | none =>
        rw [Host.exec_mkstemp hfresh] at hx
        cases hx
        exact h.mkstemp hcall hfresh
      -- `mkstemp` takes a name that is free.
      | some fd =>
        rw [Host.exec_mkstemp_of_used hfresh] at hx
        cases hx
    | write i chunk =>
      cases hx
      exact h.write hst chunk
    -- The put that replaces still has its own temporary file, whole.
    | @replace name key data fd =>
      obtain ⟨name', key', data', hcall', hnumber, hdata⟩ := h.filling p fd _ hst
      cases hcall.symm.trans hcall'
      have hcontent : w.files.content (.root (name ++ partSuffix)) = some data.flatten := by
        rw [Files.content, hnumber, Option.map_some, hdata]
      rw [Host.exec_replace hcontent] at hx
      cases hx
      exact h.replace hcall (hkeys p key (congrArg _ hcall)) hst hnumber hdata
    -- A put that fails removes its own temporary file, and nobody else's.
    | @undo name key data fd written =>
      obtain ⟨name', key', data', hcall', hnumber, hdata⟩ := h.filling p fd _ hst
      cases hcall.symm.trans hcall'
      rw [Host.exec_unlink hnumber] at hx
      cases hx
      refine h.unlink (fun _ _ hover => by cases hover) (fun q fd' written' name'' hnow hn hname => ?_)
        (fun _ _ _ hover => by cases hover) (fun hover => by cases hover)
        fun _ hover => by cases hover
      obtain ⟨-, hover⟩ | ⟨hne, hq⟩ := stage_cases hnow
      · cases hover
      · rw [hname, hnumber] at hn
        cases hn
        exact hne (h.distinct q p fd _ _ hq hst)
    | @probe key n =>
      cases hx
      exact h.probe (congrArg _ hcall) (hkeys p key (congrArg _ hcall))
    -- The reader holds on to the file, whatever becomes of its name.
    | @openRead key n =>
      cases hnumber : w.files.number (.root key) with
      | none =>
        simp only [Host.exec, hnumber] at hx
        cases hx
        exact h.same hst
      | some fd =>
        simp only [Host.exec, hnumber] at hx
        cases hx
        exact h.openRead hcall (hkeys p key (congrArg _ hcall)) hnumber
    | @read key n fd got eof =>
      cases hx
      exact h.read hst CHUNK_SIZE (by decide)
    | @delete key =>
      have hnext : Stage.fresh.next (.unlink (.root key)) x = .fresh := by cases x <;> rfl
      rw [hnext]
      exact h.delete (hkeys p key (congrArg _ hcall)) hst hx
    | @exists_ key =>
      cases hx
      exact h.probe (congrArg _ hcall) (hkeys p key (congrArg _ hcall))
    -- Here the runs are quiescent: no temporary file is there to be listed.
    | @listKeys pre =>
      cases hx
      exact h.list (hguard pre rfl)
    | sweepList =>
      cases hx
      exact h.list (hguard [] rfl)
    -- What the sweep deletes it has listed, so it is no temporary file.
    | @sweepDelete known limit keys k hk =>
      have hnext : (Stage.listed keys).next (.unlink (.root k)) x = .listed keys := by
        cases x <;> rfl
      rw [hnext]
      exact h.delete (h.listed p keys hst k hk) hst hx

end

/-! ## The calls keep to the protocol -/

section

variable {α : Type} {l : Phase} {call : StorageCall}

/-- One request. -/
theorem ask_bind {c : Sys} {f : c.Answer → Io α} {Q : Except Exn α → Phase → Prop}
    (hallow : Allows l c)
    (hok : ∀ a, (f a).wp monitor.trans Q ⟨l.call, l.stage.next c (.ok a)⟩)
    (herr : ∀ e, Q (.error e) l) : (ask c >>= f).wp monitor.trans Q l := by
  rw [wp_bind, ask, wp_perform monitor.trans_monotone]
  refine ⟨hallow, fun x => ?_⟩
  cases x with
  | ok a => exact hok a
  | error e =>
    change Q (.error e) ⟨l.call, l.stage.next c (.error e)⟩
    rw [next_error]
    exact herr e

/-- `try: body except …: pass`, whichever exceptions are meant. -/
theorem suppress_wp {which : Exn → Bool} {body : Io Unit} {Q : Except Exn Unit → Phase → Prop}
    (h : body.wp monitor.trans (fun _ l' => ∀ x, Q x l') l) :
    (suppress which body).wp monitor.trans Q l := by
  refine wp_suppress monitor.trans_monotone ?_
  refine wp_mono monitor.trans_monotone (fun x l' hx => ⟨fun _ => hx _, fun e _ => ?_⟩) h
  split <;> exact hx _

/-- The loop over the data. -/
theorem writeAll_wp {fd i total : ℕ} {written : Bytes} {data : List Bytes}
    {Q : Except Exn ℕ → Phase → Prop}
    (hok : ∀ n, Q (.ok n) ⟨call, .filling fd (written ++ data.flatten)⟩)
    (herr : ∀ e written', Q (.error e) ⟨call, .filling fd written'⟩) :
    (writeAll fd i data total).wp monitor.trans Q ⟨call, .filling fd written⟩ := by
  induction data generalizing i total written with
  | nil =>
    refine ask_bind (.anext i) (fun _ => ?_) fun e => herr e _
    rw [List.flatten_nil, List.append_nil] at hok
    exact hok total
  | cons chunk data ih =>
    refine ask_bind (.anext i) (fun _ => ?_) fun e => herr e _
    refine ask_bind (.write i chunk) (fun _ => ih fun n => ?_) fun e => herr e _
    rw [List.append_assoc, ← List.flatten_cons]
    exact hok n

/-- `with os.fdopen(fd, "wb") as fh`. -/
theorem withFile_wp {fd : ℕ} {data : List Bytes} {Q : Except Exn ℕ → Phase → Prop}
    (hok : ∀ n, Q (.ok n) ⟨call, .filling fd data.flatten⟩)
    (herr : ∀ e written, Q (.error e) ⟨call, .filling fd written⟩) :
    (withFile fd (writeAll fd 0 data 0)).wp monitor.trans Q ⟨call, .filling fd []⟩ := by
  refine ask_bind .fdopen (fun _ => ?_) fun e => herr e _
  unfold withFinally
  rw [wp_andThen]
  refine writeAll_wp (fun n => ?_) fun e written => ?_
  · exact ask_bind .close (fun _ => hok n) fun e => herr e _
  · exact ask_bind .close (fun _ => herr e _) fun e' => herr e' _

/-- `LocalStorageBackend.put`. -/
theorem put_wp {name key : Key} {data : List Bytes} {Q : Except Exn ℕ → Phase → Prop}
    (hQ : ∀ x st, Q x ⟨.put name key data, st⟩) :
    (LocalStorageBackend.put (name ++ partSuffix) key data).wp monitor.trans Q
      ⟨.put name key data, .fresh⟩ := by
  refine ask_bind .mkdirRoot (fun _ => ?_) fun e => hQ _ _
  refine ask_bind .mkdirParent (fun _ => ?_) fun e => hQ _ _
  refine ask_bind .mkstemp (fun fd => ?_) fun e => hQ _ _
  have hundo : ∀ e written, (suppress Exn.isOSError (ask (.unlink (.root (name ++ partSuffix)))) >>=
      fun _ => (.raise e : Io ℕ)).wp monitor.trans Q ⟨.put name key data, .filling fd written⟩ := by
    intro e written
    rw [wp_bind]
    refine suppress_wp ?_
    rw [ask, wp_perform monitor.trans_monotone]
    refine ⟨.undo, fun x y => ?_⟩
    cases y with
    | ok a => exact hQ _ _
    | error e' => exact hQ _ _
  rw [wp_tryCatch, wp_bind]
  refine withFile_wp (fun n => ?_) hundo
  exact ask_bind .replace (fun _ => hQ _ _) fun e => hundo e _

/-- The reads of `get_stream`. -/
theorem readAll_wp {key : Key} {m fd n : ℕ} {got : Bytes} {eof : Bool}
    {Q : Except Exn (List Bytes × Bool) → Phase → Prop}
    (hok : ∀ chunks ended eof', (ended = true → eof' = true) →
      Q (.ok (chunks, ended)) ⟨.getStream key m, .reading fd (got ++ chunks.flatten) eof'⟩)
    (herr : ∀ e st, Q (.error e) ⟨.getStream key m, st⟩) :
    (LocalStorageBackend.readAll fd n got.length).wp monitor.trans Q
      ⟨.getStream key m, .reading fd got eof⟩ := by
  induction n generalizing got eof Q with
  | zero =>
    have h := hok [] false eof fun hfalse => by cases hfalse
    rwa [List.flatten_nil, List.append_nil] at h
  | succ n ih =>
    refine ask_bind .read (fun chunk => ?_) fun e => herr e _
    change (if chunk = [] then _ else _ : Io (List Bytes × Bool)).wp monitor.trans Q
      ⟨_, .reading fd (got ++ chunk) (eof || chunk.isEmpty)⟩
    split
    · next hempty =>
      rw [hempty, List.append_nil]
      have h := hok [] true (eof || List.isEmpty ([] : Bytes)) fun _ => Bool.or_true eof
      rwa [List.flatten_nil, List.append_nil] at h
    · rw [wp_bind, ← List.length_append]
      refine ih (fun chunks ended eof' heof => ?_) fun e st => herr e st
      have h := hok (chunk :: chunks) ended eof' heof
      rwa [List.flatten_cons, ← List.append_assoc] at h

/-- `LocalStorageBackend.get_stream`. -/
theorem getStream_wp {key : Key} {n : ℕ} {Q : Except Exn (List Bytes × Bool) → Phase → Prop}
    (hread : ∀ chunks ended fd eof, (ended = true → eof = true) →
      Q (.ok (chunks, ended)) ⟨.getStream key n, .reading fd chunks.flatten eof⟩)
    (habsent : Q (.ok ([], true)) ⟨.getStream key n, .absent⟩)
    (herr : ∀ e st, Q (.error e) ⟨.getStream key n, st⟩) :
    (LocalStorageBackend.getStream key n).wp monitor.trans Q ⟨.getStream key n, .fresh⟩ := by
  refine ask_bind .probe (fun found => ?_) fun e => herr e _
  cases found with
  | false => exact habsent
  | true =>
    refine ask_bind .openRead (fun fd => ?_) fun e => herr e _
    change (LocalStorageBackend.readAll fd n ([] : Bytes).length).wp monitor.trans Q
      ⟨.getStream key n, .reading fd [] false⟩
    refine readAll_wp (fun chunks ended eof heof => ?_) herr
    exact hread chunks ended fd eof heof

/-- `LocalStorageBackend.delete`, by a call that may delete the key. -/
theorem delete_wp {k : Key} {Q : Except Exn Unit → Phase → Prop}
    (hallow : Allows l (.unlink (.root k)))
    (hnext : ∀ x, l.stage.next (.unlink (.root k)) x = l.stage) (hQ : ∀ x, Q x l) :
    (LocalStorageBackend.delete k).wp monitor.trans Q l := by
  refine suppress_wp ?_
  rw [ask, wp_perform monitor.trans_monotone]
  refine ⟨hallow, fun x y => ?_⟩
  change Q y ⟨l.call, l.stage.next _ x⟩
  rw [hnext]
  exact hQ y

/-- The loop of a sweep over the keys that it has listed. -/
theorem forM_wp {keys l' : List Key} {known : List Key} {limit : ℕ} (hsub : ∀ k ∈ l', k ∈ keys)
    {Q : Except Exn PUnit → Phase → Prop}
    (hQ : ∀ x, Q x ⟨.sweepOrphans known limit, .listed keys⟩) :
    (l'.forM LocalStorageBackend.delete).wp monitor.trans Q
      ⟨.sweepOrphans known limit, .listed keys⟩ := by
  induction l' with
  | nil => exact hQ _
  | cons k l' ih =>
    refine (wp_bind (LocalStorageBackend.delete k) _ Q _).2 ?_
    refine delete_wp (.sweepDelete (hsub k List.mem_cons_self)) (fun x => by cases x <;> rfl)
      fun x => ?_
    cases x with
    | ok _ => exact ih fun k' hk' => hsub k' (List.mem_cons_of_mem k hk')
    | error e => exact hQ _

/-- What a call has seen when it returns. -/
def Ended (x : Except Exn StorageReturn) (l : Phase) : Prop :=
  ∀ read, x = .ok (.chunks read) → l.stage = .absent ∧ read.1 = [] ∨
    ∃ fd eof, l.stage = .reading fd read.1.flatten eof ∧ (read.2 = true → eof = true)

/-- Every call keeps to the protocol. -/
theorem program_wp (call : StorageCall) :
    call.program.wp monitor.trans Ended ⟨call, .fresh⟩ := by
  cases call with
  | put name key data =>
    unfold StorageCall.program
    rw [wp_map]
    refine put_wp fun x st read hread => ?_
    cases x <;> cases hread
  -- It ends either with chunks of the file that it opened, or without a file.
  | getStream key n =>
    unfold StorageCall.program
    rw [wp_map]
    refine getStream_wp ?_ ?_ ?_
    · intro chunks ended fd eof heof read hread
      cases hread
      exact .inr ⟨fd, eof, rfl, heof⟩
    · intro read hread
      cases hread
      exact .inl ⟨rfl, rfl⟩
    · intro e st read hread
      cases hread
  | delete key =>
    unfold StorageCall.program
    rw [wp_map]
    refine delete_wp .delete (fun x => by cases x <;> rfl) fun x read hread => ?_
    cases x <;> cases hread
  | exists_ key =>
    unfold StorageCall.program LocalStorageBackend.exists_ ask
    rw [wp_map, wp_perform monitor.trans_monotone]
    refine ⟨.exists_, fun x read hread => ?_⟩
    cases x <;> cases hread
  | listKeys pre =>
    unfold StorageCall.program LocalStorageBackend.listKeys ask
    rw [wp_map, wp_perform monitor.trans_monotone]
    refine ⟨.listKeys, fun x read hread => ?_⟩
    cases x <;> cases hread
  -- It deletes keys of the listing only.
  | sweepOrphans known limit =>
    unfold StorageCall.program
    rw [wp_map]
    refine ask_bind .sweepList (fun keys => ?_) fun e read hread => by cases hread
    refine forM_wp (fun k hk => List.mem_of_mem_filter (List.mem_of_mem_take hk)) fun x read hread => ?_
    cases x <;> cases hread

end

/-! ## Runs -/

section

variable {w₀ : Host} {calls : ℕ → StorageCall}

/-- Every call follows its stages from the start. -/
theorem starting_conforms : (starting w₀ calls).Conforms monitor Ended :=
  fun p => program_wp (calls p)

/-- The invariant holds at the start. -/
theorem Inv.init (hlog : w₀.log = []) : Inv w₀ calls w₀ fun p => ⟨calls p, .fresh⟩ := by
  constructor
  case call => exact fun p => rfl
  case filling => exact fun p fd written hp => by cases hp
  case distinct => exact fun p q fd written written' hp => by cases hp
  case live =>
    intro k
    rw [hlog]
    exact Iff.rfl
  case whole => exact fun k object hk hobj => .inl hobj
  case stored =>
    intro k object hmem
    rw [hlog] at hmem
    cases hmem
  case truthful =>
    rw [hlog]
    trivial
  case reading => exact fun p fd got eof hp => by cases hp
  case absent => exact fun p hp => by cases hp
  case listed => exact fun p keys hp => by cases hp

/-- The invariant holds in every run. -/
theorem invariant (hlog : w₀.log = []) (hkeys : ∀ p key, (calls p).key? = some key → ¬IsPart key)
    {s : Conf Sys Sys.Answer Exn StorageReturn Host Phase}
    (h : host.Reaches monitor Quiescent (starting w₀ calls) s) :
    Inv w₀ calls s.world s.phase ∧ s.Conforms monitor Ended :=
  Machine.invariant (fun _ _ _ _ _ _ hI hallow hok ha => hI.step hkeys hallow hok ha)
    (fun _ _ _ _ he => by cases he) h (Inv.init hlog) starting_conforms

end

end listing

open listing

/-- In every interleaving of calls for plain names in which no listing is made while a temp file is under
its prefix: every object lies in the root itself; every listing and every `exists` was right when it was
made; what was stored under a key is all the data of a put; who reads a key gets a whole object that was
stored under it, from its beginning; and no put that goes to replace its key finds its temp file gone. -/
theorem listing_exact_between_puts {w₀ : Host} (hlog : w₀.log = [])
    (hstart : ∀ key, w₀.object key ≠ none → IsName key) {calls : ℕ → StorageCall}
    (hkeys : ∀ p key, (calls p).key? = some key → IsName key ∧ ¬IsPart key)
    {s : Conf Sys Sys.Answer Exn StorageReturn Host Phase}
    (h : host.Reaches monitor Quiescent (starting w₀ calls) s) :
    (∀ key, s.world.object key ≠ none → ¬IsPart key → IsName key) ∧
    Truthful (start w₀) s.world.log ∧
    (∀ key object, .stored key object ∈ s.world.log →
      ∃ p name data, calls p = .put name key data ∧ object = data.flatten) ∧
    (∀ p key n chunks ended, calls p = .getStream key n →
      (s.proc p).outcome = some (.ok (.chunks (chunks, ended))) →
        chunks = [] ∧ .probed key false ∈ s.world.log ∨ ∃ object, Whole w₀ s.world.log key object ∧
          chunks.flatten <+: object ∧ (ended = true → chunks.flatten = object)) ∧
    ∀ p tmp dst k, s.proc p = .call (.replace tmp dst) k → s.world.files.number tmp ≠ none := by
  obtain ⟨hI, hC⟩ := invariant hlog (fun p key hkey => (hkeys p key hkey).2) h
  refine ⟨fun key hkey hpart => ?_, hI.truthful, hI.stored,
    fun p key n chunks ended hcall hout => ?_, fun p tmp dst k hp => ?_⟩
  · -- An object was there at the start, or a put has made it.
    obtain ⟨object, hobject⟩ := Option.ne_none_iff_exists'.1 hkey
    obtain hold | hstored := hI.whole key object hpart hobject
    · exact hstart key (hold ▸ Option.some_ne_none object)
    · obtain ⟨q, name, data, hcall, -⟩ := hI.stored key object hstored
      exact (hkeys q key (by rw [hcall]; rfl)).1
  · have hended := wp_outcome hout (hC p)
    obtain ⟨habsent, hnil⟩ | ⟨fd, eof, hreading, heof⟩ := hended (chunks, ended) rfl
    · obtain ⟨key', hkey', hmem⟩ := hI.absent p habsent
      rw [hcall] at hkey'
      cases hkey'
      exact .inl ⟨hnil, hmem⟩
    · have hreads := hI.reading p fd _ eof hreading
      obtain ⟨key', n', hcall', hwhole⟩ := hreads.whole
      cases hcall.symm.trans hcall'
      exact .inr ⟨_, hwhole, hreads.part, fun hend => hreads.all (heof hend)⟩
  · have hc := hC p
    rw [hp, wp_call] at hc
    have hallow : Allows (s.phase p) (.replace tmp dst) := hc.1
    obtain ⟨call, st, hl⟩ : ∃ call st, s.phase p = ⟨call, st⟩ := ⟨_, _, rfl⟩
    rw [hl] at hallow
    cases hallow with
    | @replace name key data fd =>
      obtain ⟨name', key', data', hcall', hnumber, -⟩ := hI.filling p fd _ (congrArg Phase.stage hl)
      have hcall : calls p = .put name key data := (hI.call p).symm.trans (congrArg Phase.call hl)
      cases hcall.symm.trans hcall'
      rw [hnumber]
      exact Option.some_ne_none fd

/-- The keys that the server uses are no paths of temp files. -/
theorem Uuid.not_isPart_text (u : Uuid) : ¬IsPart u.text :=
  fun h => u.noDot (h.subset (List.mem_cons_self ..))

/-- The key of a chunk does not end in `.part`. -/
theorem not_isPart_partKey (u : Uuid) (i : ℕ) : ¬IsPart (uploadService.partKey u i) := by
  rintro ⟨name, hname⟩
  have hrev := congrArg List.reverse hname
  rw [uploadService.partKey, List.reverse_append, List.reverse_append, List.reverse_cons] at hrev
  cases hpad : (uploadService.pad i).reverse with
  | nil => exact uploadService.pad_ne_nil i (List.reverse_eq_nil_iff.1 hpad)
  | cons c digits =>
    rw [hpad] at hrev
    -- the last character of a part key is a digit
    obtain rfl : 't' = c := (List.cons.inj hrev).1
    have hmem : 't' ∈ uploadService.pad i := by
      rw [← List.mem_reverse, hpad]
      exact List.mem_cons_self
    have hdigit := uploadService.isDigit_of_mem_pad hmem
    revert hdigit
    decide

namespace listing

/-- A put beside a sweep of the scheduler that knows no key. -/
def putAndSweep : ℕ → StorageCall
  | 0 => .put ['t'] ['k'] [[66]]
  | 1 => .sweepOrphans [] 10
  | _ => .exists_ ['k']

/-- The keys of the run are plain names that do not end in `.part`. -/
theorem key_putAndSweep (p : ℕ) (key : Key) (h : (putAndSweep p).key? = some key) :
    IsName key ∧ ¬IsPart key := by
  unfold putAndSweep at h
  split at h
  · cases h
    decide
  · cases h
  · cases h
    decide

/-- No files, and nothing done yet. -/
def emptyHost : Host := ⟨Files.empty, ∅, []⟩

end listing

/-- The sweep comes between two puts: it lists the object, and the put has succeeded. -/
theorem listing_exact_after_put : ∃ s,
    host.Reaches monitor Quiescent (starting emptyHost putAndSweep) s ∧
    Truthful (start emptyHost) s.world.log ∧
    s.world.log = [.listed [] [['k']], .stored ['k'] [66]] := by
  have hplay : (host.play monitor Quiescent [0, 0, 0, 0, 0, 0, 0, 0, 0, 1]
      (starting emptyHost putAndSweep)).map (fun s => s.world.log) =
        some [.listed [] [['k']], .stored ['k'] [66]] := by decide
  obtain ⟨s, hs, hlog⟩ := Option.map_eq_some_iff.1 hplay
  have hreach := Machine.play_reaches hs
  have hstart : ∀ key, emptyHost.object key ≠ none → IsName key := fun key hkey => absurd rfl hkey
  exact ⟨s, hreach, (listing_exact_between_puts rfl hstart key_putAndSweep hreach).2.1, hlog⟩

/-- The sweep comes while the put is under way: it lists the temp file, deletes it, and the put
fails. -/
theorem sweep_breaks_put : ∃ s, host.Reaches monitor .all (starting emptyHost putAndSweep) s ∧
    ¬Truthful (start emptyHost) s.world.log ∧
    (s.proc 0).outcome = some (.error .fileNotFound) := by
  have hplay : (host.play monitor .all [0, 0, 0, 0, 1, 1, 0, 0, 0, 0, 0, 0]
      (starting emptyHost putAndSweep)).map (fun s => (s.world.log, (s.proc 0).outcome)) =
        some ([.deleted ['t', '.', 'p', 'a', 'r', 't'], .listed [] [['t', '.', 'p', 'a', 'r', 't']]],
          some (.error .fileNotFound)) := by decide
  obtain ⟨s, hs, hend⟩ := Option.map_eq_some_iff.1 hplay
  refine ⟨s, Machine.play_reaches hs, ?_, congrArg Prod.snd hend⟩
  have hlog : s.world.log = _ := congrArg Prod.fst hend
  rw [hlog]
  rintro ⟨hlisted, -⟩
  have hlive := ((hlisted _).1 (List.mem_singleton_self _)).2
  exact hlive.1 rfl

end DropRoom
