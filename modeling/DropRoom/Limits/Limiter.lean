import DropRoom.App.World
import Mathlib.Algebra.Order.Sub.Unbundled.Basic
import Mathlib.Algebra.Order.Monoid.Defs
import Mathlib.Algebra.Order.Ring.Rat
import Mathlib.Data.List.Induction
import Mathlib.Tactic.NormNum

/-!
# The rate limiter over many calls

`InMemoryRateLimiter` of `app/core/ratelimit.py`, with clock values of any ordered type that has a
subtraction: the numbers that a `float` stands for, or the ticks of the clock of `World`. Each scope
and key has a window of its own, and the calls for other names do not matter to it. A window is opened
by a call that comes at least `window_seconds` after the last opening (the first one is open from the
clock value 0 on), so of two neighbouring windows at most `2 * limit` calls fall into an interval as
long as a window.
-/

namespace DropRoom

/-- `InMemoryRateLimiter._buckets`: for each scope and key the start of the window and the count. -/
abbrev InMemoryRateLimiter (T : Type) : Type := AList fun _ : String × String => T × ℕ

/-- A call of `check`, at the clock value `now`. -/
structure RateCall (T : Type) where
  scope : String
  key : String
  now : T

/-- The name of the bucket: `bucket_key`. -/
def RateCall.name {T : Type} (c : RateCall T) : String × String := (c.scope, c.key)

/-- The limit and the window with which each scope and key is checked. -/
structure RatePolicy (T : Type) [Zero T] [LT T] where
  limit : String × String → ℕ
  window_seconds : String × String → T
  limit_pos : ∀ name, 1 ≤ limit name
  window_pos : ∀ name, 0 < window_seconds name

/-- A call with its decision, and whether it opens a window. -/
structure RateDecision (T : Type) extends RateCall T where
  admitted : Bool
  opened : Bool

namespace RateDecision

variable {T : Type}

/-- The decision admits a call for the name. -/
def admits (name : String × String) (d : RateDecision T) : Bool := d.name == name && d.admitted

/-- The decision opens a window of the name. -/
def opens (name : String × String) (d : RateDecision T) : Bool := d.name == name && d.opened

end RateDecision

namespace InMemoryRateLimiter

section

variable {T : Type} [Zero T] [Sub T] [LE T] [DecidableLE T]

/-- The start and the count of a bucket: `self._buckets.get(bucket_key, (0.0, 0))`. -/
def bucket (b : InMemoryRateLimiter T) (name : String × String) : T × ℕ :=
  (b.lookup name).getD (0, 0)

/-- `check`. -/
def check (b : InMemoryRateLimiter T) (scope key : String) (limit : ℕ) (window_seconds now : T) :
    Bool × InMemoryRateLimiter T :=
  let (start, count) := b.bucket (scope, key)
  if window_seconds ≤ now - start then (true, b.insert (scope, key) (now, 1))
  else if limit ≤ count then (false, b)
  else (true, b.insert (scope, key) (start, count + 1))

/-- The limiter of `World`, whose clock counts ticks. -/
theorem check_eq (b : Buckets) (scope key : String) (limit : ℕ) (window now : Time) :
    b.check scope key limit window now = check (T := ℕ) b scope key limit window now :=
  rfl

/-- A call, by what is in the bucket of its name. -/
theorem check_of_bucket {b : InMemoryRateLimiter T} {scope key : String} {start : T} {count : ℕ}
    (hv : b.bucket (scope, key) = (start, count)) (limit : ℕ) (window_seconds now : T) :
    b.check scope key limit window_seconds now =
      if window_seconds ≤ now - start then (true, b.insert (scope, key) (now, 1))
      else if limit ≤ count then (false, b)
      else (true, b.insert (scope, key) (start, count + 1)) := by
  unfold check
  rw [hv]

variable [LT T]

/-- One call under a policy. -/
def decision (P : RatePolicy T) (b : InMemoryRateLimiter T) (c : RateCall T) :
    RateDecision T × InMemoryRateLimiter T :=
  let window := P.window_seconds c.name
  let (admitted, b') := b.check c.scope c.key (P.limit c.name) window c.now
  ({ c with admitted, opened := decide (window ≤ c.now - (b.bucket c.name).1) }, b')

/-- Whether a call is admitted is what `check` answers. -/
theorem decision_admitted (P : RatePolicy T) (b : InMemoryRateLimiter T) (c : RateCall T) :
    (b.decision P c).1.admitted =
      (b.check c.scope c.key (P.limit c.name) (P.window_seconds c.name) c.now).1 := rfl

/-- A decision keeps the moment of its call. -/
theorem decision_now (P : RatePolicy T) (b : InMemoryRateLimiter T) (c : RateCall T) :
    (b.decision P c).1.now = c.now := rfl

/-- The limiter after a call is what `check` makes of it. -/
theorem decision_snd (P : RatePolicy T) (b : InMemoryRateLimiter T) (c : RateCall T) :
    (b.decision P c).2 =
      (b.check c.scope c.key (P.limit c.name) (P.window_seconds c.name) c.now).2 := rfl

/-- The decisions on some calls, one after the other. -/
def history (P : RatePolicy T) : InMemoryRateLimiter T → List (RateCall T) → List (RateDecision T)
  | _, [] => []
  | b, c :: calls => (b.decision P c).1 :: history P (b.decision P c).2 calls

/-- The limiter after some calls. -/
def after (P : RatePolicy T) (b : InMemoryRateLimiter T) (calls : List (RateCall T)) :
    InMemoryRateLimiter T :=
  calls.foldl (fun b c => (b.decision P c).2) b

/-! ## One call -/

/-- What a call does to the bucket of a name. -/
inductive Checked (P : RatePolicy T) (name : String × String) :
    T × ℕ → RateDecision T → T × ℕ → Prop
  /-- It is a call for another name. -/
  | other {v d} (hname : d.name ≠ name) : Checked P name v d v
  /-- It opens a window. -/
  | opened {start count d} (hname : d.name = name)
      (hopen : P.window_seconds name ≤ d.now - start) (hadmitted : d.admitted = true)
      (hopened : d.opened = true) : Checked P name (start, count) d (d.now, 1)
  /-- The window is full. -/
  | refused {start count d} (hname : d.name = name)
      (hopen : ¬P.window_seconds name ≤ d.now - start) (hfull : P.limit name ≤ count)
      (hadmitted : d.admitted = false) (hopened : d.opened = false) :
      Checked P name (start, count) d (start, count)
  /-- It is counted in the window. -/
  | counted {start count d} (hname : d.name = name)
      (hopen : ¬P.window_seconds name ≤ d.now - start) (hlt : count < P.limit name)
      (hadmitted : d.admitted = true) (hopened : d.opened = false) :
      Checked P name (start, count) d (start, count + 1)

/-- A call, by what is in the bucket of its name. -/
theorem decision_eq (P : RatePolicy T) {b : InMemoryRateLimiter T} {c : RateCall T} {start : T}
    {count : ℕ} (hv : b.bucket c.name = (start, count)) :
    b.decision P c =
      if P.window_seconds c.name ≤ c.now - start then
        ({ c with admitted := true, opened := true }, b.insert c.name (c.now, 1))
      else if P.limit c.name ≤ count then ({ c with admitted := false, opened := false }, b)
      else ({ c with admitted := true, opened := false }, b.insert c.name (start, count + 1)) := by
  have hself : b.bucket (c.scope, c.key) = (start, count) := hv
  unfold decision
  dsimp only
  rw [check_of_bucket hself, hv]
  by_cases hopen : P.window_seconds c.name ≤ c.now - start
  · simp only [hopen, if_true, decide_true]
    rfl
  · by_cases hfull : P.limit c.name ≤ count
    · simp only [hopen, hfull, if_true, if_false, decide_false]
    · simp only [hopen, hfull, if_false, decide_false]
      rfl

/-- A call leaves the buckets of other names alone. -/
theorem bucket_decision_of_ne (P : RatePolicy T) (b : InMemoryRateLimiter T) {c : RateCall T}
    {name : String × String} (hname : c.name ≠ name) :
    (b.decision P c).2.bucket name = b.bucket name := by
  have hother : ∀ v : T × ℕ, bucket (b.insert c.name v) name = b.bucket name := by
    intro v
    rw [bucket, AList.lookup_insert_ne (Ne.symm hname), ← bucket]
  rcases hv : b.bucket c.name with ⟨start, count⟩
  rw [decision_eq P hv]
  split_ifs
  · exact hother _
  · rfl
  · exact hother _

omit [Sub T] [LE T] [DecidableLE T] [LT T] in
/-- The bucket of a name after something was stored in it. -/
theorem bucket_insert (b : InMemoryRateLimiter T) (name : String × String) (v : T × ℕ) :
    bucket (b.insert name v) name = v := by
  rw [bucket, AList.lookup_insert, Option.getD_some]

/-- Every call does one of these. -/
theorem checked (P : RatePolicy T) (b : InMemoryRateLimiter T) (c : RateCall T)
    (name : String × String) :
    Checked P name (b.bucket name) (b.decision P c).1 ((b.decision P c).2.bucket name) := by
  by_cases hname : c.name = name
  · subst hname
    rcases hv : b.bucket c.name with ⟨start, count⟩
    rw [decision_eq P hv]
    split_ifs with hopen hfull
    · rw [bucket_insert]
      exact .opened rfl hopen rfl rfl
    · rw [hv]
      exact .refused rfl hopen hfull rfl rfl
    · rw [bucket_insert]
      exact .counted rfl hopen (Nat.lt_of_not_le hfull) rfl rfl
  · rw [bucket_decision_of_ne P b hname]
    refine .other fun heq => hname ?_
    rcases hv : b.bucket c.name with ⟨start, count⟩
    rw [decision_eq P hv] at heq
    split_ifs at heq <;> exact heq

/-- A call does the same to two limiters that agree on its bucket. -/
theorem decision_congr (P : RatePolicy T) {b b' : InMemoryRateLimiter T} {c : RateCall T}
    (h : b.bucket c.name = b'.bucket c.name) :
    (b.decision P c).1 = (b'.decision P c).1 ∧
      (b.decision P c).2.bucket c.name = (b'.decision P c).2.bucket c.name := by
  rcases hv : b.bucket c.name with ⟨start, count⟩
  rw [decision_eq P hv, decision_eq P (h.symm.trans hv)]
  split_ifs
  · exact ⟨rfl, by rw [bucket_insert, bucket_insert]⟩
  · exact ⟨rfl, h⟩
  · exact ⟨rfl, by rw [bucket_insert, bucket_insert]⟩

/-! ## Many calls -/

/-- The calls before a moment and from it on. -/
theorem history_append (P : RatePolicy T) (b : InMemoryRateLimiter T)
    (calls calls' : List (RateCall T)) :
    history P b (calls ++ calls') = history P b calls ++ history P (after P b calls) calls' := by
  induction calls generalizing b with
  | nil => rfl
  | cons c calls ih =>
    rw [List.cons_append, history, history, ih, List.cons_append]
    rfl

/-- The decisions are on the calls, in their order. -/
theorem map_history (P : RatePolicy T) (b : InMemoryRateLimiter T) (calls : List (RateCall T)) :
    (history P b calls).map RateDecision.toRateCall = calls := by
  induction calls generalizing b with
  | nil => rfl
  | cons c calls ih =>
    rw [history, List.map_cons, ih]
    rfl

/-- A decision is on one of the calls. -/
theorem call_of_mem_history {P : RatePolicy T} {b : InMemoryRateLimiter T}
    {calls : List (RateCall T)} {d : RateDecision T} (h : d ∈ history P b calls) :
    d.toRateCall ∈ calls := by
  rw [← map_history P b calls]
  exact List.mem_map_of_mem h

/-- The decisions of a history that is cut in two are those on the calls cut in two. -/
theorem exists_of_history_eq_append {P : RatePolicy T} {b : InMemoryRateLimiter T}
    {calls : List (RateCall T)} {h h' : List (RateDecision T)}
    (heq : history P b calls = h ++ h') :
    ∃ cs cs', calls = cs ++ cs' ∧ history P b cs = h ∧ history P (after P b cs) cs' = h' := by
  have hcalls := map_history P b calls
  rw [heq, List.map_append] at hcalls
  refine ⟨_, _, hcalls.symm, ?_⟩
  rw [← hcalls, history_append] at heq
  refine List.append_inj heq ?_
  have hlen := congrArg List.length (map_history P b (h.map RateDecision.toRateCall))
  rwa [List.length_map, List.length_map] at hlen

/-- The decisions on the calls for a name depend on nothing but its bucket and these calls. -/
theorem filter_history {P : RatePolicy T} {name : String × String} {b b' : InMemoryRateLimiter T}
    (h : b.bucket name = b'.bucket name) (calls : List (RateCall T)) :
    (history P b calls).filter (fun d => d.name == name) =
      history P b' (calls.filter fun c => c.name == name) := by
  induction calls generalizing b b' with
  | nil => rfl
  | cons c calls ih =>
    rw [history, List.filter_cons, List.filter_cons]
    by_cases hname : c.name = name
    · subst hname
      obtain ⟨hdecision, hbucket⟩ := decision_congr P h
      have hhead : ((b.decision P c).1.name == c.name) = true := beq_iff_eq.2 rfl
      rw [if_pos hhead, if_pos (beq_iff_eq.2 rfl), history, ih hbucket, hdecision]
    · have hhead : ¬((b.decision P c).1.name == name) = true := fun heq => hname (beq_iff_eq.1 heq)
      rw [if_neg hhead, if_neg (fun heq => hname (beq_iff_eq.1 heq))]
      exact ih ((bucket_decision_of_ne P b hname).trans h)

end

/-! ## Windows -/

section

variable {T : Type} [AddCommMonoid T] [LinearOrder T] [IsOrderedCancelAddMonoid T] [Sub T]
  [OrderedSub T] {P : RatePolicy T} {b : InMemoryRateLimiter T} {calls : List (RateCall T)}
  {name : String × String}

open RateDecision

omit [IsOrderedCancelAddMonoid T] [OrderedSub T] in
/-- While no window is opened, only the rest of the window is admitted. -/
theorem countP_admits_le (h : ∀ d ∈ history P b calls, opens name d = false) :
    (history P b calls).countP (admits name) ≤ P.limit name - (b.bucket name).2 := by
  induction calls generalizing b with
  | nil => exact Nat.zero_le _
  | cons c calls ih =>
    have hhead := h _ List.mem_cons_self
    have hrest := ih fun d hd => h d (List.mem_cons_of_mem _ hd)
    have hstep := checked P b c name
    rw [history, List.countP_cons]
    generalize (b.decision P c).1 = d at hhead hstep
    generalize b.bucket name = v at hstep
    generalize (b.decision P c).2.bucket name = v' at hrest hstep
    cases hstep with
    | other hname => simpa [admits, hname] using hrest
    | opened hname hopen hadmitted hopened => simp [opens, hname, hopened] at hhead
    | refused hname hopen hfull hadmitted hopened => simpa [admits, hadmitted] using hrest
    | counted hname hopen hlt hadmitted hopened =>
      simp only [admits, hname, hadmitted, beq_self_eq_true, Bool.and_true, if_true]
      dsimp only at hrest ⊢
      omega

omit [IsOrderedCancelAddMonoid T] [OrderedSub T] in
/-- From one opening of a window to the next at most `limit` calls are admitted. -/
theorem countP_admits_le_limit (h : ∀ d ∈ (history P b calls).tail, opens name d = false) :
    (history P b calls).countP (admits name) ≤ P.limit name := by
  cases calls with
  | nil => exact Nat.zero_le _
  | cons c calls =>
    have hrest := countP_admits_le h
    have hstep := checked P b c name
    have hlimit := P.limit_pos name
    rw [history, List.countP_cons]
    generalize (b.decision P c).1 = d at hstep
    generalize b.bucket name = v at hstep
    generalize (b.decision P c).2.bucket name = v' at hrest hstep
    have hone : (if admits name d then 1 else 0) ≤ 1 := by split_ifs <;> omega
    cases hstep with
    | other hname =>
      have hno : admits name d = false := by simp [admits, hname]
      rw [hno]
      exact hrest.trans (Nat.sub_le _ _)
    | opened =>
      dsimp only at hrest
      omega
    | refused hname hopen hfull hadmitted =>
      have hno : admits name d = false := by simp [admits, hadmitted]
      rw [hno]
      exact hrest.trans (Nat.sub_le _ _)
    | counted hname hopen hlt =>
      dsimp only at hrest
      omega

/-- A later window is opened at least a window's length after the start of the present one. -/
theorem add_le_of_opens [ExistsAddOfLE T] (hsorted : calls.Pairwise fun c c' => c.now ≤ c'.now)
    (hstart : ∀ c ∈ calls, (b.bucket name).1 ≤ c.now) :
    ∀ d ∈ history P b calls, opens name d = true →
      (b.bucket name).1 + P.window_seconds name ≤ d.now := by
  induction calls generalizing b with
  | nil => exact fun d hd => absurd hd List.not_mem_nil
  | cons c calls ih =>
    obtain ⟨hle, hsorted⟩ := List.pairwise_cons.1 hsorted
    have hnow : (b.bucket name).1 ≤ (b.decision P c).1.now := hstart c List.mem_cons_self
    have hlater : ∀ c' ∈ calls, (b.decision P c).1.now ≤ c'.now := hle
    have hstart' : ∀ c' ∈ calls, (b.bucket name).1 ≤ c'.now := fun c' hc' =>
      hstart c' (List.mem_cons_of_mem _ hc')
    have hrest := ih (b := (b.decision P c).2) hsorted
    have hstep := checked P b c name
    intro d hd hopens
    rw [history, List.mem_cons] at hd
    generalize (b.decision P c).1 = e at hd hnow hlater hstep
    generalize b.bucket name = v at hnow hstart' hstep ⊢
    generalize (b.decision P c).2.bucket name = v' at hrest hstep
    cases hstep with
    | other hname =>
      rcases hd with rfl | hd
      · simp [opens, hname] at hopens
      · exact hrest hstart' d hd hopens
    -- The call opens a window itself, and whatever opens after it opens later.
    | opened hname hopen =>
      rcases hd with rfl | hd
      · rw [add_comm]
        exact add_le_of_le_tsub_right_of_le hnow hopen
      · exact (add_le_add_left hnow _).trans (hrest hlater d hd hopens)
    | refused hname hopen hfull hadmitted hopened =>
      rcases hd with rfl | hd
      · simp [opens, hopened] at hopens
      · exact hrest hstart' d hd hopens
    | counted hname hopen hlt hadmitted hopened =>
      rcases hd with rfl | hd
      · simp [opens, hopened] at hopens
      · exact hrest hstart' d hd hopens

/-- A window is opened a window's length after the start of the one before, or later. -/
theorem add_le_of_le_sub [ExistsAddOfLE T] {window start now : T} (hwindow : 0 < window)
    (h : window ≤ now - start) : start + window ≤ now := by
  rw [add_comm]
  refine add_le_of_le_tsub_right_of_le (le_of_not_gt fun hlt => ?_) h
  have hsub : now - start ≤ 0 := tsub_le_iff_right.2 (by rw [zero_add]; exact hlt.le)
  exact absurd (hwindow.trans_le (h.trans hsub)) (lt_irrefl _)

/-- Where no window can be opened at the start of the interval, the calls up to the first opening in
it are the rest of the window, and those from then on are at most `limit`. -/
theorem countP_admits_le_add [ExistsAddOfLE T]
    (hsorted : calls.Pairwise fun c c' => c.now ≤ c'.now) {t : T}
    (ht : t < (b.bucket name).1 + P.window_seconds name)
    (hmem : ∀ c ∈ calls, t ≤ c.now ∧ c.now ≤ t + P.window_seconds name) :
    (history P b calls).countP (admits name) ≤
      (P.limit name - (b.bucket name).2) + P.limit name := by
  induction calls generalizing b with
  | nil => exact Nat.zero_le _
  | cons c calls ih =>
    obtain ⟨hle, hsorted⟩ := List.pairwise_cons.1 hsorted
    have hmem' : ∀ c' ∈ calls, t ≤ c'.now ∧ c'.now ≤ t + P.window_seconds name := fun c' hc' =>
      hmem c' (List.mem_cons_of_mem _ hc')
    have hlater : ∀ c' ∈ calls, (b.decision P c).1.now ≤ c'.now := hle
    have hrest := fun ht => ih (b := (b.decision P c).2) hsorted ht hmem'
    have hspaced : (∀ c' ∈ calls, ((b.decision P c).2.bucket name).1 ≤ c'.now) →
        ∀ d ∈ history P (b.decision P c).2 calls, opens name d = true →
          ((b.decision P c).2.bucket name).1 + P.window_seconds name ≤ d.now :=
      add_le_of_opens hsorted
    have hfew : (∀ d ∈ history P (b.decision P c).2 calls, opens name d = false) →
        (history P (b.decision P c).2 calls).countP (admits name) ≤
          P.limit name - ((b.decision P c).2.bucket name).2 := countP_admits_le
    have hlimit := P.limit_pos name
    have hstep := checked P b c name
    rw [history, List.countP_cons]
    generalize (b.decision P c).1 = e at hlater hstep
    generalize b.bucket name = v at ht hstep ⊢
    generalize (b.decision P c).2.bucket name = v' at hrest hstep hspaced hfew
    have hone : (if admits name e then 1 else 0) ≤ 1 := by split_ifs <;> omega
    cases hstep with
    | other hname =>
      have hno : admits name e = false := by simp [admits, hname]
      rw [hno]
      exact hrest ht
    | opened hname hopen hadmitted hopened =>
      -- The window is opened after the start of the interval, so the next one is after its end.
      have hopened : t < e.now := ht.trans_le (add_le_of_le_sub (P.window_pos name) hopen)
      have hnone : ∀ d ∈ history P (b.decision P c).2 calls, opens name d = false := by
        intro d hd
        by_contra hopens
        have hspace := hspaced hlater d hd (Bool.eq_true_of_not_eq_false hopens)
        have hend := (hmem' _ (call_of_mem_history hd)).2
        exact absurd ((add_lt_add_left hopened _).trans_le (hspace.trans hend)) (lt_irrefl _)
      have hlen := hfew hnone
      dsimp only at hlen
      omega
    | refused hname hopen hfull hadmitted =>
      have hno : admits name e = false := by simp [admits, hadmitted]
      rw [hno]
      exact hrest ht
    | counted hname hopen hlt =>
      have hlen := hrest ht
      dsimp only at hlen ⊢
      omega

/-- At most `2 * limit` calls are admitted in an interval as long as a window. -/
theorem countP_admits_le_two_mul [ExistsAddOfLE T]
    (hsorted : calls.Pairwise fun c c' => c.now ≤ c'.now) {t : T}
    (hmem : ∀ c ∈ calls, t ≤ c.now ∧ c.now ≤ t + P.window_seconds name) :
    (history P b calls).countP (admits name) ≤ 2 * P.limit name := by
  induction calls generalizing b with
  | nil => exact Nat.zero_le _
  | cons c calls ih =>
    have hall := @countP_admits_le_add _ _ _ _ _ _ P b (c :: calls) name _ hsorted t
    obtain ⟨-, hsorted⟩ := List.pairwise_cons.1 hsorted
    obtain ⟨hnow, hmem'⟩ := List.forall_mem_cons.1 hmem
    have hrest := ih (b := (b.decision P c).2) hsorted hmem'
    have hadd := @countP_admits_le_add _ _ _ _ _ _ P (b.decision P c).2 calls name _ hsorted t
    have hlimit := P.limit_pos name
    have hstep := checked P b c name
    have hstart : t ≤ (b.decision P c).1.now := hnow.1
    rw [history, List.countP_cons] at hall ⊢
    generalize (b.decision P c).1 = e at hstart hall hstep ⊢
    generalize b.bucket name = v at hall hstep
    generalize (b.decision P c).2.bucket name = v' at hadd hstep
    -- At most two windows meet the interval, if one was open before it.
    by_cases ht : t < v.1 + P.window_seconds name
    · have hlen := hall ht hmem
      omega
    · -- A window can be opened at the start of the interval, so the first call opens one.
      have hfirst : ¬P.window_seconds name ≤ e.now - v.1 → False := fun hopen =>
        hopen (le_tsub_of_add_le_left ((le_of_not_gt ht).trans hstart))
      have hone : (if admits name e then 1 else 0) ≤ 1 := by split_ifs <;> omega
      cases hstep with
      | other hname =>
        have hno : admits name e = false := by simp [admits, hname]
        rw [hno]
        exact hrest
      | opened =>
        have hlen := hadd (lt_of_le_of_lt hstart (lt_add_of_pos_right _ (P.window_pos name))) hmem'
        dsimp only at hlen
        omega
      | refused hname hopen => exact (hfirst hopen).elim
      | counted hname hopen => exact (hfirst hopen).elim

omit [AddCommMonoid T] [IsOrderedCancelAddMonoid T] [Sub T] [OrderedSub T] in
/-- The calls up to a moment come first. -/
theorem exists_split (hsorted : calls.Pairwise fun c c' => c.now ≤ c'.now) {early : T → Prop}
    (hearly : ∀ t t', t ≤ t' → early t' → early t) :
    ∃ l l', calls = l ++ l' ∧ (∀ c ∈ l, early c.now) ∧ ∀ c ∈ l', ¬early c.now := by
  induction calls with
  | nil => exact ⟨[], [], rfl, by simp, by simp⟩
  | cons c calls ih =>
    obtain ⟨hle, hsorted⟩ := List.pairwise_cons.1 hsorted
    by_cases h : early c.now
    · obtain ⟨l, l', rfl, hl, hl'⟩ := ih hsorted
      exact ⟨c :: l, l', rfl, List.forall_mem_cons.2 ⟨h, hl⟩, hl'⟩
    · exact ⟨[], c :: calls, rfl, by simp,
        List.forall_mem_cons.2 ⟨h, fun c' hc' hc => h (hearly _ _ (hle c' hc') hc)⟩⟩

/-- At most `2 * limit` of the admitted calls lie in any interval as long as a window, its ends
included. -/
theorem countP_interval_le [ExistsAddOfLE T]
    (hsorted : calls.Pairwise fun c c' => c.now ≤ c'.now) (t : T) :
    (history P b calls).countP
        (fun d => admits name d && decide (t ≤ d.now ∧ d.now ≤ t + P.window_seconds name)) ≤
      2 * P.limit name := by
  obtain ⟨early, rest, rfl, hearly, hrest⟩ := exists_split hsorted
    fun _ t' => @lt_of_le_of_lt _ _ _ t' t
  have hsorted' := (List.pairwise_append.1 hsorted).2.1
  obtain ⟨inside, late, rfl, hinside, hlate⟩ := exists_split hsorted'
    fun _ t' => @le_trans _ _ _ t' (t + P.window_seconds name)
  have hnone : ∀ (b : InMemoryRateLimiter T) (l : List (RateCall T)),
      (∀ c ∈ l, ¬(t ≤ c.now ∧ c.now ≤ t + P.window_seconds name)) →
      (history P b l).countP
        (fun d => admits name d && decide (t ≤ d.now ∧ d.now ≤ t + P.window_seconds name)) = 0 := by
    intro b l hl
    refine List.countP_eq_zero.2 fun d hd => ?_
    have hout := hl _ (call_of_mem_history hd)
    simp [hout]
  have hearly' := hnone b early fun c hc hin => absurd (hearly c hc) (not_lt_of_ge hin.1)
  have hlate' := hnone (after P (after P b early) inside) late fun c hc hin => hlate c hc hin.2
  have hmem : ∀ c ∈ inside, t ≤ c.now ∧ c.now ≤ t + P.window_seconds name := fun c hc =>
    ⟨le_of_not_gt (hrest c (List.mem_append_left _ hc)), hinside c hc⟩
  have hfew := countP_admits_le_two_mul (b := after P b early)
    (List.pairwise_append.1 hsorted').1 hmem
  have hmono := List.countP_mono_left (l := history P (after P b early) inside)
    (p := fun d => admits name d && decide (t ≤ d.now ∧ d.now ≤ t + P.window_seconds name))
    (q := admits name) fun d _ hd => (Bool.and_eq_true_iff.1 hd).1
  rw [history_append, history_append, List.countP_append, List.countP_append, hearly', hlate']
  omega

omit [IsOrderedCancelAddMonoid T] [OrderedSub T] in
/-- One more call. -/
theorem after_concat (c : RateCall T) :
    after P b (calls ++ [c]) = ((after P b calls).decision P c).2 := by
  rw [after, after, List.foldl_append, List.foldl_cons, List.foldl_nil]

variable (P name) in
omit [IsOrderedCancelAddMonoid T] [OrderedSub T] in
/-- Where a new limiter was called before, the present window was opened by one of the calls, or is
the first one, and its calls were admitted in it. -/
theorem count_le (hsorted : calls.Pairwise fun c c' => c.now ≤ c'.now)
    (hnonneg : ∀ c ∈ calls, 0 ≤ c.now) :
    (((after P ∅ calls).bucket name).1 = 0 ∨
        ∃ c ∈ calls, c.now = ((after P ∅ calls).bucket name).1) ∧
      ((after P ∅ calls).bucket name).2 ≤ (history P ∅ calls).countP
        (fun d => admits name d && decide (((after P ∅ calls).bucket name).1 ≤ d.now)) := by
  induction calls using List.reverseRecOn with
  | nil => exact ⟨.inl rfl, Nat.zero_le _⟩
  | append_singleton calls c ih =>
    obtain ⟨hsorted, -, hle⟩ := List.pairwise_append.1 hsorted
    obtain ⟨hstart, hcount⟩ := ih hsorted fun c' hc' => hnonneg c' (List.mem_append_left _ hc')
    -- The window that is open now opened at a call before this one.
    have hnow : ((after P ∅ calls).bucket name).1 ≤ ((after P ∅ calls).decision P c).1.now := by
      rcases hstart with hzero | ⟨c', hc', heq⟩
      · rw [hzero]
        exact hnonneg c (List.mem_append_right _ (List.mem_singleton_self c))
      · rw [← heq]
        exact hle c' hc' c (List.mem_singleton_self c)
    have hmem : ∀ {s : T}, (∃ c' ∈ calls, c'.now = s) → ∃ c' ∈ calls ++ [c], c'.now = s :=
      fun ⟨c', hc', heq⟩ => ⟨c', List.mem_append_left _ hc', heq⟩
    have hlast : ∃ c' ∈ calls ++ [c], c'.now = ((after P ∅ calls).decision P c).1.now :=
      ⟨c, List.mem_append_right _ (List.mem_singleton_self c), rfl⟩
    have hstep := checked P (after P ∅ calls) c name
    rw [after_concat, history_append, List.countP_append, history, history, List.countP_singleton]
    generalize ((after P ∅ calls).decision P c).1 = e at hnow hlast hstep ⊢
    generalize (after P ∅ calls).bucket name = v at hstart hcount hnow hstep ⊢
    generalize (((after P ∅ calls).decision P c).2).bucket name = v' at hstep ⊢
    cases hstep with
    | other | refused => exact ⟨hstart.imp id hmem, by omega⟩
    | opened hname hopen hadmitted hopened =>
      refine ⟨.inr hlast, ?_⟩
      have hself : (admits name e && decide (e.now ≤ e.now)) = true := by
        simp [admits, hname, hadmitted]
      rw [hself, if_pos rfl]
      omega
    | @counted start count _ hname hopen hlt hadmitted hopened =>
      refine ⟨hstart.imp id hmem, ?_⟩
      dsimp only at hcount ⊢
      have hself : (admits name e && decide (start ≤ e.now)) = true := by
        simp [admits, hname, hadmitted, hnow]
      rw [hself, if_pos rfl]
      omega

/-- A call is refused only if `limit` calls were admitted less than a window's length before. -/
theorem limit_le_of_refused (hsorted : calls.Pairwise fun c c' => c.now ≤ c'.now)
    (hnonneg : ∀ c ∈ calls, 0 ≤ c.now) {c : RateCall T}
    (hrefused : ((after P ∅ calls).decision P c).1.admitted = false) :
    P.limit c.name ≤ (history P ∅ calls).countP
      (fun d => admits c.name d && decide (c.now < d.now + P.window_seconds c.name)) := by
  obtain ⟨-, hcount⟩ := count_le P c.name hsorted hnonneg
  have hstep := checked P (after P ∅ calls) c c.name
  have hcall : ((after P ∅ calls).decision P c).1.toRateCall = c := rfl
  generalize ((after P ∅ calls).decision P c).1 = e at hrefused hstep hcall
  generalize (after P ∅ calls).bucket c.name = v at hcount hstep
  generalize (((after P ∅ calls).decision P c).2).bucket c.name = v' at hstep
  cases hstep with
  | other hname => exact absurd (congrArg RateCall.name hcall) hname
  | opened hname hopen hadmitted => simp [hadmitted] at hrefused
  | counted hname hopen hlt hadmitted => simp [hadmitted] at hrefused
  | @refused start count _ hname hopen hfull =>
    refine (hfull.trans hcount).trans (List.countP_mono_left fun d _ hd => ?_)
    obtain ⟨hadmits, hle⟩ := Bool.and_eq_true_iff.1 hd
    have hlt : c.now < start + P.window_seconds c.name := by
      have hopen' : e.now - start < P.window_seconds c.name := lt_of_not_ge hopen
      calc c.now = e.now := by rw [← hcall]
        _ ≤ e.now - start + start := le_tsub_add
        _ < P.window_seconds c.name + start := add_lt_add_left hopen' _
        _ = start + P.window_seconds c.name := add_comm _ _
    rw [hadmits, Bool.true_and, decide_eq_true_eq]
    exact hlt.trans_le (add_le_add_left (of_decide_eq_true hle) _)

/-- The rate limiter over any calls of a new one: from one opening of a window to the next, and in
any interval as long as a window, the admitted calls are bounded; a call is refused only where the
window before it is full; and the decisions for a name depend only on the calls for it. -/
theorem fixed_windows [ExistsAddOfLE T] (P : RatePolicy T) (calls : List (RateCall T))
    (hsorted : calls.Pairwise fun c c' => c.now ≤ c'.now) (hnonneg : ∀ c ∈ calls, 0 ≤ c.now)
    (name : String × String) :
    (∀ early inside late, history P ∅ calls = early ++ inside ++ late →
      (∀ d ∈ inside.tail, opens name d = false) →
        inside.countP (admits name) ≤ P.limit name) ∧
    (∀ t, (history P ∅ calls).countP
        (fun d => admits name d && decide (t ≤ d.now ∧ d.now < t + P.window_seconds name)) ≤
      2 * P.limit name) ∧
    (∀ early d late, history P ∅ calls = early ++ d :: late → d.name = name →
      d.admitted = false → P.limit name ≤ early.countP
        (fun d' => admits name d' && decide (d.now < d'.now + P.window_seconds name))) ∧
    (history P ∅ calls).filter (fun d => d.name == name) =
      history P ∅ (calls.filter fun c => c.name == name) := by
  refine ⟨fun early inside late heq hnone => ?_, fun t => ?_,
    fun early d late heq hname hrefused => ?_, filter_history rfl calls⟩
  · obtain ⟨cs, cs', rfl, hcs, -⟩ := exists_of_history_eq_append heq
    obtain ⟨early', inside', rfl, hearly, rfl⟩ := exists_of_history_eq_append hcs
    exact countP_admits_le_limit hnone
  · refine (List.countP_mono_left fun d _ hd => ?_).trans (countP_interval_le hsorted t)
    obtain ⟨hadmits, hin⟩ := Bool.and_eq_true_iff.1 hd
    obtain ⟨hle, hlt⟩ := of_decide_eq_true hin
    exact Bool.and_eq_true_iff.2 ⟨hadmits, decide_eq_true ⟨hle, hlt.le⟩⟩
  · obtain ⟨cs, cs', rfl, rfl, hcs'⟩ := exists_of_history_eq_append heq
    cases cs' with
    | nil => cases hcs'
    | cons c cs' =>
      obtain ⟨rfl, -⟩ := List.cons.inj hcs'
      subst hname
      exact limit_le_of_refused (List.pairwise_append.1 hsorted).1
        (fun c' hc' => hnonneg c' (List.mem_append_left _ hc')) hrefused

end

/-- Two calls in a minute. -/
def twoPerMinute : RatePolicy ℚ where
  limit _ := 2
  window_seconds _ := 60
  limit_pos _ := by norm_num
  window_pos _ := by norm_num

/-- Calls for one name in two windows, and one for another name. -/
def sevenCalls : List (RateCall ℚ) :=
  [⟨"upload", "10.0.0.1", 1 / 2⟩, ⟨"upload", "10.0.0.2", 1 / 2⟩, ⟨"upload", "10.0.0.1", 59⟩,
    ⟨"upload", "10.0.0.1", 119 / 2⟩, ⟨"upload", "10.0.0.1", 60⟩, ⟨"upload", "10.0.0.1", 61⟩,
    ⟨"upload", "10.0.0.1", 62⟩]

/-- Of the calls for the name one is refused in each window, and three are admitted within four
seconds. -/
theorem fixed_windows_seven :
    (history twoPerMinute ∅ sevenCalls).map RateDecision.admitted =
      [true, true, true, false, true, true, false] ∧
    (history twoPerMinute ∅ sevenCalls).countP
      (fun d => RateDecision.admits ("upload", "10.0.0.1") d &&
        decide (58 ≤ d.now ∧ d.now < 58 + 60)) ≤ 2 * 2 := by
  refine ⟨by decide +kernel, (fixed_windows twoPerMinute sevenCalls ?_ ?_ _).2.1 58⟩
  · norm_num [sevenCalls]
  · norm_num [sevenCalls]

end InMemoryRateLimiter

end DropRoom
