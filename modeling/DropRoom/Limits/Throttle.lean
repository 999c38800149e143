import DropRoom.App.Checks
import DropRoom.Limits.Limiter

/-!
# The throttle of `join_by_code`

The bucket that counts a `join_by_code` request is named by `client_ip`, which believes the header
`X-Forwarded-For`. The requests that are counted under one name are throttled as
`InMemoryRateLimiter` says; a peer that changes the header from request to request is not.
-/

namespace DropRoom

open Effect Store Prog

/-- The bucket of a name. -/
def Buckets.bucket (b : Buckets) (name : String × String) : Time × ℕ :=
  InMemoryRateLimiter.bucket (T := ℕ) b name

namespace throttle

/-- The request gets past the limiter. -/
def Passes (env : Env) (request : Request) (w : World) : Prop :=
  ∃ w', server.Runs 0 (rooms.joinByCodeChecks env request) w (.ok ()) w'

/-- The requests that got past the limiter, with the times of their arrival, after a history of
`join_by_code` requests from any peers, while in between anything may happen that counts nothing in
their buckets. -/
inductive Arrivals (env : Env) : World → List (Time × Request) → Prop
  | start (w : World) : Arrivals env w []
  | elsewhere {w w' log} (h : Arrivals env w log) (hnow : w.monotonic ≤ w'.monotonic)
      (hsame : ∀ key, w'.buckets.bucket ("join_by_code", key) =
        w.buckets.bucket ("join_by_code", key)) : Arrivals env w' log
  | passed {w w' log p room_code body request r} (h : Arrivals env w log)
      (hpass : Passes env request w)
      (hr : server.Runs p (rooms.joinByCode env room_code body request) w r w') :
      Arrivals env w' (log ++ [(w.monotonic, request)])
  | stopped {w w' log p room_code body request r} (h : Arrivals env w log)
      (hstop : ¬Passes env request w)
      (hr : server.Runs p (rooms.joinByCode env room_code body request) w r w') :
      Arrivals env w' log

/-! ## What a request counts -/

/-- A command that counts nothing. -/
def Cmd.CountsNothing : Cmd → Prop
  | .checkRate .. => False
  | _ => True

/-- A join counts nothing. -/
theorem countsNothing_joinRoom (env : Env) (room : Room) (name password owner_token) :
    (roomService.joinRoom env room name password owner_token).Only Cmd.CountsNothing := by
  have hexpired : (hasExpired room.expires_at).Only Cmd.CountsNothing :=
    only_bind ((only_issue _).2 trivial) fun _ => only_pure _
  have hrole : (roomService.resolveRole env room password owner_token).Only Cmd.CountsNothing := by
    unfold roomService.resolveRole
    split
    · exact only_bind (only_hashToken _) fun _ => only_bind (only_require _ _) fun _ => only_pure _
    · split
      · split
        · exact only_bind (only_require _ _) fun _ => only_pure _
        · exact only_raise _
      · exact only_pure _
  refine only_bind ?_ fun _ => only_bind hrole fun role => ?_
  · refine only_bind (only_require _ _) fun _ => only_bind (only_require _ _) fun _ => ?_
    exact only_bind hexpired fun _ => only_require _ _
  · refine only_bind ((only_issue _).2 trivial) fun ok => only_bind (only_require _ _) fun _ => ?_
    refine only_bind ((only_issue _).2 trivial) fun token => only_bind ?_ fun _ => only_pure _
    refine only_bind ((only_issue _).2 trivial) fun now => ?_
    exact only_bind ((only_issue _).2 trivial) fun _ => only_pure _

/-- Neither does the renewal of a session. -/
theorem countsNothing_establishSession (env : Env) (room : Room) (join) (token) :
    (rooms.establishSession env room join token).Only Cmd.CountsNothing := by
  refine only_bind ?_ fun existing => ?_
  · unfold rooms.existingSession
    split
    · refine only_bind ?_ fun _ => only_pure _
      refine only_bind ((only_issue _).2 trivial) fun now => ?_
      exact only_bind ((only_issue _).2 trivial) fun rows => only_scalarOneOrNone _
    · exact only_pure _
  · split
    · refine only_bind ((only_issue _).2 trivial) fun now => ?_
      refine only_bind ((only_issue _).2 trivial) fun now' => only_bind ?_ fun _ => only_pure _
      unfold sessionRepository.flush
      split
      · exact only_pure _
      · exact only_bind ((only_issue _).2 trivial) fun _ => only_require _ _
    · exact only_bind (countsNothing_joinRoom env room _ _ _) fun _ => only_pure _

/-- Once past the limiter, `join_by_code` counts nothing. -/
theorem countsNothing_joinFound (env : Env) (room_code : String) (body : rooms.JoinRequest)
    (request : Request) : (rooms.joinFound env room_code body request).Only Cmd.CountsNothing := by
  refine only_bind ?_ fun found => ?_
  · exact only_bind ((only_issue _).2 trivial) fun rows => only_scalarOneOrNone _
  · split
    · refine only_bind (only_tryCatch (countsNothing_establishSession env _ _ _)
        fun e => only_raise _) fun _ => ?_
      exact only_bind ((only_issue _).2 trivial) fun _ => only_pure _
    · exact only_raise _

/-- A command that counts nothing leaves the buckets and the clock of the limiter alone. -/
theorem Cmd.CountsNothing.answer {c : Cmd} (hc : Cmd.CountsNothing c) {p : ℕ} {w w' : World} {x}
    (h : server.Answer p c w x w') : w'.buckets = w.buckets ∧ w'.monotonic = w.monotonic := by
  cases h with
  | fault h => exact ⟨rfl, rfl⟩
  | exec h =>
    change exec p c w = _ at h
    cases c with
    | sql q =>
      rw [exec, Option.map_eq_some_iff] at h
      obtain ⟨⟨a, db⟩, -, he⟩ := h
      cases he
      exact ⟨rfl, rfl⟩
    | put key data =>
      cases data <;>
      · simp only [exec, Option.some.injEq, Prod.mk.injEq] at h
        rw [← h.2]
        exact ⟨rfl, rfl⟩
    | checkRate scope key limit window => exact hc.elim
    | dequeue =>
      rw [exec] at h
      split at h
      · simp only [Option.some.injEq, Prod.mk.injEq] at h
        rw [← h.2]
        exact ⟨rfl, rfl⟩
      · exact absurd h (Option.some_ne_none _).symm
    | _ =>
      simp only [exec, Option.some.injEq, Prod.mk.injEq] at h
      rw [← h.2]
      exact ⟨rfl, rfl⟩

/-- The buckets and the clock of the limiter are those of `b` and `now`. -/
def Counted (b : Buckets) (now : Time) (w : World) : Prop := w.buckets = b ∧ w.monotonic = now

/-- A program that counts nothing. -/
theorem wp_of_countsNothing {α : Type} {prog : Op α} (h : prog.Only Cmd.CountsNothing) {p : ℕ}
    {w : World} {b : Buckets} {now : Time} (hw : Counted b now w) :
    prog.wp (server.trans p) (fun _ w' => Counted b now w') w := by
  refine (server.wp_iff_runs p prog _ w).2 fun r w' hr => ?_
  refine hr.only (P := Cmd.CountsNothing) (I := Counted b now) (fun c w x w' hc ha hw => ?_) h hw
  obtain ⟨hb, hnow⟩ := hc.answer ha
  exact ⟨hb.trans hw.1, hnow.trans hw.2⟩

/-- A program with its own database session counts what its body does. -/
theorem wp_session {α : Type} {body : Op α} {p : ℕ} {w : World} {b : Buckets} {now : Time}
    (h : body.wp (server.trans p) (fun _ w' => Counted b now w') w) :
    (withSession body).wp (server.trans p) (fun _ w' => Counted b now w') w := by
  refine wp_withSession (server.trans_monotone p) (Prog.wp_mono (server.trans_monotone p) ?_ h)
  intro r w₁ hw₁ x w₂ ha
  have hclose : Cmd.CountsNothing (.sql .rollback) := trivial
  obtain ⟨hb, hnow⟩ := hclose.answer ha
  have hw₂ : Counted b now w₂ := ⟨hb.trans hw₁.1, hnow.trans hw₁.2⟩
  rcases x with e | a
  · exact hw₂
  · exact hw₂

section

variable {env : Env} {room_code : String} {body : rooms.JoinRequest} {request : Request} {p : ℕ}
  {w w' : World} {r : Except Err (SessionRecord × Token × Token)}

/-- A request without a CSRF token is not counted. -/
theorem counted_of_not_csrf (hcsrf : ¬CsrfValid env request)
    (hr : server.Runs p (rooms.joinByCode env room_code body request) w r w') :
    ¬Passes env request w ∧ Counted w.buckets w.monotonic w' := by
  obtain ⟨detail, hcheck⟩ : ∃ detail, validateCsrf env .post request =
      .raise (error .csrfValidationFailed detail) := validateCsrf_of_not hcsrf (by rintro ⟨⟩)
  have hchecks : rooms.joinByCodeChecks env request =
      .raise (error .csrfValidationFailed detail) := by
    rw [rooms.joinByCodeChecks, hcheck]
    rfl
  constructor
  · rintro ⟨w₁, h⟩
    rw [hchecks] at h
    cases h
  · rw [rooms.joinByCode_eq, hchecks] at hr
    have hraise : (.raise (error .csrfValidationFailed detail) :
        Op (SessionRecord × Token × Token)).wp (server.trans p)
        (fun _ w' => Counted w.buckets w.monotonic w') w := ⟨rfl, rfl⟩
    exact (server.wp_iff_runs p _ _ w).1 (wp_session hraise) _ _ hr

/-- Any other request is counted once, and gets past the limiter when it is admitted. -/
theorem counted_of_csrf (hon : env.rate_limit_enabled = true) (hcsrf : CsrfValid env request)
    {y : Bool × Buckets} (hy : w.buckets.check "join_by_code" (clientIp request)
      env.join_by_code_limit (seconds env.rate_limit_window_seconds) w.monotonic = y)
    (hr : server.Runs p (rooms.joinByCode env room_code body request) w r w') :
    (Passes env request w ↔ y.1 = true) ∧ Counted y.2 w.monotonic w' := by
  -- With a valid token the limiter is what is left of the checks.
  have hchecks : rooms.joinByCodeChecks env request = (do
      let ok ← issue (.checkRate "join_by_code" (clientIp request) env.join_by_code_limit
        env.rate_limit_window_seconds)
      Prog.require (ok = true) (error .rateLimited "Too many requests; try again shortly")) := by
    rw [rooms.joinByCodeChecks, validateCsrf_of_valid hcsrf, limiterCheck, if_pos hon]
    rfl
  have hexec : ∀ q, exec q (.checkRate "join_by_code" (clientIp request) env.join_by_code_limit
      env.rate_limit_window_seconds) w = some (.ok y.1, { w with buckets := y.2 }) :=
    fun q => exec_checkRate hy
  -- It has one answer, and no fault comes between.
  have hanswer : ∀ {q x w₁}, server.Answer q (.checkRate "join_by_code" (clientIp request)
      env.join_by_code_limit env.rate_limit_window_seconds) w x w₁ →
      x = .ok y.1 ∧ w₁ = { w with buckets := y.2 } := by
    intro q x w₁ ha
    cases ha with
    | exec hx =>
      have hsame := (hexec q).symm.trans hx
      cases hsame
      exact ⟨rfl, rfl⟩
    | fault hf => exact hf.elim
  constructor
  · rw [Passes, hchecks]
    constructor
    · rintro ⟨w₁, h⟩
      cases h with | call ha hr'
      obtain ⟨rfl, rfl⟩ := hanswer ha
      by_contra hno
      have hstop : (Prog.require (y.1 = true)
          (error .rateLimited "Too many requests; try again shortly") : Op Unit) = .raise _ :=
        Prog.require_neg hno _
      change server.Runs 0 (Prog.require (y.1 = true) _) _ _ _ at hr'
      rw [hstop] at hr'
      cases hr'
    · intro hyes
      have hok : server.Runs 0 (Prog.require (y.1 = true)
          (error .rateLimited "Too many requests; try again shortly")) { w with buckets := y.2 }
          (.ok ()) { w with buckets := y.2 } := by
        rw [Prog.require_pos hyes]
        exact .ret _ _
      exact ⟨_, .call (.exec (hexec 0)) hok⟩
  -- What follows the checks does not count again.
  · rw [rooms.joinByCode_eq, hchecks] at hr
    refine (server.wp_iff_runs p _ _ w).1 (wp_session ?_) _ _ hr
    refine (Prog.wp_bind _ _ _ _).2 ((Prog.wp_bind _ _ _ _).2 ?_)
    refine (wp_issue (server.trans_monotone p) _ _ _).2 fun x w₁ ha => ?_
    obtain ⟨rfl, rfl⟩ := hanswer ha
    refine (Prog.wp_require _ _ _ _).2 ⟨fun _ => ?_, fun _ => ⟨rfl, rfl⟩⟩
    exact wp_of_countsNothing (countsNothing_joinFound _ _ _ _) ⟨rfl, rfl⟩

end

/-! ## Histories -/

/-- The limit and the window of `join_by_code`. -/
def joinPolicy (env : Env) (hlimit : 1 ≤ env.join_by_code_limit)
    (hwindow : 0 < env.rate_limit_window_seconds) : RatePolicy ℕ where
  limit _ := env.join_by_code_limit
  window_seconds _ := seconds env.rate_limit_window_seconds
  limit_pos _ := hlimit
  window_pos _ := Nat.mul_pos hwindow (by decide)

/-- The log of the requests that are counted under one name is what the limiter admits of some calls
for it, the last of them not in the future. -/
def Windowed (P : RatePolicy ℕ) (key : String) (w : World) (log : List (Time × Request)) : Prop :=
  ∃ (b : InMemoryRateLimiter ℕ) (calls : List (RateCall ℕ)),
    (∀ c ∈ calls, c.name = ("join_by_code", key)) ∧
    (calls.Pairwise fun c c' => c.now ≤ c'.now) ∧ (∀ c ∈ calls, c.now ≤ w.monotonic) ∧
    w.buckets.bucket ("join_by_code", key) =
      (InMemoryRateLimiter.after P b calls).bucket ("join_by_code", key) ∧
    (log.filter fun e => clientIp e.2 == key).map Prod.fst =
      ((InMemoryRateLimiter.history P b calls).filter fun d => d.admitted).map fun d => d.now

section

variable {env : Env} {P : RatePolicy ℕ} {key : String} {w w' : World}
  {log : List (Time × Request)} {request : Request} {hlimit : 1 ≤ env.join_by_code_limit}
  {hwindow : 0 < env.rate_limit_window_seconds}

/-- A check leaves the other buckets alone. -/
theorem bucket_check_of_ne (b : Buckets) {name : String × String} (hname : ("join_by_code", key) ≠ name)
    (now : Time) : (b.check "join_by_code" key env.join_by_code_limit
      (seconds env.rate_limit_window_seconds) now).2.bucket name = b.bucket name := by
  have hother : ∀ v : Time × ℕ, Buckets.bucket (b.insert ("join_by_code", key) v) name =
      b.bucket name := by
    intro v
    rw [Buckets.bucket, InMemoryRateLimiter.bucket, AList.lookup_insert_ne (Ne.symm hname)]
    rfl
  rw [InMemoryRateLimiter.check_eq, InMemoryRateLimiter.check_of_bucket rfl]
  split_ifs
  · exact hother _
  · rfl
  · exact hother _

/-- A request that is not counted under the name. -/
theorem Windowed.keep (h : Windowed P key w log) (hnow : w.monotonic ≤ w'.monotonic)
    (hb : w'.buckets.bucket ("join_by_code", key) = w.buckets.bucket ("join_by_code", key)) :
    Windowed P key w' log := by
  obtain ⟨b, calls, hname, hsorted, hle, hbucket, hlog⟩ := h
  exact ⟨b, calls, hname, hsorted, fun c hc => (hle c hc).trans hnow, hb.trans hbucket, hlog⟩

/-- A request that is counted under the name. -/
theorem Windowed.count (h : Windowed (joinPolicy env hlimit hwindow) key w log) {y : Bool × Buckets}
    (hy : w.buckets.check "join_by_code" key env.join_by_code_limit
      (seconds env.rate_limit_window_seconds) w.monotonic = y) (hw' : Counted y.2 w.monotonic w')
    (hkey : clientIp request = key) :
    Windowed (joinPolicy env hlimit hwindow) key w'
      (log ++ if y.1 then [(w.monotonic, request)] else []) := by
  obtain ⟨b, calls, hname, hsorted, hle, hbucket, hlog⟩ := h
  obtain ⟨call, hcall⟩ : ∃ call : RateCall ℕ, call = ⟨"join_by_code", key, w.monotonic⟩ := ⟨_, rfl⟩
  have hcall' : call.name = ("join_by_code", key) := by rw [hcall, RateCall.name]
  have hcheck : InMemoryRateLimiter.check (T := ℕ) w.buckets call.scope call.key
      ((joinPolicy env hlimit hwindow).limit call.name)
      ((joinPolicy env hlimit hwindow).window_seconds call.name) call.now = y := by
    rw [hcall, ← hy, InMemoryRateLimiter.check_eq]
    rfl
  -- The limiter decides as one does that was asked only for this name.
  have hagree : InMemoryRateLimiter.bucket w.buckets call.name =
      (InMemoryRateLimiter.after (joinPolicy env hlimit hwindow) b calls).bucket call.name := by
    rw [hcall]
    exact hbucket
  obtain ⟨hdecision, hafter⟩ :=
    InMemoryRateLimiter.decision_congr (joinPolicy env hlimit hwindow) hagree
  rw [InMemoryRateLimiter.decision_snd, hcheck] at hafter
  have hadmitted : ((InMemoryRateLimiter.after (joinPolicy env hlimit hwindow) b calls).decision
      (joinPolicy env hlimit hwindow) call).1.admitted = y.1 := by
    rw [← hdecision, InMemoryRateLimiter.decision_admitted, hcheck]
  -- The call is one more of this name, the latest of them, and logged if it was admitted.
  refine ⟨b, calls ++ [call], ?_, ?_, ?_, ?_, ?_⟩
  · intro c hc
    rcases List.mem_append.1 hc with hc | hc
    · exact hname c hc
    · rw [List.mem_singleton.1 hc, hcall]
      rfl
  · refine List.pairwise_append.2 ⟨hsorted, List.pairwise_singleton _ _, fun c hc c' hc' => ?_⟩
    rw [List.mem_singleton.1 hc', hcall]
    exact hle c hc
  · intro c hc
    rw [hw'.2]
    rcases List.mem_append.1 hc with hc | hc
    · exact hle c hc
    · rw [List.mem_singleton.1 hc, hcall]
  · rw [InMemoryRateLimiter.after_concat, hw'.1]
    rwa [hcall'] at hafter
  · rw [InMemoryRateLimiter.history_append, List.filter_append, List.filter_append, List.map_append,
      List.map_append, hlog]
    refine congrArg _ ?_
    simp only [InMemoryRateLimiter.history, List.filter_cons, List.filter_nil, hadmitted]
    cases y.1 with
    | false => rfl
    | true =>
      rw [if_pos rfl, if_pos rfl, List.filter_cons, if_pos (beq_iff_eq.2 hkey), List.map_cons,
        List.map_cons, InMemoryRateLimiter.decision_now, hcall]
      rfl

/-- Every history is windowed. -/
theorem Arrivals.windowed (hon : env.rate_limit_enabled = true) (h : Arrivals env w log) :
    Windowed (joinPolicy env hlimit hwindow) key w log := by
  induction h with
  | start w => exact ⟨w.buckets, [], by simp, .nil, by simp, rfl, rfl⟩
  | elsewhere h hnow hsame ih => exact ih.keep hnow (hsame key)
  -- A request of another client leaves the bucket of this one.
  | @passed w w' log p room_code body request r h hpass hr ih =>
    by_cases hcsrf : CsrfValid env request
    · obtain ⟨y, hy⟩ : ∃ y, w.buckets.check "join_by_code" (clientIp request)
        env.join_by_code_limit (seconds env.rate_limit_window_seconds) w.monotonic = y := ⟨_, rfl⟩
      obtain ⟨hiff, hw'⟩ := counted_of_csrf hon hcsrf hy hr
      have hyes := hiff.1 hpass
      by_cases hkey : clientIp request = key
      · subst hkey
        have hcount := ih.count hy hw' rfl
        rwa [hyes] at hcount
      · have hkeep : Windowed (joinPolicy env hlimit hwindow) key w' log := by
          refine ih.keep hw'.2.ge ?_
          rw [hw'.1, ← hy]
          exact bucket_check_of_ne _ (fun h => hkey (Prod.mk.inj h).2) _
        obtain ⟨b, calls, hname, hsorted, hle, hbucket, hlog⟩ := hkeep
        refine ⟨b, calls, hname, hsorted, hle, hbucket, ?_⟩
        rw [← hlog, List.filter_append]
        simp [hkey]
    · exact absurd hpass (counted_of_not_csrf hcsrf hr).1
  -- A request that is stopped is either counted and refused, or stopped before the limiter.
  | @stopped w w' log p room_code body request r h hstop hr ih =>
    by_cases hcsrf : CsrfValid env request
    · obtain ⟨y, hy⟩ : ∃ y, w.buckets.check "join_by_code" (clientIp request)
        env.join_by_code_limit (seconds env.rate_limit_window_seconds) w.monotonic = y := ⟨_, rfl⟩
      obtain ⟨hiff, hw'⟩ := counted_of_csrf hon hcsrf hy hr
      have hno : y.1 = false := Bool.eq_false_iff.2 fun hyes => hstop (hiff.2 hyes)
      by_cases hkey : clientIp request = key
      · subst hkey
        have hcount := ih.count hy hw' rfl
        rw [hno] at hcount
        simpa using hcount
      · refine ih.keep hw'.2.ge ?_
        rw [hw'.1, ← hy]
        exact bucket_check_of_ne _ (fun h => hkey (Prod.mk.inj h).2) _
    · obtain ⟨-, hw'⟩ := counted_of_not_csrf hcsrf hr
      exact ih.keep hw'.2.ge (by rw [hw'.1])

end

end throttle

open throttle

/-- In every history of `join_by_code` requests: if the requests of a peer are all counted under one
name, at most `2 * join_by_code_limit` of them get past the limiter in any interval as long as the
window, whatever else they carry. -/
theorem join_by_code_throttled {env : Env} (hon : env.rate_limit_enabled = true)
    (hlimit : 1 ≤ env.join_by_code_limit) (hwindow : 0 < env.rate_limit_window_seconds)
    {w : World} {log : List (Time × Request)} (h : Arrivals env w log) {host : Option String}
    {key : String} (hkey : ∀ e ∈ log, e.2.client_host = host → clientIp e.2 = key) (t : Time) :
    (log.filter fun e => decide (e.2.client_host = host ∧ t ≤ e.1 ∧
      e.1 ≤ t + seconds env.rate_limit_window_seconds)).length ≤ 2 * env.join_by_code_limit := by
  have hwindowed : Windowed (joinPolicy env hlimit hwindow) key w log := h.windowed hon
  obtain ⟨b, calls, hcalls, hsorted, -, -, hlog⟩ := hwindowed
  have hbound := @InMemoryRateLimiter.countP_interval_le _ _ _ _ _ _ (joinPolicy env hlimit hwindow)
    b calls ("join_by_code", key) _ hsorted t
  refine Nat.le_trans ?_ hbound
  calc (log.filter fun e => decide (e.2.client_host = host ∧ t ≤ e.1 ∧
        e.1 ≤ t + seconds env.rate_limit_window_seconds)).length
      ≤ ((log.filter fun e => clientIp e.2 == key).map Prod.fst).countP
          (fun s => decide (t ≤ s ∧ s ≤ t + seconds env.rate_limit_window_seconds)) := by
        rw [List.countP_map, List.countP_filter, ← List.countP_eq_length_filter]
        refine List.countP_mono_left fun e he hpeer => ?_
        rw [decide_eq_true_eq] at hpeer
        have hname := hkey e he hpeer.1
        simpa [hname] using hpeer.2
    _ = (InMemoryRateLimiter.history (joinPolicy env hlimit hwindow) b calls).countP (fun d =>
          decide (t ≤ d.now ∧ d.now ≤ t + seconds env.rate_limit_window_seconds) &&
            d.admitted) := by
        rw [hlog, List.countP_map, List.countP_filter]
        rfl
    _ ≤ _ := by
        refine List.countP_mono_left fun d hd hin => ?_
        have hname : d.name = ("join_by_code", key) :=
          hcalls _ (InMemoryRateLimiter.call_of_mem_history hd)
        obtain ⟨hin, hadmitted⟩ := Bool.and_eq_true_iff.1 hin
        refine Bool.and_eq_true_iff.2 ⟨?_, decide_eq_true (of_decide_eq_true hin)⟩
        rw [RateDecision.admits, hname, hadmitted, beq_self_eq_true]
        rfl

namespace throttle

/-- The name that the `n`-th request of a peer claims to come from. -/
def otherName (n : ℕ) : String := String.ofList (List.replicate (n + 1) '1')

/-- The `n`-th request of the peer `h`, under a name of its own. -/
def spoofed (n : ℕ) : Request := ⟨none, some "x", some "x", some (otherName n), some "h"⟩

/-- The limiter sees the name that is claimed. -/
theorem clientIp_spoofed (n : ℕ) : clientIp (spoofed n) = otherName n := by
  have hne : otherName n ≠ "" := by
    intro h
    have hlist := congrArg String.toList h
    simp [otherName] at hlist
  have htruthy : roomService.truthy (some (otherName n)) = some (otherName n) := if_neg hne
  have hspace : isSpace '1' = false := by decide
  simp only [clientIp, spoofed, htruthy, strip]
  simp [otherName, hspace]

/-- The names differ. -/
theorem otherName_injective {m n : ℕ} (h : otherName m = otherName n) : m = n := by
  have hlist := congrArg (fun s => s.toList.length) h
  simpa [otherName] using hlist

/-- Any number of requests of one peer get past the limiter at one moment. -/
theorem exists_spoofed (n : ℕ) : ∃ w, Arrivals .plain w ((List.range n).map fun m => (0, spoofed m)) ∧
    w.db.Free ∧ w.monotonic = 0 ∧
    ∀ m, n ≤ m → w.buckets.bucket ("join_by_code", otherName m) = (0, 0) := by
  induction n with
  | zero =>
    refine ⟨.initial, .start _, ?_, rfl, fun m _ => rfl⟩
    exact free_of_committedRows fun t => ⟨[], rfl⟩
  | succ n ih =>
    obtain ⟨w, h, hfree, hnow, hb⟩ := ih
    obtain ⟨r, w', hr⟩ := calm_exists_runs (@only_joinByCode .plain (spoofed n) "C" ⟨none, none, none⟩)
      (by simp [Route.kinds]) (hfree.alone 0)
    obtain ⟨y, hy⟩ : ∃ y, w.buckets.check "join_by_code" (clientIp (spoofed n))
      Env.plain.join_by_code_limit (seconds Env.plain.rate_limit_window_seconds) w.monotonic = y :=
      ⟨_, rfl⟩
    have hcsrf : CsrfValid .plain (spoofed n) := ⟨"x", rfl, rfl, rfl⟩
    obtain ⟨hiff, hw'⟩ := counted_of_csrf rfl hcsrf hy (server_of_calm hr)
    have hyes : y.1 = true := by
      have hbucket : InMemoryRateLimiter.bucket (T := ℕ) w.buckets
          ("join_by_code", clientIp (spoofed n)) = (0, 0) := by
        rw [clientIp_spoofed]
        exact hb n (Nat.le_refl n)
      rw [← hy, InMemoryRateLimiter.check_eq, InMemoryRateLimiter.check_of_bucket hbucket, hnow,
        if_neg (by decide), if_neg (by decide)]
    refine ⟨w', ?_, ?_, hw'.2.trans hnow, fun m hm => ?_⟩
    · have hpassed := h.passed (hiff.2 hyes) (server_of_calm hr)
      rwa [hnow, ← List.map_singleton (f := fun m => (0, spoofed m)), ← List.map_append,
        ← List.range_succ] at hpassed
    · exact free_of_withSession calm_faithful hr (hfree.alone 0)
    · rw [hw'.1, ← hy]
      refine (bucket_check_of_ne _ (fun hname => ?_) _).trans (hb m (by omega))
      have hsame := (Prod.mk.inj hname).2
      rw [clientIp_spoofed] at hsame
      have hmn := otherName_injective hsame
      omega

end throttle

/-- A peer that changes `X-Forwarded-For` gets more requests past the limiter at one moment than two
windows admit. -/
theorem spoofed_requests_not_throttled :
    ∃ w log, Arrivals .plain w log ∧ 2 * Env.plain.join_by_code_limit <
      (log.filter fun e => decide (e.2.client_host = some "h" ∧ 0 ≤ e.1 ∧
        e.1 ≤ 0 + seconds Env.plain.rate_limit_window_seconds)).length := by
  obtain ⟨w, h, -⟩ := exists_spoofed 13
  refine ⟨w, _, h, ?_⟩
  rw [List.filter_eq_self.2]
  · decide
  · intro e he
    obtain ⟨m, -, rfl⟩ := List.mem_map.1 he
    rw [decide_eq_true_eq]
    exact ⟨rfl, Nat.zero_le _, Nat.zero_le _⟩

namespace throttle

/-- A server that admits two requests in a window. -/
def strict : Env := { Env.plain with join_by_code_limit := 2 }

/-- A server without rooms, at a moment, with one window of a peer. -/
def counter (start : Time) (count : ℕ) (monotonic : Time) : World :=
  { World.initial with
    buckets := AList.insert ("join_by_code", otherName 0) (start, count) ∅
    monotonic }

/-- A peer guesses a code, under the same name each time. -/
def guessing : Op (SessionRecord × Token × Token) :=
  rooms.joinByCode strict "C" ⟨none, none, none⟩ (spoofed 0)

/-- What a guess makes of the window. -/
theorem check_counter (start now : Time) (count : ℕ) :
    (counter start count now).buckets.check "join_by_code" (otherName 0) strict.join_by_code_limit
      (seconds strict.rate_limit_window_seconds) now =
    if seconds strict.rate_limit_window_seconds ≤ now - start then
      (true, (counter now 1 now).buckets)
    else if strict.join_by_code_limit ≤ count then (false, (counter start count now).buckets)
    else (true, (counter start (count + 1) now).buckets) := by
  have hinsert : ∀ v : Time × ℕ, AList.insert ("join_by_code", otherName 0) v
      (counter start count now).buckets = AList.insert ("join_by_code", otherName 0) v ∅ :=
    fun v => AList.insert_insert _
  have hbucket : InMemoryRateLimiter.bucket (T := ℕ) (counter start count now).buckets
      ("join_by_code", otherName 0) = (start, count) :=
    InMemoryRateLimiter.bucket_insert (T := ℕ) ∅ _ _
  rw [InMemoryRateLimiter.check_eq, InMemoryRateLimiter.check_of_bucket hbucket, hinsert, hinsert]
  rfl

/-- One more guess, which the limiter admits or not. -/
theorem Arrivals.guess {start now : Time} {count : ℕ} {log : List (Time × Request)}
    (h : Arrivals strict (counter start count now) log) {b : Buckets} {a : Bool}
    (hy : (counter start count now).buckets.check "join_by_code" (otherName 0)
      strict.join_by_code_limit (seconds strict.rate_limit_window_seconds) now = (a, b)) :
    Arrivals strict { counter start count now with buckets := b }
      (log ++ if a then [(now, spoofed 0)] else []) := by
  have hfree : (counter start count now).db.Free := free_of_committedRows fun t => ⟨[], rfl⟩
  obtain ⟨r, w', hr⟩ := calm_exists_runs
    (@only_joinByCode strict (spoofed 0) "C" ⟨none, none, none⟩) (by simp [Route.kinds])
    (hfree.alone 0)
  have hcsrf : CsrfValid strict (spoofed 0) := ⟨"x", rfl, rfl, rfl⟩
  rw [← clientIp_spoofed 0] at hy
  obtain ⟨hiff, hbuckets, hnow⟩ := counted_of_csrf rfl hcsrf hy (server_of_calm hr)
  have hnext : Arrivals strict w' (log ++ if a then [(now, spoofed 0)] else []) := by
    cases a with
    | true => exact h.passed (hiff.2 rfl) (server_of_calm hr)
    | false =>
      rw [if_neg Bool.false_ne_true, List.append_nil]
      exact h.stopped (fun hpass => Bool.false_ne_true (hiff.1 hpass)) (server_of_calm hr)
  exact hnext.elsewhere (Nat.le_of_eq hnow) fun key => by rw [hbuckets]

/-- A pause of a window's time. -/
theorem Arrivals.rest {start now : Time} {count : ℕ} {log : List (Time × Request)}
    (h : Arrivals strict (counter start count now) log) :
    Arrivals strict (counter start count (now + seconds strict.rate_limit_window_seconds)) log :=
  h.elsewhere (Nat.le_add_right _ _) fun _ => rfl

end throttle

/-- Of three guesses in one window and three in the next one, the third of each is refused, and no
more than two for each window get past the limiter. -/
theorem join_by_code_throttled_six :
    (∃ w, calm.Runs 0 guessing (counter 0 2 0)
      (.error (error .rateLimited "Too many requests; try again shortly")) w) ∧
    ∃ w log, Arrivals strict w log ∧ log.map Prod.fst = [0, 0, seconds 60, seconds 60] ∧
      (log.filter fun e => decide (e.2.client_host = some "h" ∧ 0 ≤ e.1 ∧
        e.1 ≤ 0 + seconds strict.rate_limit_window_seconds)).length ≤ 2 * 2 := by
  have hrefused := calm.runs_error 0 guessing (counter 0 2 0)
    (e := error .rateLimited "Too many requests; try again shortly") (by decide)
  have hcounted : ∀ {start now count log}, Arrivals strict (counter start count now) log →
      now - start < seconds strict.rate_limit_window_seconds → count < strict.join_by_code_limit →
      Arrivals strict (counter start (count + 1) now) (log ++ [(now, spoofed 0)]) := by
    intro start now count log h hopen hlt
    refine h.guess (a := true) ?_
    rw [check_counter, if_neg (Nat.not_le.2 hopen), if_neg (Nat.not_le.2 hlt)]
    rfl
  have hopened : ∀ {start now count log}, Arrivals strict (counter start count now) log →
      seconds strict.rate_limit_window_seconds ≤ now - start →
      Arrivals strict (counter now 1 now) (log ++ [(now, spoofed 0)]) := by
    intro start now count log h hopen
    refine h.guess (a := true) ?_
    rw [check_counter, if_pos hopen]
    rfl
  have hstopped : ∀ {start now log}, Arrivals strict (counter start 2 now) log →
      now - start < seconds strict.rate_limit_window_seconds →
      Arrivals strict (counter start 2 now) log := by
    intro start now log h hopen
    have hfull : strict.join_by_code_limit ≤ 2 := Nat.le_refl 2
    have hcheck := check_counter start now 2
    rw [if_neg (Nat.not_le.2 hopen), if_pos hfull] at hcheck
    have hno := h.guess hcheck
    rwa [if_neg Bool.false_ne_true, List.append_nil] at hno
  have hfirst := hstopped (hcounted (hcounted (.start (counter 0 0 0)) (by decide) (by decide))
    (by decide) (by decide)) (by decide)
  have hall : Arrivals strict (counter (seconds 60) 2 (seconds 60))
      [(0, spoofed 0), (0, spoofed 0), (seconds 60, spoofed 0), (seconds 60, spoofed 0)] :=
    hstopped (hcounted (hopened hfirst.rest (by decide)) (by decide) (by decide)) (by decide)
  refine ⟨⟨_, hrefused⟩, _, _, hall, rfl, ?_⟩
  have hkey : ∀ e ∈ [(0, spoofed 0), (0, spoofed 0), (seconds 60, spoofed 0),
      (seconds 60, spoofed 0)], e.2.client_host = some "h" → clientIp e.2 = otherName 0 := by
    intro e he _
    have hsame : e.2 = spoofed 0 := by
      simp only [List.mem_cons, List.not_mem_nil, or_false] at he
      rcases he with rfl | rfl | rfl | rfl <;> rfl
    rw [hsame, clientIp_spoofed]
  exact join_by_code_throttled rfl (by decide) (by decide) hall hkey 0

end DropRoom
