import DropRoom.Effect.Program
import Mathlib.Logic.Relation

/-!
# Machines, runs and interleavings

A machine gives the commands of a program their meaning on a shared world: `exec p c w` is the
answer to `c`, issued by process `p`, with the world after it, or `none` while the command has to
wait. A command may instead fail with one of the exceptions of `fault`, and `env` moves the world
without any process.

`Machine.Runs` is one program run from start to end with nothing in between. `Machine.Step` is one
move of any process of a configuration, so its transitive closure is every interleaving. A
monitor watches the commands of each process and keeps a phase for it; `Machine.invariant` is the
rule by which a property of the world and of all phases holds throughout every interleaving of
programs that keep to the monitor's protocol.
-/

namespace DropRoom.Effect

variable {C : Type} {R : C → Type} {ε α W L : Type}

/-- The meaning of commands on a world. -/
structure Machine (C : Type) (R : C → Type) (ε W : Type) where
  /-- The answer and the world after a command of a process, or `none` while it waits. -/
  exec : ℕ → (c : C) → W → Option (Except ε (R c) × W)
  /-- The exceptions that a command may raise instead of being executed. -/
  fault : C → ε → Prop
  /-- The moves of the world that no process makes. -/
  env : W → W → Prop

namespace Machine

/-- How a command may be answered: executed, or refused with a fault that changes nothing. -/
inductive Answer (m : Machine C R ε W) (p : ℕ) (c : C) (w : W) : Except ε (R c) → W → Prop
  | exec {x w'} (h : m.exec p c w = some (x, w')) : Answer m p c w x w'
  | fault {e} (h : m.fault c e) : Answer m p c w (.error e) w

variable (m : Machine C R ε W)

/-! ## One program alone -/

/-- The program of process `p`, run from start to end with nothing in between. -/
inductive Runs (p : ℕ) : Prog C R ε α → W → Except ε α → W → Prop
  | ret (a w) : Runs p (.ret a) w (.ok a) w
  | raise (e w) : Runs p (.raise e) w (.error e) w
  | call {c k w x w₁ r w'} (h : m.Answer p c w x w₁) (hr : Runs p (k x) w₁ r w') :
      Runs p (.call c k) w r w'

/-- A command of process `p` needs the postcondition of whatever it may be answered. -/
def trans (p : ℕ) : Prog.Transformer C R ε W :=
  fun c Q w => ∀ x w', m.Answer p c w x w' → Q x w'

/-- The transformer of a machine is monotone. -/
theorem trans_monotone (p : ℕ) : (m.trans p).Monotone :=
  fun _ _ _ _ hQ h x w' ha => hQ x w' (h x w' ha)

/-- The weakest precondition under a machine is what every run ends in. -/
theorem wp_iff_runs (p : ℕ) (prog : Prog C R ε α) (Q : Except ε α → W → Prop) (w : W) :
    prog.wp (m.trans p) Q w ↔ ∀ r w', m.Runs p prog w r w' → Q r w' := by
  induction prog generalizing w with
  | ret a =>
    refine ⟨fun h r w' hr => ?_, fun h => h _ _ (.ret a w)⟩
    cases hr
    exact h
  | raise e =>
    refine ⟨fun h r w' hr => ?_, fun h => h _ _ (.raise e w)⟩
    cases hr
    exact h
  | call c k ih =>
    refine ⟨fun h r w' hr => ?_, fun h x w₁ ha => ?_⟩
    · cases hr with
      | call ha hr => exact (ih _ _).1 (h _ _ ha) r w' hr
    · exact (ih _ _).2 fun r w' hr => h r w' (.call ha hr)

/-- The result of a run, mapped. -/
theorem Runs.map {m : Machine C R ε W} {p : ℕ} {β : Type} {prog : Prog C R ε α} {w w' : W}
    {r : Except ε α} (h : m.Runs p prog w r w') (f : α → β) :
    m.Runs p (f <$> prog) w (r.map f) w' := by
  induction h with
  | ret a w => exact .ret (f a) w
  | raise e w => exact .raise e w
  | call ha _ ih => exact .call ha ih

/-- A run of a sequence that returns is one of its first part, which returns, and of the second. -/
theorem Runs.of_bind_ok {m : Machine C R ε W} {p : ℕ} {β : Type} {prog : Prog C R ε α}
    {f : α → Prog C R ε β} {w w' : W} {b : β} (h : m.Runs p (prog >>= f) w (.ok b) w') :
    ∃ a w₁, m.Runs p prog w (.ok a) w₁ ∧ m.Runs p (f a) w₁ (.ok b) w' := by
  induction prog generalizing w with
  | ret a => exact ⟨a, w, .ret a w, h⟩
  | raise e => cases h
  | call c k ih =>
    cases h with | call ha hr
    obtain ⟨a, w₁, hfirst, hsecond⟩ := ih _ hr
    exact ⟨a, w₁, .call ha hfirst, hsecond⟩

/-- The run of a program in which no command fails, as a function. -/
def eval (p : ℕ) : Prog C R ε α → W → Option (Except ε α × W)
  | .ret a, w => some (.ok a, w)
  | .raise e, w => some (.error e, w)
  | .call c k, w => match m.exec p c w with
    | some (x, w') => eval p (k x) w'
    | none => none

/-- What `eval` computes is a run. -/
theorem eval_runs {p : ℕ} {prog : Prog C R ε α} {w w' : W} {r : Except ε α}
    (h : m.eval p prog w = some (r, w')) : m.Runs p prog w r w' := by
  induction prog generalizing w with
  | ret a => cases h; exact .ret a _
  | raise e => cases h; exact .raise e _
  | call c k ih =>
    rw [eval] at h
    split at h
    · next hx => exact .call (.exec hx) (ih _ h)
    · cases h

/-- The world after a run in which no command fails. -/
def endWorld (p : ℕ) (prog : Prog C R ε α) (w : W) : W := ((m.eval p prog w).map Prod.snd).getD w

/-- A program that returns a value, of which `f` is known, has a run to its `endWorld`. -/
theorem exists_runs_ok {β : Type} (p : ℕ) (prog : Prog C R ε α) (w : W) (f : α → β) {b : β}
    (h : (m.eval p prog w).map (fun x => x.1.toOption.map f) = some (some b)) :
    ∃ a, f a = b ∧ m.Runs p prog w (.ok a) (m.endWorld p prog w) := by
  obtain ⟨⟨r, w'⟩, hx, hr⟩ := Option.map_eq_some_iff.1 h
  cases r with
  | error e => cases hr
  | ok a =>
    refine ⟨a, Option.some.inj hr, ?_⟩
    rw [endWorld, hx]
    exact m.eval_runs hx

/-- A program that fails has a run to its `endWorld`. -/
theorem runs_error (p : ℕ) (prog : Prog C R ε α) (w : W) {e : ε}
    (h : (m.eval p prog w).map (fun x => match x.1 with
      | .error e => some e
      | .ok _ => none) = some (some e)) : m.Runs p prog w (.error e) (m.endWorld p prog w) := by
  obtain ⟨⟨r, w'⟩, hx, hr⟩ := Option.map_eq_some_iff.1 h
  cases r with
  | ok a => cases hr
  | error e' =>
    obtain rfl := Option.some.inj hr
    rw [endWorld, hx]
    exact m.eval_runs hx

/-- A program that waits for nothing has a run to its `endWorld`. -/
theorem exists_runs_endWorld (p : ℕ) (prog : Prog C R ε α) (w : W)
    (h : (m.eval p prog w).isSome = true) : ∃ r, m.Runs p prog w r (m.endWorld p prog w) := by
  obtain ⟨⟨r, w'⟩, hx⟩ := Option.isSome_iff_exists.1 h
  refine ⟨r, ?_⟩
  rw [endWorld, hx]
  exact m.eval_runs hx

/-- The machine with some of its commands failing. -/
def failing (fails : C → Option ε) : Machine C R ε W where
  exec p c w := match fails c with
    | some e => some (.error e, w)
    | none => m.exec p c w
  fault := m.fault
  env := m.env

/-- A run in which commands fail that may fail. -/
theorem Runs.of_failing {m : Machine C R ε W} {fails : C → Option ε}
    (hfails : ∀ c e, fails c = some e → m.fault c e) {p : ℕ} {prog : Prog C R ε α} {w w' : W}
    {r : Except ε α} (h : (m.failing fails).Runs p prog w r w') : m.Runs p prog w r w' := by
  induction h with
  | ret a w => exact .ret a w
  | raise e w => exact .raise e w
  | call ha _ ih =>
    cases ha with
    | @exec _ _ hx =>
      rw [failing] at hx
      dsimp only at hx
      split at hx
      · next e he =>
        cases hx
        exact .call (.fault (hfails _ _ he)) ih
      · exact .call (.exec hx) ih
    | fault hf => exact .call (.fault hf) ih

end Machine

/-! ## Monitors -/

/-- A protocol for the commands of one process: what it may issue in each phase, and the phase
after an answer. -/
structure Monitor (C : Type) (R : C → Type) (ε L : Type) where
  /-- The commands that a process may issue in a phase. -/
  allowed : L → C → Prop
  /-- The phase after a command is answered. -/
  next : L → (c : C) → Except ε (R c) → L

namespace Monitor

/-- A command is admitted when it is allowed, and every answer to it leads on. -/
def trans (M : Monitor C R ε L) : Prog.Transformer C R ε L :=
  fun c Q l => M.allowed l c ∧ ∀ x, Q x (M.next l c x)

/-- The transformer of a monitor is monotone. -/
theorem trans_monotone (M : Monitor C R ε L) : M.trans.Monotone :=
  fun _ _ _ _ hQ h => ⟨h.1, fun x => hQ x _ (h.2 x)⟩

/-- A phase in which everything is allowed and that is never left. -/
structure Sink (M : Monitor C R ε L) (l₀ : L) : Prop where
  allowed : ∀ c, M.allowed l₀ c
  next : ∀ c x, M.next l₀ c x = l₀

/-- Either the sink has been entered, or the condition holds. -/
def orSink (l₀ : L) (Q : Except ε α → L → Prop) : Except ε α → L → Prop :=
  fun x l => l = l₀ ∨ Q x l

namespace Sink

variable {M : Monitor C R ε L} {l₀ l : L} {β : Type}

/-- Every program keeps to the protocol from the sink on. -/
theorem wp (h : M.Sink l₀) (prog : Prog C R ε α) {Q : Except ε α → L → Prop} :
    prog.wp M.trans (orSink l₀ Q) l₀ := by
  induction prog with
  | ret a => exact .inl rfl
  | raise e => exact .inl rfl
  | call c k ih =>
    refine ⟨h.allowed c, fun x => ?_⟩
    rw [h.next]
    exact ih x

/-- A sequence whose first part may enter the sink. -/
theorem bind (h : M.Sink l₀) {prog : Prog C R ε α} {f : α → Prog C R ε β}
    {P : Except ε α → L → Prop} {Q : Except ε β → L → Prop}
    (hp : prog.wp M.trans (orSink l₀ P) l)
    (hok : ∀ a l', P (.ok a) l' → (f a).wp M.trans (orSink l₀ Q) l')
    (herr : ∀ e l', P (.error e) l' → orSink l₀ Q (.error e) l') :
    (prog >>= f).wp M.trans (orSink l₀ Q) l := by
  rw [Prog.wp_bind]
  refine Prog.wp_mono M.trans_monotone ?_ hp
  rintro (e | a) l' (rfl | h')
  · exact .inl rfl
  · exact herr e l' h'
  · exact h.wp (f a)
  · exact hok a l' h'

/-- `try p except h`, where `p` may enter the sink. -/
theorem tryCatch (h : M.Sink l₀) {prog : Prog C R ε α} {f : ε → Prog C R ε α}
    {P Q : Except ε α → L → Prop} (hp : prog.wp M.trans (orSink l₀ P) l)
    (hok : ∀ a l', P (.ok a) l' → orSink l₀ Q (.ok a) l')
    (herr : ∀ e l', P (.error e) l' → (f e).wp M.trans (orSink l₀ Q) l') :
    (prog.tryCatch f).wp M.trans (orSink l₀ Q) l := by
  rw [Prog.wp_tryCatch]
  refine Prog.wp_mono M.trans_monotone ?_ hp
  rintro (e | a) l' (rfl | h')
  · exact h.wp (f e)
  · exact herr e l' h'
  · exact .inl rfl
  · exact hok a l' h'

end Sink

/-- The monitor that only restricts which commands are issued. -/
def only (P : C → Prop) : Monitor C R ε Unit where
  allowed _ c := P c
  next _ _ _ := ()

end Monitor

/-- Every command that the program may issue satisfies `P`. -/
def Prog.Only (P : C → Prop) (prog : Prog C R ε α) : Prop :=
  prog.wp (Monitor.only P).trans (fun _ _ => True) ()

namespace Prog

variable {P : C → Prop} {β : Type}

/-- A value issues nothing. -/
@[simp] theorem only_ret (a : α) : (ret a : Prog C R ε α).Only P := trivial

/-- An exception issues nothing. -/
@[simp] theorem only_raise (e : ε) : (raise e : Prog C R ε α).Only P := trivial

/-- A call, and what follows each answer. -/
@[simp] theorem only_call (c : C) (k : Except ε (R c) → Prog C R ε α) :
    (call c k).Only P ↔ P c ∧ ∀ x, (k x).Only P := Iff.rfl

/-- One command. -/
@[simp] theorem only_perform (c : C) : (perform c : Prog C R ε (R c)).Only P ↔ P c := by
  rw [perform, only_call]
  refine ⟨And.left, fun h => ⟨h, ?_⟩⟩
  rintro (e | a) <;> trivial

/-- A check issues nothing. -/
@[simp] theorem only_require (b : Prop) [Decidable b] (e : ε) :
    (require b e : Prog C R ε Unit).Only P := by
  by_cases hb : b
  · rw [require_pos hb]; trivial
  · rw [require_neg hb]; trivial

/-- A sequence issues the commands of both parts. -/
theorem only_bind {prog : Prog C R ε α} {f : α → Prog C R ε β} (hp : prog.Only P)
    (hf : ∀ a, (f a).Only P) : (prog >>= f).Only P := by
  induction prog with
  | ret a => exact hf a
  | raise e => trivial
  | call c k ih => exact ⟨hp.1, fun x => ih x (hp.2 x)⟩

/-- `try p except h` issues the commands of both parts. -/
theorem only_tryCatch {prog : Prog C R ε α} {h : ε → Prog C R ε α} (hp : prog.Only P)
    (hh : ∀ e, (h e).Only P) : (prog.tryCatch h).Only P := by
  induction prog with
  | ret a => trivial
  | raise e => exact hh e
  | call c k ih => exact ⟨hp.1, fun x => ih x (hp.2 x)⟩

/-! ### Commands that are refused -/

/-- The program where some commands are refused: they raise, and are not issued. -/
def refusing (fails : C → Option ε) : Prog C R ε α → Prog C R ε α
  | ret a => ret a
  | raise e => raise e
  | call c k => match fails c with
    | some e => (k (.error e)).refusing fails
    | none => call c fun x => (k x).refusing fails

section

variable {fails : C → Option ε}

/-- One program after the other. -/
theorem refusing_bind (prog : Prog C R ε α) (f : α → Prog C R ε β) :
    (prog >>= f).refusing fails = prog.refusing fails >>= fun a => (f a).refusing fails := by
  induction prog with
  | ret a => rfl
  | raise e => rfl
  | call c k ih =>
    rw [call_bind, refusing, refusing]
    cases fails c with
    | some e => exact ih (.error e)
    | none => exact congrArg (call c) (funext ih)

/-- A program with a handler. -/
theorem refusing_tryCatch (prog : Prog C R ε α) (h : ε → Prog C R ε α) :
    (prog.tryCatch h).refusing fails =
      (prog.refusing fails).tryCatch fun e => (h e).refusing fails := by
  induction prog with
  | ret a => rfl
  | raise e => rfl
  | call c k ih =>
    rw [call_tryCatch, refusing, refusing]
    cases fails c with
    | some e => exact ih (.error e)
    | none => exact congrArg (call c) (funext ih)

/-- Where nothing that the program issues is refused, it is as it was. -/
theorem refusing_of_only {prog : Prog C R ε α} (h : prog.Only fun c => fails c = none) :
    prog.refusing fails = prog := by
  induction prog with
  | ret a => rfl
  | raise e => rfl
  | call c k ih =>
    rw [refusing, h.1]
    exact congrArg (call c) (funext fun x => ih x (h.2 x))

/-- What is left was issued before. -/
theorem only_refusing {prog : Prog C R ε α} (h : prog.Only P) : (prog.refusing fails).Only P := by
  induction prog with
  | ret a => trivial
  | raise e => trivial
  | call c k ih =>
    rw [refusing]
    cases fails c with
    | some e => exact ih (.error e) (h.2 _)
    | none => exact ⟨h.1, fun x => ih x (h.2 x)⟩

/-- A machine that fails at some commands, and at no other, runs the program without them. -/
theorem runs_failing_iff {m : Machine C R ε W} (hm : ∀ c e, ¬m.fault c e) {p : ℕ}
    {prog : Prog C R ε α} {w w' : W} {r : Except ε α} :
    (m.failing fails).Runs p prog w r w' ↔ m.Runs p (prog.refusing fails) w r w' := by
  induction prog generalizing w with
  | ret a => exact ⟨fun h => by cases h; exact .ret a _, fun h => by cases h; exact .ret a _⟩
  | raise e => exact ⟨fun h => by cases h; exact .raise e _, fun h => by cases h; exact .raise e _⟩
  | call c k ih =>
    rw [refusing]
    constructor
    · intro h
      cases h with
      | call ha hr =>
        cases ha with
        | fault hf => exact absurd hf (hm _ _)
        | exec hx =>
          rw [Machine.failing] at hx
          dsimp only at hx
          split at hx
          · cases hx
            exact (ih _).1 hr
          · exact .call (.exec hx) ((ih _).1 hr)
    · intro h
      cases he : fails c with
      | some e =>
        rw [he] at h
        exact .call (.exec (by simp only [Machine.failing, he])) ((ih _).2 h)
      | none =>
        rw [he] at h
        cases h with
        | call ha hr =>
          cases ha with
          | fault hf => exact absurd hf (hm _ _)
          | exec hx =>
            refine .call (.exec ?_) ((ih _).2 hr)
            simp only [Machine.failing, he]
            exact hx

end

/-- A loop over a list issues the commands of its body. -/
theorem only_forM {ι : Type} {f : ι → Prog C R ε PUnit} (hf : ∀ i, (f i).Only P) (l : List ι) :
    (l.forM f).Only P := by
  induction l with
  | nil => trivial
  | cons i l ih => exact only_bind (hf i) fun _ => ih

/-- Fewer commands are issued than a weaker predicate admits. -/
theorem Only.mono {P' : C → Prop} (hP : ∀ c, P c → P' c) {prog : Prog C R ε α}
    (h : prog.Only P) : prog.Only P' := by
  induction prog with
  | ret a => trivial
  | raise e => trivial
  | call c k ih => exact ⟨hP c h.1, fun x => ih x (h.2 x)⟩

/-- What is left of a program issues no other commands than the program. -/
theorem Only.leads {prog prog' : Prog C R ε α} (h : prog.Only P) (hl : prog.Leads prog') :
    prog'.Only P := by
  induction hl with
  | refl => exact h
  | call x _ ih => exact ih (h.2 x)

/-- The first part of a program issues no other commands than the program. -/
theorem Only.of_andThen {prog : Prog C R ε α} {f : Except ε α → Prog C R ε β}
    (h : (prog.andThen f).Only P) : prog.Only P := by
  induction prog with
  | ret a => trivial
  | raise e => trivial
  | call c k ih => exact ⟨h.1, fun x => ih x (h.2 x)⟩

/-- The first part of a program issues what the whole does. -/
theorem Only.of_bind {prog : Prog C R ε α} {f : α → Prog C R ε β} (h : (prog >>= f).Only P) :
    prog.Only P := by
  rw [bind_eq_andThen] at h
  exact h.of_andThen

/-- The first command of a program, and what follows its answer. -/
theorem Only.of_perform_bind {c : C} {f : R c → Prog C R ε β}
    (h : ((perform c : Prog C R ε (R c)) >>= f).Only P) : P c ∧ ∀ a, (f a).Only P :=
  ⟨h.1, fun a => h.2 (.ok a)⟩

/-- What is under a handler issues what the whole does. -/
theorem Only.of_tryCatch {prog : Prog C R ε α} {f : ε → Prog C R ε α}
    (h : (prog.tryCatch f).Only P) : prog.Only P := by
  rw [tryCatch_eq_andThen] at h
  exact h.of_andThen

end Prog

/-- A program whose commands are all allowed, and all keep a condition on the phase, keeps to the
protocol and keeps the condition. -/
theorem Prog.Only.wp {P : C → Prop} {M : Monitor C R ε L} {I : L → Prop}
    (hM : ∀ c l, P c → I l → M.allowed l c ∧ ∀ x, I (M.next l c x)) {prog : Prog C R ε α}
    (h : prog.Only P) {l : L} (hl : I l) : prog.wp M.trans (fun _ l' => I l') l := by
  induction prog generalizing l with
  | ret a => exact hl
  | raise e => exact hl
  | call c k ih =>
    obtain ⟨ha, hn⟩ := hM c l h.1 hl
    exact ⟨ha, fun x => ih x (h.2 x) (hn x)⟩

/-- A run of a program whose commands all keep an invariant keeps it. -/
theorem Machine.Runs.only {m : Machine C R ε W} {p : ℕ} {P : C → Prop} {I : W → Prop}
    (hP : ∀ c w x w', P c → m.Answer p c w x w' → I w → I w') {prog : Prog C R ε α} {w w' : W}
    {r : Except ε α} (h : m.Runs p prog w r w') (hprog : prog.Only P) (hw : I w) : I w' := by
  induction h with
  | ret a w => exact hw
  | raise e w => exact hw
  | call ha _ ih => exact ih (hprog.2 _) (hP _ _ _ _ hprog.1 ha hw)

-- From here on only the lemmas above look into it, and no unifier runs a program.
attribute [irreducible] Prog.Only

/-! ## Interleavings -/

/-- A configuration: the world, and for each process the phase that the monitor has it in and
the program that it has left to run. -/
structure Conf (C : Type) (R : C → Type) (ε α W L : Type) where
  world : W
  phase : ℕ → L
  proc : ℕ → Prog C R ε α

/-- The configuration in which every process is about to run its program. -/
def Conf.start (w : W) (l : L) (proc : ℕ → Prog C R ε α) : Conf C R ε α W L := ⟨w, fun _ => l, proc⟩

/-- A condition on the next command of a process, in the world and the phases before it. -/
abbrev Guard (C W L : Type) : Type := ℕ → C → W → (ℕ → L) → Prop

/-- The guard that admits every command. -/
def Guard.all : Guard C W L := fun _ _ _ _ => True

/-- The guard that admits everything is decided. -/
instance (p : ℕ) (c : C) (w : W) (φ : ℕ → L) : Decidable (Guard.all p c w φ) :=
  inferInstanceAs (Decidable True)

/-- The configuration after process `p` has been answered `x`. -/
def Conf.answered (M : Monitor C R ε L) (s : Conf C R ε α W L) (p : ℕ) (c : C)
    (k : Except ε (R c) → Prog C R ε α) (x : Except ε (R c)) (w' : W) : Conf C R ε α W L where
  world := w'
  phase := Function.update s.phase p (M.next (s.phase p) c x)
  proc := Function.update s.proc p (k x)

/-- One move of an interleaving in which every command satisfies the guard when it is issued. -/
inductive Machine.Step (m : Machine C R ε W) (M : Monitor C R ε L) (ok : Guard C W L) :
    Conf C R ε α W L → Conf C R ε α W L → Prop
  | call {s : Conf C R ε α W L} {p c k x w'} (hp : s.proc p = .call c k)
      (hok : ok p c s.world s.phase) (ha : m.Answer p c s.world x w') :
      Step m M ok s (s.answered M p c k x w')
  | env {s : Conf C R ε α W L} {w'} (he : m.env s.world w') : Step m M ok s { s with world := w' }

/-- The interleavings in which every command satisfies the guard when it is issued. -/
abbrev Machine.Reaches (m : Machine C R ε W) (M : Monitor C R ε L) (ok : Guard C W L) :
    Conf C R ε α W L → Conf C R ε α W L → Prop :=
  Relation.ReflTransGen (m.Step M ok)

/-- A weaker guard admits more interleavings. -/
theorem Machine.reaches_mono {m : Machine C R ε W} {M : Monitor C R ε L} {ok ok' : Guard C W L}
    (hok : ∀ p c w φ, ok p c w φ → ok' p c w φ) {s s' : Conf C R ε α W L}
    (h : m.Reaches M ok s s') : m.Reaches M ok' s s' := by
  induction h with
  | refl => exact .refl
  | tail _ hstep ih =>
    cases hstep with
    | call hp hg ha => exact ih.tail (.call hp (hok _ _ _ _ hg) ha)
    | env he => exact ih.tail (.env he)

/-- A monitor changes nothing, so any other one can watch the same run, from any phases on. -/
theorem Machine.reaches_watched {m : Machine C R ε W} {M : Monitor C R ε L} {ok : Guard C W L}
    {L' : Type} (M' : Monitor C R ε L') (ok' : Guard C W L')
    (hok : ∀ p c w φ φ', ok p c w φ → ok' p c w φ') {s s' : Conf C R ε α W L}
    (h : m.Reaches M ok s s') (φ : ℕ → L') :
    ∃ φ', m.Reaches M' ok' ⟨s.world, φ, s.proc⟩ ⟨s'.world, φ', s'.proc⟩ := by
  induction h with
  | refl => exact ⟨φ, .refl⟩
  | tail _ hstep ih =>
    obtain ⟨φ', hr⟩ := ih
    cases hstep with
    | call hp hg ha => exact ⟨_, hr.tail (.call hp (hok _ _ _ _ _ hg) ha)⟩
    | env he => exact ⟨φ', hr.tail (.env he)⟩

/-- Processes that have ended make no moves. -/
theorem Machine.reaches_lt {m : Machine C R ε W} {M : Monitor C R ε L} {ok : Guard C W L}
    {s s' : Conf C R ε α W L} {n : ℕ} (hn : ∀ q, n ≤ q → (s.proc q).outcome.isSome = true)
    (h : m.Reaches M ok s s') :
    m.Reaches M (fun p c w φ => p < n ∧ ok p c w φ) s s' ∧
      ∀ q, n ≤ q → (s'.proc q).outcome.isSome = true := by
  induction h with
  | refl => exact ⟨.refl, hn⟩
  | tail _ hstep ih =>
    obtain ⟨hr, hend⟩ := ih
    cases hstep with
    | @call p c k x w' hp hok ha =>
      have hlt : p < n := by
        by_contra hge
        have hcall := hend p (Nat.le_of_not_lt hge)
        rw [hp] at hcall
        cases hcall
      refine ⟨hr.tail (.call hp ⟨hlt, hok⟩ ha), fun q hq => ?_⟩
      have hqp : q ≠ p := by omega
      simpa [Conf.answered, hqp] using hend q hq
    | env he => exact ⟨hr.tail (.env he), hend⟩

/-- Every process of the configuration keeps to the protocol from its phase on, to end in `Q`. -/
def Conf.Conforms (s : Conf C R ε α W L) (M : Monitor C R ε L) (Q : Except ε α → L → Prop) :
    Prop :=
  ∀ p, (s.proc p).wp M.trans Q (s.phase p)

/-- The invariant rule. If every program keeps to the protocol, and every allowed command keeps
`I`, then in every interleaving `I` holds throughout and every program keeps to the protocol
still. -/
theorem Machine.invariant {m : Machine C R ε W} {M : Monitor C R ε L} {ok : Guard C W L}
    {I : W → (ℕ → L) → Prop} {Q : Except ε α → L → Prop}
    (hcall : ∀ w φ p c x w', I w φ → M.allowed (φ p) c → ok p c w φ → m.Answer p c w x w' →
      I w' (Function.update φ p (M.next (φ p) c x)))
    (henv : ∀ w φ w', I w φ → m.env w w' → I w' φ)
    {s s' : Conf C R ε α W L} (h : m.Reaches M ok s s') (hInv : I s.world s.phase)
    (hQ : s.Conforms M Q) : I s'.world s'.phase ∧ s'.Conforms M Q := by
  induction h with
  | refl => exact ⟨hInv, hQ⟩
  | tail _ hstep ih =>
    obtain ⟨hI, hC⟩ := ih
    cases hstep with
    | @call p c k x w' hp hok ha =>
      have hc := hC p
      rw [hp, Prog.wp_call] at hc
      refine ⟨hcall _ _ _ _ _ _ hI hc.1 hok ha, fun q => ?_⟩
      by_cases hq : q = p
      · subst hq
        simpa [Conf.answered] using hc.2 x
      · simpa [Conf.answered, hq] using hC q
    | env he => exact ⟨henv _ _ _ hI he, hC⟩

/-- The invariant rule for a property of the world alone that each command keeps. -/
theorem Machine.invariant_only {m : Machine C R ε W} {M : Monitor C R ε L} {ok : Guard C W L}
    {P : C → Prop} {I : W → Prop}
    (hcall : ∀ w p c x w', I w → P c → m.Answer p c w x w' → I w')
    (henv : ∀ w w', I w → m.env w w' → I w')
    {s s' : Conf C R ε α W L} (h : m.Reaches M ok s s') (hInv : I s.world)
    (hP : ∀ p, (s.proc p).Only P) : I s'.world ∧ ∀ p, (s'.proc p).Only P := by
  induction h with
  | refl => exact ⟨hInv, hP⟩
  | tail _ hstep ih =>
    obtain ⟨hI, hC⟩ := ih
    cases hstep with
    | @call p c k x w' hp hok ha =>
      have hc := hC p
      rw [hp, Prog.only_call] at hc
      refine ⟨hcall _ _ _ _ _ hI hc.1 ha, fun q => ?_⟩
      by_cases hq : q = p
      · subst hq
        simpa [Conf.answered] using hc.2 x
      · simpa [Conf.answered, hq] using hC q
    | env he => exact ⟨henv _ _ hI he, hC⟩

/-- The interleaving that a list of process numbers describes, each entry being one command that
is executed, as a function: `none` when a command waits, fails its guard, or is not there. -/
def Machine.play (m : Machine C R ε W) (M : Monitor C R ε L) (ok : Guard C W L)
    [∀ p c w φ, Decidable (ok p c w φ)] : List ℕ → Conf C R ε α W L → Option (Conf C R ε α W L)
  | [], s => some s
  | p :: ps, s => match s.proc p with
    | .call c k =>
      if ok p c s.world s.phase then
        match m.exec p c s.world with
        | some (x, w') => m.play M ok ps (s.answered M p c k x w')
        | none => none
      else none
    | _ => none

/-- What `play` computes is an interleaving. -/
theorem Machine.play_reaches {m : Machine C R ε W} {M : Monitor C R ε L} {ok : Guard C W L}
    [∀ p c w φ, Decidable (ok p c w φ)] {ps : List ℕ} {s s' : Conf C R ε α W L}
    (h : m.play M ok ps s = some s') : m.Reaches M ok s s' := by
  induction ps generalizing s with
  | nil =>
    cases h
    exact .refl
  | cons p ps ih =>
    rw [Machine.play] at h
    split at h
    · next c k hp =>
      split_ifs at h with hok
      split at h
      · next x w' hx => exact .head (.call hp hok (.exec hx)) (ih h)
      · cases h
    · cases h

end DropRoom.Effect
