import DropRoom.Effect.Machine

/-!
# Deadlocks and their victims

Processes that wait for each other in a cycle would wait for ever, so the system aborts one of them:
what it has done is undone, and the command that it waits in fails. `Victims` says who holds what a
command waits for, what an abort does to the world, and with which exception the command ends.
`Victims.Turn` is a move of an interleaving in which such aborts happen, of those commands that
`may` admits, and `Victims.invariant` is the rule by which an invariant holds throughout.
-/

namespace DropRoom.Effect

variable {C : Type} {R : C → Type} {ε α W L : Type}

/-- How a system breaks the deadlocks of its processes. -/
structure Victims (C : Type) (ε W : Type) where
  /-- In a world, the command of a process waits for something that another process holds. -/
  blocks : ℕ → C → W → ℕ → Prop
  /-- The world after a process was aborted. -/
  abort : ℕ → W → W
  /-- The exception in which the command of the process ends. -/
  error : ε

namespace Victims

variable (V : Victims C ε W) (m : Machine C R ε W) (M : Monitor C R ε L)
  {s s' : Conf C R ε α W L} {p q : ℕ}

/-- Process `p` waits for something that process `q` holds. -/
def WaitsFor (s : Conf C R ε α W L) (p q : ℕ) : Prop :=
  ∃ c k, s.proc p = .call c k ∧ m.exec p c s.world = none ∧ V.blocks p c s.world q

/-- A process is on a cycle of processes that wait for each other. -/
def Deadlocked (s : Conf C R ε α W L) (p : ℕ) : Prop :=
  Relation.TransGen (V.WaitsFor m s) p p

/-- A move of an interleaving, where a process that is deadlocked in a command that `may` admits may
be aborted. -/
inductive Turn (may : C → Prop) : Conf C R ε α W L → Conf C R ε α W L → Prop
  | step {s s' : Conf C R ε α W L} (h : m.Step M Guard.all s s') : Turn may s s'
  | abort {s : Conf C R ε α W L} {p c k} (hp : s.proc p = .call c k) (hd : V.Deadlocked m s p)
      (hmay : may c) : Turn may s (s.answered M p c k (.error V.error) (V.abort p s.world))

/-- The interleavings in which processes may be aborted. -/
abbrev Reaches (may : C → Prop) : Conf C R ε α W L → Conf C R ε α W L → Prop :=
  Relation.ReflTransGen (V.Turn m M may)

/-- The configuration after a process was aborted in its command. -/
def aborted (s : Conf C R ε α W L) (p : ℕ) : Conf C R ε α W L :=
  match s.proc p with
  | .call c k => s.answered M p c k (.error V.error) (V.abort p s.world)
  | _ => s

/-- Where a schedule leads that nobody has to wait in. -/
def played (s : Conf C R ε α W L) (ps : List ℕ) : Conf C R ε α W L :=
  (m.play M Guard.all ps s).getD s

variable {V m M} {may : C → Prop}

/-- Where nothing is aborted, an interleaving is as before. -/
theorem reaches_of_reaches (h : m.Reaches M Guard.all s s') : V.Reaches m M may s s' :=
  h.lift id fun _ _ => .step

/-- A schedule that nobody has to wait in is an interleaving. -/
theorem reaches_played {ps : List ℕ} (h : (m.play M Guard.all ps s).isSome = true) :
    V.Reaches m M may s (played m M s ps) := by
  obtain ⟨s', hs⟩ := Option.isSome_iff_exists.1 h
  rw [played, hs]
  exact reaches_of_reaches (Machine.play_reaches hs)

/-- A process that is deadlocked may be aborted in a command that `may` admits. -/
theorem reaches_aborted (h : V.Deadlocked m s p) (hmay : ∀ c k, s.proc p = .call c k → may c) :
    V.Reaches m M may s (V.aborted M s p) := by
  unfold aborted
  cases hp : s.proc p with
  | call c k => exact .single (.abort hp h (hmay c k hp))
  | _ => exact .refl

/-- A process that is deadlocked waits in its command. -/
theorem Deadlocked.waits (h : V.Deadlocked m s p) {c : C} {k : Except ε (R c) → Prog C R ε α}
    (hp : s.proc p = .call c k) : m.exec p c s.world = none := by
  obtain ⟨q, ⟨c', k', hp', hw, -⟩, -⟩ := Relation.TransGen.head'_iff.1 h
  rw [hp] at hp'
  cases hp'
  exact hw

/-- Two processes that wait for each other are deadlocked. -/
theorem deadlocked_of_pair (h : V.WaitsFor m s p q) (h' : V.WaitsFor m s q p) :
    V.Deadlocked m s p :=
  (Relation.TransGen.single h).tail h'

/-- A process that has ended makes no moves. -/
theorem ended (h : V.Reaches m M may s s') (hp : (s.proc p).outcome.isSome = true) :
    (s'.proc p).outcome.isSome = true := by
  have hother : ∀ {s : Conf C R ε α W L} {q c k x w'}, (s.proc p).outcome.isSome = true →
      s.proc q = .call c k → ((s.answered M q c k x w').proc p).outcome.isSome = true := by
    intro s q c k x w' hend hq
    have hne : p ≠ q := by
      rintro rfl
      rw [hq] at hend
      cases hend
    simpa [Conf.answered, hne] using hend
  induction h with
  | refl => exact hp
  | tail _ hturn ih =>
    cases hturn with
    | step hstep =>
      cases hstep with
      | call hq _ _ => exact hother ih hq
      | env _ => exact ih
    | abort hq _ _ => exact hother ih hq

/-- The invariant rule. Beside what `Machine.invariant` asks for, an abort has to keep `I` where a
process waits in a command that is allowed and may be aborted. -/
theorem invariant {I : W → (ℕ → L) → Prop} {Q : Except ε α → L → Prop}
    (hcall : ∀ w φ p c x w', I w φ → M.allowed (φ p) c → m.Answer p c w x w' →
      I w' (Function.update φ p (M.next (φ p) c x)))
    (henv : ∀ w φ w', I w φ → m.env w w' → I w' φ)
    (habort : ∀ w φ p c, I w φ → M.allowed (φ p) c → may c → m.exec p c w = none →
      I (V.abort p w) (Function.update φ p (M.next (φ p) c (.error V.error))))
    (h : V.Reaches m M may s s') (hInv : I s.world s.phase) (hQ : s.Conforms M Q) :
    I s'.world s'.phase ∧ s'.Conforms M Q := by
  induction h with
  | refl => exact ⟨hInv, hQ⟩
  | tail _ hturn ih =>
    obtain ⟨hI, hC⟩ := ih
    cases hturn with
    | step hstep =>
      exact Machine.invariant (fun w φ p c x w' hI ha _ hx => hcall w φ p c x w' hI ha hx) henv
        (.single hstep) hI hC
    | @abort p c k hp hd hmay =>
      have hc := hC p
      rw [hp, Prog.wp_call] at hc
      refine ⟨habort _ _ _ _ hI hc.1 hmay (hd.waits hp), fun q => ?_⟩
      -- The process goes on from the phase after the exception, and the others are as they were.
      by_cases hq : q = p
      · subst hq
        simpa [Conf.answered] using hc.2 (.error V.error)
      · simpa [Conf.answered, hq] using hC q

end Victims

end DropRoom.Effect
