import Mathlib.Logic.Function.Basic
import Mathlib.Tactic.Common

/-!
# Programs over a set of commands

A program issues commands one at a time and continues with the answer of each, which is either a
value or an exception. It is a tree, so one text has several readings: run alone, run against
faults, or run in any interleaving with others.

`Prog.wp` is the weakest precondition of a program under a transformer for its commands. The
transformer is a parameter: with the steps of a machine it is a Hoare logic, and with the rules
of a monitor it says that the program keeps to a protocol. `wp_bind`, `wp_tryCatch` and `wp_mono`
hold for every transformer that is monotone, so both readings share them.
-/

namespace DropRoom.Effect

/-- A program that issues commands `c : C`, gets an answer in `R c` or an exception in `ε`, and
ends with a value in `α` or an exception. -/
inductive Prog (C : Type) (R : C → Type) (ε α : Type) : Type
  /-- The program has ended with a value. -/
  | ret (a : α)
  /-- The program has ended with an exception. -/
  | raise (e : ε)
  /-- The program issues `c` and goes on with the answer. -/
  | call (c : C) (k : Except ε (R c) → Prog C R ε α)

namespace Prog

variable {C : Type} {R : C → Type} {ε α β γ S : Type}

/-- Sequencing: `f` takes over when the first program returns; an exception skips it. -/
protected def bind : Prog C R ε α → (α → Prog C R ε β) → Prog C R ε β
  | ret a, f => f a
  | raise e, _ => raise e
  | call c k, f => call c fun x => (k x).bind f

/-- `try p except h`. -/
def tryCatch : Prog C R ε α → (ε → Prog C R ε α) → Prog C R ε α
  | ret a, _ => ret a
  | raise e, h => h e
  | call c k, h => call c fun x => (k x).tryCatch h

/-- The program of one command. -/
def perform (c : C) : Prog C R ε (R c) :=
  call c fun
    | .ok a => ret a
    | .error e => raise e

/-- Raise `e` unless the condition holds. -/
def require (b : Prop) [Decidable b] (e : ε) : Prog C R ε Unit :=
  if b then ret () else raise e

/-- Programs are put one after the other by `andThen`. -/
instance : Monad (Prog C R ε) where
  pure := ret
  bind := Prog.bind

/-- `pure` is the end of a program. -/
@[simp] theorem pure_eq (a : α) : (pure a : Prog C R ε α) = ret a := rfl

/-- What follows a value. -/
@[simp] theorem ret_bind (a : α) (f : α → Prog C R ε β) : ret a >>= f = f a := rfl

/-- Nothing follows an exception. -/
@[simp] theorem raise_bind (e : ε) (f : α → Prog C R ε β) :
    (raise e : Prog C R ε α) >>= f = raise e := rfl

/-- What follows a call follows each of its answers. -/
@[simp] theorem call_bind (c : C) (k : Except ε (R c) → Prog C R ε α) (f : α → Prog C R ε β) :
    call c k >>= f = call c fun x => k x >>= f := rfl

/-- Returning the result unchanged adds nothing. -/
theorem bind_ret (p : Prog C R ε α) : p >>= ret = p := by
  induction p with
  | ret a => rfl
  | raise e => rfl
  | call c k ih => rw [call_bind]; exact congrArg (call c) (funext ih)

/-- Sequencing is associative. -/
theorem bind_assoc' (p : Prog C R ε α) (f : α → Prog C R ε β) (g : β → Prog C R ε γ) :
    p >>= f >>= g = p >>= fun a => f a >>= g := by
  induction p with
  | ret a => rfl
  | raise e => rfl
  | call c k ih => simp only [call_bind]; exact congrArg (call c) (funext ih)

/-- The monad laws. -/
instance : LawfulMonad (Prog C R ε) :=
  LawfulMonad.mk' _ (fun p => bind_ret p) (fun _ _ => rfl) bind_assoc'

/-- No handler is entered after a value. -/
@[simp] theorem ret_tryCatch (a : α) (h : ε → Prog C R ε α) : (ret a).tryCatch h = ret a := rfl

/-- The handler is entered with the exception. -/
@[simp] theorem raise_tryCatch (e : ε) (h : ε → Prog C R ε α) : (raise e).tryCatch h = h e := rfl

/-- A handler around a call is one around each of its answers. -/
@[simp] theorem call_tryCatch (c : C) (k : Except ε (R c) → Prog C R ε α)
    (h : ε → Prog C R ε α) : (call c k).tryCatch h = call c fun x => (k x).tryCatch h := rfl

/-- A condition that holds lets the program go on. -/
theorem require_pos {b : Prop} [Decidable b] (hb : b) (e : ε) :
    (require b e : Prog C R ε Unit) = ret () := if_pos hb

/-- A condition that fails ends the program. -/
theorem require_neg {b : Prop} [Decidable b] (hb : ¬b) (e : ε) :
    (require b e : Prog C R ε Unit) = raise e := if_neg hb

/-- What a program has ended with, if it has. -/
def outcome : Prog C R ε α → Option (Except ε α)
  | ret a => some (.ok a)
  | raise e => some (.error e)
  | call _ _ => none

/-- The program has returned a value. -/
def returned : Prog C R ε α → Bool
  | ret _ => true
  | _ => false

/-- A program that has not ended is about to issue a command. -/
theorem exists_call_of_outcome {p : Prog C R ε α} (h : p.outcome = none) : ∃ c k, p = call c k := by
  cases p with
  | ret a => cases h
  | raise e => cases h
  | call c k => exact ⟨c, k, rfl⟩

/-- A program has returned a value when that is its outcome. -/
theorem returned_iff {p : Prog C R ε α} : p.returned = true ↔ ∃ a, p.outcome = some (.ok a) := by
  cases p <;> simp [returned, outcome]

/-! ## The points of a program -/

/-- Go on with `f`, however the program ends. -/
def andThen : Prog C R ε α → (Except ε α → Prog C R ε β) → Prog C R ε β
  | ret a, f => f (.ok a)
  | raise e, f => f (.error e)
  | call c k, f => call c fun x => (k x).andThen f

/-- `>>=` goes on after a value. -/
theorem bind_eq_andThen (p : Prog C R ε α) (f : α → Prog C R ε β) :
    p >>= f = p.andThen fun
      | .ok a => f a
      | .error e => raise e := by
  induction p with
  | ret a => rfl
  | raise e => rfl
  | call c k ih => exact congrArg (call c) (funext ih)

/-- `tryCatch` goes on after an exception. -/
theorem tryCatch_eq_andThen (p : Prog C R ε α) (h : ε → Prog C R ε α) :
    p.tryCatch h = p.andThen fun
      | .ok a => ret a
      | .error e => h e := by
  induction p with
  | ret a => rfl
  | raise e => rfl
  | call c k ih => exact congrArg (call c) (funext ih)

/-- Two continuations are one. -/
theorem andThen_andThen (p : Prog C R ε α) (f : Except ε α → Prog C R ε β)
    (g : Except ε β → Prog C R ε γ) : (p.andThen f).andThen g = p.andThen fun x => (f x).andThen g := by
  induction p with
  | ret a => rfl
  | raise e => rfl
  | call c k ih => exact congrArg (call c) (funext ih)

/-- Once its commands have been answered somehow, the second program is what is left of the first. -/
inductive Leads : Prog C R ε α → Prog C R ε α → Prop
  | refl (p) : Leads p p
  | call {c k q} (x) (h : Leads (k x) q) : Leads (call c k) q

/-- A program that leads to another one does so in every context. -/
theorem Leads.andThen {p q : Prog C R ε α} (h : p.Leads q) (f : Except ε α → Prog C R ε β) :
    (p.andThen f).Leads (q.andThen f) := by
  induction h with
  | refl p => exact .refl _
  | call x _ ih => exact .call x ih

/-! ## Weakest preconditions -/

/-- What one command needs of a state for a condition on its answer and the state after. -/
abbrev Transformer (C : Type) (R : C → Type) (ε S : Type) : Type :=
  (c : C) → (Except ε (R c) → S → Prop) → S → Prop

/-- A transformer is monotone when a weaker postcondition never needs more. -/
def Transformer.Monotone (τ : Transformer C R ε S) : Prop :=
  ∀ c (Q Q' : Except ε (R c) → S → Prop) s, (∀ x s', Q x s' → Q' x s') → τ c Q s → τ c Q' s

/-- The weakest precondition of a program: what `s` must satisfy for the program to issue only
commands that `τ` admits and to end in `Q`. -/
def wp (τ : Transformer C R ε S) : Prog C R ε α → (Except ε α → S → Prop) → S → Prop
  | ret a, Q, s => Q (.ok a) s
  | raise e, Q, s => Q (.error e) s
  | call c k, Q, s => τ c (fun x s' => (k x).wp τ Q s') s

section wp

variable {τ : Transformer C R ε S}

/-- A program that has ended satisfies its postcondition. -/
theorem wp_outcome {p : Prog C R ε α} {x : Except ε α} (hx : p.outcome = some x)
    {Q : Except ε α → S → Prop} {s : S} (h : p.wp τ Q s) : Q x s := by
  cases p with
  | ret a => cases hx; exact h
  | raise e => cases hx; exact h
  | call c k => cases hx

/-- A value. -/
@[simp] theorem wp_ret (a : α) (Q : Except ε α → S → Prop) (s : S) :
    (ret a : Prog C R ε α).wp τ Q s ↔ Q (.ok a) s := Iff.rfl

/-- An exception. -/
@[simp] theorem wp_raise (e : ε) (Q : Except ε α → S → Prop) (s : S) :
    (raise e : Prog C R ε α).wp τ Q s ↔ Q (.error e) s := Iff.rfl

/-- A call, and what follows each answer. -/
@[simp] theorem wp_call (c : C) (k : Except ε (R c) → Prog C R ε α)
    (Q : Except ε α → S → Prop) (s : S) :
    (call c k).wp τ Q s ↔ τ c (fun x s' => (k x).wp τ Q s') s := Iff.rfl

/-- A single command has its own precondition. -/
theorem wp_perform (hτ : τ.Monotone) (c : C) (Q : Except ε (R c) → S → Prop) (s : S) :
    (perform c : Prog C R ε (R c)).wp τ Q s ↔ τ c Q s := by
  constructor
  · apply hτ
    rintro (e | a) s' h <;> exact h
  · apply hτ
    rintro (e | a) s' h <;> exact h

/-- A weaker postcondition has a weaker precondition. -/
theorem wp_mono (hτ : τ.Monotone) {p : Prog C R ε α} {Q Q' : Except ε α → S → Prop}
    (hQ : ∀ x s, Q x s → Q' x s) {s : S} (h : p.wp τ Q s) : p.wp τ Q' s := by
  induction p generalizing s with
  | ret a => exact hQ _ _ h
  | raise e => exact hQ _ _ h
  | call c k ih => exact hτ c _ _ s (fun x s' => ih x) h

/-- The precondition of a sequence: the first program must reach the precondition of the second,
or end it with an exception that is acceptable already. -/
theorem wp_bind (p : Prog C R ε α) (f : α → Prog C R ε β) (Q : Except ε β → S → Prop) (s : S) :
    (p >>= f).wp τ Q s ↔
      p.wp τ (fun x s' => match x with
        | .ok a => (f a).wp τ Q s'
        | .error e => Q (.error e) s') s := by
  induction p generalizing s with
  | ret a => rfl
  | raise e => rfl
  | call c k ih =>
    simp only [call_bind, wp_call]
    exact iff_of_eq (congrArg (τ c · s) (funext fun x => funext fun s' => propext (ih x s')))

/-- The precondition of a program whose result is mapped. -/
theorem wp_map (f : α → β) (p : Prog C R ε α) (Q : Except ε β → S → Prop) (s : S) :
    (f <$> p).wp τ Q s ↔ p.wp τ (fun x s' => Q (x.map f) s') s := by
  rw [← bind_pure_comp, wp_bind]
  refine iff_of_eq (congrArg (p.wp τ · s) (funext fun x => funext fun s' => ?_))
  cases x <;> rfl

/-- The precondition of `try p except h`. -/
theorem wp_tryCatch (p : Prog C R ε α) (h : ε → Prog C R ε α) (Q : Except ε α → S → Prop)
    (s : S) :
    (p.tryCatch h).wp τ Q s ↔
      p.wp τ (fun x s' => match x with
        | .ok a => Q (.ok a) s'
        | .error e => (h e).wp τ Q s') s := by
  induction p generalizing s with
  | ret a => rfl
  | raise e => rfl
  | call c k ih =>
    simp only [call_tryCatch, wp_call]
    exact iff_of_eq (congrArg (τ c · s) (funext fun x => funext fun s' => propext (ih x s')))

/-- The precondition of a program that is followed by another, however it ends. -/
theorem wp_andThen (p : Prog C R ε α) (f : Except ε α → Prog C R ε β) (Q : Except ε β → S → Prop)
    (s : S) : (p.andThen f).wp τ Q s ↔ p.wp τ (fun x s' => (f x).wp τ Q s') s := by
  induction p generalizing s with
  | ret a => rfl
  | raise e => rfl
  | call c k ih =>
    simp only [andThen, wp_call]
    exact iff_of_eq (congrArg (τ c · s) (funext fun x => funext fun s' => propext (ih x s')))

/-- The precondition of a check is a case split. -/
@[simp] theorem wp_require (b : Prop) [Decidable b] (e : ε) (Q : Except ε Unit → S → Prop)
    (s : S) :
    (require b e : Prog C R ε Unit).wp τ Q s ↔ (b → Q (.ok ()) s) ∧ (¬b → Q (.error e) s) := by
  by_cases hb : b
  · rw [require_pos hb]; simp [hb]
  · rw [require_neg hb]; simp [hb]

/-- A check at the start of a sequence is a case split. -/
theorem wp_require_bind (b : Prop) [Decidable b] (e : ε) (f : Unit → Prog C R ε α)
    (Q : Except ε α → S → Prop) (s : S) :
    (require b e >>= f).wp τ Q s ↔ (b → (f ()).wp τ Q s) ∧ (¬b → Q (.error e) s) := by
  rw [wp_bind, wp_require]

end wp

end Prog

end DropRoom.Effect
