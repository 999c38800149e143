import DropRoom.Effect.Machine

/-!
# Rely and guarantee

A process that runs beside others knows of the world only what the others leave true. The `Terms` of
a process say which commands it may issue where, and what the others rely on with it: a preorder of
worlds that its own commands keep to as well. `Terms.Meets` is what a program guarantees under its
terms, whatever happens meanwhile; its rules follow the program. `Machine.side_by_side` puts the
processes together: if every program meets its terms, and whatever one of them does is something
that the others rely on, then a property of the world that the commands keep under these terms holds
in every interleaving.
-/

namespace DropRoom.Effect

variable {C : Type} {R : C → Type} {ε α β W L : Type}

/-- The terms under which process `p` runs beside others. -/
structure Terms (m : Machine C R ε W) (p : ℕ) where
  /-- Where the process may issue a command. -/
  ok : C → W → Prop
  /-- How the world may have changed when the process looks at it again. -/
  rely : W → W → Prop
  refl : ∀ w, rely w w
  trans : ∀ {w₁ w₂ w₃}, rely w₁ w₂ → rely w₂ w₃ → rely w₁ w₃
  own : ∀ {c w x w'}, ok c w → m.Answer p c w x w' → rely w w'

namespace Terms

variable {m : Machine C R ε W} {p : ℕ} (T : Terms m p)

/-- A command may be issued, and leads on wherever the world moves after its answer. -/
def beside : Prog.Transformer C R ε W :=
  fun c Q w => T.ok c w ∧ ∀ x w', m.Answer p c w x w' → ∀ w'', T.rely w' w'' → Q x w''

/-- The transformer is monotone. -/
theorem beside_monotone : T.beside.Monotone :=
  fun _ _ _ _ hQ h => ⟨h.1, fun x w' hx w'' hw => hQ x w'' (h.2 x w' hx w'' hw)⟩

variable {T} in
/-- The world that a program ends in is one that the process relies on. -/
theorem wp_rely {prog : Prog C R ε α} {Q : Except ε α → W → Prop} {w : W}
    (h : prog.wp T.beside Q w) : prog.wp T.beside (fun r w' => T.rely w w' ∧ Q r w') w := by
  induction prog generalizing w with
  | ret a => exact ⟨T.refl w, h⟩
  | raise e => exact ⟨T.refl w, h⟩
  | call c k ih =>
    refine ⟨h.1, fun x w₁ hx w₂ hw₂ => ?_⟩
    refine Prog.wp_mono T.beside_monotone ?_ (ih x (h.2 x w₁ hx w₂ hw₂))
    exact fun r w₃ hr => ⟨T.trans (T.own h.1 hx) (T.trans hw₂ hr.1), hr.2⟩

/-- Whatever happens to the world before and meanwhile, the program issues only commands that it
may, and ends in `Q` when it returns. -/
def Meets (prog : Prog C R ε α) (Q : α → W → Prop) (w : W) : Prop :=
  ∀ w', T.rely w w' → prog.wp T.beside (fun r w₁ => ∀ a, r = .ok a → Q a w₁) w'

namespace Meets

variable {T} {w : W} {Q : α → W → Prop}

/-- What a program meets, it meets after the world has moved. -/
theorem later {prog : Prog C R ε α} {w' : W} (h : T.Meets prog Q w) (hw : T.rely w w') :
    T.Meets prog Q w' := fun w'' hw' => h w'' (T.trans hw hw')

/-- A weaker postcondition, in a world that the process relies on. -/
theorem mono {prog : Prog C R ε α} {Q' : α → W → Prop} (h : T.Meets prog Q w)
    (hQ : ∀ a w', T.rely w w' → Q a w' → Q' a w') : T.Meets prog Q' w := fun w' hw' =>
  Prog.wp_mono T.beside_monotone
    (fun _ w₁ hr a ha => hQ a w₁ (T.trans hw' hr.1) (hr.2 a ha)) (wp_rely (h w' hw'))

/-- A value. -/
theorem ret {a : α} (h : ∀ w', T.rely w w' → Q a w') : T.Meets (.ret a) Q w :=
  fun w' hw' b hb => by
    cases hb
    exact h w' hw'

/-- An exception. -/
theorem raise (e : ε) : T.Meets (.raise e) Q w := fun _ _ a ha => by cases ha

/-- One program after the other. -/
theorem bind {prog : Prog C R ε β} {f : β → Prog C R ε α}
    (h : T.Meets prog (fun b w₁ => T.Meets (f b) Q w₁) w) : T.Meets (prog >>= f) Q w := by
  intro w' hw'
  rw [Prog.wp_bind]
  refine Prog.wp_mono T.beside_monotone ?_ (h w' hw')
  rintro (e | b) w₁ hb
  · exact fun a ha => by cases ha
  · exact hb b rfl w₁ (T.refl w₁)

/-- The handler may be entered in any state that the others leave. -/
theorem tryCatch {prog : Prog C R ε α} {f : ε → Prog C R ε α} (h : T.Meets prog Q w)
    (hf : ∀ e w₁, T.rely w w₁ → T.Meets (f e) Q w₁) : T.Meets (prog.tryCatch f) Q w := by
  intro w' hw'
  rw [Prog.wp_tryCatch]
  refine Prog.wp_mono T.beside_monotone ?_ (wp_rely (h w' hw'))
  rintro (e | a) w₁ ⟨hw₁, ha⟩
  · exact hf e w₁ (T.trans hw' hw₁) w₁ (T.refl w₁)
  · exact ha

/-- The result may be changed. -/
theorem map {prog : Prog C R ε β} {f : β → α} (h : T.Meets prog (fun b w₁ => Q (f b) w₁) w) :
    T.Meets (f <$> prog) Q w := by
  intro w' hw'
  rw [Prog.wp_map]
  refine Prog.wp_mono T.beside_monotone ?_ (h w' hw')
  rintro (e | b) w₁ hb a ha
  · cases ha
  · cases ha
    exact hb b rfl

/-- What follows a check that has passed. -/
theorem require_bind {b : Prop} [Decidable b] {e : ε} {f : Unit → Prog C R ε α}
    (h : b → T.Meets (f ()) Q w) : T.Meets (Prog.require b e >>= f) Q w := by
  by_cases hb : b
  · rw [Prog.require_pos hb]
    exact h hb
  · rw [Prog.require_neg hb]
    exact raise e

/-- A command that may be issued whatever has happened, with what is known of its answer. -/
theorem perform {c : C} {Q : R c → W → Prop} (hok : ∀ w', T.rely w w' → T.ok c w')
    (hQ : ∀ w₁ a w₂ w₃, T.rely w w₁ → m.Answer p c w₁ (.ok a) w₂ → T.rely w₂ w₃ → Q a w₃) :
    T.Meets (Prog.perform c) Q w := by
  intro w' hw'
  rw [Prog.wp_perform T.beside_monotone]
  refine ⟨hok w' hw', fun x w₂ hx w₃ hw₃ a ha => ?_⟩
  cases ha
  exact hQ w' a w₂ w₃ hw' hx hw₃

/-- A program whose commands may all be issued whatever has happened. -/
theorem of_only {prog : Prog C R ε α} (h : prog.Only fun c => ∀ w', T.rely w w' → T.ok c w') :
    T.Meets prog (fun _ _ => True) w := by
  intro w' hw'
  induction prog generalizing w' with
  | ret a => exact fun _ _ => trivial
  | raise e => exact fun _ _ => trivial
  | call c k ih =>
    rw [Prog.only_call] at h
    refine ⟨h.1 w' hw', fun x w₂ hx w₃ hw₃ => ih x (h.2 x) w₃ ?_⟩
    exact T.trans hw' (T.trans (T.own (h.1 w' hw') hx) hw₃)

/-- What a process is about to issue, it may issue. -/
theorem ok {prog : Prog C R ε α} (h : T.Meets prog Q w) {c : C} {k : Except ε (R c) → Prog C R ε α}
    (hp : prog = .call c k) : T.ok c w := by
  subst hp
  exact (h w (T.refl w)).1

end Meets

end Terms

/-- The rule for processes side by side. -/
theorem Machine.side_by_side {m : Machine C R ε W} {M : Monitor C R ε L} {g : Guard C W L}
    {T : (p : ℕ) → Terms m p} {J : W → Prop} {s s' : Conf C R ε α W L}
    (hcall : ∀ p c w x w', J w → (T p).ok c w → m.Answer p c w x w' →
      J w' ∧ ∀ q, (T q).rely w w')
    (henv : ∀ w w', J w → m.env w w' → J w' ∧ ∀ q, (T q).rely w w')
    (h : m.Reaches M g s s') (hJ : J s.world)
    (hs : ∀ p, (T p).Meets (s.proc p) (fun _ _ => True) s.world) :
    J s'.world ∧ ∀ p, (T p).Meets (s'.proc p) (fun _ _ => True) s'.world := by
  induction h with
  | refl => exact ⟨hJ, hs⟩
  | tail _ hstep ih =>
    obtain ⟨hJ', hmeets⟩ := ih
    cases hstep with
    | @call p c k x w' hp _ ha =>
      have hnext := hmeets p
      rw [hp] at hnext
      obtain ⟨hok, hnext⟩ := hnext _ ((T p).refl _)
      obtain ⟨hJ₁, hrely⟩ := hcall p c _ x w' hJ' hok ha
      refine ⟨hJ₁, fun q => ?_⟩
      by_cases hq : q = p
      · subst hq
        simp only [Conf.answered, Function.update_self]
        exact fun w'' hw'' => hnext x w' ha w'' hw''
      · simp only [Conf.answered, Function.update_of_ne hq]
        exact (hmeets q).later (hrely q)
    | env he =>
      obtain ⟨hJ₁, hrely⟩ := henv _ _ hJ' he
      exact ⟨hJ₁, fun q => (hmeets q).later (hrely q)⟩

end DropRoom.Effect
