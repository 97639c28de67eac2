import SpeechDecoder.Failure

/-! What holds of every result that a computation can give, for computations that check as they go. -/
namespace SpeechDecoder.Outcome
variable {α β : Type}

theorem bindOk {ε : Type} {x : Except ε α} {f : α → Except ε β} {b : β} (ok : x >>= f = .ok b) :
    ∃ a, x = .ok a ∧ f a = .ok b := by
  cases x with
  | error e => cases ok
  | ok a => exact ⟨a, rfl, ok⟩

theorem checkOk {ε : Type} {c : Prop} [Decidable c] {e : ε} {f : Unit → Except ε β} {b : β}
    (ok : (if c then (.error e : Except ε Unit) >>= f else f ()) = .ok b) : ¬ c ∧ f () = .ok b := by
  split at ok
  · cases ok
  · exact ⟨‹_›, ok⟩

theorem bindError {ε : Type} {x : Except ε α} {f : α → Except ε β} {e : ε} :
    x >>= f = .error e ↔ x = .error e ∨ ∃ a, x = .ok a ∧ f a = .error e := by
  cases x <;> simp [bind, Except.bind]

theorem checkError {ε : Type} {c : Prop} [Decidable c] {e e' : ε} {f : Unit → Except ε β} :
    (if c then (.error e : Except ε Unit) >>= f else f ()) = .error e' ↔ c ∧ e = e' ∨ ¬ c ∧ f () = .error e' := by
  split <;> simp [bind, Except.bind, *]

theorem toOptionOk {ε : Type} {x : Except ε α} {a : α} (ok : x.toOption = some a) : x = .ok a := by
  cases x with
  | error e => cases ok
  | ok a => exact congrArg Except.ok (Option.some.inj ok)

theorem mapOk {ε : Type} {x : Except ε α} {f : α → β} {b : β}
    (ok : (x.map f).toOption = some b) : ∃ a, x = .ok a ∧ f a = b := by
  cases x with
  | error e => cases ok
  | ok a => exact ⟨a, rfl, Option.some.inj ok⟩

theorem mapErrorOk {ε δ : Type} {x : Except ε α} {f : ε → δ} {a : α} (ok : x.mapError f = .ok a) : x = .ok a := by
  cases x with
  | error e => cases ok
  | ok b => exact congrArg Except.ok (Except.ok.inj ok)

/-- Results that fail alike, or succeed with values that belong together. -/
inductive Both {ε : Type} (related : α → β → Prop) : Except ε α → Except ε β → Prop where
  | failed (e : ε) : Both related (.error e) (.error e)
  | made {a : α} {b : β} (same : related a b) : Both related (.ok a) (.ok b)

theorem Both.refl {ε : Type} (x : Except ε α) : Both Eq x x := by
  cases x with
  | error e => exact .failed e
  | ok a => exact .made rfl

theorem Both.bind {ε γ δ : Type} {related : α → β → Prop} {next : γ → δ → Prop} {x : Except ε α}
    {y : Except ε β} {f : α → Except ε γ} {g : β → Except ε δ} (both : Both related x y)
    (each : ∀ a b, related a b → Both next (f a) (g b)) : Both next (x >>= f) (y >>= g) := by
  cases both with
  | failed e => exact .failed e
  | made same => exact each _ _ same

theorem Both.map {ε γ δ : Type} {related : α → β → Prop} {next : γ → δ → Prop} {x : Except ε α}
    {y : Except ε β} {f : α → γ} {g : β → δ} (both : Both related x y)
    (each : ∀ a b, related a b → next (f a) (g b)) : Both next (x.map f) (y.map g) := by
  cases both with
  | failed e => exact .failed e
  | made same => exact .made (each _ _ same)

theorem Both.mapError {ε δ : Type} {related : α → β → Prop} {x : Except ε α} {y : Except ε β}
    (both : Both related x y) (f : ε → δ) : Both related (x.mapError f) (y.mapError f) := by
  cases both with
  | failed e => exact .failed (f e)
  | made same => exact .made same

theorem Both.ok {ε : Type} {related : α → β → Prop} {a : α} {y : Except ε β} (both : Both related (.ok a) y) :
    ∃ b, y = .ok b ∧ related a b := by
  cases both with
  | made same => exact ⟨_, rfl, same⟩

def Ensures (x : Outcome α) (holds : α → Prop) : Prop := ∀ a, x = .ok a → holds a

theorem ensuresOk {a : α} {holds : α → Prop} (h : holds a) : Ensures (.ok a) holds := by
  intro b same
  cases same
  exact h

theorem ensuresError {e : Failure} {holds : α → Prop} : Ensures (.error e : Outcome α) holds := by
  intro b same
  cases same

theorem ensuresBind {x : Outcome α} {f : α → Outcome β} {holds : β → Prop}
    (h : ∀ a, x = .ok a → Ensures (f a) holds) : Ensures (x >>= f) holds := by
  intro b same
  obtain ⟨a, first, last⟩ := bindOk same
  exact h a first b last

theorem ensuresCheck {c : Prop} [Decidable c] {e : Failure} {f : Unit → Outcome β}
    {holds : β → Prop} (h : ¬ c → Ensures (f ()) holds) :
    Ensures (if c then (.error e : Outcome Unit) >>= f else f ()) holds := by
  split
  · exact ensuresBind fun a same => by cases same
  · next passed => exact h passed

end SpeechDecoder.Outcome
