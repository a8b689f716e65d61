import Mathlib.Logic.Basic
import Mathlib.Tactic.Common

/-!
# Weakest preconditions for state with errors

`wp m Q E s`: the computation `m`, run from `s`, either returns a value and a state in `Q` or
stops with an error and a state in `E`. The state at the error is kept, so `E` can speak about
what a computation has already done when it stops. Taking `E` empty is total correctness.

* `wp_bind` and the rules beside it compute `wp` along a `do` block;
* `wp_mono` is the rule of consequence, `wp_and` joins two postconditions of one run;
* `zoom` runs a computation on a component of a larger state (`wp_zoom`);
* `wp_ok` and `of_ok` pass between `wp` and the equation `m s = .ok a s'`.
-/

namespace OsLabs.StateError

variable {ε σ τ α β : Type}

/-- The weakest precondition of `m` for the postcondition `Q` and the error condition `E`. -/
def wp (m : EStateM ε σ α) (Q : α → σ → Prop) (E : ε → σ → Prop) (s : σ) : Prop :=
  match m s with
  | .ok a s' => Q a s'
  | .error e s' => E e s'

variable {Q Q' : α → σ → Prop} {E E' : ε → σ → Prop} {s : σ}

@[simp] theorem wp_pure (a : α) : wp (pure a) Q E s ↔ Q a s := Iff.rfl

@[simp] theorem wp_throw (e : ε) : wp (throw e) Q E s ↔ E e s := Iff.rfl

@[simp] theorem wp_get {Q : σ → σ → Prop} : wp (get : EStateM ε σ σ) Q E s ↔ Q s s := Iff.rfl

@[simp] theorem wp_set {Q : PUnit → σ → Prop} (t : σ) :
    wp (set t : EStateM ε σ PUnit) Q E s ↔ Q ⟨⟩ t := Iff.rfl

@[simp] theorem wp_modify {Q : PUnit → σ → Prop} (f : σ → σ) :
    wp (modify f : EStateM ε σ PUnit) Q E s ↔ Q ⟨⟩ (f s) := Iff.rfl

@[simp] theorem wp_bind (m : EStateM ε σ α) (f : α → EStateM ε σ β) {Q : β → σ → Prop} :
    wp (m >>= f) Q E s ↔ wp m (fun a s' => wp (f a) Q E s') E s := by
  change wp (EStateM.bind m f) Q E s ↔ _
  unfold wp EStateM.bind
  cases m s <;> rfl

@[simp] theorem wp_ite (c : Prop) [Decidable c] (m n : EStateM ε σ α) :
    wp (if c then m else n) Q E s ↔ (c → wp m Q E s) ∧ (¬c → wp n Q E s) := by
  by_cases h : c <;> simp [h]

/-- The rule of consequence. -/
theorem wp_mono {m : EStateM ε σ α} (h : wp m Q E s) (hQ : ∀ a s', Q a s' → Q' a s')
    (hE : ∀ e s', E e s' → E' e s') : wp m Q' E' s := by
  unfold wp at h ⊢
  cases hm : m s with
  | ok a s' => exact hQ a s' (by simpa [hm] using h)
  | error e s' => exact hE e s' (by simpa [hm] using h)

/-- Consequence in the postcondition alone. -/
theorem wp_post {m : EStateM ε σ α} (h : wp m Q E s) (hQ : ∀ a s', Q a s' → Q' a s') :
    wp m Q' E s :=
  wp_mono h hQ fun _ _ he => he

/-- Two postconditions of the same run hold together. -/
theorem wp_and {m : EStateM ε σ α} (h : wp m Q E s) (h' : wp m Q' E' s) :
    wp m (fun a s' => Q a s' ∧ Q' a s') (fun e s' => E e s' ∧ E' e s') s := by
  unfold wp at h h' ⊢
  cases hm : m s with
  | ok a s' => exact ⟨by simpa [hm] using h, by simpa [hm] using h'⟩
  | error e s' => exact ⟨by simpa [hm] using h, by simpa [hm] using h'⟩

/-- A run that returned is described by its postcondition. -/
theorem of_ok {m : EStateM ε σ α} {a : α} {s' : σ} (h : wp m Q E s) (hm : m s = .ok a s') :
    Q a s' := by
  unfold wp at h
  rwa [hm] at h

/-- A run that stopped is described by its error condition. -/
theorem of_error {m : EStateM ε σ α} {e : ε} {s' : σ} (h : wp m Q E s) (hm : m s = .error e s') :
    E e s' := by
  unfold wp at h
  rwa [hm] at h

/-- Every run is described by what it returned. -/
theorem wp_eq (m : EStateM ε σ α) (s : σ) :
    wp m (fun a s' => m s = .ok a s') (fun e s' => m s = .error e s') s := by
  unfold wp
  cases m s <;> rfl

/-- A run without an allowed error returns. -/
theorem wp_ok {m : EStateM ε σ α} (h : wp m Q (fun _ _ => False) s) :
    ∃ a s', m s = .ok a s' ∧ Q a s' := by
  unfold wp at h
  cases hm : m s with
  | ok a s' => exact ⟨a, s', rfl, by simpa [hm] using h⟩
  | error e s' => exact absurd h (by simp [hm])

/-- A run that returns `b`, with the postcondition of its final state. -/
theorem ok_of_wp {m : EStateM ε σ α} {b : α} {P : σ → Prop}
    (h : wp m (fun a s' => a = b ∧ P s') (fun _ _ => False) s) : ∃ s', m s = .ok b s' ∧ P s' := by
  obtain ⟨a, s', hm, rfl, hP⟩ := wp_ok h
  exact ⟨s', hm, hP⟩

/-- A run whose result is known. -/
theorem eq_ok_of_wp {m : EStateM ε σ α} {b : α} {t : σ}
    (h : wp m (fun a s' => a = b ∧ s' = t) (fun _ _ => False) s) : m s = .ok b t := by
  obtain ⟨a, s', hm, rfl, rfl⟩ := wp_ok h
  exact hm

/-- A run whose error is known. -/
theorem eq_error_of_wp {m : EStateM ε σ α} {e : ε} {t : σ}
    (h : wp m (fun _ _ => False) (fun e' s' => e' = e ∧ s' = t) s) : m s = .error e t := by
  unfold wp at h
  cases hm : m s with
  | ok a s' => exact absurd h (by simp [hm])
  | error e' s' =>
    obtain ⟨rfl, rfl⟩ : e' = e ∧ s' = t := by simpa [hm] using h
    rfl

/-- The exact postcondition of a known run. -/
theorem wp_of_eq {m : EStateM ε σ α} {a : α} {s' : σ} (hm : m s = .ok a s') (h : Q a s') :
    wp m Q E s := by
  unfold wp
  rwa [hm]

/-- A sequence goes on from where its first part returned. -/
theorem ok_bind {m : EStateM ε σ α} {f : α → EStateM ε σ β} {a : α} {s₁ : σ}
    (h : m s = .ok a s₁) : (m >>= f) s = f a s₁ := by
  change EStateM.bind m f s = _
  simp only [EStateM.bind, h]

/-- A sequence that returned is two runs that returned. -/
theorem bind_ok {m : EStateM ε σ α} {f : α → EStateM ε σ β} {b : β} {s' : σ}
    (h : (m >>= f) s = .ok b s') : ∃ a s₁, m s = .ok a s₁ ∧ f a s₁ = .ok b s' := by
  change EStateM.bind m f s = _ at h
  unfold EStateM.bind at h
  cases hm : m s with
  | ok a s₁ => exact ⟨a, s₁, rfl, by simpa [hm] using h⟩
  | error e s₁ => exact absurd h (by simp [hm])

/-! ## Running on a component of the state -/

/-- Run `m` on the component of the state given by `get` and `put`. -/
def zoom (get : σ → τ) (put : τ → σ → σ) (m : EStateM ε τ α) : EStateM ε σ α := fun s =>
  match m (get s) with
  | .ok a t => .ok a (put t s)
  | .error e t => .error e (put t s)

@[simp] theorem wp_zoom (get : σ → τ) (put : τ → σ → σ) (m : EStateM ε τ α) :
    wp (zoom get put m) Q E s ↔
      wp m (fun a t => Q a (put t s)) (fun e t => E e (put t s)) (get s) := by
  unfold wp zoom
  cases m (get s) <;> rfl

end OsLabs.StateError
