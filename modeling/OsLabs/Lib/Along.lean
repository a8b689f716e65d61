import OsLabs.Lib.StateError
import Mathlib.Order.Defs.Unbundled

/-!
# Computations along a relation

`Along R m`: where `m` returns, the state it leaves is related by `R` to the state it started from.
For a preorder this passes through sequences, so that what a long computation leaves alone is read
off its parts.
-/

namespace OsLabs.StateError

variable {ε σ τ α β : Type} {R : σ → σ → Prop}

/-- `m` leaves a state that is related to the one it started from. -/
def Along (R : σ → σ → Prop) (m : EStateM ε σ α) : Prop :=
  ∀ s, wp m (fun _ s' => R s s') (fun _ _ => True) s

namespace Along

theorem pure [Std.Refl R] (a : α) : Along R (pure a : EStateM ε σ α) :=
  fun s => (wp_pure a).mpr (Std.Refl.refl s)

theorem throw (e : ε) : Along R (throw e : EStateM ε σ α) :=
  fun _ => (wp_throw e).mpr trivial

theorem modify {f : σ → σ} (h : ∀ s, R s (f s)) : Along R (modify f : EStateM ε σ Unit) :=
  fun s => (wp_modify f).mpr (h s)

theorem zoom {get : σ → τ} {put : τ → σ → σ} (h : ∀ t s, R s (put t s)) (m : EStateM ε τ α) :
    Along R (zoom get put m) := fun s => by
  rw [wp_zoom]
  exact wp_mono (wp_eq m _) (fun _ t _ => h t s) fun _ _ _ => trivial

/-- The rule for sequences. -/
theorem bind [IsTrans σ R] {m : EStateM ε σ α} {f : α → EStateM ε σ β} (hm : Along R m)
    (hf : ∀ a, Along R (f a)) : Along R (m >>= f) := fun s => by
  rw [wp_bind]
  refine wp_mono (hm s) (fun a s₁ h₁ => ?_) fun _ _ h => h
  exact wp_mono (hf a s₁) (fun _ s₂ h₂ => IsTrans.trans s s₁ s₂ h₁ h₂) fun _ _ h => h

theorem get_bind {f : σ → EStateM ε σ β} (hf : ∀ s, Along R (f s)) : Along R (get >>= f) :=
  fun s => by
    rw [wp_bind, wp_get]
    exact hf s s

theorem ite {c : Prop} [Decidable c] {m n : EStateM ε σ α} (hm : Along R m) (hn : Along R n) :
    Along R (if c then m else n) := by
  split
  · exact hm
  · exact hn

end Along

end OsLabs.StateError
