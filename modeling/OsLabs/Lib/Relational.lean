import OsLabs.Lib.StateError

/-!
# Two computations side by side

`both m n Φ s t`: the computation `m` from `s` and the computation `n` from `t` either return, with
values and states that are related by `Φ`, or stop with the same error. The states at the error are
not compared.

* `both_bind` runs two sequences in step, `both_same` a computation beside itself;
* `Passes g m`: changing the state by `g` and running `m` can be done in either order; `both_pass`
  is the rule that moves the change past the computation.
-/

namespace OsLabs.StateError

variable {ε σ τ α β γ δ : Type}

/-- Both computations return, related by `Φ`, or both stop with the same error. -/
def both (m : EStateM ε σ α) (n : EStateM ε τ β) (Φ : α → σ → β → τ → Prop) (s : σ) (t : τ) :
    Prop :=
  wp m (fun a s' => wp n (fun b t' => Φ a s' b t') (fun _ _ => False) t)
    (fun e _ => wp n (fun _ _ => False) (fun e' _ => e' = e) t) s

section Rules

variable {m : EStateM ε σ α} {n : EStateM ε τ β} {s : σ} {t : τ}
variable {Φ Ψ : α → σ → β → τ → Prop}

/-- What is known of the first computation says something about the second. -/
theorem both_right {Q : α → σ → Prop} {E : ε → σ → Prop} (h : both m n Φ s t) (hm : wp m Q E s) :
    wp n (fun b t' => ∃ a s', Φ a s' b t' ∧ Q a s') (fun e _ => ∃ s', E e s') t := by
  have hboth := wp_and h hm
  cases hrun : m s with
  | ok a s' =>
    have hok := of_ok hboth hrun
    exact wp_mono hok.1 (fun b t' hb => ⟨a, s', hb, hok.2⟩) fun _ _ he => he.elim
  | error e s' =>
    have herr := of_error hboth hrun
    exact wp_mono herr.1 (fun _ _ hb => hb.elim) fun _ _ he => ⟨s', he ▸ herr.2⟩

/-- The rule for sequences. -/
theorem both_bind {f : α → EStateM ε σ γ} {g : β → EStateM ε τ δ} {Θ : γ → σ → δ → τ → Prop}
    (h : both m n Ψ s t) (hf : ∀ a s' b t', Ψ a s' b t' → both (f a) (g b) Θ s' t') :
    both (m >>= f) (n >>= g) Θ s t := by
  unfold both at h hf ⊢
  rw [wp_bind]
  refine wp_mono h (fun a s' hn => ?_) fun e s' hn => ?_
  · -- `n` has returned too, so both go on
    obtain ⟨b, t', ht, hΨ⟩ := wp_ok hn
    refine wp_mono (hf a s' b t' hΨ) (fun c u hc => ?_) fun e u he => ?_
    · rw [wp_bind]
      exact wp_of_eq ht hc
    · rw [wp_bind]
      exact wp_of_eq ht he
  · rw [wp_bind]
    exact wp_mono hn (fun _ _ h => h.elim) fun _ _ h => h

/-- One computation, twice from the same state. -/
theorem both_same {Q : α → σ → Prop} {E : ε → σ → Prop} (h : wp m Q E s) :
    both m m (fun a s' b t' => b = a ∧ t' = s' ∧ Q a s') s s := by
  unfold both
  cases hm : m s with
  | ok a s' => exact wp_of_eq hm (wp_of_eq hm ⟨rfl, rfl, of_ok h hm⟩)
  | error e s' =>
    unfold wp
    simp only [hm]

/-- Sequences with the same first part. -/
theorem both_bind_same {f : α → EStateM ε σ γ} {g : α → EStateM ε σ δ}
    {Θ : γ → σ → δ → σ → Prop} {Q : α → σ → Prop} {E : ε → σ → Prop} (h : wp m Q E s)
    (hf : ∀ a s', Q a s' → both (f a) (g a) Θ s' s') : both (m >>= f) (m >>= g) Θ s s := by
  refine both_bind (both_same h) ?_
  rintro a s' b t' ⟨rfl, rfl, hQ⟩
  exact hf b t' hQ

theorem both_get {f : σ → EStateM ε σ γ} {g : σ → EStateM ε σ δ} {Θ : γ → σ → δ → σ → Prop}
    (h : both (f s) (g s) Θ s s) : both (get >>= f) (get >>= g) Θ s s := h

end Rules

/-! ## A change that passes a computation -/

/-- `m` does not notice the change `g` of the state, and keeps it. -/
def Passes (g : σ → σ) (m : EStateM ε σ α) : Prop :=
  ∀ s, wp m (fun a s' => m (g s) = .ok a (g s')) (fun e s' => m (g s) = .error e (g s')) s

section Passes

variable {g : σ → σ} {m : EStateM ε σ α} {s : σ}

theorem passes_pure (g : σ → σ) (a : α) : Passes g (pure a : EStateM ε σ α) := fun _ => rfl

theorem passes_throw (g : σ → σ) (e : ε) : Passes g (throw e : EStateM ε σ α) := fun _ => rfl

theorem Passes.bind {f : α → EStateM ε σ β} (hm : Passes g m) (hf : ∀ a, Passes g (f a)) :
    Passes g (m >>= f) := by
  intro s
  rw [wp_bind]
  refine wp_mono (hm s) (fun a s' h => ?_) fun e s' h => ?_
  · rw [ok_bind h]
    exact hf a s'
  · change EStateM.bind m f (g s) = _
    simp only [EStateM.bind, h]

theorem passes_modify {f : σ → σ} (h : ∀ s, f (g s) = g (f s)) :
    Passes g (modify f : EStateM ε σ PUnit) := fun s => by
  rw [wp_modify]
  change EStateM.Result.ok PUnit.unit (f (g s)) = _
  rw [h]

/-- Reading the state is noticed only in what is read. -/
theorem passes_get_bind {f : σ → EStateM ε σ α} (h : ∀ s, Passes g (f s))
    (hf : ∀ s, f (g s) = f s) : Passes g (get >>= f) := by
  intro s
  rw [wp_bind, wp_get]
  have hrun : ∀ s', (get >>= f : EStateM ε σ α) s' = f s' s' := fun _ => rfl
  rw [hrun, hf]
  exact h s s

/-- The change can be made after the computation instead of before it. -/
theorem both_pass {f : α → EStateM ε σ β} {f' : α → EStateM ε σ γ} {Q : α → σ → Prop}
    {E : ε → σ → Prop} {Θ : β → σ → γ → σ → Prop} (hp : Passes g m) (h : wp m Q E s)
    (hf : ∀ a s', Q a s' → both (f a) (f' a) Θ (g s') (g s')) :
    both (modify g >>= fun _ => m >>= f) (m >>= fun a => modify g >>= fun _ => f' a) Θ s s := by
  have hg := wp_and (hp s) h
  unfold both
  simp only [wp_bind, wp_modify]
  cases hm : m s with
  | ok a s' =>
    have := of_ok hg hm
    refine wp_of_eq this.1 ?_
    refine wp_mono (hf a s' this.2) (fun b t hb => ?_) fun e t he => ?_
    · exact wp_of_eq hm hb
    · exact wp_of_eq hm he
  | error e s' =>
    have := of_error hg hm
    unfold wp
    rw [this.1, hm]

end Passes

end OsLabs.StateError
