import Mathlib.Data.List.Basic
import Mathlib.Data.Option.Basic

/-!
# Transition systems and simulations

An `Lts` is a transition system whose steps show an event or are silent. A run shows the events
of its steps in order; a trace is what a run from an initial state shows.

* `Lts.Invariant` is the induction over runs: a property of the initial states that every step
  from a reachable state keeps holds of every reachable state.
* `Lts.Simulation` relates the states of a system to those of a more abstract one, step by
  step; `Simulation.trace` concludes that every trace of the first is one of the second.
* `Lts.within` restricts a system to the steps that its environment is held to.
-/

namespace OsLabs

variable {ε σ τ : Type*}

/-- A transition system. A step shows an event, or none. -/
structure Lts (ε σ : Type*) where
  init : σ → Prop
  step : σ → Option ε → σ → Prop

namespace Lts

variable {M : Lts ε σ} {A : Lts ε τ}

/-- `M.Run s t s'`: steps lead from `s` to `s'` and show the events `t`. -/
inductive Run (M : Lts ε σ) : σ → List ε → σ → Prop
  | refl (s : σ) : Run M s [] s
  | step {s s' s'' : σ} {t : List ε} {o : Option ε} :
      Run M s t s' → M.step s' o s'' → Run M s (t ++ o.toList) s''

namespace Run

variable {s s' s'' : σ} {t t' : List ε} {o : Option ε}

theorem single (h : M.step s o s') : M.Run s o.toList s' := by
  simpa using (Run.refl s).step h

theorem trans (h : M.Run s t s') (h' : M.Run s' t' s'') : M.Run s (t ++ t') s'' := by
  induction h' with
  | refl => simpa using h
  | step _ hstep ih =>
    rw [← List.append_assoc]
    exact ih.step hstep

theorem silent (h : M.Run s t s') (h' : M.step s' none s'') : M.Run s t s'' := by
  simpa using h.step h'

theorem event {e : ε} (h : M.Run s t s') (h' : M.step s' (some e) s'') :
    M.Run s (t ++ [e]) s'' := h.step h'

end Run

/-- Some run from an initial state ends in `s`. -/
def Reachable (M : Lts ε σ) (s : σ) : Prop := ∃ s₀ t, M.init s₀ ∧ M.Run s₀ t s

/-- Some run from an initial state shows `t`. -/
def Trace (M : Lts ε σ) (t : List ε) : Prop := ∃ s₀ s, M.init s₀ ∧ M.Run s₀ t s

theorem Reachable.init {s : σ} (h : M.init s) : M.Reachable s := ⟨s, [], h, .refl s⟩

theorem Reachable.step {s s' : σ} {o : Option ε} (h : M.Reachable s) (h' : M.step s o s') :
    M.Reachable s' := by
  obtain ⟨s₀, t, hinit, hrun⟩ := h
  exact ⟨s₀, _, hinit, hrun.step h'⟩

theorem Reachable.run {s s' : σ} {t : List ε} (h : M.Reachable s) (h' : M.Run s t s') :
    M.Reachable s' := by
  obtain ⟨s₀, t₀, hinit, hrun⟩ := h
  exact ⟨s₀, t₀ ++ t, hinit, hrun.trans h'⟩

/-! ## Invariants -/

/-- `I` holds initially, and every step from a reachable state keeps it. -/
structure Invariant (M : Lts ε σ) (I : σ → Prop) : Prop where
  init : ∀ s, M.init s → I s
  step : ∀ s o s', M.Reachable s → I s → M.step s o s' → I s'

theorem Invariant.run {I : σ → Prop} (h : M.Invariant I) {s₀ s : σ} {t : List ε}
    (hinit : M.init s₀) (hrun : M.Run s₀ t s) : I s := by
  induction hrun with
  | refl => exact h.init s₀ hinit
  | step hrun hstep ih => exact h.step _ _ _ ⟨s₀, _, hinit, hrun⟩ ih hstep

theorem Invariant.reachable {I : σ → Prop} (h : M.Invariant I) {s : σ} (hs : M.Reachable s) :
    I s := by
  obtain ⟨s₀, t, hinit, hrun⟩ := hs
  exact h.run hinit hrun

/-! ## Simulations -/

/-- `R` relates every initial state to one of `A`, and every step from related states to steps of
`A` that show the same. -/
structure Simulation (M : Lts ε σ) (A : Lts ε τ) (R : σ → τ → Prop) : Prop where
  init : ∀ s, M.init s → ∃ a, A.init a ∧ R s a
  step : ∀ s a o s', M.Reachable s → R s a → M.step s o s' → ∃ a', A.Run a o.toList a' ∧ R s' a'

theorem Simulation.run {R : σ → τ → Prop} (h : M.Simulation A R) {s₀ s : σ} {t : List ε}
    (hinit : M.init s₀) (hrun : M.Run s₀ t s) :
    ∃ a₀ a, A.init a₀ ∧ A.Run a₀ t a ∧ R s a := by
  induction hrun with
  | refl =>
    obtain ⟨a, ha, hR⟩ := h.init s₀ hinit
    exact ⟨a, a, ha, .refl a, hR⟩
  | step hrun hstep ih =>
    obtain ⟨a₀, a, ha, harun, hR⟩ := ih
    obtain ⟨a', harun', hR'⟩ := h.step _ a _ _ ⟨s₀, _, hinit, hrun⟩ hR hstep
    exact ⟨a₀, a', ha, harun.trans harun', hR'⟩

/-- What the system shows, the abstract one can show. -/
theorem Simulation.trace {R : σ → τ → Prop} (h : M.Simulation A R) {t : List ε}
    (ht : M.Trace t) : A.Trace t := by
  obtain ⟨s₀, s, hinit, hrun⟩ := ht
  obtain ⟨a₀, a, ha, harun, -⟩ := h.run hinit hrun
  exact ⟨a₀, a, ha, harun⟩

/-! ## A restricted environment -/

/-- The system with only those steps that meet `P`. -/
def within (M : Lts ε σ) (P : σ → Option ε → σ → Prop) : Lts ε σ where
  init := M.init
  step s o s' := M.step s o s' ∧ P s o s'

theorem Run.of_within {P : σ → Option ε → σ → Prop} {s s' : σ} {t : List ε}
    (h : (M.within P).Run s t s') : M.Run s t s' := by
  induction h with
  | refl => exact .refl s
  | step _ hstep ih => exact ih.step hstep.1

theorem Reachable.of_within {P : σ → Option ε → σ → Prop} {s : σ}
    (h : (M.within P).Reachable s) : M.Reachable s := by
  obtain ⟨s₀, t, hinit, hrun⟩ := h
  exact ⟨s₀, t, hinit, hrun.of_within⟩

theorem Trace.of_within {P : σ → Option ε → σ → Prop} {t : List ε} (h : (M.within P).Trace t) :
    M.Trace t := by
  obtain ⟨s₀, s, hinit, hrun⟩ := h
  exact ⟨s₀, s, hinit, hrun.of_within⟩

end Lts

end OsLabs
