import Mathlib.Logic.Function.Basic
import Mathlib.Tactic.Common

/-!
# Slots that hold the objects of a pool

A pool marks the objects that are in use, and slots refer to them; an empty slot holds `z`. In
`Exact` no two slots hold the same object, and an object is marked if and only if a slot holds it.
`Exact.alloc` and `Exact.free` are the two moves of the pool.
-/

namespace OsLabs.Slots

variable {ι A : Type*} {z : A} {dom : A → Prop} {used used' : A → Bool} {T : ι → A}

/-- Every marked object of the pool is held by exactly one slot, and only those are held. -/
structure Exact (z : A) (dom : A → Prop) (used : A → Bool) (T : ι → A) : Prop where
  inj : ∀ i j, T i = T j → T i ≠ z → i = j
  mem : ∀ i, T i ≠ z → dom (T i)
  held : ∀ b, b ≠ z → dom b → (used b = true ↔ ∃ i, T i = b)

namespace Exact

theorem marked (h : Exact z dom used T) {i : ι} (hi : T i ≠ z) : used (T i) = true :=
  (h.held _ hi (h.mem i hi)).mpr ⟨i, rfl⟩

/-- Only the marks of the pool matter. -/
theorem congr (h : Exact z dom used T) (hu : ∀ b, dom b → used' b = used b) :
    Exact z dom used' T where
  inj := h.inj
  mem := h.mem
  held b hb hd := by rw [hu b hd, h.held b hb hd]

variable [DecidableEq ι] {i : ι} {b : A}

/-- An object that is not marked goes into an empty slot. -/
theorem alloc (h : Exact z dom used T) (hi : T i = z) (hb : b ≠ z) (hdom : dom b)
    (hfree : used b = false) (hu : ∀ c, dom c → (used' c = true ↔ used c = true ∨ c = b)) :
    Exact z dom used' (Function.update T i b) := by
  have hself : Function.update T i b i = b := Function.update_self i b T
  have hne : ∀ j, j ≠ i → Function.update T i b j = T j := fun j hj => Function.update_of_ne hj b T
  have hno : ∀ j, T j ≠ b := fun j e => by
    have := h.marked (i := j) (by rw [e]; exact hb)
    rw [e, hfree] at this
    cases this
  refine ⟨fun j l he h0 => ?_, fun j h0 => ?_, fun c hc hd => ?_⟩
  · rcases eq_or_ne j i with hj | hj <;> rcases eq_or_ne l i with hl | hl
    · rw [hj, hl]
    · rw [hj, hself, hne l hl] at he
      exact absurd he.symm (hno l)
    · rw [hl, hself, hne j hj] at he
      exact absurd he (hno j)
    · rw [hne j hj, hne l hl] at he
      rw [hne j hj] at h0
      exact h.inj j l he h0
  · rcases eq_or_ne j i with rfl | hj
    · rwa [hself]
    · rw [hne j hj] at h0 ⊢
      exact h.mem j h0
  · rw [hu c hd, h.held c hc hd]
    constructor
    · rintro (⟨j, rfl⟩ | rfl)
      · exact ⟨j, hne j fun e => hc (by rw [e, hi])⟩
      · exact ⟨i, hself⟩
    · rintro ⟨j, rfl⟩
      rcases eq_or_ne j i with rfl | hj
      · exact Or.inr hself
      · exact Or.inl ⟨j, (hne j hj).symm⟩

/-- A slot is emptied and its object is no longer marked. -/
theorem free (h : Exact z dom used T) (hi : T i = b) (hb : b ≠ z)
    (hu : ∀ c, dom c → (used' c = true ↔ used c = true ∧ c ≠ b)) :
    Exact z dom used' (Function.update T i z) := by
  have hself : Function.update T i z i = z := Function.update_self i z T
  have hne : ∀ j, j ≠ i → Function.update T i z j = T j := fun j hj => Function.update_of_ne hj z T
  have hold : ∀ j, Function.update T i z j ≠ z → j ≠ i := fun j h0 e => h0 (by rw [e, hself])
  refine ⟨fun j l he h0 => ?_, fun j h0 => ?_, fun c hc hd => ?_⟩
  · have hj := hold j h0
    have hl := hold l (by rwa [← he])
    rw [hne j hj, hne l hl] at he
    rw [hne j hj] at h0
    exact h.inj j l he h0
  · have hj := hold j h0
    rw [hne j hj] at h0 ⊢
    exact h.mem j h0
  · rw [hu c hd, h.held c hc hd]
    constructor
    · rintro ⟨⟨j, rfl⟩, hcb⟩
      exact ⟨j, hne j fun e => hcb (by rw [e, hi])⟩
    · rintro ⟨j, rfl⟩
      have hj := hold j hc
      rw [hne j hj] at hc ⊢
      exact ⟨⟨j, rfl⟩, fun e => hj (h.inj j i (by rw [e, hi]) (by rw [e]; exact hb))⟩

end Exact

end OsLabs.Slots
