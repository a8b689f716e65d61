import Mathlib.Algebra.Order.Group.Nat
import Mathlib.Data.List.Basic
import Mathlib.Logic.Function.Basic
import Mathlib.Tactic.Common

/-!
# Rings with wrapping counters

A ring of `N` places, filled at a counter `w` and emptied at a counter `r`, both of which count
modulo a multiple `M` of `N`. `Ring N M data r w l` says that the ring holds the queue `l`: its
elements lie in the places from `r` on, and `w` is where the next one goes.

The counters alone tell an empty ring (`Ring.empty_iff`) from a full one (`Ring.full_iff`), since
`M` is larger than `N`. `Ring.push` and `Ring.pop` are the moves of the queue.
-/

namespace OsLabs

variable {α : Type*} {N M r w : ℕ} {data : ℕ → α} {l : List α} {x : α}

/-- The ring of `N` places with counters modulo `M` holds the queue `l`. -/
structure Ring (N M : ℕ) (data : ℕ → α) (r w : ℕ) (l : List α) : Prop where
  le : l.length ≤ N
  lt : r < M
  eq : w = (r + l.length) % M
  get : ∀ i x, l[i]? = some x → data ((r + i) % N) = x

namespace Ring

theorem nil (h : r < M) : Ring N M data r r [] :=
  ⟨Nat.zero_le N, h, by simpa using (Nat.mod_eq_of_lt h).symm, by simp⟩

/-- Two numbers of elements with the same counters are the same. -/
theorem length_inj (hr : r < M) {m n : ℕ} (hm : m < M) (hn : n < M)
    (h : (r + m) % M = (r + n) % M) : m = n := by
  have hmod : ∀ k, k < M → (r + k) % M = if r + k < M then r + k else r + k - M := by
    intro k hk
    split
    · rename_i hlt
      exact Nat.mod_eq_of_lt hlt
    · rename_i hge
      rw [Nat.mod_eq_sub_mod (by omega), Nat.mod_eq_of_lt (by omega)]
  rw [hmod m hm, hmod n hn] at h
  split at h <;> split at h <;> omega

theorem empty_iff (h : Ring N M data r w l) (hNM : N < M) : r = w ↔ l = [] := by
  constructor
  · intro hrw
    have hle := h.le
    have heq : (r + l.length) % M = (r + 0) % M := by
      rw [← h.eq, ← hrw, Nat.add_zero, Nat.mod_eq_of_lt h.lt]
    exact List.length_eq_zero_iff.mp (length_inj h.lt (by omega) (by omega) heq)
  · rintro rfl
    simpa [Nat.mod_eq_of_lt h.lt] using h.eq.symm

theorem full_iff (h : Ring N M data r w l) (hNM : N < M) : w = (r + N) % M ↔ l.length = N := by
  constructor
  · intro hw
    have hle := h.le
    exact length_inj h.lt (by omega) hNM (h.eq.symm.trans hw)
  · intro hl
    rw [h.eq, hl]

variable (hdvd : N ∣ M)

include hdvd

/-- The next element goes to the place of `w`. -/
theorem push (h : Ring N M data r w l) (hl : l.length < N) (x : α) :
    Ring N M (Function.update data (w % N) x) r ((w + 1) % M) (l ++ [x]) := by
  have hplace : w % N = (r + l.length) % N := by rw [h.eq, Nat.mod_mod_of_dvd _ hdvd]
  refine ⟨by rwa [List.length_append, List.length_singleton], h.lt, ?_, fun i y hy => ?_⟩
  · rw [h.eq, Nat.mod_add_mod, List.length_append, List.length_singleton, Nat.add_assoc]
  · obtain hi | hi | hi := Nat.lt_trichotomy i l.length
    · -- an older element lies elsewhere: fewer than `N` places apart
      rw [List.getElem?_append_left hi] at hy
      rw [Function.update_of_ne, h.get i y hy]
      rw [hplace]
      intro hmod
      have heq : (r % N + i) % N = (r % N + l.length) % N := by
        rw [Nat.mod_add_mod, Nat.mod_add_mod, hmod]
      have hinj := length_inj (Nat.mod_lt r (by omega)) (by omega) hl heq
      omega
    · subst hi
      obtain rfl : x = y := by simpa using hy
      rw [hplace, Function.update_self]
    · rw [List.getElem?_eq_none (by simp; omega)] at hy
      cases hy

/-- The oldest element lies at the place of `r`. -/
theorem pop (h : Ring N M data r w (x :: l)) :
    data (r % N) = x ∧ Ring N M data ((r + 1) % M) w l := by
  have hlt := h.lt
  have hle := h.le
  rw [List.length_cons] at hle
  refine ⟨h.get 0 x rfl, by omega, Nat.mod_lt _ (by omega), ?_, fun i y hy => ?_⟩
  · rw [h.eq, List.length_cons, Nat.mod_add_mod, Nat.add_assoc, Nat.add_comm 1]
  · have hplace : ((r + 1) % M + i) % N = (r + (i + 1)) % N := by
      rw [Nat.add_mod, Nat.mod_mod_of_dvd _ hdvd, ← Nat.add_mod, Nat.add_assoc, Nat.add_comm 1]
    rw [hplace]
    exact h.get (i + 1) y hy

end Ring

end OsLabs
