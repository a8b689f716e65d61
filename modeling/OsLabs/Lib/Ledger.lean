import Mathlib.Algebra.Group.Pi.Basic
import Mathlib.Algebra.Order.Group.Nat
import Mathlib.Algebra.Order.Monoid.Prod
import Mathlib.Algebra.BigOperators.Group.Finset.Basic
import Mathlib.Algebra.BigOperators.Pi
import Mathlib.Data.Finset.Card
import Mathlib.Data.Finset.Basic
import Mathlib.Tactic.Abel
import Mathlib.Tactic.Common

/-!
# Ledgers: who holds which object of a pool

A pool hands out objects of a type `F` from a free list. A ledger `o : Ledger F` records for
every object how many shared and how many exclusive claims on it exist; ledgers add up
pointwise, so the ledger of a system is the sum of the ledgers of its parts, and a part is
verified against `r + own` for an arbitrary `r` held by everybody else.

* `Sound dom free o`: the free list holds objects of the domain `dom`, each once and none with
  a claim, and an exclusive claim is the only claim on its object.
* `Exact dom free o`: moreover nothing is lost, an object of the domain without a claim is free.
* `Exact.pop`, `Exact.push`, `Exact.acquire`, `Exact.release` are the four moves of the pool;
  the `Sound` moves are the same without the completeness half.
* `Grow o o'`: no object gets a second claim on the way from `o` to `o'`.
-/

namespace OsLabs

variable {F : Type*}

/-- Shared and exclusive claims on every object. -/
abbrev Ledger (F : Type*) := F → ℕ × ℕ

namespace Ledger

section Claims

variable [DecidableEq F]

/-- One shared claim on `f`. -/
def shared (f : F) : Ledger F := Pi.single f (1, 0)

/-- The exclusive claim on `f`. -/
def excl (f : F) : Ledger F := Pi.single f (0, 1)

/-- `h` is a single claim on `f`. -/
def IsClaim (f : F) (h : Ledger F) : Prop := h = shared f ∨ h = excl f

@[simp] theorem shared_self (f : F) : shared f f = (1, 0) := Pi.single_eq_same f _

@[simp] theorem excl_self (f : F) : excl f f = (0, 1) := Pi.single_eq_same f _

theorem shared_ne {f g : F} (h : g ≠ f) : shared f g = 0 := Pi.single_eq_of_ne h _

theorem excl_ne {f g : F} (h : g ≠ f) : excl f g = 0 := Pi.single_eq_of_ne h _

theorem isClaim_shared (f : F) : IsClaim f (shared f) := Or.inl rfl

theorem isClaim_excl (f : F) : IsClaim f (excl f) := Or.inr rfl

theorem IsClaim.ne {f g : F} {h : Ledger F} (hc : IsClaim f h) (hg : g ≠ f) : h g = 0 := by
  rcases hc with rfl | rfl
  · exact shared_ne hg
  · exact excl_ne hg

theorem IsClaim.self_ne_zero {f : F} {h : Ledger F} (hc : IsClaim f h) : h f ≠ 0 := by
  rcases hc with rfl | rfl <;> simp

end Claims

/-- The number of claims on `f`, of either kind. -/
def refs (o : Ledger F) (f : F) : ℕ := (o f).1 + (o f).2

@[simp] theorem refs_zero (f : F) : refs 0 f = 0 := rfl

@[simp] theorem refs_add (o p : Ledger F) (f : F) : refs (o + p) f = refs o f + refs p f := by
  simp only [refs, Pi.add_apply, Prod.fst_add, Prod.snd_add]
  omega

theorem refs_eq_zero {o : Ledger F} {f : F} : refs o f = 0 ↔ o f = 0 := by
  rw [refs, Nat.add_eq_zero_iff, Prod.ext_iff]
  rfl

theorem refs_pos {o : Ledger F} {f : F} : 0 < refs o f ↔ o f ≠ 0 := by
  rw [Nat.pos_iff_ne_zero, ne_eq, refs_eq_zero]

theorem ne_zero_of_le {o p : Ledger F} {f : F} (h : refs o f ≤ refs p f) (hf : o f ≠ 0) :
    p f ≠ 0 := by
  rw [← refs_pos] at hf ⊢
  omega

theorem refs_sum {ι : Type*} (t : Finset ι) (g : ι → Ledger F) (f : F) :
    refs (∑ i ∈ t, g i) f = ∑ i ∈ t, refs (g i) f := by
  classical
  induction t using Finset.induction_on with
  | empty => simp
  | insert a t ha ih => rw [Finset.sum_insert ha, Finset.sum_insert ha, refs_add, ih]

theorem IsClaim.refs_self [DecidableEq F] {f : F} {h : Ledger F} (hc : IsClaim f h) :
    refs h f = 1 := by
  rcases hc with rfl | rfl <;> simp [refs]

theorem IsClaim.refs_ne [DecidableEq F] {f g : F} {h : Ledger F} (hc : IsClaim f h) (hg : g ≠ f) :
    refs h g = 0 := by
  rw [refs_eq_zero, hc.ne hg]

@[simp] theorem refs_shared [DecidableEq F] (f g : F) :
    refs (shared f) g = if g = f then 1 else 0 := by
  by_cases h : g = f
  · subst h; simp [(isClaim_shared g).refs_self]
  · simp [h, (isClaim_shared f).refs_ne h]

@[simp] theorem refs_excl [DecidableEq F] (f g : F) :
    refs (excl f) g = if g = f then 1 else 0 := by
  by_cases h : g = f
  · subst h; simp [(isClaim_excl g).refs_self]
  · simp [h, (isClaim_excl f).refs_ne h]

/-- From `o` to `o'` no object gets a second claim. -/
def Grow (o o' : Ledger F) : Prop := ∀ f, refs o' f ≤ max (refs o f) 1

namespace Grow

theorem refl (o : Ledger F) : Grow o o := fun _ => le_max_left _ _

theorem trans {o o' o'' : Ledger F} (h : Grow o o') (h' : Grow o' o'') : Grow o o'' := by
  intro f
  have h₁ := h f
  have h₂ := h' f
  omega

theorem of_le {o o' : Ledger F} (h : ∀ f, refs o' f ≤ refs o f) : Grow o o' :=
  fun f => (h f).trans (le_max_left _ _)

theorem add_claim [DecidableEq F] {o h : Ledger F} {f : F} (hf : o f = 0) (hc : IsClaim f h) :
    Grow o (o + h) := by
  intro g
  rw [refs_add]
  by_cases hg : g = f
  · subst hg
    rw [hc.refs_self, refs_eq_zero.mpr hf]
    omega
  · rw [hc.refs_ne hg]
    omega

/-- One claim is given up for a claim on an object nobody holds. -/
theorem swap [DecidableEq F] {r u u' : Ledger F} {f g : F} (h : u' + shared g = u + shared f)
    (hf : (r + u) f = 0) : Grow (r + u) (r + u') := by
  intro a
  have hsum := congrArg (refs · a) h
  simp only [refs_add, refs_shared] at hsum
  have h0 := refs_eq_zero.mpr hf
  rw [refs_add] at h0 ⊢
  rw [refs_add]
  by_cases ha : a = f
  · rw [if_pos ha] at hsum
    rw [ha] at hsum ⊢
    omega
  · have hif : (if a = f then 1 else 0) = 0 := if_neg ha
    omega

end Grow

end Ledger

open Ledger

/-- The free list and the ledger do not contradict each other. -/
structure Sound (dom : F → Prop) (free : List F) (o : Ledger F) : Prop where
  nodup : free.Nodup
  free_dom : ∀ f ∈ free, dom f
  free_unheld : ∀ f ∈ free, o f = 0
  held_dom : ∀ f, o f ≠ 0 → dom f
  excl_alone : ∀ f, (o f).2 ≠ 0 → o f = (0, 1)

/-- The free list and the ledger account for every object of the domain. -/
structure Exact (dom : F → Prop) (free : List F) (o : Ledger F) : Prop extends
    Sound dom free o where
  complete : ∀ f, dom f → o f = 0 → f ∈ free

variable {dom : F → Prop} {free : List F} {o h : Ledger F} {f : F}

/-- The empty pool. -/
theorem Exact.empty : Exact (fun _ : F => False) [] 0 :=
  ⟨⟨List.nodup_nil, by simp, by simp, fun _ h => absurd rfl h, fun _ h => absurd rfl h⟩,
    fun _ h => h.elim⟩

section Moves

variable [DecidableEq F]

/-- Taking the first free object and claiming it. -/
theorem Sound.pop (hs : Sound dom (f :: free) o) (hc : IsClaim f h) :
    Sound dom free (o + h) := by
  have hf0 : o f = 0 := hs.free_unheld f (by simp)
  have hnd := List.nodup_cons.mp hs.nodup
  refine ⟨hnd.2, fun g hg => hs.free_dom g (by simp [hg]), fun g hg => ?_, fun g hg => ?_,
    fun g hg => ?_⟩
  · have hgf : g ≠ f := fun e => hnd.1 (e ▸ hg)
    rw [Pi.add_apply, hs.free_unheld g (by simp [hg]), hc.ne hgf, add_zero]
  · by_cases hgf : g = f
    · exact hgf ▸ hs.free_dom f (by simp)
    · rw [Pi.add_apply, hc.ne hgf, add_zero] at hg
      exact hs.held_dom g hg
  · by_cases hgf : g = f
    · subst hgf
      rw [Pi.add_apply, hf0, zero_add] at hg ⊢
      rcases hc with rfl | rfl
      · simp at hg
      · simp
    · rw [Pi.add_apply, hc.ne hgf, add_zero] at hg ⊢
      exact hs.excl_alone g hg

theorem Exact.pop (hs : Exact dom (f :: free) o) (hc : IsClaim f h) : Exact dom free (o + h) := by
  refine ⟨hs.toSound.pop hc, fun g hg hg0 => ?_⟩
  by_cases hgf : g = f
  · subst hgf
    have := hc.self_ne_zero
    rw [Pi.add_apply, add_eq_zero] at hg0
    exact absurd hg0.2 this
  · rw [Pi.add_apply, hc.ne hgf, add_zero] at hg0
    exact (List.mem_cons.mp (hs.complete g hg hg0)).resolve_left hgf

/-- Giving back the last claim on an object puts it on the free list. -/
theorem Sound.push (hs : Sound dom free (o + h)) (hc : IsClaim f h) (hf : o f = 0) :
    Sound dom (f :: free) o := by
  have hfh : (o + h) f ≠ 0 := by
    rw [Pi.add_apply, hf, zero_add]
    exact hc.self_ne_zero
  have hne : ∀ g, g ≠ f → (o + h) g = o g := fun g hg => by
    rw [Pi.add_apply, hc.ne hg, add_zero]
  have hnot : f ∉ free := fun hm => hfh (hs.free_unheld f hm)
  refine ⟨List.nodup_cons.mpr ⟨hnot, hs.nodup⟩, fun g hg => ?_, fun g hg => ?_, fun g hg => ?_,
    fun g hg => ?_⟩
  · rcases List.mem_cons.mp hg with rfl | hg
    · exact hs.held_dom g hfh
    · exact hs.free_dom g hg
  · rcases List.mem_cons.mp hg with rfl | hg
    · exact hf
    · rw [← hne g fun e => hnot (e ▸ hg)]
      exact hs.free_unheld g hg
  · have hgf : g ≠ f := fun e => hg (e ▸ hf)
    exact hs.held_dom g (by rwa [hne g hgf])
  · have hgf : g ≠ f := fun e => hg (by rw [e, hf]; rfl)
    rw [← hne g hgf] at hg ⊢
    exact hs.excl_alone g hg

theorem Exact.push (hs : Exact dom free (o + h)) (hc : IsClaim f h) (hf : o f = 0) :
    Exact dom (f :: free) o := by
  refine ⟨hs.toSound.push hc hf, fun g hg hg0 => ?_⟩
  by_cases hgf : g = f
  · simp [hgf]
  · refine List.mem_cons_of_mem f (hs.complete g hg ?_)
    rw [Pi.add_apply, hg0, hc.ne hgf, add_zero]

/-- An object whose last claim is dropped without putting it on the free list is lost. -/
theorem Exact.lose (hs : Exact dom free (o + h)) (hc : IsClaim f h) (hf : o f = 0) :
    Exact (fun g => dom g ∧ g ≠ f) free o := by
  have hp := hs.push hc hf
  have hnd := List.nodup_cons.mp hp.nodup
  refine ⟨⟨hnd.2, fun g hg => ⟨hs.free_dom g hg, fun e => hnd.1 (e ▸ hg)⟩,
    fun g hg => hp.free_unheld g (List.mem_cons_of_mem f hg),
    fun g hg => ⟨hp.held_dom g hg, fun e => hg (e ▸ hf)⟩, hp.excl_alone⟩, fun g hg hg0 => ?_⟩
  exact (List.mem_cons.mp (hp.complete g hg.1 hg0)).resolve_left hg.2

/-- A further shared claim on an object that already has one. -/
theorem Sound.acquire (hs : Sound dom free o) (hf : (o f).1 ≠ 0) :
    Sound dom free (o + shared f) := by
  have hf0 : o f ≠ 0 := fun e => hf (by rw [e]; rfl)
  have hne : ∀ g, g ≠ f → (o + shared f) g = o g := fun g hg => by
    rw [Pi.add_apply, shared_ne hg, add_zero]
  have hx : (o f).2 = 0 := by
    by_contra hx
    exact hf (by rw [hs.excl_alone f hx])
  refine ⟨hs.nodup, hs.free_dom, fun g hg => ?_, fun g hg => ?_, fun g hg => ?_⟩
  · rw [hne g fun e => hf0 (e ▸ hs.free_unheld g hg)]
    exact hs.free_unheld g hg
  · by_cases hgf : g = f
    · exact hgf ▸ hs.held_dom f hf0
    · exact hs.held_dom g (by rwa [hne g hgf] at hg)
  · by_cases hgf : g = f
    · subst hgf
      simp [hx] at hg
    · rw [hne g hgf] at hg ⊢
      exact hs.excl_alone g hg

theorem Exact.acquire (hs : Exact dom free o) (hf : (o f).1 ≠ 0) :
    Exact dom free (o + shared f) := by
  refine ⟨hs.toSound.acquire hf, fun g hg hg0 => hs.complete g hg ?_⟩
  rw [Pi.add_apply, add_eq_zero] at hg0
  exact hg0.1

/-- Giving back a claim on an object that keeps another. -/
theorem Sound.release (hs : Sound dom free (o + h)) (hc : IsClaim f h) (hf : o f ≠ 0) :
    Sound dom free o := by
  have hne : ∀ g, g ≠ f → (o + h) g = o g := fun g hg => by
    rw [Pi.add_apply, hc.ne hg, add_zero]
  refine ⟨hs.nodup, hs.free_dom, fun g hg => ?_, fun g hg => ?_, fun g hg => ?_⟩
  · have := hs.free_unheld g hg
    rw [Pi.add_apply, add_eq_zero] at this
    exact this.1
  · refine hs.held_dom g fun e => hg ?_
    rw [Pi.add_apply, add_eq_zero] at e
    exact e.1
  · by_cases hgf : g = f
    · subst hgf
      have hx : ((o + h) g).2 ≠ 0 := by
        rw [Pi.add_apply, Prod.snd_add]
        omega
      have hx' := hs.excl_alone g hx
      have hr : refs (o + h) g = 1 := by simp [refs, hx']
      rw [refs_add, hc.refs_self] at hr
      exact absurd (refs_eq_zero.mp (by omega)) hf
    · rw [← hne g hgf] at hg ⊢
      exact hs.excl_alone g hg

theorem Exact.release (hs : Exact dom free (o + h)) (hc : IsClaim f h) (hf : o f ≠ 0) :
    Exact dom free o := by
  refine ⟨hs.toSound.release hc hf, fun g hg hg0 => hs.complete g hg ?_⟩
  have hgf : g ≠ f := fun e => hf (e ▸ hg0)
  rw [Pi.add_apply, hg0, hc.ne hgf, add_zero]

end Moves

/-- Extending the domain by a free object nobody has seen yet. -/
theorem Exact.seed (hs : Exact dom free o) (hf : ¬dom f) :
    Exact (fun g => dom g ∨ g = f) (f :: free) o := by
  have hf0 : o f = 0 := by
    by_contra h0
    exact hf (hs.held_dom f h0)
  refine ⟨⟨List.nodup_cons.mpr ⟨fun hm => hf (hs.free_dom f hm), hs.nodup⟩, fun g hg => ?_,
    fun g hg => ?_, fun g hg => Or.inl (hs.held_dom g hg), hs.excl_alone⟩, fun g hg hg0 => ?_⟩
  · rcases List.mem_cons.mp hg with rfl | hg
    · exact Or.inr rfl
    · exact Or.inl (hs.free_dom g hg)
  · rcases List.mem_cons.mp hg with rfl | hg
    · exact hf0
    · exact hs.free_unheld g hg
  · rcases hg with hg | rfl
    · exact List.mem_cons_of_mem f (hs.complete g hg hg0)
    · simp

/-- The free list holds what nobody holds. -/
theorem Exact.mem_free (hs : Exact dom free o) : f ∈ free ↔ dom f ∧ o f = 0 :=
  ⟨fun h => ⟨hs.free_dom f h, hs.free_unheld f h⟩, fun h => hs.complete f h.1 h.2⟩

/-- How often an object of the domain stands on the free list. -/
theorem Exact.count_free [DecidableEq F] (hs : Exact dom free o) (hf : dom f) :
    free.count f = if refs o f = 0 then 1 else 0 := by
  split
  · rename_i h0
    exact List.count_eq_one_of_mem hs.nodup (hs.complete f hf (refs_eq_zero.mp h0))
  · rename_i h0
    exact List.count_eq_zero.mpr fun hm => h0 (refs_eq_zero.mpr (hs.free_unheld f hm))

/-- The length of the free list. -/
theorem Exact.length_free [DecidableEq F] (hs : Exact dom free o) {t : Finset F}
    (ht : ∀ f, f ∈ t ↔ dom f) : free.length = (t.filter fun f => o f = 0).card := by
  have hset : free.toFinset = t.filter fun f => o f = 0 := by
    ext f
    rw [List.mem_toFinset, Finset.mem_filter, ht, hs.mem_free]
  rw [← hset, List.toFinset_card_of_nodup hs.nodup]

/-- What is held less leaves as much free. -/
theorem Exact.length_le {free' : List F} {o' : Ledger F} (hs : Exact dom free o)
    (hs' : Exact dom free' o') (h : ∀ f, o f = 0 → o' f = 0) : free.length ≤ free'.length := by
  refine (hs.nodup.subperm fun f hf => ?_).length_le
  exact hs'.complete f (hs.free_dom f hf) (h f (hs.free_unheld f hf))

end OsLabs
