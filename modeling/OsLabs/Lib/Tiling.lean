import Mathlib.Algebra.Group.Action.Defs
import Mathlib.Algebra.Order.BigOperators.Group.Finset
import Mathlib.Data.Finset.Union
import Mathlib.Data.Fintype.Basic
import Mathlib.Tactic.Common

/-!
# Bitmaps tiled by blocks

A bitmap over places of a type `β` and a table of blocks, indexed by `ι`, can record the same
information twice: `Tiles bit block` says that they agree, a place is set where some block has it,
and that no two blocks overlap. An entry of the table that is not in use has the empty block.

* `Tiles.add` and `Tiles.remove` are the two moves: a block on clear places goes into an unused
  entry, and a block is taken out with its places cleared.
* `Tiles.full` is the counting argument: blocks that are large enough for their number to fill a
  domain leave no place of it clear.
-/

namespace OsLabs

variable {β ι : Type*}

/-- The set places of `bit` are those of the blocks, and no two blocks overlap. -/
structure Tiles (bit : β → Bool) (block : ι → Finset β) : Prop where
  bits : ∀ b, bit b = true ↔ ∃ k, b ∈ block k
  apart : ∀ k l, k ≠ l → Disjoint (block k) (block l)

namespace Tiles

variable {bit : β → Bool} {block : ι → Finset β}

theorem empty : Tiles (fun _ : β => false) (fun _ : ι => ∅) :=
  ⟨fun b => by simp, fun k l _ => Finset.disjoint_empty_left _⟩

variable [DecidableEq ι]

/-- The block of `k` is replaced by `s`, on places where no other block lies. -/
theorem replace (h : Tiles bit block) {k : ι} {s : Finset β}
    (hs : ∀ l, l ≠ k → Disjoint s (block l)) {bit' : β → Bool}
    (hbit : ∀ b, bit' b = true ↔ b ∈ s ∨ bit b = true ∧ b ∉ block k) :
    Tiles bit' (Function.update block k s) := by
  refine ⟨fun b => ?_, fun i j hij => ?_⟩
  · rw [hbit b, h.bits b]
    constructor
    · rintro (hb | ⟨⟨l, hl⟩, hk⟩)
      · exact ⟨k, by rwa [Function.update_self]⟩
      · have hlk : l ≠ k := by
          rintro rfl
          exact hk hl
        exact ⟨l, by rwa [Function.update_of_ne hlk]⟩
    · rintro ⟨l, hl⟩
      by_cases hlk : l = k
      · subst hlk
        exact Or.inl (by rwa [Function.update_self] at hl)
      · rw [Function.update_of_ne hlk] at hl
        exact Or.inr ⟨⟨l, hl⟩, fun hk => Finset.disjoint_left.mp (h.apart l k hlk) hl hk⟩
  · by_cases hi : i = k
    · subst hi
      rw [Function.update_self, Function.update_of_ne (Ne.symm hij)]
      exact hs j (Ne.symm hij)
    · rw [Function.update_of_ne hi]
      by_cases hj : j = k
      · subst hj
        rw [Function.update_self]
        exact (hs i hi).symm
      · rw [Function.update_of_ne hj]
        exact h.apart i j hij

/-- A block on clear places goes into an entry that is not in use. -/
theorem add (h : Tiles bit block) {k : ι} {s : Finset β} (hk : block k = ∅)
    (hs : ∀ b ∈ s, bit b = false) {bit' : β → Bool}
    (hbit : ∀ b, bit' b = true ↔ b ∈ s ∨ bit b = true) :
    Tiles bit' (Function.update block k s) := by
  refine h.replace (fun l _ => ?_) fun b => ?_
  · refine Finset.disjoint_left.mpr fun b hb hl => ?_
    have hset := (h.bits b).mpr ⟨l, hl⟩
    rw [hs b hb] at hset
    exact Bool.false_ne_true hset
  · rw [hbit b, hk]
    simp

/-- A block is taken out and its places are cleared. -/
theorem remove (h : Tiles bit block) (k : ι) {bit' : β → Bool}
    (hbit : ∀ b, bit' b = true ↔ bit b = true ∧ b ∉ block k) :
    Tiles bit' (Function.update block k ∅) := by
  refine h.replace (fun l _ => Finset.disjoint_empty_left _) fun b => ?_
  rw [hbit b]
  simp

omit [DecidableEq ι] in
/-- Where every block has at least `m` places of the domain `D`, and there are enough blocks to
fill it, no place of the domain is clear. -/
theorem full [DecidableEq β] [Fintype ι] (h : Tiles bit block) {D : Finset β} {m : ℕ}
    (hsub : ∀ k, block k ⊆ D) (hm : ∀ k, m ≤ (block k).card)
    (hD : D.card ≤ Fintype.card ι * m) {b : β} (hb : b ∈ D) : bit b = true := by
  have hunion : Finset.univ.biUnion block ⊆ D := fun c hc => by
    obtain ⟨k, -, hk⟩ := Finset.mem_biUnion.mp hc
    exact hsub k hk
  have hcard : D.card ≤ (Finset.univ.biUnion block).card := by
    rw [Finset.card_biUnion fun k _ l _ hkl => h.apart k l hkl]
    calc D.card ≤ Fintype.card ι * m := hD
      _ = ∑ _k : ι, m := by rw [Finset.sum_const, Finset.card_univ, smul_eq_mul]
      _ ≤ ∑ k, (block k).card := Finset.sum_le_sum fun k _ => hm k
  have heq := Finset.eq_of_subset_of_card_le hunion hcard
  rw [← heq] at hb
  obtain ⟨k, -, hk⟩ := Finset.mem_biUnion.mp hb
  exact (h.bits b).mpr ⟨k, hk⟩

end Tiles

end OsLabs
