import OsLabs.Lib.Tiling
import Mathlib

/-!
# A page of the memory allocators

`alloc.c` manages one page and `ealloc.c` four. Both describe a page by its address, a bitmap with
an entry for every byte, and a table of the allocated blocks with `PAGESIZE / MINALLOC` entries.
This file has that description, the loops both files run over it, and the invariant:

* `PageInfo.Rep`: the bitmap and the table agree, the blocks lie inside the page and do not
  overlap, and an unused entry is zeroed;
* `Rep.record` and `Rep.release`: entering a block on clear bytes, and taking one out, keep it;
* `runEnd_spec`: what the loop that looks for the end of a free run finds.

Addresses are natural numbers, `NULL` is 0. `int`s are integers; the values that occur are small,
except where a pointer difference is truncated.
-/

namespace OsLabs.Malloc

/-- Size of the memory to map from the operating system. -/
def PAGESIZE : ℕ := 4096

/-- `struct mem_info`: an entry of the table. -/
structure MemInfo where
  start_addr : ℕ := 0
  length : ℤ := 0
  alloc_or_not : Bool := false

/-- `struct page_info`, with a table of `n` entries. -/
structure PageInfo (n : ℕ) where
  page_start : ℕ := 0
  bit_stat : ℤ → Bool := fun _ => false
  table : Fin n → MemInfo := fun _ => {}

/-- `for(bit = lo; bit < hi; bit++) bit_stat[bit] = v` -/
def PageInfo.fill {n : ℕ} (P : PageInfo n) (lo hi : ℤ) (v : Bool) : PageInfo n :=
  { P with bit_stat := fun b => if lo ≤ b ∧ b < hi then v else P.bit_stat b }

def PageInfo.setEntry {n : ℕ} (P : PageInfo n) (k : Fin n) (e : MemInfo) : PageInfo n :=
  { P with table := Function.update P.table k e }

/-- The first unused entry of the table. -/
def PageInfo.freeEntry {n : ℕ} (P : PageInfo n) : Option (Fin n) :=
  (List.finRange n).find? fun k => !(P.table k).alloc_or_not

/-- The first entry of the table with the start address `addr`. -/
def PageInfo.entryAt {n : ℕ} (P : PageInfo n) (addr : ℕ) : Option (Fin n) :=
  (List.finRange n).find? fun k => (P.table k).start_addr == addr

/-- The loop that looks for the end of a free run: the place before the first set bit from `j` on,
or the last place of the page. -/
def runEnd (bit_stat : ℤ → Bool) (j : ℕ) : ℕ :=
  if j < PAGESIZE then
    if bit_stat j then j - 1 else runEnd bit_stat (j + 1)
  else PAGESIZE - 1
termination_by PAGESIZE - j

/-- `runEnd` from a place after a free one: all places up to the end are clear, and the run ends
at a set bit or at the end of the page. -/
theorem runEnd_spec {bit_stat : ℤ → Bool} {j : ℕ} (hj : 0 < j) (hle : j ≤ PAGESIZE) :
    j ≤ runEnd bit_stat j + 1 ∧ runEnd bit_stat j < PAGESIZE ∧
      (∀ b : ℕ, j ≤ b → b ≤ runEnd bit_stat j → bit_stat b = false) ∧
      (runEnd bit_stat j + 1 = PAGESIZE ∨ bit_stat (runEnd bit_stat j + 1 : ℕ) = true) := by
  fun_induction runEnd bit_stat j with
  | case1 j hlt hbit =>
    refine ⟨by omega, by omega, fun b h₁ h₂ => by omega, Or.inr ?_⟩
    rwa [Nat.sub_add_cancel hj]
  | case2 j hlt hbit ih =>
    obtain ⟨h₁, h₂, h₃, h₄⟩ := ih (by omega) (by omega)
    refine ⟨by omega, h₂, fun b hb hb' => ?_, h₄⟩
    rcases Nat.lt_or_eq_of_le hb with hb | rfl
    · exact h₃ b hb hb'
    · exact Bool.not_eq_true _ ▸ hbit
  | case3 j hlt =>
    obtain rfl : j = PAGESIZE := by omega
    exact ⟨by omega, by omega, fun b h₁ h₂ => by omega, Or.inl (by omega)⟩

/-- C's remainder of a positive size. -/
theorem tmod_of_emod {size : ℤ} {m : ℕ} (hsize : 0 < size) (hmul : size % m = 0) :
    size.tmod m = 0 := by
  rw [Int.tmod_eq_emod_of_nonneg (by omega), hmul]

namespace PageInfo

variable {n : ℕ} {P : PageInfo n}

/-- The places of entry `k`, relative to the page. -/
noncomputable def interval (P : PageInfo n) (k : Fin n) : Finset ℤ :=
  Finset.Ico ((P.table k).start_addr - P.page_start)
    ((P.table k).start_addr - P.page_start + (P.table k).length)

/-- The places of entry `k` if it is in use. -/
noncomputable def block (P : PageInfo n) (k : Fin n) : Finset ℤ :=
  if (P.table k).alloc_or_not then P.interval k else ∅

/-- The representation invariant of a page. -/
structure Rep (P : PageInfo n) : Prop where
  tiles : Tiles P.bit_stat P.block
  inside : ∀ k, (P.table k).alloc_or_not = true → P.page_start ≤ (P.table k).start_addr ∧
    (P.table k).start_addr < P.page_start + PAGESIZE ∧
    (P.table k).start_addr + (P.table k).length ≤ P.page_start + PAGESIZE
  unused : ∀ k, (P.table k).alloc_or_not = false → P.table k = {}

theorem freeEntry_some {k : Fin n} (h : P.freeEntry = some k) :
    (P.table k).alloc_or_not = false := by
  simpa using List.find?_some h

theorem freeEntry_none (h : P.freeEntry = none) (k : Fin n) :
    (P.table k).alloc_or_not = true := by
  simpa using List.find?_eq_none.mp h k (List.mem_finRange k)

theorem entryAt_some {k : Fin n} {addr : ℕ} (h : P.entryAt addr = some k) :
    (P.table k).start_addr = addr := by
  simpa using List.find?_some h

theorem entryAt_none {addr : ℕ} (h : P.entryAt addr = none) (k : Fin n) :
    (P.table k).start_addr ≠ addr := by
  simpa using List.find?_eq_none.mp h k (List.mem_finRange k)

theorem fill_apply (lo hi : ℤ) (v : Bool) (b : ℤ) :
    (P.fill lo hi v).bit_stat b = if lo ≤ b ∧ b < hi then v else P.bit_stat b := rfl

/-- A loop over no places. -/
theorem fill_of_le {lo hi : ℤ} (h : hi ≤ lo) (v : Bool) : P.fill lo hi v = P := by
  have : (fun b => if lo ≤ b ∧ b < hi then v else P.bit_stat b) = P.bit_stat := by
    funext b
    rw [if_neg (by omega)]
  rw [fill, this]

theorem setEntry_self (k : Fin n) (e : MemInfo) : (P.setEntry k e).table k = e :=
  Function.update_self ..

theorem setEntry_of_ne {k l : Fin n} (h : l ≠ k) (e : MemInfo) :
    (P.setEntry k e).table l = P.table l :=
  Function.update_of_ne h ..

/-- Two entries are written and their places filled, in either order. -/
theorem fill_setEntry_comm {k l : Fin n} (hkl : k ≠ l) (lo hi lo' hi' : ℤ) (v : Bool)
    (e e' : MemInfo) :
    (((P.fill lo hi v).setEntry k e).fill lo' hi' v).setEntry l e' =
      (((P.fill lo' hi' v).setEntry l e').fill lo hi v).setEntry k e := by
  simp only [fill, setEntry, mk.injEq, true_and]
  constructor
  · funext b
    split <;> split <;> rfl
  · exact Function.update_comm hkl _ _ _

/-- The blocks after entry `k` is written, in a page at the same address. -/
theorem block_setEntry (k : Fin n) (e : MemInfo) :
    (P.setEntry k e).block = Function.update P.block k (if e.alloc_or_not then
      Finset.Ico (e.start_addr - P.page_start : ℤ) (e.start_addr - P.page_start + e.length)
      else ∅) := by
  funext l
  by_cases hl : l = k
  · subst hl
    rw [Function.update_self]
    simp only [block, interval, setEntry_self]
    rfl
  · rw [Function.update_of_ne hl]
    simp only [block, interval, setEntry_of_ne hl]
    rfl

theorem rep_init (p : ℕ) : Rep ({ page_start := p } : PageInfo n) :=
  ⟨Tiles.empty, fun _ h => absurd h Bool.false_ne_true, fun _ _ => rfl⟩

theorem block_of_used {k : Fin n} (h : (P.table k).alloc_or_not = true) :
    P.block k = P.interval k := by rw [block, if_pos h]

theorem block_of_unused {k : Fin n} (h : (P.table k).alloc_or_not = false) : P.block k = ∅ := by
  rw [block, h, if_neg Bool.false_ne_true]

namespace Rep

theorem bits (h : Rep P) (b : ℤ) :
    P.bit_stat b = true ↔ ∃ k, (P.table k).alloc_or_not = true ∧ b ∈ P.interval k := by
  rw [h.tiles.bits b]
  refine exists_congr fun k => ?_
  cases hk : (P.table k).alloc_or_not with
  | false => simp [block_of_unused hk]
  | true => simp [block_of_used hk]

theorem apart (h : Rep P) (k l : Fin n) (hkl : k ≠ l) (hk : (P.table k).alloc_or_not = true)
    (hl : (P.table l).alloc_or_not = true) : Disjoint (P.interval k) (P.interval l) := by
  rw [← block_of_used hk, ← block_of_used hl]
  exact h.tiles.apart k l hkl

theorem interval_subset (h : Rep P) (k : Fin n) (hk : (P.table k).alloc_or_not = true) :
    P.interval k ⊆ Finset.Ico 0 PAGESIZE := by
  obtain ⟨h₁, -, h₃⟩ := h.inside k hk
  exact Finset.Ico_subset_Ico (by omega) (by omega)

/-- The places of an entry, in use or not, are those from its offset on. -/
theorem mem_block (h : Rep P) (k : Fin n) (b : ℤ) : b ∈ P.block k ↔
    (P.table k).start_addr - P.page_start ≤ b ∧
      b < (P.table k).start_addr - P.page_start + (P.table k).length := by
  cases hk : (P.table k).alloc_or_not with
  | false =>
    rw [block_of_unused hk, h.unused k hk]
    simp
  | true => rw [block_of_used hk, interval, Finset.mem_Ico]

/-- The offset of an entry in use fits an `int`. -/
theorem trunc_offset (h : Rep P) {k : Fin n} {addr : ℕ} (hk : (P.table k).alloc_or_not = true)
    (haddr : (P.table k).start_addr = addr) :
    ((addr : ℤ) - P.page_start).bmod (2 ^ 32) = addr - P.page_start := by
  obtain ⟨h₁, h₂, -⟩ := h.inside k hk
  simp only [haddr, PAGESIZE] at h₁ h₂
  rw [Int.bmod_def]
  split <;> omega

/-- A block on clear places of the page goes into an unused entry. -/
theorem record (h : Rep P) {k : Fin n} (hk : (P.table k).alloc_or_not = false) {i : ℕ} {size : ℤ}
    (hi : i < PAGESIZE) (hsize : i + size ≤ PAGESIZE)
    (hclear : ∀ b : ℤ, i ≤ b → b < i + size → P.bit_stat b = false) :
    Rep ((P.fill i (i + size) true).setEntry k ⟨P.page_start + i, size, true⟩) := by
  refine ⟨?_, fun l hl => ?_, fun l hl => ?_⟩
  · rw [block_setEntry]
    refine h.tiles.add (block_of_unused hk) (fun b hb => ?_) fun b => ?_
    · rw [if_pos rfl, Finset.mem_Ico] at hb
      change (P.page_start + i : ℕ) - (P.page_start : ℤ) ≤ b ∧
        b < (P.page_start + i : ℕ) - (P.page_start : ℤ) + size at hb
      exact hclear b (by omega) (by omega)
    · change (P.fill i (i + size) true).bit_stat b = true ↔ _
      rw [fill_apply, if_pos rfl, Finset.mem_Ico]
      change _ ↔ ((P.page_start + i : ℕ) - (P.page_start : ℤ) ≤ b ∧
        b < (P.page_start + i : ℕ) - (P.page_start : ℤ) + size) ∨ _
      rw [Nat.cast_add, add_sub_cancel_left]
      split
      · simp [*]
      · simp [*]
  · by_cases hlk : l = k
    · subst hlk
      rw [setEntry_self]
      change P.page_start ≤ P.page_start + i ∧ P.page_start + i < P.page_start + PAGESIZE ∧
        ((P.page_start + i : ℕ) : ℤ) + size ≤ P.page_start + PAGESIZE
      omega
    · rw [setEntry_of_ne hlk] at hl ⊢
      exact h.inside l hl
  · by_cases hlk : l = k
    · subst hlk
      rw [setEntry_self] at hl
      exact absurd hl.symm Bool.false_ne_true
    · rw [setEntry_of_ne hlk] at hl ⊢
      exact h.unused l hl

/-- An entry is zeroed and its places are cleared. -/
theorem release (h : Rep P) (k : Fin n) {lo hi : ℤ}
    (hclear : ∀ b : ℤ, lo ≤ b ∧ b < hi ↔ b ∈ P.block k) :
    Rep ((P.fill lo hi false).setEntry k {}) := by
  refine ⟨?_, fun l hl => ?_, fun l hl => ?_⟩
  · rw [block_setEntry]
    refine h.tiles.remove k fun b => ?_
    change (P.fill lo hi false).bit_stat b = true ↔ _
    rw [fill_apply]
    split
    · rename_i hb
      simp [(hclear b).mp hb]
    · rename_i hb
      simp [mt (hclear b).mpr hb]
  · by_cases hlk : l = k
    · subst hlk
      rw [setEntry_self] at hl
      exact absurd hl Bool.false_ne_true
    · rw [setEntry_of_ne hlk] at hl ⊢
      exact h.inside l hl
  · by_cases hlk : l = k
    · subst hlk
      exact setEntry_self l _
    · rw [setEntry_of_ne hlk] at hl ⊢
      exact h.unused l hl

end Rep

end PageInfo

end OsLabs.Malloc
