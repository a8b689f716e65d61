import OsLabs.Malloc.Page

/-!
# The one-page allocator

`alloc.c`: a first-fit allocator on a single page, in multiples of `MINALLOC = 8` bytes.

`alloc` accepts every `int` that C's `%` finds divisible by 8, so also 0 and negative sizes; such a
block takes an entry of the table and no bytes. `dealloc` takes the first entry with the given
start address, which may be an unused entry (for `NULL`) or one of several entries at that address.

* `allocLoop_rep` and `dealloc_rep`: every call keeps the invariant `PageInfo.Rep`;
* `alloc_representation`: it holds after any sequence of calls.
-/

namespace OsLabs.Malloc.Alloc

/-- Allocations are multiples of this. -/
def MINALLOC : ℕ := 8

/-- The globals `page_start`, `bit_stat` and `table`. -/
abbrev State := PageInfo (PAGESIZE / MINALLOC)

/-- `MAP_FAILED`, the pointer -1. -/
def MAP_FAILED : ℕ := 2 ^ 64 - 1

/-- Map the page and clear the bitmap and the table; `mmap` is the answer of the operating
system. -/
def init_alloc (mmap : Option ℕ) (P : State) : ℤ × State :=
  match mmap with
  | none => (-1, { P with page_start := MAP_FAILED })
  | some p => (0, { page_start := p })

theorem lt_runEnd {bit_stat : ℤ → Bool} {i : ℕ} (hi : i < PAGESIZE) :
    i < runEnd bit_stat (i + 1) + 1 :=
  (runEnd_spec (j := i + 1) (by omega) hi).1

/-- The loop of `alloc` from place `i` on. A free run that is too short, or one that is long enough
while the table is full, is skipped. -/
def allocLoop {n : ℕ} (size : ℤ) (P : PageInfo n) (i : ℕ) : Option ℕ × PageInfo n :=
  if hi : i < PAGESIZE then
    if P.bit_stat i then allocLoop size P (i + 1)
    else
      let end_ := runEnd P.bit_stat (i + 1)
      have := @lt_runEnd P.bit_stat _ hi
      if (end_ : ℤ) - i + 1 ≥ size then
        match P.freeEntry with
        | some k =>
          (some (P.page_start + i),
            (P.fill i (i + size) true).setEntry k ⟨P.page_start + i, size, true⟩)
        | none => allocLoop size P (end_ + 1)
      else allocLoop size P (end_ + 1)
  else (none, P)
termination_by PAGESIZE - i
decreasing_by all_goals omega

/-- Allocate `size` bytes; C's remainder has the sign of `size`. -/
def alloc (size : ℤ) (P : State) : Option ℕ × State :=
  if size.tmod MINALLOC ≠ 0 then (none, P) else allocLoop size P 0

/-- Free the first block at `addr`. The loop variable is an `int`, so the pointer difference it
starts from is truncated; the one it is compared with is not. -/
def dealloc (addr : ℕ) (P : State) : State :=
  match P.entryAt addr with
  | some k =>
    (P.fill (((addr : ℤ) - P.page_start).bmod (2 ^ 32))
      (addr - P.page_start + (P.table k).length) false).setEntry k {}
  | none => P

/-- A call. -/
inductive Op
  | alloc (size : ℤ)
  | dealloc (addr : ℕ)

def Op.run : Op → State → State
  | .alloc size, P => (Alloc.alloc size P).2
  | .dealloc addr, P => Alloc.dealloc addr P

/-- A sequence of calls, the first one first. -/
def runAll (ops : List Op) (P : State) : State := ops.foldl (fun P op => op.run P) P

variable {P : State}

theorem allocLoop_rep (h : P.Rep) (size : ℤ) (i : ℕ) : (allocLoop size P i).2.Rep := by
  fun_induction allocLoop size P i with
  | case1 i hi hbit ih => exact ih
  | case2 i hi hbit end_ hlt hsize k hk =>
    obtain ⟨-, hend, hclear, -⟩ := @runEnd_spec P.bit_stat (i + 1) (by omega) hi
    refine h.record (PageInfo.freeEntry_some hk) hi (by omega) fun b hb hb' => ?_
    obtain ⟨c, rfl⟩ := Int.eq_ofNat_of_zero_le (a := b) (by omega)
    by_cases hc : c = i
    · rw [hc]
      exact Bool.not_eq_true _ ▸ hbit
    · exact hclear c (by omega) (by omega)
  | case3 i hi hbit end_ hlt hsize hk ih => exact ih
  | case4 i hi hbit end_ hlt hsize ih => exact ih
  | case5 i hi => exact h

theorem dealloc_rep (h : P.Rep) (addr : ℕ) : (dealloc addr P).Rep := by
  unfold dealloc
  split
  · rename_i k hk
    have haddr := PageInfo.entryAt_some hk
    refine h.release k fun b => ?_
    rw [h.mem_block k b, haddr]
    cases hused : (P.table k).alloc_or_not with
    | false =>
      -- an unused entry, for `NULL`: the loop is empty, truncated or not
      rw [h.unused k hused] at haddr ⊢
      subst haddr
      have htrunc : -(P.page_start : ℤ) ≤ (-(P.page_start : ℤ)).bmod (2 ^ 32) := by
        rw [Int.bmod_def]
        split <;> omega
      simp only [Nat.cast_zero, zero_sub, add_zero] at *
      omega
    | true => rw [h.trunc_offset hused haddr]
  · exact h

theorem Op.run_rep (h : P.Rep) (op : Op) : (op.run P).Rep := by
  cases op with
  | alloc size =>
    change (Alloc.alloc size P).2.Rep
    unfold Alloc.alloc
    split
    · exact h
    · exact allocLoop_rep h size 0
  | dealloc addr => exact dealloc_rep h addr

theorem runAll_rep (h : P.Rep) (ops : List Op) : (runAll ops P).Rep := by
  induction ops generalizing P with
  | nil => exact h
  | cons op ops ih => exact ih (op.run_rep h)

/-- After a successful `init_alloc` and any sequence of calls, the bitmap is 1 exactly on the
intervals of the entries in use, these intervals are pairwise disjoint and inside the page, and
every other entry is zeroed. -/
theorem alloc_representation (p : ℕ) (P : State) (ops : List Op) :
    let Q := runAll ops (init_alloc (some p) P).2
    (∀ b ∈ Finset.Ico (0 : ℤ) PAGESIZE,
      Q.bit_stat b = true ↔ ∃ k, (Q.table k).alloc_or_not = true ∧ b ∈ Q.interval k) ∧
    (∀ k l, k ≠ l → (Q.table k).alloc_or_not = true → (Q.table l).alloc_or_not = true →
      Disjoint (Q.interval k) (Q.interval l)) ∧
    (∀ k, (Q.table k).alloc_or_not = true → Q.interval k ⊆ Finset.Ico 0 PAGESIZE) ∧
    ∀ k, (Q.table k).alloc_or_not = false → (Q.table k).start_addr = 0 ∧ (Q.table k).length = 0 := by
  have hrep : (runAll ops (init_alloc (some p) P).2).Rep := runAll_rep (PageInfo.rep_init p) ops
  exact ⟨fun b _ => hrep.bits b, hrep.apart, hrep.interval_subset, fun k hk => by
    rw [hrep.unused k hk]
    exact ⟨rfl, rfl⟩⟩

end OsLabs.Malloc.Alloc
