import OsLabs.Malloc.Page

/-!
# The four-page allocator

`ealloc.c`: a best-fit allocator on up to four pages, mapped one by one as they are needed, in
multiples of `MINALLOC = 256` bytes. The scan of a page looks at every free place, not only at the
first of a run, so what it finds is always a run of exactly the wanted size at the end of a longer
one; a place found once is never replaced.

* `scanPage_spec` and `scan_spec`: what the scans find, and which pages they map;
* `alloc_spec`: what `alloc` returns and does.

`Heap.mapped` holds the regions that are mapped; the code does not read it. The answers of `mmap`
are an argument of `alloc`: `mmap i` is the answer to the call made for page `i`, if one is made.
-/

namespace OsLabs.Malloc.Ealloc

/-- Minimum allocation size. -/
def MINALLOC : ℕ := 256

def INF : ℤ := 10 ^ 9

/-- `MAP_FAILED`, the pointer -1. -/
def MAP_FAILED : ℕ := 2 ^ 64 - 1

/-- The sum of a pointer and an offset; pointers have 64 bits. -/
def ptr (p off : ℕ) : ℕ := (p + off) % 2 ^ 64

/-- The pointer `a` as a result, where `NULL` is nothing. -/
def pointer (a : ℕ) : Option ℕ := if a = 0 then none else some a

/-- What a successful `mmap` returns: a page-aligned region of the address space, not at `NULL`. -/
structure Region (p : ℕ) : Prop where
  ne_zero : p ≠ 0
  aligned : p % PAGESIZE = 0
  le : p + PAGESIZE ≤ 2 ^ 64

abbrev Page := PageInfo (PAGESIZE / MINALLOC)

/-- `page_table`, and the regions of `PAGESIZE` bytes that the operating system has mapped. -/
structure Heap where
  page_table : Fin 4 → Page := fun _ => {}
  mapped : List ℕ := []

def Heap.setPage (H : Heap) (i : Fin 4) (P : Page) : Heap :=
  { H with page_table := Function.update H.page_table i P }

theorem Heap.setPage_self (H : Heap) {i : Fin 4} {P : Page} : (H.setPage i P).page_table i = P :=
  Function.update_self ..

theorem Heap.setPage_of_ne (H : Heap) {i j : Fin 4} {P : Page} (h : j ≠ i) :
    (H.setPage i P).page_table j = H.page_table j :=
  Function.update_of_ne h ..

def init_alloc (H : Heap) : Heap := { H with page_table := fun _ => {} }

/-- Unmap the pages and clear the bitmaps and the tables. -/
def cleanup (H : Heap) : Heap where
  page_table i := { page_start := (H.page_table i).page_start }
  mapped := (List.finRange 4).foldl (fun rs i =>
    if (H.page_table i).page_start ≠ 0 then rs.filter (· ≠ (H.page_table i).page_start)
    else rs) H.mapped

/-! ## The scans -/

/-- The best place found so far. -/
structure Best where
  page_allocated_index : Option (Fin 4) := none
  best_fit_offset : ℕ := 0
  best_fit_chunk_size : ℤ := INF

/-- The scan of page `i` from place `j` on. -/
def scanPage (bit_stat : ℤ → Bool) (i : Fin 4) (size : ℤ) (j : ℕ) (best : Best) : Best :=
  if j < PAGESIZE then
    if bit_stat j then scanPage bit_stat i size (j + 1) best
    else
      let free_chunk_size : ℤ := runEnd bit_stat j - j + 1
      if free_chunk_size ≥ size ∧ free_chunk_size < best.best_fit_chunk_size then
        scanPage bit_stat i size (j + 1) ⟨some i, j, free_chunk_size⟩
      else scanPage bit_stat i size (j + 1) best
  else best
termination_by PAGESIZE - j

/-- Page `i` is mapped at the address `p`. -/
def Heap.map (H : Heap) (i : Fin 4) (p : ℕ) : Heap :=
  { H.setPage i { H.page_table i with page_start := p } with mapped := p :: H.mapped }

/-- The scan of the pages `is`. A page that is not mapped yet is mapped if nothing has been found
so far, and skipped otherwise; where `mmap` fails, the call returns at once. -/
def scan (size : ℤ) (mmap : Fin 4 → Option ℕ) : List (Fin 4) → Best → Heap → Option Best × Heap
  | [], best, H => (some best, H)
  | i :: is, best, H =>
    if (H.page_table i).page_start = 0 then
      if best.page_allocated_index = none then
        match mmap i with
        | none => (none, H.setPage i { H.page_table i with page_start := MAP_FAILED })
        | some p =>
          scan size mmap is (scanPage (H.page_table i).bit_stat i size 0 best) (H.map i p)
      else scan size mmap is best H
    else scan size mmap is (scanPage (H.page_table i).bit_stat i size 0 best) H

/-- Mark the bytes from `off` on, and enter the block in the table if it has an unused entry. -/
def mark (P : Page) (off : ℕ) (size : ℤ) : Page :=
  let P := P.fill off (off + size) true
  match P.freeEntry with
  | some k => P.setEntry k ⟨ptr P.page_start off, size, true⟩
  | none => P

/-- Allocate `size` bytes. -/
def alloc (size : ℤ) (mmap : Fin 4 → Option ℕ) (H : Heap) : Option ℕ × Heap :=
  if size.tmod MINALLOC ≠ 0 then (none, H)
  else
    match scan size mmap (List.finRange 4) {} H with
    | (none, H) => (none, H)
    | (some best, H) =>
      match best.page_allocated_index with
      | none => (none, H)
      | some i =>
        (pointer (ptr (H.page_table i).page_start best.best_fit_offset),
          H.setPage i (mark (H.page_table i) best.best_fit_offset size))

/-- The first page and entry with the start address `addr`. -/
def find (addr : ℕ) (H : Heap) : Option (Fin 4 × Fin (PAGESIZE / MINALLOC)) :=
  (List.finRange 4).findSome? fun i => ((H.page_table i).entryAt addr).map (i, ·)

/-- Free the first block at `addr`; the offset is truncated to an `int`. -/
def dealloc (addr : ℕ) (H : Heap) : Heap :=
  match find addr H with
  | some (i, k) =>
    let P := H.page_table i
    let offset := ((addr : ℤ) - P.page_start).bmod (2 ^ 32)
    H.setPage i ((P.fill offset (offset + (P.table k).length) false).setEntry k {})
  | none => H

/-! ## Pointers -/

/-- The sum does not wrap around inside a region. -/
theorem ptr_eq {p off : ℕ} (hp : p + PAGESIZE ≤ 2 ^ 64) (hoff : off < PAGESIZE) :
    ptr p off = p + off := Nat.mod_eq_of_lt (by omega)

/-- Whether it wraps around or not, the offset comes back. -/
theorem ptr_sub {p off : ℕ} (hoff : off < PAGESIZE) :
    ((ptr p off : ℤ) - p).bmod (2 ^ 32) = off := by
  unfold ptr
  simp only [PAGESIZE] at hoff
  rw [Int.bmod_def]
  split <;> omega

theorem pointer_of_ne {a : ℕ} (h : a ≠ 0) : pointer a = some a := if_neg h

theorem eq_of_pointer {a addr : ℕ} (h : pointer a = some addr) : a = addr := by
  unfold pointer at h
  split at h
  · cases h
  · exact Option.some.inj h

/-! ## What the scan of a page finds -/

section Scan

variable {bit : ℤ → Bool} {i : Fin 4} {size : ℤ} {best : Best}

/-- `len` clear places from `off` on, up to a set bit or the end of the page. -/
structure Run (bit : ℤ → Bool) (off : ℕ) (len : ℤ) : Prop where
  le : off + len ≤ PAGESIZE
  clear : ∀ b : ℤ, off ≤ b → b < off + len → bit b = false
  stop : off + len = PAGESIZE ∨ bit (off + len) = true

/-- Somewhere in the page there are `size` clear places in a row. -/
def HasRun (bit : ℤ → Bool) (size : ℤ) : Prop :=
  ∃ j : ℕ, j + size ≤ PAGESIZE ∧ ∀ b : ℤ, j ≤ b → b < j + size → bit b = false

theorem run_runEnd {j : ℕ} (hj : j < PAGESIZE) (hbit : bit j = false) :
    Run bit j (runEnd bit j - j + 1) ∧ j ≤ runEnd bit j := by
  have hnext : runEnd bit j = runEnd bit (j + 1) := by
    rw [runEnd, if_pos hj, hbit, if_neg Bool.false_ne_true]
  obtain ⟨h₁, h₂, h₃, h₄⟩ := @runEnd_spec bit (j + 1) (by omega) hj
  rw [← hnext] at h₁ h₂ h₃ h₄
  refine ⟨⟨by omega, fun b hb hb' => ?_, ?_⟩, by omega⟩
  · obtain ⟨c, rfl⟩ := Int.eq_ofNat_of_zero_le (a := b) (by omega)
    by_cases hc : c = j
    · rw [hc]
      exact hbit
    · exact h₃ c (by omega) (by omega)
  · refine h₄.imp (fun h => by omega) fun h => ?_
    have hcast : ((j : ℤ) + (runEnd bit j - j + 1)) = ((runEnd bit j + 1 : ℕ) : ℤ) := by
      push_cast
      omega
    rwa [hcast]

/-- Two runs with a common place end together. -/
theorem Run.end_eq {off off' : ℕ} {len len' : ℤ} (h : Run bit off len) (h' : Run bit off' len')
    (hlt : (off : ℤ) < off' + len') (hlt' : (off' : ℤ) < off + len) :
    off + len = off' + len' := by
  rcases lt_trichotomy ((off : ℤ) + len) (off' + len') with hc | hc | hc
  · rcases h.stop with hs | hs
    · have := h'.le
      omega
    · rw [h'.clear _ (by omega) hc] at hs
      exact absurd hs Bool.false_ne_true
  · exact hc
  · rcases h'.stop with hs | hs
    · have := h.le
      omega
    · rw [h.clear _ (by omega) hc] at hs
      exact absurd hs Bool.false_ne_true

/-- A place is found: a run of exactly `size` places in page `i`. -/
structure Exact (bit : ℤ → Bool) (i : Fin 4) (size : ℤ) (best : Best) : Prop where
  index : best.page_allocated_index = some i
  chunk : best.best_fit_chunk_size = size
  run : Run bit best.best_fit_offset size

/-- Where the scan of a page stands at place `j`: nothing has been found, a run of exactly `size`
has been found, or the place before `j` starts a run that is too long. -/
inductive Scanning (bit : ℤ → Bool) (i : Fin 4) (size : ℤ) (j : ℕ) (best : Best) : Prop
  | none (h : best = {}) (hno : ∀ b : ℕ, b < j → bit b = false → runEnd bit b - b + 1 < size)
  | exact (h : Exact bit i size best)
  | longer (hi : best.page_allocated_index = some i) (hj : best.best_fit_offset + 1 = j)
      (hlen : size < best.best_fit_chunk_size)
      (h : Run bit best.best_fit_offset best.best_fit_chunk_size)

theorem Scanning.found {j : ℕ} {len : ℤ} (h : Run bit j len) (hlen : size ≤ len) :
    Scanning bit i size (j + 1) ⟨some i, j, len⟩ := by
  rcases eq_or_lt_of_le hlen with rfl | hlt
  · exact .exact ⟨rfl, rfl, h⟩
  · exact .longer rfl rfl hlt h

/-- A place that is set. -/
theorem Scanning.set {j : ℕ} (hsize : 0 < size) (hbit : bit j = true)
    (h : Scanning bit i size j best) : Scanning bit i size (j + 1) best := by
  cases h with
  | none h hno =>
    refine .none h fun b hb hclear => ?_
    rcases Nat.lt_succ_iff_lt_or_eq.mp hb with hb | rfl
    · exact hno b hb hclear
    · rw [hbit] at hclear
      exact absurd hclear.symm Bool.false_ne_true
  | exact h => exact .exact h
  | longer _ hj' hlen h =>
    rw [h.clear j (by omega) (by omega)] at hbit
    exact absurd hbit Bool.false_ne_true

/-- A run that is too short, or no better than the one found. -/
theorem Scanning.pass {j : ℕ} (hsize : 0 < size) (hj : j < PAGESIZE) (hbit : bit j = false)
    (hlen : ¬(((runEnd bit j - j + 1 : ℤ) ≥ size) ∧
      (runEnd bit j - j + 1 : ℤ) < best.best_fit_chunk_size))
    (h : Scanning bit i size j best) : Scanning bit i size (j + 1) best := by
  obtain ⟨hrun, hle⟩ := run_runEnd hj hbit
  cases h with
  | none h hno =>
    have hinf : (runEnd bit j - j + 1 : ℤ) < best.best_fit_chunk_size := by
      have hpage := hrun.le
      rw [h]
      simp only [INF, PAGESIZE] at hpage ⊢
      omega
    refine .none h fun b hb hclear => ?_
    rcases Nat.lt_succ_iff_lt_or_eq.mp hb with hb | rfl
    · exact hno b hb hclear
    · omega
  | exact h => exact .exact h
  | longer hi hj' hlen' h =>
    have hend := h.end_eq hrun (by omega) (by omega)
    omega

/-- The run from `c` is at least as long as what is clear from `c` on. -/
theorem le_runEnd {c : ℕ} (hsize : 0 < size) (hc : c + size ≤ PAGESIZE)
    (hclear : ∀ b : ℤ, c ≤ b → b < c + size → bit b = false) :
    size ≤ runEnd bit c - c + 1 := by
  obtain ⟨hrun, hle⟩ := @run_runEnd bit c (by omega) (hclear c (le_refl _) (by omega))
  by_contra hlt
  rcases hrun.stop with hs | hs
  · omega
  · rw [hclear _ (by omega) (by omega)] at hs
    exact absurd hs Bool.false_ne_true

/-- The scan of a page that starts with nothing found ends with nothing, where there is no run of
`size` places, or with a run of exactly `size`. -/
theorem scanPage_spec (hsize : 0 < size) (j : ℕ) (h : Scanning bit i size j best) :
    let r := scanPage bit i size j best
    r = {} ∧ ¬HasRun bit size ∨ Exact bit i size r := by
  fun_induction scanPage bit i size j best with
  | case1 j best hj hbit ih => exact ih (h.set hsize hbit)
  | case2 j best hj hbit len hlen ih =>
    exact ih (.found (run_runEnd hj (Bool.not_eq_true _ ▸ hbit)).1 hlen.1)
  | case3 j best hj hbit len hlen ih => exact ih (h.pass hsize hj (Bool.not_eq_true _ ▸ hbit) hlen)
  | case4 j best hj =>
    cases h with
    | none h hno =>
      refine Or.inl ⟨h, ?_⟩
      rintro ⟨c, hc, hclear⟩
      have hlt := hno c (by omega) (hclear c (le_refl _) (by omega))
      have hle := le_runEnd hsize hc hclear
      omega
    | exact h => exact Or.inr h
    | longer hi hj' hlen h =>
      have := h.le
      omega

/-- A place found is kept. -/
theorem scanPage_kept {i' : Fin 4} (j : ℕ) (h : best.best_fit_chunk_size = size) :
    scanPage bit i' size j best = best := by
  fun_induction scanPage bit i' size j best with
  | case1 j best hj hbit ih => exact ih h
  | case2 j best hj hbit len hlen ih => omega
  | case3 j best hj hbit len hlen ih => exact ih h
  | case4 j best hj => rfl

theorem Exact.hasRun {bit : ℤ → Bool} (h : Exact bit i size best) : HasRun bit size :=
  ⟨_, h.run.le, h.run.clear⟩

/-- Every place up to `off` from which `size` places are clear starts a clear run to `off + len`. -/
def Reaches (bit : ℤ → Bool) (size : ℤ) (off : ℕ) (len : ℤ) : Prop :=
  ∀ c : ℕ, c ≤ off → (∀ b : ℤ, c ≤ b → b < c + size → bit b = false) →
    ∀ b : ℤ, c ≤ b → b < off + len → bit b = false

/-- The scan of a page takes a place in the first run that has `size` places. -/
theorem scanPage_first (hsize : 0 < size) (j : ℕ) (h : Scanning bit i size j best)
    (hr : best.page_allocated_index ≠ none →
      Reaches bit size best.best_fit_offset best.best_fit_chunk_size) :
    let r := scanPage bit i size j best
    r.page_allocated_index ≠ none → Reaches bit size r.best_fit_offset r.best_fit_chunk_size := by
  fun_induction scanPage bit i size j best with
  | case1 j best hj hbit ih => exact ih (h.set hsize hbit) hr
  | case2 j best hj hbit len hlen ih =>
    obtain ⟨hrun, hle⟩ := run_runEnd hj (Bool.not_eq_true _ ▸ hbit)
    refine ih (.found hrun hlen.1) fun _ c hc hclear b hb hb' => ?_
    dsimp only at hc hb'
    have hpage := hrun.le
    rcases Nat.lt_or_eq_of_le hc with hlt | rfl
    · cases h with
      | none h hno =>
        -- the run from `c` would have been taken
        have hshort := hno c hlt (hclear c (le_refl _) (by omega))
        have hlong := le_runEnd hsize (by omega) hclear
        omega
      | exact h =>
        have := h.chunk
        omega
      | longer hi hj' hlen' h =>
        have hend := h.end_eq hrun (by omega) (by omega)
        exact hr (by rw [hi]; exact Option.some_ne_none i) c (by omega) hclear b hb
          (by rw [hend]; exact hb')
    · exact hrun.clear b hb hb'
  | case3 j best hj hbit len hlen ih => exact ih (h.pass hsize hj (Bool.not_eq_true _ ▸ hbit) hlen) hr
  | case4 j best hj => exact hr

end Scan

/-! ## What the scan of the pages finds -/

section Pages

variable {size : ℤ} {mmap : Fin 4 → Option ℕ} {best : Best} {H H' : Heap}

/-- Page `i` is mapped in `H'`: it was before, or `mmap` has mapped it. -/
def Mapped (mmap : Fin 4 → Option ℕ) (H H' : Heap) (i : Fin 4) : Prop :=
  (H.page_table i).page_start ≠ 0 ∧ H'.page_table i = H.page_table i ∨
    (H.page_table i).page_start = 0 ∧ ∃ p, mmap i = some p ∧ p ∈ H'.mapped ∧
      H'.page_table i = { H.page_table i with page_start := p }

theorem Mapped.eq_of_ne {i : Fin 4} (h : Mapped mmap H H' i) (hi : (H.page_table i).page_start ≠ 0) :
    H'.page_table i = H.page_table i := by
  rcases h with ⟨-, he⟩ | ⟨h0, -⟩
  · exact he
  · exact absurd h0 hi

/-- From `H` to `H'` some pages of `is` have been mapped and nothing else has changed. -/
structure Grown (mmap : Fin 4 → Option ℕ) (is : List (Fin 4)) (H H' : Heap) : Prop where
  page : ∀ i, H'.page_table i = H.page_table i ∨ i ∈ is ∧ Mapped mmap H H' i
  mapped : H.mapped ⊆ H'.mapped
  fresh : ∀ r ∈ H'.mapped, r ∈ H.mapped ∨
    ∃ i ∈ is, (H.page_table i).page_start = 0 ∧ mmap i = some r

theorem Heap.map_self (i : Fin 4) (p : ℕ) :
    (H.map i p).page_table i = { H.page_table i with page_start := p } :=
  Function.update_self ..

theorem Heap.map_of_ne {i j : Fin 4} (h : j ≠ i) (p : ℕ) :
    (H.map i p).page_table j = H.page_table j :=
  Function.update_of_ne h ..

theorem Grown.refl {is : List (Fin 4)} : Grown mmap is H H :=
  ⟨fun _ => Or.inl rfl, fun _ h => h, fun _ h => Or.inl h⟩

/-- The scan goes on to the pages `is` after page `i` has been mapped. -/
theorem Grown.map {i : Fin 4} {is : List (Fin 4)} {p : ℕ} (hi : (H.page_table i).page_start = 0)
    (hnot : i ∉ is) (hp : mmap i = some p) (h : Grown mmap is (H.map i p) H') :
    Grown mmap (i :: is) H H' ∧ Mapped mmap H H' i := by
  have hsame : H'.page_table i = (H.map i p).page_table i :=
    (h.page i).resolve_right fun hi => hnot hi.1
  have hmapped : Mapped mmap H H' i :=
    Or.inr ⟨hi, p, hp, h.mapped List.mem_cons_self, by rw [hsame, Heap.map_self]⟩
  refine ⟨⟨fun j => ?_, fun r hr => h.mapped (List.mem_cons_of_mem p hr), fun r hr => ?_⟩, hmapped⟩
  · by_cases hj : j = i
    · subst hj
      exact Or.inr ⟨List.mem_cons_self, hmapped⟩
    · have hpage := h.page j
      unfold Mapped at hpage ⊢
      rw [Heap.map_of_ne hj] at hpage
      exact hpage.imp id fun hm => ⟨List.mem_cons_of_mem i hm.1, hm.2⟩
  · rcases h.fresh r hr with hr | ⟨j, hj, h0, hr⟩
    · rcases List.mem_cons.mp hr with rfl | hr
      · exact Or.inr ⟨i, List.mem_cons_self, hi, hp⟩
      · exact Or.inl hr
    · have hne : j ≠ i := fun e => hnot (e ▸ hj)
      exact Or.inr ⟨j, List.mem_cons_of_mem i hj, Heap.map_of_ne (H := H) hne p ▸ h0, hr⟩

/-- The scan goes on to the pages `is` after page `i`, which was mapped before. -/
theorem Grown.skip {i : Fin 4} {is : List (Fin 4)} (hi : (H.page_table i).page_start ≠ 0)
    (hnot : i ∉ is) (h : Grown mmap is H H') :
    Grown mmap (i :: is) H H' ∧ Mapped mmap H H' i :=
  ⟨⟨fun j => (h.page j).imp id fun hm => ⟨List.mem_cons_of_mem i hm.1, hm.2⟩, h.mapped,
    fun r hr => (h.fresh r hr).imp id fun ⟨j, hj, hr⟩ => ⟨j, List.mem_cons_of_mem i hj, hr⟩⟩,
    Or.inl ⟨hi, (h.page i).resolve_right fun hi => hnot hi.1⟩⟩

/-- A place found is kept, and no more pages are mapped. -/
theorem scan_kept (hi : best.page_allocated_index ≠ none)
    (hsize : best.best_fit_chunk_size = size) (is : List (Fin 4)) :
    scan size mmap is best H = (some best, H) := by
  induction is with
  | nil => rfl
  | cons i is ih =>
    unfold scan
    rw [scanPage_kept 0 hsize, if_neg hi, ih, ite_self]

/-- What the scan of the pages `is` gives: a failed `mmap`, no place in any of them, or the first
page that has `size` clear places in a row. -/
def ScanOutcome (size : ℤ) (mmap : Fin 4 → Option ℕ) (is : List (Fin 4)) (H : Heap) :
    Option Best × Heap → Prop
  | (none, H') => ∃ pre i post H₁, is = pre ++ i :: post ∧ (H.page_table i).page_start = 0 ∧
      mmap i = none ∧ (∀ j ∈ pre, ¬HasRun (H.page_table j).bit_stat size) ∧
      Grown mmap is H H₁ ∧ H' = H₁.setPage i { H.page_table i with page_start := MAP_FAILED }
  | (some best, H') =>
      (best = {} ∧ (∀ i ∈ is, ¬HasRun (H.page_table i).bit_stat size) ∧ Grown mmap is H H') ∨
        ∃ pre i post, is = pre ++ i :: post ∧ Exact (H.page_table i).bit_stat i size best ∧
          (∀ j ∈ pre, ¬HasRun (H.page_table j).bit_stat size) ∧
          Grown mmap (pre ++ [i]) H H' ∧ Mapped mmap H H' i

/-- The scan of page `i`, mapped in `H₁`, and then of the pages `is`. -/
theorem ScanOutcome.cons (hsize : 0 < size) {i : Fin 4} {is : List (Fin 4)} {H₁ : Heap}
    (hnot : i ∉ is) (hpages : ∀ j ∈ is, H₁.page_table j = H.page_table j)
    (hgrown : ∀ {js H'}, i ∉ js → Grown mmap js H₁ H' →
      Grown mmap (i :: js) H H' ∧ Mapped mmap H H' i)
    (ih : ScanOutcome size mmap is H₁ (scan size mmap is {} H₁)) :
    ScanOutcome size mmap (i :: is) H
      (scan size mmap is (scanPage (H.page_table i).bit_stat i size 0 {}) H₁) := by
  have hstart : Scanning (H.page_table i).bit_stat i size 0 {} :=
    .none rfl fun b hb => absurd hb (Nat.not_lt_zero b)
  rcases scanPage_spec hsize 0 hstart with ⟨hr, hno⟩ | hex
  · have hpre : ∀ {pre : List (Fin 4)}, (∀ j ∈ pre, j ∈ is) →
        (∀ j ∈ pre, ¬HasRun (H₁.page_table j).bit_stat size) →
        ∀ j ∈ i :: pre, ¬HasRun (H.page_table j).bit_stat size := by
      intro pre hsub hpre j hj
      rcases List.mem_cons.mp hj with rfl | hj
      · exact hno
      · exact hpages j (hsub j hj) ▸ hpre j hj
    rw [hr]
    generalize scan size mmap is {} H₁ = out at ih
    obtain ⟨_ | best, H'⟩ := out
    · obtain ⟨pre, k, post, H₂, rfl, h0, hm, hnone, hg, he⟩ := ih
      rw [hpages k (by simp)] at h0 he
      exact ⟨i :: pre, k, post, H₂, rfl, h0, hm, hpre (by simp +contextual) hnone,
        (hgrown hnot hg).1, he⟩
    · rcases ih with ⟨hbest, hnone, hg⟩ | ⟨pre, k, post, rfl, hex, hnone, hg, hm⟩
      · exact Or.inl ⟨hbest, hpre (fun j hj => hj) hnone, (hgrown hnot hg).1⟩
      · have hk : H₁.page_table k = H.page_table k := hpages k (by simp)
        have hnot' : i ∉ pre ++ [k] := fun hmem => hnot (by
          simp only [List.mem_append, List.mem_cons] at hmem ⊢
          tauto)
        refine Or.inr ⟨i :: pre, k, post, rfl, hk ▸ hex, hpre (by simp +contextual) hnone,
          (hgrown hnot' hg).1, ?_⟩
        unfold Mapped at hm ⊢
        rwa [hk] at hm
  · rw [scan_kept (by rw [hex.index]; exact Option.some_ne_none i) hex.chunk]
    obtain ⟨hg, hm⟩ := hgrown List.not_mem_nil Grown.refl
    exact Or.inr ⟨[], i, is, rfl, hex, fun j hj => absurd hj List.not_mem_nil, hg, hm⟩

theorem scan_spec (hsize : 0 < size) {is : List (Fin 4)} (hnd : is.Nodup) :
    ScanOutcome size mmap is H (scan size mmap is {} H) := by
  induction is generalizing H with
  | nil => exact Or.inl ⟨rfl, fun i hi => absurd hi List.not_mem_nil, Grown.refl⟩
  | cons i is ih =>
    obtain ⟨hnot, hnd⟩ := List.nodup_cons.mp hnd
    unfold scan
    by_cases h0 : (H.page_table i).page_start = 0
    · rw [if_pos h0, if_pos rfl]
      cases hm : mmap i with
      | none =>
        exact ⟨[], i, is, H, rfl, h0, hm, fun j hj => absurd hj List.not_mem_nil, Grown.refl, rfl⟩
      | some p =>
        refine ScanOutcome.cons hsize hnot (fun j hj => Heap.map_of_ne ?_ p)
          (fun hnot hg => Grown.map h0 hnot hm hg) (ih hnd)
        rintro rfl
        exact hnot hj
    · rw [if_neg h0]
      exact ScanOutcome.cons hsize hnot (fun _ _ => rfl) (fun hnot hg => Grown.skip h0 hnot hg)
        (ih hnd)

theorem Heap.map_bit_stat (i j : Fin 4) (p : ℕ) :
    ((H.map i p).page_table j).bit_stat = (H.page_table j).bit_stat := by
  by_cases hj : j = i
  · subst hj
    rw [Heap.map_self]
  · rw [Heap.map_of_ne hj]

/-- The place found is in the first run of its page that has `size` places. -/
theorem scan_first (hsize : 0 < size) {is : List (Fin 4)} {i : Fin 4}
    (h : scan size mmap is {} H = (some best, H')) (hi : best.page_allocated_index = some i) :
    Reaches (H.page_table i).bit_stat size best.best_fit_offset best.best_fit_chunk_size := by
  induction is generalizing H with
  | nil =>
    have hbest : (some {} : Option Best) = some best := congrArg Prod.fst h
    rw [← Option.some.inj hbest] at hi
    cases hi
  | cons l is ih =>
    have hpage : ∀ {H₁ : Heap}, (∀ j, (H₁.page_table j).bit_stat = (H.page_table j).bit_stat) →
        scan size mmap is (scanPage (H.page_table l).bit_stat l size 0 {}) H₁ = (some best, H') →
        Reaches (H.page_table i).bit_stat size best.best_fit_offset
          best.best_fit_chunk_size := by
      intro H₁ hbits h₁
      have hstart : Scanning (H.page_table l).bit_stat l size 0 {} :=
        .none rfl fun b hb => absurd hb (Nat.not_lt_zero b)
      rcases scanPage_spec hsize 0 hstart with ⟨hr, -⟩ | hex
      · rw [hr] at h₁
        exact hbits i ▸ ih h₁
      · rw [scan_kept (by rw [hex.index]; exact Option.some_ne_none l) hex.chunk] at h₁
        obtain ⟨hb, -⟩ := Prod.ext_iff.mp h₁
        obtain rfl := Option.some.inj hb
        obtain rfl := Option.some.inj (hex.index.symm.trans hi)
        exact scanPage_first hsize 0 hstart (fun hne => absurd rfl hne)
          (by rw [hex.index]; exact Option.some_ne_none l)
    unfold scan at h
    by_cases h0 : (H.page_table l).page_start = 0
    · rw [if_pos h0, if_pos rfl] at h
      cases hm : mmap l with
      | none =>
        rw [hm] at h
        cases (Prod.ext_iff.mp h).1
      | some p =>
        rw [hm] at h
        exact hpage (fun j => Heap.map_bit_stat l j p) h
    · rw [if_neg h0] at h
      exact hpage (fun _ => rfl) h

/-- The pages before `i` in the order of the scan are those below it. -/
theorem mem_pre_iff {pre post : List (Fin 4)} {i j : Fin 4}
    (h : List.finRange 4 = pre ++ i :: post) : j ∈ pre ↔ j < i := by
  have hsorted := List.pairwise_lt_finRange 4
  have hmem := List.mem_finRange j
  rw [h] at hsorted hmem
  obtain ⟨-, hpost, hcross⟩ := List.pairwise_append.mp hsorted
  refine ⟨fun hj => hcross j hj i List.mem_cons_self, fun hj => ?_⟩
  rcases List.mem_append.mp hmem with hmem | hmem
  · exact hmem
  · rcases List.mem_cons.mp hmem with rfl | hmem
    · exact absurd hj (lt_irrefl j)
    · exact absurd hj (lt_asymm ((List.pairwise_cons.mp hpost).1 j hmem))

/-- A request for 0 or fewer bytes looks for one place. -/
theorem scanPage_of_nonpos (hsize : size ≤ 0) (bit : ℤ → Bool) (i : Fin 4) (j : ℕ) (best : Best) :
    scanPage bit i size j best = scanPage bit i 1 j best := by
  fun_induction scanPage bit i 1 j best with
  | case1 j best hj hbit ih =>
    rw [scanPage, if_pos hj, if_pos hbit]
    exact ih
  | case2 j best hj hbit len hlen ih =>
    rw [scanPage, if_pos hj, if_neg hbit]
    simp only
    rw [if_pos ⟨by omega, hlen.2⟩]
    exact ih
  | case3 j best hj hbit len hlen ih =>
    have hle := (run_runEnd hj (Bool.not_eq_true _ ▸ hbit)).2
    rw [scanPage, if_pos hj, if_neg hbit]
    simp only
    rw [if_neg fun hc => hlen ⟨by omega, hc.2⟩]
    exact ih
  | case4 j best hj => rw [scanPage, if_neg hj]

theorem scan_of_nonpos (hsize : size ≤ 0) (is : List (Fin 4)) (best : Best) (H : Heap) :
    scan size mmap is best H = scan 1 mmap is best H := by
  induction is generalizing best H with
  | nil => rfl
  | cons i is ih =>
    unfold scan
    simp only [scanPage_of_nonpos hsize, ih]

/-- A scan looks for one place at least. -/
theorem scan_max_one (size : ℤ) (is : List (Fin 4)) (best : Best) (H : Heap) :
    scan size mmap is best H = scan (max size 1) mmap is best H := by
  rcases lt_or_ge 0 size with hsize | hsize
  · rw [max_eq_left (by omega)]
  · rw [max_eq_right (by omega), scan_of_nonpos hsize]

/-- What `alloc` of a multiple of `MINALLOC`, positive or not, returns and does: nothing if `mmap`
fails or no page has room, else a block at the end of the first free run with room, in the first
page that has one. -/
theorem alloc_outcome (hmul : size.tmod MINALLOC = 0) {r : Option ℕ}
    (h : alloc size mmap H = (r, H')) :
    (r = none ∧ ∃ (i : Fin 4) (H₁ : Heap), (H.page_table i).page_start = 0 ∧ mmap i = none ∧
      (∀ j < i, ¬HasRun (H.page_table j).bit_stat (max size 1)) ∧
      Grown mmap (List.finRange 4) H H₁ ∧
      H' = H₁.setPage i { H.page_table i with page_start := MAP_FAILED }) ∨
    (r = none ∧ (∀ i, ¬HasRun (H.page_table i).bit_stat (max size 1)) ∧
      Grown mmap (List.finRange 4) H H') ∨
    ∃ (i : Fin 4) (off : ℕ) (H₁ : Heap) (is : List (Fin 4)), (∀ j ∈ is, j ≤ i) ∧
      Grown mmap is H H₁ ∧ Mapped mmap H H₁ i ∧ Run (H.page_table i).bit_stat off (max size 1) ∧
      (∀ j < i, ¬HasRun (H.page_table j).bit_stat (max size 1)) ∧
      Reaches (H.page_table i).bit_stat (max size 1) off (max size 1) ∧
      r = pointer (ptr (H₁.page_table i).page_start off) ∧
      H' = H₁.setPage i (mark (H₁.page_table i) off size) := by
  have hlen : 0 < max size 1 := by omega
  unfold alloc at h
  rw [if_neg (not_not_intro hmul), scan_max_one] at h
  have hscan := @scan_spec _ mmap H hlen _ (List.nodup_finRange 4)
  generalize hout : scan (max size 1) mmap (List.finRange 4) {} H = out at h hscan
  obtain ⟨_ | best, H₁⟩ := out
  · obtain ⟨pre, i, post, H₂, his, h0, hm, hpre, hg, he⟩ := hscan
    obtain ⟨rfl, rfl⟩ := Prod.ext_iff.mp h
    exact Or.inl ⟨rfl, i, H₂, h0, hm, fun j hj => hpre j ((mem_pre_iff his).mpr hj), hg, he⟩
  · rcases hscan with ⟨rfl, hno, hg⟩ | ⟨pre, i, post, his, hex, hpre, hg, hm⟩
    · obtain ⟨rfl, rfl⟩ := Prod.ext_iff.mp h
      exact Or.inr (Or.inl ⟨rfl, fun i => hno i (List.mem_finRange i), hg⟩)
    · have hfirst := scan_first hlen hout hex.index
      rw [hex.chunk] at hfirst
      simp only [hex.index] at h
      obtain ⟨rfl, rfl⟩ := Prod.ext_iff.mp h
      refine Or.inr (Or.inr ⟨i, _, H₁, pre ++ [i], fun j hj => ?_, hg, hm, hex.run,
        fun j hj => hpre j ((mem_pre_iff his).mpr hj), hfirst, rfl, rfl⟩)
      rcases List.mem_append.mp hj with hj | hj
      · exact le_of_lt ((mem_pre_iff his).mp hj)
      · exact le_of_eq (List.mem_singleton.mp hj)

/-- `alloc` of a positive multiple of `MINALLOC`. -/
theorem alloc_spec (hsize : 0 < size) (hmul : size.tmod MINALLOC = 0) {r : Option ℕ}
    (h : alloc size mmap H = (r, H')) :
    (r = none ∧ ∃ (i : Fin 4) (H₁ : Heap), (H.page_table i).page_start = 0 ∧ mmap i = none ∧
      (∀ j < i, ¬HasRun (H.page_table j).bit_stat size) ∧ Grown mmap (List.finRange 4) H H₁ ∧
      H' = H₁.setPage i { H.page_table i with page_start := MAP_FAILED }) ∨
    (r = none ∧ (∀ i, ¬HasRun (H.page_table i).bit_stat size) ∧
      Grown mmap (List.finRange 4) H H') ∨
    ∃ (i : Fin 4) (off : ℕ) (H₁ : Heap) (is : List (Fin 4)), (∀ j ∈ is, j ≤ i) ∧
      Grown mmap is H H₁ ∧ Mapped mmap H H₁ i ∧ Run (H.page_table i).bit_stat off size ∧
      (∀ j < i, ¬HasRun (H.page_table j).bit_stat size) ∧
      Reaches (H.page_table i).bit_stat size off size ∧
      r = pointer (ptr (H₁.page_table i).page_start off) ∧
      H' = H₁.setPage i (mark (H₁.page_table i) off size) := by
  have hspec := alloc_outcome hmul h
  rwa [max_eq_left (by omega)] at hspec

end Pages

end OsLabs.Malloc.Ealloc
