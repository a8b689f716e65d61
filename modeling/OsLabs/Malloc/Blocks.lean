import OsLabs.Malloc.Ealloc

/-!
# The blocks of the four-page allocator

The invariant of `ealloc.c` over sequences of `alloc` and `dealloc` while every `mmap` succeeds.

* `Valid`: a page represents its blocks, they start at multiples of `MINALLOC` and have at least
  `MINALLOC` bytes. By counting, such a page with a clear byte has an unused entry
  (`Valid.exists_freeEntry`), so `mark` never drops a block (`Valid.mark`).
* `HeapOk`: all pages are valid, those not mapped are empty, and the mapped ones do not overlap.
* `ealloc_representation`: the invariant in every reachable state, with what follows for the block
  that `alloc` returns.
-/

namespace OsLabs.Malloc.Ealloc

/-- The representation invariant of a page of `ealloc.c`. -/
structure Valid (P : Page) : Prop where
  rep : P.Rep
  aligned : ∀ k, (P.table k).alloc_or_not = true →
    ((P.table k).start_addr - P.page_start : ℤ) % MINALLOC = 0 ∧ MINALLOC ≤ (P.table k).length

namespace Valid

variable {P : Page} {off : ℕ} {size : ℤ}

/-- A page with a clear byte has an unused entry: sixteen blocks of 256 bytes fill it. -/
theorem exists_freeEntry (h : Valid P) {b : ℤ} (hb : b ∈ Finset.Ico (0 : ℤ) PAGESIZE)
    (hclear : P.bit_stat b = false) : ∃ k, P.freeEntry = some k := by
  cases hk : P.freeEntry with
  | some k => exact ⟨k, rfl⟩
  | none =>
    have hused := PageInfo.freeEntry_none hk
    have hset : P.bit_stat b = true := by
      refine h.rep.tiles.full (m := MINALLOC) (D := Finset.Ico (0 : ℤ) PAGESIZE) (fun k => ?_)
        (fun k => ?_) ?_ hb
      · rw [PageInfo.block_of_used (hused k)]
        exact h.rep.interval_subset k (hused k)
      · rw [PageInfo.block_of_used (hused k), PageInfo.interval, Int.card_Ico]
        have := (h.aligned k (hused k)).2
        omega
      · rw [Int.card_Ico, Fintype.card_fin]
        decide
    rw [hclear] at hset
    exact absurd hset Bool.false_ne_true

/-- A free run ends at a multiple of `MINALLOC`: at the end of the page or where a block starts. -/
theorem run_end_aligned (h : Valid P) (hsize : 0 < size) (hrun : Run P.bit_stat off size) :
    ((off : ℤ) + size) % MINALLOC = 0 := by
  rcases hrun.stop with hs | hs
  · rw [hs]
    decide
  · obtain ⟨k, hk, hmem⟩ := (h.rep.bits _).mp hs
    rw [PageInfo.interval, Finset.mem_Ico] at hmem
    have hstart : (P.table k).start_addr - P.page_start = (off : ℤ) + size := by
      by_contra hne
      have hprev : P.bit_stat (off + size - 1) = true :=
        (h.rep.bits _).mpr ⟨k, hk, Finset.mem_Ico.mpr (by omega)⟩
      rw [hrun.clear _ (by omega) (by omega)] at hprev
      exact Bool.false_ne_true hprev
    rw [← hstart]
    exact (h.aligned k hk).1

/-- A found block is entered in the table, and the page stays valid. -/
theorem mark (h : Valid P) (hspace : P.page_start + PAGESIZE ≤ 2 ^ 64) (hsize : 0 < size)
    (hmul : size % MINALLOC = 0) (hrun : Run P.bit_stat off size) :
    ∃ k, (P.table k).alloc_or_not = false ∧ Ealloc.mark P off size =
        (P.fill off (off + size) true).setEntry k ⟨P.page_start + off, size, true⟩ ∧
      Valid (Ealloc.mark P off size) := by
  have hle := hrun.le
  have hend := h.run_end_aligned hsize hrun
  obtain ⟨k, hk⟩ := h.exists_freeEntry (Finset.mem_Ico.mpr (by omega))
    (hrun.clear off (le_refl _) (by omega))
  have hunused := PageInfo.freeEntry_some hk
  have hmark : Ealloc.mark P off size =
      (P.fill off (off + size) true).setEntry k ⟨P.page_start + off, size, true⟩ := by
    have hk' : (P.fill off (off + size) true).freeEntry = some k := hk
    have hptr : ptr (P.fill off (off + size) true).page_start off = P.page_start + off :=
      ptr_eq hspace (by omega)
    simp only [Ealloc.mark, hk', hptr]
  refine ⟨k, hunused, hmark, ?_⟩
  rw [hmark]
  refine ⟨h.rep.record hunused (by omega) hle hrun.clear, fun l hl => ?_⟩
  by_cases hlk : l = k
  · subst hlk
    rw [PageInfo.setEntry_self]
    change ((P.page_start + off : ℕ) - P.page_start : ℤ) % MINALLOC = 0 ∧ (MINALLOC : ℤ) ≤ size
    simp only [MINALLOC] at hmul hend ⊢
    omega
  · rw [PageInfo.setEntry_of_ne hlk] at hl ⊢
    exact h.aligned l hl

/-- A page without blocks can get another address. -/
theorem rebase (h : Valid P) (hempty : ∀ k, (P.table k).alloc_or_not = false) (p : ℕ) :
    Valid { P with page_start := p } := by
  have hused : ∀ k, (P.table k).alloc_or_not = true → False := fun k hk => by
    rw [hempty k] at hk
    exact Bool.false_ne_true hk
  refine ⟨⟨?_, fun k hk => (hused k hk).elim, h.rep.unused⟩, fun k hk => (hused k hk).elim⟩
  have hblock : PageInfo.block { P with page_start := p } = P.block := by
    funext k
    rw [PageInfo.block_of_unused (hempty k)]
    exact PageInfo.block_of_unused (hempty k)
  rw [hblock]
  exact h.rep.tiles

/-- A block is taken out, or an unused entry is zeroed once more. -/
theorem release (h : Valid P) {k : Fin (PAGESIZE / MINALLOC)} {addr : ℕ}
    (hk : (P.table k).start_addr = addr) :
    let offset := ((addr : ℤ) - P.page_start).bmod (2 ^ 32)
    Valid ((P.fill offset (offset + (P.table k).length) false).setEntry k {}) := by
  refine ⟨h.rep.release k fun b => ?_, fun l hl => ?_⟩
  · rw [h.rep.mem_block k b, hk]
    cases hused : (P.table k).alloc_or_not with
    | false =>
      rw [h.rep.unused k hused]
      simp only [add_zero]
      omega
    | true => rw [h.rep.trunc_offset hused hk]
  · by_cases hlk : l = k
    · subst hlk
      rw [PageInfo.setEntry_self] at hl
      exact absurd hl Bool.false_ne_true
    · rw [PageInfo.setEntry_of_ne hlk] at hl ⊢
      exact h.aligned l hl

end Valid

/-! ## The heap -/

/-- The regions of `PAGESIZE` bytes at `p` and `q` do not overlap. -/
def Apart (p q : ℕ) : Prop := p + PAGESIZE ≤ q ∨ q + PAGESIZE ≤ p

/-- The answers of `mmap` to the calls that `alloc` may make: every call succeeds and returns a
region apart from those that are mapped. -/
structure MmapOk (H : Heap) (mmap : Fin 4 → Option ℕ) : Prop where
  succeeds : ∀ i, (H.page_table i).page_start = 0 →
    ∃ p, mmap i = some p ∧ Region p ∧ ∀ q ∈ H.mapped, Apart p q
  apart : ∀ i j p q, i ≠ j → (H.page_table i).page_start = 0 → (H.page_table j).page_start = 0 →
    mmap i = some p → mmap j = some q → Apart p q

/-- The answers of `mmap` to the calls that succeed. -/
def Answered (H : Heap) (mmap : Fin 4 → Option ℕ) : Prop :=
  ∀ i p, (H.page_table i).page_start = 0 → mmap i = some p → Region p

/-- The page that `alloc` takes a block from counts as mapped. -/
theorem Mapped.ne_zero {H H' : Heap} {mmap : Fin 4 → Option ℕ} {i : Fin 4}
    (hm : Mapped mmap H H' i) (ha : Answered H mmap) : (H'.page_table i).page_start ≠ 0 := by
  rcases hm with ⟨hne, he⟩ | ⟨h0, p, hp, -, he⟩
  · rwa [he]
  · rw [he]
    exact (ha i p h0 hp).ne_zero

/-- `alloc` finds in the page what was in it before it was mapped. -/
theorem Mapped.bit_stat {H H' : Heap} {mmap : Fin 4 → Option ℕ} {i : Fin 4}
    (hm : Mapped mmap H H' i) : (H'.page_table i).bit_stat = (H.page_table i).bit_stat := by
  rcases hm with ⟨-, he⟩ | ⟨-, p, -, -, he⟩
  · rw [he]
  · rw [he]

theorem MmapOk.answered {H : Heap} {mmap : Fin 4 → Option ℕ} (h : MmapOk H mmap) :
    Answered H mmap := fun i p h0 hp => by
  obtain ⟨q, hq, hreg, -⟩ := h.succeeds i h0
  obtain rfl : p = q := Option.some.inj (hp.symm.trans hq)
  exact hreg

/-- The invariant of the heap. -/
structure HeapOk (H : Heap) : Prop where
  valid : ∀ i, Valid (H.page_table i)
  empty : ∀ i, (H.page_table i).page_start = 0 →
    ∀ k, ((H.page_table i).table k).alloc_or_not = false
  mapped : ∀ i, (H.page_table i).page_start ≠ 0 → (H.page_table i).page_start ∈ H.mapped
  space : ∀ i, (H.page_table i).page_start + PAGESIZE ≤ 2 ^ 64
  apart : ∀ i j, i ≠ j → (H.page_table i).page_start ≠ 0 → (H.page_table j).page_start ≠ 0 →
    Apart (H.page_table i).page_start (H.page_table j).page_start

namespace HeapOk

variable {H H' : Heap} {mmap : Fin 4 → Option ℕ} {i : Fin 4} {k : Fin (PAGESIZE / MINALLOC)}

theorem init (H : Heap) : HeapOk (init_alloc H) where
  valid _ := ⟨PageInfo.rep_init 0, fun _ h => absurd h Bool.false_ne_true⟩
  empty _ _ _ := rfl
  mapped _ h := absurd rfl h
  space _ := (by decide : 0 + PAGESIZE ≤ 2 ^ 64)
  apart _ _ _ h := absurd rfl h

/-- A page is replaced by a valid one at the same address. -/
theorem setPage (h : HeapOk H) {P : Page} (hP : Valid P)
    (hstart : P.page_start = (H.page_table i).page_start)
    (hempty : P.page_start = 0 → ∀ k, (P.table k).alloc_or_not = false) :
    HeapOk (H.setPage i P) := by
  have hstarts : ∀ j, ((H.setPage i P).page_table j).page_start =
      (H.page_table j).page_start := fun j => by
    by_cases hj : j = i
    · subst hj
      rw [H.setPage_self, hstart]
    · rw [H.setPage_of_ne hj]
  refine ⟨fun j => ?_, fun j hj => ?_, fun j hj => ?_, fun j => hstarts j ▸ h.space j,
    fun j l hjl hj hl => ?_⟩
  · by_cases hj : j = i
    · subst hj
      rw [H.setPage_self]
      exact hP
    · rw [H.setPage_of_ne hj]
      exact h.valid j
  · by_cases hji : j = i
    · subst hji
      rw [H.setPage_self] at hj ⊢
      exact hempty hj
    · rw [H.setPage_of_ne hji] at hj ⊢
      exact h.empty j hj
  · rw [hstarts] at hj ⊢
    exact h.mapped j hj
  · rw [hstarts] at hj hl ⊢
    rw [hstarts]
    exact h.apart j l hjl hj hl

/-- The pages that `alloc` maps. -/
theorem grown (h : HeapOk H) (hm : MmapOk H mmap) {is : List (Fin 4)}
    (hg : Grown mmap is H H') : HeapOk H' := by
  have hpage : ∀ i, H'.page_table i = H.page_table i ∨ (H.page_table i).page_start = 0 ∧
      ∃ p, mmap i = some p ∧ Region p ∧ (∀ q ∈ H.mapped, Apart p q) ∧ p ∈ H'.mapped ∧
        H'.page_table i = { H.page_table i with page_start := p } := by
    intro i
    rcases hg.page i with he | ⟨-, ⟨-, he⟩ | ⟨h0, p, hp, hmem, he⟩⟩
    · exact Or.inl he
    · exact Or.inl he
    · obtain ⟨q, hq, hreg, hap⟩ := hm.succeeds i h0
      obtain rfl : p = q := Option.some.inj (hp.symm.trans hq)
      exact Or.inr ⟨h0, p, hp, hreg, hap, hmem, he⟩
  refine ⟨fun i => ?_, fun i hi => ?_, fun i hi => ?_, fun i => ?_, fun i j hij hi hj => ?_⟩
  · rcases hpage i with he | ⟨h0, p, -, -, -, -, he⟩
    · rw [he]
      exact h.valid i
    · rw [he]
      exact (h.valid i).rebase (h.empty i h0) p
  · rcases hpage i with he | ⟨-, p, -, hreg, -, -, he⟩
    · rw [he] at hi ⊢
      exact h.empty i hi
    · rw [he] at hi
      exact absurd hi hreg.ne_zero
  · rcases hpage i with he | ⟨-, p, -, -, -, hmem, he⟩
    · rw [he] at hi ⊢
      exact hg.mapped (h.mapped i hi)
    · rw [he]
      exact hmem
  · rcases hpage i with he | ⟨-, p, -, hreg, -, -, he⟩
    · rw [he]
      exact h.space i
    · rw [he]
      exact hreg.le
  · rcases hpage i with he | ⟨h0, p, hp, -, hap, -, he⟩
    · rcases hpage j with he' | ⟨-, q, -, -, hap, -, he'⟩
      · rw [he] at hi ⊢
        rw [he'] at hj ⊢
        exact h.apart i j hij hi hj
      · rw [he] at hi ⊢
        rw [he']
        exact (hap _ (h.mapped i hi)).symm
    · rcases hpage j with he' | ⟨h0', q, hq, -, -, -, he'⟩
      · rw [he'] at hj ⊢
        rw [he]
        exact hap _ (h.mapped j hj)
      · rw [he, he']
        exact hm.apart i j p q hij h0 h0' hp hq

/-- A place of a mapped page as a result. -/
theorem pointer_eq (h : HeapOk H) (h0 : (H.page_table i).page_start ≠ 0) {off : ℕ}
    (hoff : off < PAGESIZE) : pointer (ptr (H.page_table i).page_start off) =
      some ((H.page_table i).page_start + off) := by
  rw [ptr_eq (h.space i) hoff, pointer_of_ne (by omega)]

theorem page_start_ne_zero (h : HeapOk H) (hk : ((H.page_table i).table k).alloc_or_not = true) :
    (H.page_table i).page_start ≠ 0 := fun h0 => by
  rw [h.empty i h0 k] at hk
  exact Bool.false_ne_true hk

/-- No other entry, in use or not, has the start address of a block. -/
theorem start_injective (h : HeapOk H) {j : Fin 4} {l : Fin (PAGESIZE / MINALLOC)}
    (hk : ((H.page_table i).table k).alloc_or_not = true)
    (heq : ((H.page_table j).table l).start_addr = ((H.page_table i).table k).start_addr) :
    j = i ∧ l = k := by
  have hi0 := h.page_start_ne_zero hk
  obtain ⟨h₁, h₂, -⟩ := (h.valid i).rep.inside k hk
  have hl : ((H.page_table j).table l).alloc_or_not = true := by
    cases hl : ((H.page_table j).table l).alloc_or_not with
    | true => rfl
    | false =>
      rw [(h.valid j).rep.unused l hl] at heq
      change 0 = _ at heq
      omega
  obtain ⟨h₃, h₄, -⟩ := (h.valid j).rep.inside l hl
  obtain rfl : j = i := by
    by_contra hij
    rcases h.apart j i hij (h.page_start_ne_zero hl) hi0 with hap | hap <;> omega
  refine ⟨rfl, ?_⟩
  by_contra hlk
  have hlen := ((h.valid j).aligned l hl).2
  have hlen' := ((h.valid j).aligned k hk).2
  have hmem : ((H.page_table j).table l).start_addr - ((H.page_table j).page_start : ℤ) ∈
      (H.page_table j).interval l := Finset.mem_Ico.mpr (by simp only [MINALLOC] at hlen; omega)
  refine Finset.disjoint_left.mp ((h.valid j).rep.apart l k hlk hl hk) hmem ?_
  rw [heq]
  exact Finset.mem_Ico.mpr (by simp only [MINALLOC] at hlen'; omega)

/-- The entry with the start address of a block is the block's own. -/
theorem find_eq (h : HeapOk H) (hk : ((H.page_table i).table k).alloc_or_not = true) :
    find ((H.page_table i).table k).start_addr H = some (i, k) := by
  cases hf : find ((H.page_table i).table k).start_addr H with
  | none =>
    have hnone := List.findSome?_eq_none_iff.mp hf i (List.mem_finRange i)
    exact absurd rfl (PageInfo.entryAt_none (Option.map_eq_none_iff.mp hnone) k)
  | some jl =>
    obtain ⟨j, -, hj⟩ := List.exists_of_findSome?_eq_some hf
    obtain ⟨l, hl, rfl⟩ := Option.map_eq_some_iff.mp hj
    obtain ⟨rfl, rfl⟩ := h.start_injective hk (PageInfo.entryAt_some hl)
    rfl

/-- Releasing a block takes out that block. -/
theorem dealloc_block (h : HeapOk H) (hk : ((H.page_table i).table k).alloc_or_not = true) :
    let P := H.page_table i
    let offset : ℤ := (P.table k).start_addr - P.page_start
    dealloc (P.table k).start_addr H =
      H.setPage i ((P.fill offset (offset + (P.table k).length) false).setEntry k {}) := by
  simp only [dealloc, h.find_eq hk, (h.valid i).rep.trunc_offset hk rfl]

theorem dealloc (h : HeapOk H) (addr : ℕ) : HeapOk (dealloc addr H) := by
  unfold Ealloc.dealloc
  cases hf : find addr H with
  | none => exact h
  | some jl =>
    obtain ⟨j, -, hj⟩ := List.exists_of_findSome?_eq_some hf
    obtain ⟨l, hl, rfl⟩ := Option.map_eq_some_iff.mp hj
    refine h.setPage ((h.valid j).release (PageInfo.entryAt_some hl)) rfl fun h0 m => ?_
    by_cases hm : m = l
    · rw [hm, PageInfo.setEntry_self]
    · rw [PageInfo.setEntry_of_ne hm]
      exact h.empty j h0 m

/-- `alloc` keeps the invariant, and a block it returns is in the table. -/
theorem alloc {size : ℤ} {r : Option ℕ} (h : HeapOk H) (hsize : 0 < size)
    (hmul : size % MINALLOC = 0) (hm : MmapOk H mmap) (hr : alloc size mmap H = (r, H')) :
    HeapOk H' ∧ ∀ addr, r = some addr → ∃ i k,
      (H'.page_table i).table k = ⟨addr, size, true⟩ := by
  rcases alloc_spec hsize (tmod_of_emod hsize hmul) hr with ⟨-, i, -, h0, hnone, -⟩ | ⟨rfl, -, hg⟩ |
    ⟨i, off, H₁, is, -, hg, hmap, hrun, -, -, rfl, rfl⟩
  · obtain ⟨p, hp, -⟩ := hm.succeeds i h0
    rw [hnone] at hp
    exact absurd hp (Option.some_ne_none p).symm
  · exact ⟨h.grown hm hg, fun addr ha => absurd ha (Option.some_ne_none addr).symm⟩
  · have h₁ := h.grown hm hg
    rw [← hmap.bit_stat] at hrun
    obtain ⟨k, -, hmark, hvalid⟩ := (h₁.valid i).mark (h₁.space i) hsize hmul hrun
    refine ⟨h₁.setPage hvalid (by rw [hmark]; rfl) fun h0 => ?_, fun addr ha => ⟨i, k, ?_⟩⟩
    · rw [hmark] at h0
      exact absurd h0 (hmap.ne_zero hm.answered)
    · obtain rfl := eq_of_pointer ha
      have hle := hrun.le
      rw [H₁.setPage_self, hmark, PageInfo.setEntry_self, ptr_eq (h₁.space i) (by omega)]

end HeapOk

/-- The heaps after `init_alloc` and a sequence of calls: `alloc` of positive multiples of
`MINALLOC`, with every `mmap` successful, and `dealloc` of any address. -/
inductive Reachable : Heap → Prop
  | init (H : Heap) : Reachable (init_alloc H)
  | alloc {H : Heap} {size : ℤ} {mmap : Fin 4 → Option ℕ} (h : Reachable H) (hsize : 0 < size)
      (hmul : size % MINALLOC = 0) (hm : MmapOk H mmap) : Reachable (alloc size mmap H).2
  | dealloc {H : Heap} (h : Reachable H) (addr : ℕ) : Reachable (dealloc addr H)

theorem heapOk_of_reachable {H : Heap} (h : Reachable H) : HeapOk H := by
  induction h with
  | init H => exact HeapOk.init H
  | alloc _ hsize hmul hm ih => exact (ih.alloc hsize hmul hm rfl).1
  | dealloc _ addr ih => exact ih.dealloc addr

/-- In every page of a reachable heap the bitmap is 1 exactly on the intervals of the entries in
use, these are pairwise disjoint, inside the page and start at multiples of `MINALLOC`, the unused
entries are zeroed, and a page with a clear byte has an unused entry. So a block that `alloc`
returns is in the table, and releasing it clears its bytes and its entry. -/
theorem ealloc_representation {H : Heap} (h : Reachable H) :
    (∀ i, let P := H.page_table i
      (∀ b ∈ Finset.Ico (0 : ℤ) PAGESIZE,
        P.bit_stat b = true ↔ ∃ k, (P.table k).alloc_or_not = true ∧ b ∈ P.interval k) ∧
      (∀ k l, k ≠ l → (P.table k).alloc_or_not = true → (P.table l).alloc_or_not = true →
        Disjoint (P.interval k) (P.interval l)) ∧
      (∀ k, (P.table k).alloc_or_not = true → P.interval k ⊆ Finset.Ico 0 PAGESIZE ∧
        ((P.table k).start_addr - P.page_start : ℤ) % MINALLOC = 0) ∧
      (∀ k, (P.table k).alloc_or_not = false →
        (P.table k).start_addr = 0 ∧ (P.table k).length = 0) ∧
      ((∃ b ∈ Finset.Ico (0 : ℤ) PAGESIZE, P.bit_stat b = false) →
        ∃ k, (P.table k).alloc_or_not = false)) ∧
    ∀ (size : ℤ) mmap addr H', 0 < size → size % MINALLOC = 0 → MmapOk H mmap →
      alloc size mmap H = (some addr, H') →
      ∃ i k, let P := H'.page_table i
        P.table k = ⟨addr, size, true⟩ ∧ dealloc addr H' = H'.setPage i
          ((P.fill (addr - P.page_start) (addr - P.page_start + size) false).setEntry k {}) := by
  have hok := heapOk_of_reachable h
  refine ⟨fun i => ?_, fun size mmap addr H' hsize hmul hm hr => ?_⟩
  · have hrep := (hok.valid i).rep
    refine ⟨fun b _ => hrep.bits b, hrep.apart, fun k hk => ⟨hrep.interval_subset k hk,
      ((hok.valid i).aligned k hk).1⟩, fun k hk => ?_, ?_⟩
    · rw [hrep.unused k hk]
      exact ⟨rfl, rfl⟩
    · rintro ⟨b, hb, hclear⟩
      obtain ⟨k, hk⟩ := (hok.valid i).exists_freeEntry hb hclear
      exact ⟨k, PageInfo.freeEntry_some hk⟩
  · obtain ⟨hok', hrec⟩ := hok.alloc hsize hmul hm hr
    obtain ⟨i, k, hk⟩ := hrec addr rfl
    refine ⟨i, k, hk, ?_⟩
    have hd := hok'.dealloc_block (i := i) (k := k) (by rw [hk])
    simp only [hk] at hd
    exact hd

/-- The heap after a first `alloc` of 512 bytes is one of those. -/
theorem ealloc_representation_first : ∃ H : Heap, Reachable H ∧
    ((∃ b ∈ Finset.Ico (0 : ℤ) PAGESIZE, (H.page_table 0).bit_stat b = false) →
      ∃ k, ((H.page_table 0).table k).alloc_or_not = false) := by
  have hm : MmapOk (init_alloc {}) fun i => some ((i + 1 : ℕ) * PAGESIZE) := by
    refine ⟨fun i _ => ⟨_, rfl, ⟨?_, ?_, ?_⟩, fun q hq => absurd hq List.not_mem_nil⟩,
      fun i j p q hij _ _ hp hq => ?_⟩
    · simp only [PAGESIZE]
      omega
    · simp only [PAGESIZE]
      omega
    · simp only [PAGESIZE]
      omega
    · obtain rfl := Option.some.inj hp
      obtain rfl := Option.some.inj hq
      have hne : (i : ℕ) ≠ j := fun h => hij (Fin.ext h)
      simp only [Apart, PAGESIZE]
      omega
  have hreach := @Reachable.alloc _ 512 _ (.init {}) (by decide) (by decide) hm
  exact ⟨_, hreach, ((ealloc_representation hreach).1 0).2.2.2.2⟩

end OsLabs.Malloc.Ealloc
