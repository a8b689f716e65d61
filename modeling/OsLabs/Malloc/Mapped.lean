import OsLabs.Malloc.Blocks

/-!
# Pointers into mapped memory

`ealloc.c` uses `page_start` both as the address of a page and as the mark that the page is mapped.
A failed `mmap` leaves `MAP_FAILED` in it, and `cleanup` leaves the address of the region it has
unmapped; either counts as mapped in later calls. A page in this condition is `Stale`, and `alloc`
hands out pointers into it.

* `served_iff`: the result of one call of `alloc` is good exactly when the first page with room
  for it is not stale;
* `run_served_iff`: so all results of a sequence of calls are good exactly when every `alloc` of
  the sequence finds such a page;
* `stale_after_failure`: a sequence of two calls with a result that points nowhere.
-/

namespace OsLabs.Malloc.Ealloc

/-- A call after `init_alloc`; the answers of `mmap` go with `alloc`. -/
inductive Call
  | alloc (size : ℤ) (mmap : Fin 4 → Option ℕ)
  | dealloc (addr : ℕ)
  | cleanup

def Call.run : Call → Heap → Heap
  | .alloc size mmap, H => (Ealloc.alloc size mmap H).2
  | .dealloc addr, H => Ealloc.dealloc addr H
  | .cleanup, H => Ealloc.cleanup H

/-- The answers of `mmap`: a call fails, or it returns a region apart from those that are
mapped. -/
structure Answers (H : Heap) (mmap : Fin 4 → Option ℕ) : Prop where
  region : ∀ i p, (H.page_table i).page_start = 0 → mmap i = some p →
    Region p ∧ ∀ q ∈ H.mapped, Apart p q
  apart : ∀ i j p q, i ≠ j → (H.page_table i).page_start = 0 → (H.page_table j).page_start = 0 →
    mmap i = some p → mmap j = some q → Apart p q

/-- `alloc` is called with a positive multiple of `MINALLOC`. -/
def Call.Proper (H : Heap) : Call → Prop
  | .alloc size mmap => 0 < size ∧ size % MINALLOC = 0 ∧ Answers H mmap
  | .dealloc _ => True
  | .cleanup => True

/-- A result of `alloc` lies, with its `size` bytes, in a region that is mapped. -/
def Call.Served (H : Heap) : Call → Prop
  | .alloc size mmap => ∀ addr, (Ealloc.alloc size mmap H).1 = some addr →
      ∃ r ∈ (Ealloc.alloc size mmap H).2.mapped, r ≤ addr ∧ addr + size ≤ r + PAGESIZE
  | .dealloc _ => True
  | .cleanup => True

/-- Page `i` counts as mapped, and its region is not mapped. -/
def Stale (H : Heap) (i : Fin 4) : Prop :=
  (H.page_table i).page_start ≠ 0 ∧ (H.page_table i).page_start ∉ H.mapped

/-- The first page with room for the block is not stale. -/
def Call.Avoids (H : Heap) : Call → Prop
  | .alloc size _ => ∀ i, HasRun (H.page_table i).bit_stat size →
      (∀ j < i, ¬HasRun (H.page_table j).bit_stat size) → ¬Stale H i
  | .dealloc _ => True
  | .cleanup => True

/-- `p` holds of every call of a sequence, in the heap it is made in. -/
def Always (p : Heap → Call → Prop) : List Call → Heap → Prop
  | [], _ => True
  | c :: cs, H => p H c ∧ Always p cs (c.run H)

/-! ## What holds in every reachable heap -/

/-- A page that does not count as mapped is clear; the others are at `MAP_FAILED` or in a region.
Bytes are marked, and entered in the table, in multiples of `MINALLOC`. -/
structure Sound (P : Page) : Prop where
  clear : P.page_start = 0 → ∀ b, P.bit_stat b = false
  start : P.page_start = 0 ∨ P.page_start = MAP_FAILED ∨ Region P.page_start
  grid : ∀ b, P.bit_stat b = P.bit_stat (b / MINALLOC * MINALLOC)
  entries : ∀ k, 0 < (P.table k).length → P.page_start ≠ 0 ∧ (P.table k).length % MINALLOC = 0 ∧
    ∃ off : ℕ, off % MINALLOC = 0 ∧ off < PAGESIZE ∧ (P.table k).start_addr = ptr P.page_start off

theorem MAP_FAILED_ne_zero : MAP_FAILED ≠ 0 := by decide

theorem mark_page_start (P : Page) (off : ℕ) (size : ℤ) :
    (mark P off size).page_start = P.page_start := by
  unfold mark
  simp only
  split <;> rfl

namespace Sound

variable {P : Page} {off : ℕ} {len size : ℤ}

/-- A page without blocks. -/
theorem blank {p : ℕ} (hp : p = 0 ∨ p = MAP_FAILED ∨ Region p) :
    Sound { page_start := p } :=
  ⟨fun _ _ => rfl, hp, fun _ => rfl, fun _ hk => absurd hk (lt_irrefl 0)⟩

/-- A page that does not count as mapped gets an address. -/
theorem rebase (h : Sound P) (h0 : P.page_start = 0) {p : ℕ} (hp : p = MAP_FAILED ∨ Region p) :
    Sound { P with page_start := p } :=
  ⟨fun _ => h.clear h0, Or.inr hp, h.grid, fun k hk => absurd h0 (h.entries k hk).1⟩

/-- A multiple of `MINALLOC` bytes is marked or cleared. -/
theorem grid_fill (h : Sound P) {lo hi : ℤ} (v : Bool)
    (hgrid : hi ≤ lo ∨ lo % MINALLOC = 0 ∧ hi % MINALLOC = 0) (b : ℤ) :
    (P.fill lo hi v).bit_stat b = (P.fill lo hi v).bit_stat (b / MINALLOC * MINALLOC) := by
  rw [PageInfo.fill_apply, PageInfo.fill_apply, ← h.grid b]
  have hiff : lo ≤ b ∧ b < hi ↔ lo ≤ b / MINALLOC * MINALLOC ∧ b / MINALLOC * MINALLOC < hi := by
    simp only [MINALLOC] at hgrid ⊢
    omega
  simp only [hiff]

/-- A free run ends at a multiple of `MINALLOC`. -/
theorem run_end (h : Sound P) (hlen : 0 < len) (hrun : Run P.bit_stat off len) :
    ((off : ℤ) + len) % MINALLOC = 0 := by
  rcases hrun.stop with hs | hs
  · rw [hs]
    decide
  · by_contra hne
    have hsame : (off + len) / MINALLOC * MINALLOC = (off + len - 1) / MINALLOC * MINALLOC := by
      simp only [MINALLOC] at hne ⊢
      omega
    rw [h.grid, hsame, ← h.grid, hrun.clear _ (by omega) (by omega)] at hs
    exact Bool.false_ne_true hs

/-- The block that is returned is not at `NULL`, whatever the address of its page: the sum wraps
around to 0 from `MAP_FAILED` only, at offset 1. -/
theorem ptr_ne_zero (h : Sound P) (h0 : P.page_start ≠ 0) (hmul : size % MINALLOC = 0)
    (hrun : Run P.bit_stat off (max size 1)) : ptr P.page_start off ≠ 0 := by
  have hend := h.run_end (by omega) hrun
  have hle := hrun.le
  rcases h.start.resolve_left h0 with hp | hp
  · rw [hp]
    simp only [ptr, MAP_FAILED, MINALLOC, PAGESIZE] at *
    omega
  · have := hp.ne_zero
    rw [ptr_eq hp.le (by omega)]
    omega

theorem mark (h : Sound P) (h0 : P.page_start ≠ 0) (hmul : size % MINALLOC = 0)
    (hrun : Run P.bit_stat off (max size 1)) : Sound (mark P off size) := by
  have hend := h.run_end (by omega) hrun
  have hle := hrun.le
  have hoff : 0 < size → off % MINALLOC = 0 := fun hsize => by
    simp only [MINALLOC] at *
    omega
  have hgrid : (off + size : ℤ) ≤ off ∨ (off : ℤ) % MINALLOC = 0 ∧ (off + size : ℤ) % MINALLOC = 0 := by
    simp only [MINALLOC] at *
    omega
  refine ⟨fun hz => absurd (mark_page_start P off size ▸ hz) h0,
    (mark_page_start P off size).symm ▸ h.start, ?_, fun k hk => ?_⟩
  · unfold Ealloc.mark
    simp only
    split
    · exact h.grid_fill true hgrid
    · exact h.grid_fill true hgrid
  · unfold Ealloc.mark at hk ⊢
    simp only at hk ⊢
    split at hk
    · rename_i l hl
      by_cases hkl : k = l
      · subst hkl
        rw [PageInfo.setEntry_self] at hk ⊢
        exact ⟨h0, hmul, off, hoff hk, by omega, rfl⟩
      · rw [PageInfo.setEntry_of_ne hkl] at hk ⊢
        exact h.entries k hk
    · exact h.entries k hk

theorem release (h : Sound P) (k : Fin (PAGESIZE / MINALLOC)) {addr : ℕ}
    (hk : (P.table k).start_addr = addr) :
    let offset := ((addr : ℤ) - P.page_start).bmod (2 ^ 32)
    Sound ((P.fill offset (offset + (P.table k).length) false).setEntry k {}) := by
  intro offset
  refine ⟨fun hz b => ?_, h.start, h.grid_fill false ?_, fun l hl => ?_⟩
  · change (if _ then false else _) = false
    split
    · rfl
    · exact h.clear hz b
  · rcases le_or_gt (P.table k).length 0 with hlen | hlen
    · exact Or.inl (by omega)
    · obtain ⟨-, hmul, off, hoff, hlt, hstart⟩ := h.entries k hlen
      have hoffset : offset = off := by
        change ((addr : ℤ) - P.page_start).bmod (2 ^ 32) = off
        rw [← hk, hstart, ptr_sub hlt]
      rw [hoffset]
      simp only [MINALLOC] at hmul hoff ⊢
      omega
  · by_cases hlk : l = k
    · subst hlk
      rw [PageInfo.setEntry_self] at hl
      exact absurd hl (lt_irrefl 0)
    · rw [PageInfo.setEntry_of_ne hlk] at hl ⊢
      exact h.entries l hl

end Sound

/-- All pages are sound. -/
def Sane (H : Heap) : Prop := ∀ i, Sound (H.page_table i)

namespace Sane

variable {H H' : Heap} {mmap : Fin 4 → Option ℕ} {i : Fin 4} {size : ℤ}

theorem init (H : Heap) : Sane (init_alloc H) := fun _ => Sound.blank (Or.inl rfl)

theorem setPage (h : Sane H) {P : Page} (hP : Sound P) : Sane (H.setPage i P) := by
  intro j
  by_cases hji : j = i
  · subst hji
    rwa [H.setPage_self]
  · rw [H.setPage_of_ne hji]
    exact h j

theorem grown (h : Sane H) (ha : Answered H mmap) {is : List (Fin 4)} (hg : Grown mmap is H H') :
    Sane H' := by
  intro i
  rcases hg.page i with he | ⟨-, ⟨-, he⟩ | ⟨h0, p, hp, -, he⟩⟩
  · rw [he]
    exact h i
  · rw [he]
    exact h i
  · rw [he]
    exact (h i).rebase h0 (Or.inr (ha i p h0 hp))

theorem alloc (h : Sane H) (ha : Answered H mmap) (size : ℤ) : Sane (alloc size mmap H).2 := by
  by_cases hmul : size.tmod MINALLOC = 0
  swap
  · rw [Ealloc.alloc, if_pos hmul]
    exact h
  obtain ⟨r, H', hr⟩ : ∃ r H', Ealloc.alloc size mmap H = (r, H') := ⟨_, _, rfl⟩
  rw [hr]
  rcases alloc_outcome hmul hr with ⟨-, i, H₁, h0, -, -, hg, rfl⟩ | ⟨-, -, hg⟩ |
    ⟨i, off, H₁, is, -, hg, hm, hrun, -, -, -, rfl⟩
  · exact (h.grown ha hg).setPage ((h i).rebase h0 (Or.inl rfl))
  · exact h.grown ha hg
  · rw [← hm.bit_stat] at hrun
    exact (h.grown ha hg).setPage (((h.grown ha hg) i).mark (hm.ne_zero ha)
      (Int.emod_eq_zero_of_dvd (Int.dvd_of_tmod_eq_zero hmul)) hrun)

theorem dealloc (h : Sane H) (addr : ℕ) : Sane (dealloc addr H) := by
  unfold Ealloc.dealloc
  cases hf : find addr H with
  | none => exact h
  | some jl =>
    obtain ⟨j, -, hj⟩ := List.exists_of_findSome?_eq_some hf
    obtain ⟨l, hl, rfl⟩ := Option.map_eq_some_iff.mp hj
    exact h.setPage ((h j).release l (PageInfo.entryAt_some hl))

theorem cleanup (h : Sane H) : Sane (cleanup H) := fun i => Sound.blank (h i).start

end Sane

/-- The mapped regions are regions. -/
def Regions (H : Heap) : Prop := ∀ r ∈ H.mapped, Region r

namespace Regions

variable {H H' : Heap} {mmap : Fin 4 → Option ℕ} {i : Fin 4} {size : ℤ}

theorem grown (h : Regions H) (ha : Answered H mmap) {is : List (Fin 4)}
    (hg : Grown mmap is H H') : Regions H' := by
  intro r hr
  rcases hg.fresh r hr with hr | ⟨i, -, h0, hr⟩
  · exact h r hr
  · exact ha i r h0 hr

theorem alloc (h : Regions H) (ha : Answered H mmap) (size : ℤ) :
    Regions (alloc size mmap H).2 := by
  by_cases hmul : size.tmod MINALLOC = 0
  swap
  · rw [Ealloc.alloc, if_pos hmul]
    exact h
  obtain ⟨r, H', hr⟩ : ∃ r H', Ealloc.alloc size mmap H = (r, H') := ⟨_, _, rfl⟩
  rw [hr]
  rcases alloc_outcome hmul hr with ⟨-, i, H₁, -, -, -, hg, rfl⟩ | ⟨-, -, hg⟩ |
    ⟨i, off, H₁, is, -, hg, -, -, -, -, -, rfl⟩
  · exact (h.grown ha hg : Regions H₁)
  · exact h.grown ha hg
  · exact (h.grown ha hg : Regions H₁)

theorem dealloc (h : Regions H) (addr : ℕ) : Regions (dealloc addr H) := by
  unfold Ealloc.dealloc
  split
  · exact h
  · exact h

/-- `munmap` maps nothing. -/
theorem mem_of_mem_unmapped {is : List (Fin 4)} {rs : List ℕ} {r : ℕ}
    (hr : r ∈ is.foldl (fun rs i => if (H.page_table i).page_start ≠ 0 then
      rs.filter (· ≠ (H.page_table i).page_start) else rs) rs) : r ∈ rs := by
  induction is generalizing rs with
  | nil => exact hr
  | cons i is ih =>
    have hmem := ih hr
    beta_reduce at hmem
    split at hmem
    · exact List.mem_of_mem_filter hmem
    · exact hmem

theorem cleanup (h : Regions H) : Regions (cleanup H) := fun r hr => h r (mem_of_mem_unmapped hr)

/-- A block that lies in a mapped region belongs to a page with the address of the region. -/
theorem start_mem (h : Regions H) {P : Page} {q off : ℕ} (hP : Sound P) (h0 : P.page_start ≠ 0)
    (hq : q ∈ H.mapped) (hle : off + size ≤ PAGESIZE) (hsize : 1 < size)
    (hlo : q ≤ ptr P.page_start off) (hhi : (ptr P.page_start off : ℤ) + size ≤ q + PAGESIZE) :
    P.page_start = q := by
  obtain ⟨hne, hal, hend⟩ := h q hq
  rcases hP.start.resolve_left h0 with hp | hp
  · -- a page at `MAP_FAILED`: the block is at the end of the address space or in its first page
    rw [hp] at hlo hhi
    simp only [ptr, MAP_FAILED, PAGESIZE] at *
    omega
  · rw [ptr_eq hp.le (by omega)] at hlo hhi
    have := hp.aligned
    simp only [PAGESIZE] at *
    omega

end Regions

/-- What holds of the heap in a sequence of proper calls. -/
theorem Call.run_sane {H : Heap} (h : Sane H ∧ Regions H) {c : Call} (hc : c.Proper H) :
    Sane (c.run H) ∧ Regions (c.run H) := by
  cases c with
  | alloc size mmap =>
    have ha : Answered H mmap := fun i p h0 hp => (hc.2.2.region i p h0 hp).1
    exact ⟨h.1.alloc ha size, h.2.alloc ha size⟩
  | dealloc addr => exact ⟨h.1.dealloc addr, h.2.dealloc addr⟩
  | cleanup => exact ⟨h.1.cleanup, h.2.cleanup⟩

/-! ## Results that point into mapped memory -/

section Served

variable {H : Heap} {c : Call}

/-- The result of a call is good exactly when the first page with room is not stale. -/
theorem served_iff (h : Sane H ∧ Regions H) (hc : c.Proper H) : c.Served H ↔ c.Avoids H := by
  obtain ⟨h, hreg⟩ := h
  cases c with
  | dealloc addr => exact Iff.rfl
  | cleanup => exact Iff.rfl
  | alloc size mmap =>
    obtain ⟨hsize, hmul, hans⟩ := hc
    have ha : Answered H mmap := fun i p h0 hp => (hans.region i p h0 hp).1
    obtain ⟨r, H', hr⟩ : ∃ r H', Ealloc.alloc size mmap H = (r, H') := ⟨_, _, rfl⟩
    simp only [Call.Served, Call.Avoids, hr]
    have hspec := alloc_spec hsize (tmod_of_emod hsize hmul) hr
    constructor
    · intro hserved i hrun hfirst hstale
      have hnull : ∀ j, (H.page_table j).page_start = 0 → HasRun (H.page_table j).bit_stat size := by
        intro j hj
        obtain ⟨off, hle, -⟩ := hrun
        exact ⟨off, hle, fun b _ _ => (h j).clear hj b⟩
      rcases hspec with ⟨-, j, -, h0, -, hfirst', -⟩ | ⟨-, hno, -⟩ |
        ⟨j, off, H₁, is, his, hg, hm, hrun', hfirst', -, rfl, rfl⟩
      · rcases lt_trichotomy j i with hji | rfl | hij
        · exact hfirst j hji (hnull j h0)
        · exact hstale.1 h0
        · exact hfirst' i hij hrun
      · exact hno i hrun
      · obtain rfl : j = i := by
          rcases lt_trichotomy j i with hji | hji | hij
          · exact absurd ⟨off, hrun'.le, hrun'.clear⟩ (hfirst j hji)
          · exact hji
          · exact absurd hrun (hfirst' i hij)
        have hmax : max size 1 = size := max_eq_left (by omega)
        have hnn := (h j).ptr_ne_zero hstale.1 hmul (hmax.symm ▸ hrun')
        rw [hm.eq_of_ne hstale.1] at hserved
        obtain ⟨q, hq, hlo, hhi⟩ := hserved _ (pointer_of_ne hnn)
        have hold : q ∈ H.mapped := by
          rcases hg.fresh q hq with hq | ⟨l, hl, h0, -⟩
          · exact hq
          · rcases lt_or_eq_of_le (his l hl) with hlt | rfl
            · exact absurd (hnull l h0) (hfirst l hlt)
            · exact absurd h0 hstale.1
        have hsize' : 1 < size := by
          simp only [MINALLOC] at hmul
          omega
        exact hstale.2 (hreg.start_mem (h j) hstale.1 hold hrun'.le hsize' hlo hhi ▸ hold)
    · intro havoid addr haddr
      rcases hspec with ⟨hnone, -⟩ | ⟨hnone, -⟩ | ⟨i, off, H₁, is, -, hg, hm, hrun, hfirst, -, rfl, rfl⟩
      · rw [hnone] at haddr
        exact absurd haddr (Option.some_ne_none addr).symm
      · rw [hnone] at haddr
        exact absurd haddr (Option.some_ne_none addr).symm
      · obtain rfl := eq_of_pointer haddr
        have hmem : (H₁.page_table i).page_start ∈ H₁.mapped := by
          rcases hm with ⟨hne, he⟩ | ⟨h0, p, hp, hmem, he⟩
          · rw [he]
            by_contra hnot
            exact havoid i ⟨off, hrun.le, hrun.clear⟩ hfirst
              ⟨hne, fun hin => hnot (hg.mapped hin)⟩
          · rw [he]
            exact hmem
        have hle := hrun.le
        refine ⟨_, hmem, ?_, ?_⟩
        · rw [ptr_eq (hreg.grown ha hg _ hmem).le (by omega)]
          omega
        · rw [ptr_eq (hreg.grown ha hg _ hmem).le (by omega)]
          push_cast
          omega

/-- The results of a sequence of calls are all good exactly when every `alloc` of the sequence
finds a first page with room that is not stale. -/
theorem always_served_iff {cs : List Call} (h : Sane H ∧ Regions H)
    (hc : Always (fun H c => c.Proper H) cs H) :
    Always (fun H c => c.Served H) cs H ↔ Always (fun H c => c.Avoids H) cs H := by
  induction cs generalizing H with
  | nil => exact Iff.rfl
  | cons c cs ih => exact and_congr (served_iff h hc.1) (ih (Call.run_sane h hc.1) hc.2)

end Served

theorem sane_init (T : Fin 4 → Page) :
    Sane (init_alloc ⟨T, []⟩) ∧ Regions (init_alloc ⟨T, []⟩) :=
  ⟨Sane.init _, fun _ h => absurd h List.not_mem_nil⟩

/-- In a sequence of proper calls after `init_alloc`, every pointer handed out lies with its bytes
in a region that is mapped, exactly when no `alloc` is made while the first page with room for it
has the address of a failed `mmap` or of a region that has been unmapped. -/
theorem run_served_iff (T : Fin 4 → Page) {cs : List Call}
    (hc : Always (fun H c => c.Proper H) cs (init_alloc ⟨T, []⟩)) :
    Always (fun H c => c.Served H) cs (init_alloc ⟨T, []⟩) ↔
      Always (fun H c => c.Avoids H) cs (init_alloc ⟨T, []⟩) :=
  always_served_iff (sane_init T) hc

/-- A sequence whose results are good. -/
theorem run_served_first : ∃ cs : List Call, Always (fun H c => c.Proper H) cs (init_alloc {}) ∧
    Always (fun H c => c.Served H) cs (init_alloc {}) := by
  have hm : Answers (init_alloc {}) fun i => some ((i + 1 : ℕ) * PAGESIZE) := by
    refine ⟨fun i p _ hp => ?_, fun i j p q hij _ _ hp hq => ?_⟩
    · obtain rfl := Option.some.inj hp
      refine ⟨⟨?_, ?_, ?_⟩, fun q hq => absurd hq List.not_mem_nil⟩ <;>
        simp only [PAGESIZE] <;> omega
    · obtain rfl := Option.some.inj hp
      obtain rfl := Option.some.inj hq
      have hne : (i : ℕ) ≠ j := fun h => hij (Fin.ext h)
      simp only [Apart, PAGESIZE]
      omega
  let cs : List Call := [.alloc 256 fun i => some ((i + 1 : ℕ) * PAGESIZE), .cleanup]
  have hproper : Always (fun H c => c.Proper H) cs (init_alloc {}) :=
    ⟨⟨by decide, by decide, hm⟩, trivial, trivial⟩
  have havoids : Always (fun H c => c.Avoids H) cs (init_alloc {}) :=
    ⟨fun i _ _ hstale => hstale.1 rfl, trivial, trivial⟩
  exact ⟨cs, hproper, (run_served_iff (fun _ => {}) hproper).mpr havoids⟩

/-- After an `alloc` whose `mmap` fails, the next `alloc` returns the address 0xeff, to which
`MAP_FAILED` plus 3840 wraps around and which lies in no region. -/
theorem stale_after_failure : ∃ cs : List Call,
    Always (fun H c => c.Proper H) cs (init_alloc {}) ∧
      ¬Always (fun H c => c.Served H) cs (init_alloc {}) ∧
      cs = [.alloc 256 fun _ => none, .alloc 256 fun _ => none] ∧
      (alloc 256 (fun _ => none) (alloc 256 (fun _ => none) (init_alloc {})).2).1 = some 0xeff := by
  have hfirst : (Ealloc.alloc 256 (fun _ => none) (init_alloc {})).2 =
      (init_alloc {}).setPage 0 { page_start := MAP_FAILED } := rfl
  have hproper : ∀ H : Heap, (Call.alloc 256 fun _ => none).Proper H := fun H =>
    ⟨by decide, by decide, fun _ p _ hp => absurd hp (Option.some_ne_none p).symm,
      fun _ _ p _ _ _ _ hp => absurd hp (Option.some_ne_none p).symm⟩
  refine ⟨[.alloc 256 fun _ => none, .alloc 256 fun _ => none],
    ⟨hproper _, hproper _, trivial⟩, fun hserved => ?_, rfl, ?_⟩
  · have hbad := (served_iff (Call.run_sane (sane_init _) (hproper _)) (hproper _)).mp hserved.2.1
    simp only [Call.run, hfirst] at hbad
    refine hbad 0 ⟨0, by decide, fun _ _ _ => rfl⟩ (fun j hj => absurd hj (Fin.not_lt_zero j))
      ⟨?_, ?_⟩
    · exact MAP_FAILED_ne_zero
    · exact List.not_mem_nil
  · rw [hfirst]
    rcases hr : alloc 256 (fun _ => none) ((init_alloc {}).setPage 0 { page_start := MAP_FAILED })
      with ⟨r, H'⟩
    have hroom : HasRun (((init_alloc {}).setPage 0 { page_start := MAP_FAILED }).page_table
        0).bit_stat 256 := ⟨0, by decide, fun _ _ _ => rfl⟩
    rcases alloc_spec (by decide) (by decide) hr with ⟨-, i, -, h0, -, hno, -⟩ | ⟨-, hno, -⟩ |
      ⟨i, off, H₁, is, -, -, hm, hrun, hno, -, rfl, -⟩
    · rcases Fin.eq_zero_or_eq_succ i with rfl | ⟨j, rfl⟩
      · exact absurd h0 MAP_FAILED_ne_zero
      · exact absurd hroom (hno 0 (Fin.succ_pos j))
    · exact absurd hroom (hno 0)
    · obtain rfl : i = 0 := by
        by_contra hi
        exact hno 0 (Fin.pos_iff_ne_zero.mpr hi) hroom
      obtain rfl : off = 3840 := by
        have hend : (off : ℤ) + 256 = PAGESIZE := hrun.stop.resolve_right Bool.false_ne_true
        simp only [PAGESIZE] at hend
        omega
      rw [hm.eq_of_ne MAP_FAILED_ne_zero, Heap.setPage_self]
      norm_num [pointer, ptr, MAP_FAILED]

end OsLabs.Malloc.Ealloc
