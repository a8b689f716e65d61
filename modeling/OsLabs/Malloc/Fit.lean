import OsLabs.Malloc.Mapped

/-!
# Which free run `ealloc.c` takes

`ealloc.c` keeps the best place found so far, but it looks at every free place and not only at the
first of a run, so the end of any run with room fits exactly. What `alloc` takes is the first run
with room, in the first page that has one.

* `MaxRun`: the maximal free runs of a page;
* `alloc_takes_first`: the block is at the end of the first of them with room;
* `ealloc_best_fit_iff`: so the block is in a shortest run with room exactly when the first run
  with room is a shortest one;
* `ealloc_not_best_fit`: three calls after which it is not.
-/

namespace OsLabs.Malloc.Ealloc

/-- A maximal run of `len` clear places from `off` on. -/
structure MaxRun (bit : ℤ → Bool) (off : ℕ) (len : ℤ) : Prop extends Run bit off len where
  pos : 0 < len
  start : off = 0 ∨ bit (off - 1) = true

namespace MaxRun

variable {bit : ℤ → Bool} {off off' : ℕ} {len len' size : ℤ}

/-- Maximal runs with a common place start together. -/
theorem start_le (h : MaxRun bit off len) (h' : MaxRun bit off' len')
    (hlt : (off' : ℤ) < off + len) : off' ≤ off := by
  by_contra hgt
  rcases h'.start with hs | hs
  · omega
  · rw [h.clear _ (by omega) (by omega)] at hs
    exact Bool.false_ne_true hs

/-- Maximal runs with a common place are the same. -/
theorem unique (h : MaxRun bit off len) (h' : MaxRun bit off' len') (hlt : (off' : ℤ) < off + len)
    (hlt' : (off : ℤ) < off' + len') : off = off' ∧ len = len' := by
  have h₁ := h.start_le h' hlt
  have h₂ := h'.start_le h hlt'
  have h₃ := h.toRun.end_eq h'.toRun hlt' hlt
  omega

theorem hasRun (h : MaxRun bit off len) (hsize : size ≤ len) : HasRun bit size := by
  have hle := h.le
  exact ⟨off, by omega, fun b hb hb' => h.clear b hb (by omega)⟩

end MaxRun

/-- A run that is stopped belongs to a maximal one with the same end. -/
theorem Run.exists_maxRun {bit : ℤ → Bool} {off : ℕ} {len : ℤ} (h : Run bit off len)
    (hpos : 0 < len) : ∃ s l, MaxRun bit s l ∧ s ≤ off ∧ s + l = off + len := by
  classical
  have hex : ∃ c : ℕ, ∀ b : ℤ, c ≤ b → b < off + len → bit b = false := ⟨off, h.clear⟩
  have hmin := Nat.find_min' hex h.clear
  have hclear := Nat.find_spec hex
  have hleast := fun c => Nat.find_min (m := c) hex
  generalize Nat.find hex = s at hmin hclear hleast
  have hend : (s : ℤ) + (off + len - s) = off + len := by omega
  refine ⟨s, off + len - s, ⟨⟨?_, fun b hb hb' => hclear b hb (by omega), ?_⟩, by omega, ?_⟩,
    hmin, hend⟩
  · rw [hend]
    exact h.le
  · rw [hend]
    exact h.stop
  · rcases Nat.eq_zero_or_pos s with hs | hs
    · exact Or.inl hs
    · refine Or.inr ?_
      by_contra hbit
      refine hleast (s - 1) (by omega) fun b hb hb' => ?_
      by_cases hb₁ : b = s - 1
      · rw [hb₁]
        exact Bool.not_eq_true _ ▸ hbit
      · exact hclear b (by omega) hb'

/-- The first maximal run with room for `size` places, in the first page that has one. -/
structure FirstRun (H : Heap) (size : ℤ) (i : Fin 4) (off : ℕ) (len : ℤ) : Prop where
  run : MaxRun (H.page_table i).bit_stat off len
  fits : size ≤ len
  page : ∀ j < i, ¬HasRun (H.page_table j).bit_stat size
  first : ∀ off' len', off' < off → MaxRun (H.page_table i).bit_stat off' len' → len' < size

theorem FirstRun.unique {H : Heap} {size : ℤ} {i i' : Fin 4} {off off' : ℕ} {len len' : ℤ}
    (h : FirstRun H size i off len) (h' : FirstRun H size i' off' len') :
    i = i' ∧ off = off' ∧ len = len' := by
  obtain rfl : i = i' := by
    rcases lt_trichotomy i i' with hlt | he | hlt
    · exact absurd (h.run.hasRun h.fits) (h'.page i hlt)
    · exact he
    · exact absurd (h'.run.hasRun h'.fits) (h.page i' hlt)
  obtain rfl : off = off' := by
    have hf := h.fits
    have hf' := h'.fits
    rcases lt_trichotomy off off' with hlt | he | hlt
    · have := h'.first off len hlt h.run
      omega
    · exact he
    · have := h.first off' len' hlt h'.run
      omega
  have hpos := h.run.pos
  have hpos' := h'.run.pos
  exact ⟨rfl, h.run.unique h'.run (by omega) (by omega)⟩

/-- The first run with room is a shortest one with room, in the pages that will be mapped: those
that are, and the one that the run is in. -/
def FirstIsBest (H : Heap) (size : ℤ) : Prop :=
  ∀ i off len, FirstRun H size i off len → ∀ j off' len',
    j = i ∨ (H.page_table j).page_start ≠ 0 → MaxRun (H.page_table j).bit_stat off' len' →
      size ≤ len' → len ≤ len'

/-- The `size` bytes at `addr`, which `alloc` has returned with the heap `H'`, lie in a maximal
free run of `H` that is a shortest one with room, in the pages mapped in `H'`. -/
def BestFit (H H' : Heap) (size : ℤ) (addr : ℕ) : Prop :=
  ∃ i off len, MaxRun (H.page_table i).bit_stat off len ∧ (H'.page_table i).page_start ≠ 0 ∧
    (H'.page_table i).page_start + off ≤ addr ∧
    addr + size ≤ (H'.page_table i).page_start + off + len ∧
    ∀ j off' len', (H'.page_table j).page_start ≠ 0 → MaxRun (H.page_table j).bit_stat off' len' →
      size ≤ len' → len ≤ len'

section Takes

variable {H H' : Heap} {size : ℤ} {mmap : Fin 4 → Option ℕ} {addr : ℕ}

/-- A page that is not mapped has room for everything that fits in a page. -/
theorem HeapOk.hasRun_of_unmapped (h : HeapOk H) {j : Fin 4}
    (hj : (H.page_table j).page_start = 0) (hle : size ≤ PAGESIZE) :
    HasRun (H.page_table j).bit_stat size := by
  refine ⟨0, by omega, fun b _ _ => ?_⟩
  cases hb : (H.page_table j).bit_stat b with
  | false => rfl
  | true =>
    obtain ⟨k, hk, -⟩ := ((h.valid j).rep.bits b).mp hb
    rw [h.empty j hj k] at hk
    exact absurd hk Bool.false_ne_true

/-- A block that `alloc` returns is at the end of the first run with room; that page and those
mapped before are mapped afterwards. -/
theorem alloc_takes_first (h : HeapOk H) (hsize : 0 < size) (hmul : size % MINALLOC = 0)
    (hle : size ≤ PAGESIZE) (hm : MmapOk H mmap) (ha : alloc size mmap H = (some addr, H')) :
    ∃ i off len, FirstRun H size i off len ∧
      (addr : ℤ) + size = (H'.page_table i).page_start + off + len ∧
      ∀ j, (H'.page_table j).page_start ≠ 0 ↔ j = i ∨ (H.page_table j).page_start ≠ 0 := by
  rcases alloc_spec hsize (tmod_of_emod hsize hmul) ha with ⟨hr, -⟩ | ⟨hr, -⟩ |
    ⟨i, o, H₁, is, his, hg, hmap, hrun, hfirst, hreach, hr, rfl⟩
  · cases hr
  · cases hr
  obtain rfl := eq_of_pointer hr.symm
  obtain ⟨s, len, hmax, hs, hend⟩ := hrun.exists_maxRun hsize
  have hstart : ∀ j, ((H₁.setPage i (mark (H₁.page_table i) o size)).page_table j).page_start =
      (H₁.page_table j).page_start := fun j => by
    by_cases hj : j = i
    · subst hj
      rw [H₁.setPage_self, mark_page_start]
    · rw [H₁.setPage_of_ne hj]
  have hpage := hrun.le
  refine ⟨i, s, len, ⟨hmax, by omega, hfirst, fun off' len' hlt hrun' => ?_⟩, ?_, fun j => ?_⟩
  · -- a run before this one with room would have been taken
    by_contra hge
    have hclear := hreach off' (by omega) fun b hb hb' => hrun'.clear b hb (by omega)
    rcases hmax.start with h0 | h0
    · omega
    · rw [hclear _ (by omega) (by omega)] at h0
      exact Bool.false_ne_true h0
  · rw [hstart, ptr_eq ((h.grown hm hg).space i) (by omega)]
    push_cast
    omega
  · rw [hstart]
    constructor
    · intro hj
      rcases hg.page j with he | ⟨hmem, ⟨hne, -⟩ | ⟨h0, -⟩⟩
      · exact Or.inr (he ▸ hj)
      · exact Or.inr hne
      · rcases lt_or_eq_of_le (his j hmem) with hlt | he
        · exact absurd (h.hasRun_of_unmapped h0 hle) (hfirst j hlt)
        · exact Or.inl he
    · rintro (rfl | hne)
      · exact hmap.ne_zero hm.answered
      · rcases hg.page j with he | ⟨-, hmap'⟩
        · rwa [he]
        · rwa [hmap'.eq_of_ne hne]

/-- The block is in a shortest run with room only if the first run with room is one. -/
theorem BestFit.firstIsBest (h : HeapOk H) (hsize : 0 < size) (hmul : size % MINALLOC = 0)
    (hle : size ≤ PAGESIZE) (hm : MmapOk H mmap) (ha : alloc size mmap H = (some addr, H'))
    (hbest : BestFit H H' size addr) : FirstIsBest H size := by
  obtain ⟨i, off, len, hfirst, haddr, hmapped⟩ := alloc_takes_first h hsize hmul hle hm ha
  obtain ⟨i₂, off₂, len₂, hrun₂, hi₂, hlo, hhi, hmin⟩ := hbest
  have hfits := hfirst.fits
  have hpage := hfirst.run.le
  have hpage₂ := hrun₂.le
  -- the pages do not overlap, so there is only one run the block can be in
  obtain rfl : i₂ = i := by
    by_contra hne
    rcases (h.alloc hsize hmul hm ha).1.apart i₂ i hne hi₂ ((hmapped i).mpr (Or.inl rfl)) with
      hap | hap <;> omega
  obtain ⟨rfl, rfl⟩ := hfirst.run.unique hrun₂ (by omega) (by omega)
  intro i' off' len' hfirst' j off₃ len₃ hj hrun₃ hfits₃
  obtain ⟨rfl, rfl, rfl⟩ := hfirst.unique hfirst'
  exact hmin j off₃ len₃ ((hmapped j).mpr hj) hrun₃ hfits₃

/-- In every reachable heap, the block that `alloc` returns lies in a shortest free run with room
for it exactly when the first run with room is a shortest one. -/
theorem ealloc_best_fit_iff (h : Reachable H) (hsize : 0 < size) (hmul : size % MINALLOC = 0)
    (hle : size ≤ PAGESIZE) (hm : MmapOk H mmap) (ha : alloc size mmap H = (some addr, H')) :
    BestFit H H' size addr ↔ FirstIsBest H size := by
  have hok := heapOk_of_reachable h
  refine ⟨fun hbest => hbest.firstIsBest hok hsize hmul hle hm ha, fun hfb => ?_⟩
  obtain ⟨i, off, len, hfirst, haddr, hmapped⟩ := alloc_takes_first hok hsize hmul hle hm ha
  have hfits := hfirst.fits
  exact ⟨i, off, len, hfirst.run, (hmapped i).mpr (Or.inl rfl), by omega, by omega,
    fun j off' len' hj hrun' hfits' =>
      hfb i off len hfirst j off' len' ((hmapped j).mp hj) hrun' hfits'⟩

/-! ## A block that does not fit best -/

/-- An operating system that maps page `i` at the address `(i + 1) * PAGESIZE`. -/
def sampleMmap : Fin 4 → Option ℕ := fun i => some ((i + 1 : ℕ) * PAGESIZE)

theorem sampleMmap_region {i : Fin 4} {p : ℕ} (h : sampleMmap i = some p) : Region p := by
  obtain rfl := Option.some.inj h
  refine ⟨?_, ?_, ?_⟩
  · simp only [PAGESIZE]
    omega
  · simp only [PAGESIZE]
    omega
  · simp only [PAGESIZE]
    omega

/-- Only pages that are mapped have been mapped, each at its address. -/
def Sampled (H : Heap) : Prop :=
  ∀ r ∈ H.mapped, ∃ i : Fin 4, (H.page_table i).page_start ≠ 0 ∧ r = (i + 1 : ℕ) * PAGESIZE

theorem Sampled.mmapOk (h : Sampled H) : MmapOk H sampleMmap := by
  have hap : ∀ i j : Fin 4, i ≠ j → Apart ((i + 1 : ℕ) * PAGESIZE) ((j + 1 : ℕ) * PAGESIZE) := by
    intro i j hij
    have hne : (i : ℕ) ≠ j := fun e => hij (Fin.ext e)
    simp only [Apart, PAGESIZE]
    omega
  refine ⟨fun i hi => ⟨_, rfl, sampleMmap_region rfl, fun q hq => ?_⟩,
    fun i j p q hij _ _ hp hq => ?_⟩
  · obtain ⟨j, hj, rfl⟩ := h q hq
    exact hap i j fun e => hj (e ▸ hi)
  · obtain rfl := Option.some.inj hp
    obtain rfl := Option.some.inj hq
    exact hap i j hij

/-- `alloc` where page 0 has room. -/
theorem alloc_page_zero (h : HeapOk H) (hs : Sampled H) (hsize : 0 < size)
    (hmul : size % MINALLOC = 0) (hrun : HasRun (H.page_table 0).bit_stat size) :
    ∃ off H' k, alloc size sampleMmap H = (some ((H'.page_table 0).page_start + off), H') ∧
      (∀ j ≠ 0, H'.page_table j = H.page_table j) ∧
      Sampled H' ∧ Run (H.page_table 0).bit_stat off size ∧
      ((H.page_table 0).table k).alloc_or_not = false ∧
      ∃ p, ((H.page_table 0).page_start ≠ 0 → p = (H.page_table 0).page_start) ∧
        H'.page_table 0 = ({ H.page_table 0 with page_start := p }.fill off (off + size)
          true).setEntry k ⟨p + off, size, true⟩ := by
  obtain ⟨r, H', ha⟩ : ∃ r H', alloc size sampleMmap H = (r, H') := ⟨_, _, rfl⟩
  rcases alloc_spec hsize (tmod_of_emod hsize hmul) ha with ⟨-, i, -, -, hnone, -⟩ |
    ⟨-, hno, -⟩ | ⟨i, o, H₁, is, his, hg, hmap, hr, hfirst, -, rfl, rfl⟩
  · cases hnone
  · exact absurd hrun (hno 0)
  obtain rfl : i = 0 := by
    by_contra hi
    exact hfirst 0 (Fin.pos_iff_ne_zero.mpr hi) hrun
  have h₁ := h.grown hs.mmapOk hg
  obtain ⟨p, hp, hpage⟩ : ∃ p, ((H.page_table 0).page_start ≠ 0 →
      p = (H.page_table 0).page_start) ∧
      H₁.page_table 0 = { H.page_table 0 with page_start := p } := by
    rcases hmap with ⟨-, he⟩ | ⟨h0, p, -, -, he⟩
    · exact ⟨_, fun _ => rfl, he⟩
    · exact ⟨p, fun hne => absurd h0 hne, he⟩
  have hne₁ := hmap.ne_zero hs.mmapOk.answered
  have hle := hr.le
  obtain ⟨k, hk, hmark, -⟩ :=
    (h₁.valid 0).mark (h₁.space 0) hsize hmul (hmap.bit_stat.symm ▸ hr)
  refine ⟨o, H₁.setPage 0 (mark (H₁.page_table 0) o size), k, ha.trans ?_, fun j hj => ?_,
    fun q hq => ?_, hr, by rwa [hpage] at hk, p, hp, ?_⟩
  · rw [H₁.setPage_self, mark_page_start, h₁.pointer_eq hne₁ (by omega)]
  · rw [H₁.setPage_of_ne hj]
    exact (hg.page j).resolve_right fun hm => hj (Fin.le_zero_iff.mp (his j hm.1))
  · have hne : ∀ j, (H₁.page_table j).page_start ≠ 0 →
        ((H₁.setPage 0 (mark (H₁.page_table 0) o size)).page_table j).page_start ≠ 0 := by
      intro j hj
      by_cases hj0 : j = 0
      · subst hj0
        rwa [H₁.setPage_self, mark_page_start]
      · rwa [H₁.setPage_of_ne hj0]
    have hkept : ∀ j, (H.page_table j).page_start ≠ 0 → (H₁.page_table j).page_start ≠ 0 := by
      intro j hj
      rcases hg.page j with he | ⟨-, hm⟩
      · rwa [he]
      · rwa [hm.eq_of_ne hj]
    rcases hg.fresh q hq with hq | ⟨j, hj, h0, hq⟩
    · obtain ⟨j, hj, rfl⟩ := hs q hq
      exact ⟨j, hne j (hkept j hj), rfl⟩
    · obtain rfl : j = 0 := Fin.le_zero_iff.mp (his j hj)
      obtain rfl := Option.some.inj hq
      refine ⟨0, hne 0 ?_, rfl⟩
      rcases hmap with ⟨hn, -⟩ | ⟨-, q, hq, -, he⟩
      · exact absurd h0 hn
      · obtain rfl := Option.some.inj hq
        rw [he]
        exact (by decide : (0 + 1) * PAGESIZE ≠ 0)
  · rw [H₁.setPage_self, hmark, hpage]

end Takes

/-- Two blocks of 256 bytes, of which the first is released: page 0 has a free run of 3584 bytes
and one of 256. -/
theorem exists_two_runs : ∃ H : Heap, Reachable H ∧ Sampled H ∧
    (∀ j ≠ 0, (H.page_table j).page_start = 0) ∧
    ∀ b : ℤ, (H.page_table 0).bit_stat b = true ↔ 3584 ≤ b ∧ b < 3840 := by
  have hr₀ : Reachable (init_alloc {}) := .init {}
  have hs₀ : Sampled (init_alloc {}) := fun r hr => absurd hr List.not_mem_nil
  obtain ⟨o₁, H₁, k₁, ha₁, hj₁, hs₁, hrun₁, -, p₁, -, hp₁⟩ :=
    alloc_page_zero (heapOk_of_reachable hr₀) hs₀ (by decide : (0 : ℤ) < 256) (by decide)
      ⟨0, by decide, fun _ _ _ => rfl⟩
  have hr₁ : Reachable H₁ := by
    have := @Reachable.alloc _ 256 _ hr₀ (by decide) (by decide) hs₀.mmapOk
    rwa [ha₁] at this
  have hok₁ := heapOk_of_reachable hr₁
  obtain rfl : o₁ = 3840 := by
    rcases hrun₁.stop with h | h
    · simp only [PAGESIZE] at h
      omega
    · exact absurd h Bool.false_ne_true
  have hbit₁ : ∀ b, (H₁.page_table 0).bit_stat b = true ↔ 3840 ≤ b ∧ b < 4096 := by
    intro b
    rw [hp₁]
    change (if _ then true else false) = true ↔ _
    simp
  have hk₁ : (H₁.page_table 0).table k₁ = ⟨p₁ + 3840, 256, true⟩ := by
    rw [hp₁, PageInfo.setEntry_self]
  have hstart₁ : (H₁.page_table 0).page_start = p₁ := by rw [hp₁]; rfl
  have hne₁ := hok₁.page_start_ne_zero (i := 0) (k := k₁) (by rw [hk₁])
  have hclear₁ : ∀ b, b < 3840 → (H₁.page_table 0).bit_stat b = false := fun b hb =>
    Bool.eq_false_iff.mpr fun h => by
      have := (hbit₁ b).mp h
      omega
  obtain ⟨o₂, H₂, k₂, ha₂, hj₂, hs₂, hrun₂, hk₂, p₂, hp₂, hpage₂⟩ :=
    alloc_page_zero hok₁ hs₁ (by decide : (0 : ℤ) < 256) (by decide)
      ⟨0, by decide, fun b _ hb => hclear₁ b (by omega)⟩
  obtain rfl : p₂ = p₁ := (hp₂ hne₁).trans hstart₁
  have hr₂ : Reachable H₂ := by
    have := @Reachable.alloc _ 256 _ hr₁ (by decide) (by decide) hs₁.mmapOk
    rwa [ha₂] at this
  have hok₂ := heapOk_of_reachable hr₂
  obtain rfl : o₂ = 3584 := by
    have hle : (o₂ : ℤ) + 256 ≤ 3840 := by
      by_contra hgt
      have hclear := hrun₂.clear (o₂ + 255) (by omega) (by omega)
      have hpage := hrun₂.le
      simp only [PAGESIZE] at hpage
      rw [(hbit₁ _).mpr (by omega)] at hclear
      exact Bool.false_ne_true hclear.symm
    rcases hrun₂.stop with h | h
    · simp only [PAGESIZE] at h
      omega
    · have := (hbit₁ _).mp h
      omega
  have hne : k₁ ≠ k₂ := fun e => by
    rw [← e, hk₁] at hk₂
    exact Bool.false_ne_true hk₂.symm
  have hk₁' : (H₂.page_table 0).table k₁ = ⟨p₂ + 3840, 256, true⟩ := by
    rw [hpage₂, PageInfo.setEntry_of_ne hne]
    exact hk₁
  have hd := hok₂.dealloc_block (i := 0) (k := k₁) (by rw [hk₁'])
  have hstart₂ : (H₂.page_table 0).page_start = p₂ := by rw [hpage₂]; rfl
  simp only [hk₁', hstart₂] at hd
  refine ⟨_, .dealloc hr₂ (p₂ + 3840), ?_, fun j hj => ?_, fun b => ?_⟩
  · rw [hd]
    intro r hr
    obtain ⟨i, hi, he⟩ := hs₂ r hr
    refine ⟨i, ?_, he⟩
    by_cases hi0 : i = 0
    · subst hi0
      rw [H₂.setPage_self]
      exact hi
    · rwa [H₂.setPage_of_ne hi0]
  · rw [hd, H₂.setPage_of_ne hj, hj₂ j hj, hj₁ j hj]
    rfl
  · rw [hd, H₂.setPage_self]
    change (if _ then false else (H₂.page_table 0).bit_stat b) = true ↔ _
    rw [hpage₂]
    change (if _ then false else if _ then true else (H₁.page_table 0).bit_stat b) = true ↔ _
    have := hbit₁ b
    split
    · simp only [Bool.false_eq_true, false_iff]
      omega
    · split
      · simp only [true_iff]
        omega
      · rw [this]
        omega

/-- With a run of 3584 bytes and one of 256, `alloc(512)` takes its block from the only run with
room. -/
theorem ealloc_best_fit_fragmented : ∃ (H H' : Heap) (addr : ℕ), Reachable H ∧
    (∀ b : ℤ, (H.page_table 0).bit_stat b = true ↔ 3584 ≤ b ∧ b < 3840) ∧
    alloc 512 sampleMmap H = (some addr, H') ∧ BestFit H H' 512 addr := by
  obtain ⟨H, hr, hs, hother, hbit⟩ := exists_two_runs
  have hok := heapOk_of_reachable hr
  have hclear : ∀ b, b < 3584 ∨ 3840 ≤ b → (H.page_table 0).bit_stat b = false := fun b hb =>
    Bool.eq_false_iff.mpr fun h => by
      have := (hbit b).mp h
      omega
  have hlong : MaxRun (H.page_table 0).bit_stat 0 3584 :=
    ⟨⟨by decide, fun b _ hb => hclear b (by omega), Or.inr ((hbit _).mpr (by omega))⟩, by decide,
      Or.inl rfl⟩
  obtain ⟨o, H', -, ha, -⟩ := alloc_page_zero hok hs (by decide : (0 : ℤ) < 512) (by decide)
    (hlong.hasRun (by decide))
  refine ⟨H, H', _, hr, hbit, ha, (ealloc_best_fit_iff hr (by decide) (by decide) (by decide)
    hs.mmapOk ha).mpr fun i off len hf j off' len' hj hrun' hfits => ?_⟩
  obtain ⟨rfl, rfl, rfl⟩ := hf.unique ⟨hlong, by decide, fun j hj => absurd hj (Fin.not_lt_zero j),
    fun off' len' hlt _ => absurd hlt (Nat.not_lt_zero off')⟩
  have hpage' := hrun'.le
  simp only [PAGESIZE] at hpage'
  by_cases hj0 : j = 0
  · subst hj0
    rcases lt_or_ge off' 3584 with hlt | hge
    · exact ((hlong.unique hrun' (by omega) (by omega)).2).le
    · -- behind the run from 0 on there are only 256 free bytes
      have hfree := hrun'.clear off' (le_refl _) (by omega)
      rw [(hbit _).mpr (by omega)] at hfree
      exact absurd hfree.symm Bool.false_ne_true
  · exact absurd (hother j hj0) (hj.resolve_left hj0)

/-- With a run of 3584 bytes before one of 256, `alloc(256)` takes its block from the long one. -/
theorem ealloc_not_best_fit : ∃ (H H' : Heap) (addr : ℕ), Reachable H ∧ MmapOk H sampleMmap ∧
    alloc 256 sampleMmap H = (some addr, H') ∧ ¬BestFit H H' 256 addr := by
  obtain ⟨H, hr, hs, hother, hbit⟩ := exists_two_runs
  have hok := heapOk_of_reachable hr
  have hclear : ∀ b, b < 3584 ∨ 3840 ≤ b → (H.page_table 0).bit_stat b = false := fun b hb =>
    Bool.eq_false_iff.mpr fun h => by
      have := (hbit b).mp h
      omega
  obtain ⟨o, H', -, ha, -⟩ := alloc_page_zero hok hs (by decide : (0 : ℤ) < 256) (by decide)
    ⟨0, by decide, fun b _ hb => hclear b (by omega)⟩
  refine ⟨H, H', _, hr, hs.mmapOk, ha, fun hbest => ?_⟩
  have hfb := hbest.firstIsBest hok (by decide) (by decide) (by decide) hs.mmapOk ha
  have hlong : FirstRun H 256 0 0 3584 := by
    refine ⟨⟨⟨by decide, fun b _ hb => hclear b (by omega), Or.inr ((hbit _).mpr (by omega))⟩,
      by decide, Or.inl rfl⟩, by decide, fun j hj => absurd hj (Fin.not_lt_zero j),
      fun off' len' hlt _ => absurd hlt (Nat.not_lt_zero off')⟩
  have hshort : MaxRun (H.page_table 0).bit_stat 3840 256 :=
    ⟨⟨by decide, fun b hb _ => hclear b (by omega), Or.inl (by decide)⟩, by decide,
      Or.inr ((hbit _).mpr (by omega))⟩
  have := hfb 0 0 3584 hlong 0 3840 256 (Or.inl rfl) hshort (le_refl _)
  omega

end OsLabs.Malloc.Ealloc
