import OsLabs.Malloc.Fit

/-!
# Refused requests

The only check that `alloc` of `ealloc.c` makes of its argument is a remainder test. Requests for 0
bytes, for negative multiples of `MINALLOC` and for more than a page pass it, and the search for a
place maps pages before it is known whether there is one.

* `scan_acts`: a scan that meets a page that is not mapped, or that has a place, maps a page or
  finds a place;
* `refused_unchanged_iff`: for every request in every heap, when a refusal leaves the pages as they
  were and only requests that can be met are granted.
-/

namespace OsLabs.Malloc.Ealloc

/-! ## Scans that act -/

section Scan

variable {bit : ℤ → Bool} {i : Fin 4} {size : ℤ} {mmap : Fin 4 → Option ℕ} {best : Best} {H : Heap}

/-- The scan of a page keeps what was found before, or finds something in the page. -/
theorem scanPage_or (bit : ℤ → Bool) (i : Fin 4) (size : ℤ) (j : ℕ) (best : Best) :
    scanPage bit i size j best = best ∨
    (scanPage bit i size j best).page_allocated_index = some i := by
  fun_induction scanPage bit i size j best with
  | case1 j best hj hbit ih => exact ih
  | case2 j best hj hbit len hlen ih =>
    refine Or.inr ?_
    rcases ih with h | h
    · rw [h]
    · exact h
  | case3 j best hj hbit len hlen ih => exact ih
  | case4 j best hj => exact Or.inl rfl

/-- The scan of page `i` finds nothing. -/
def Blank (H : Heap) (size : ℤ) (i : Fin 4) : Prop :=
  scanPage (H.page_table i).bit_stat i size 0 {} = {}

/-- The scan has found a place. -/
def Found : Option Best × Heap → Prop
  | (none, _) => False
  | (some best, _) => best.page_allocated_index ≠ none

/-- Some page has been mapped, or marked as such, on the way from `H` to `H'`. -/
def Touched (H H' : Heap) : Prop :=
  ∃ i, (H.page_table i).page_start = 0 ∧ (H'.page_table i).page_start ≠ 0

/-- Once something has been found the scan ends with something. -/
theorem scan_found (hi : best.page_allocated_index ≠ none) (is : List (Fin 4)) :
    Found (scan size mmap is best H) := by
  induction is generalizing best with
  | nil => exact hi
  | cons l is ih =>
    unfold scan
    have hpage :
        (scanPage (H.page_table l).bit_stat l size 0 best).page_allocated_index ≠ none := by
      rcases scanPage_or (H.page_table l).bit_stat l size 0 best with h | h
      · rw [h]
        exact hi
      · rw [h]
        exact Option.some_ne_none l
    split
    · exact ih hi
    · exact ih hpage

/-- Pages that are mapped and have no place are passed over. -/
theorem scan_blank {is : List (Fin 4)}
    (h : ∀ i ∈ is, (H.page_table i).page_start ≠ 0 ∧ Blank H size i) : scan size mmap is {} H = (some {}, H) := by
  induction is with
  | nil => rfl
  | cons l is ih =>
    obtain ⟨hne, hblank⟩ := h l List.mem_cons_self
    unfold scan
    rw [if_neg hne, hblank]
    exact ih fun i hi => h i (List.mem_cons_of_mem l hi)

/-- Pages that are mapped stay so during a scan. -/
theorem scan_page_start (is : List (Fin 4)) {j : Fin 4}
    (hj : (H.page_table j).page_start ≠ 0) :
    ((scan size mmap is best H).2.page_table j).page_start ≠ 0 := by
  induction is generalizing best H with
  | nil => exact hj
  | cons l is ih =>
    unfold scan
    by_cases h0 : (H.page_table l).page_start = 0
    · have hjl : j ≠ l := fun e => hj (e ▸ h0)
      rw [if_pos h0]
      split
      · split
        · rw [H.setPage_of_ne hjl]
          exact hj
        · refine ih ?_
          rw [Heap.map_of_ne hjl]
          exact hj
      · exact ih hj
    · rw [if_neg h0]
      exact ih hj

/-- Where a page is not mapped, or has a place, the scan maps a page or finds a place. -/
theorem scan_acts (hm : ∀ i p, mmap i = some p → p ≠ 0) {is : List (Fin 4)}
    (h : ∃ i ∈ is, (H.page_table i).page_start = 0 ∨ ¬Blank H size i) :
    Found (scan size mmap is {} H) ∨ Touched H (scan size mmap is {} H).2 := by
  induction is with
  | nil =>
    obtain ⟨i, hi, -⟩ := h
    exact absurd hi List.not_mem_nil
  | cons l is ih =>
    unfold scan
    by_cases h0 : (H.page_table l).page_start = 0
    · rw [if_pos h0, if_pos rfl]
      split
      · refine Or.inr ⟨l, h0, ?_⟩
        rw [H.setPage_self]
        exact MAP_FAILED_ne_zero
      · rename_i p hp
        refine Or.inr ⟨l, h0, scan_page_start is ?_⟩
        rw [Heap.map_self]
        exact hm l p hp
    · rw [if_neg h0]
      by_cases hblank : Blank H size l
      · rw [hblank]
        obtain ⟨i, hi, hor⟩ := h
        refine ih ⟨i, (List.mem_cons.mp hi).resolve_left ?_, hor⟩
        rintro rfl
        exact hor.elim h0 fun hb => hb hblank
      · refine Or.inl (scan_found ?_ is)
        rcases scanPage_or (H.page_table l).bit_stat l size 0 {} with h | h
        · exact absurd h hblank
        · rw [h]
          exact Option.some_ne_none l

/-- A request for more than a page finds nothing. -/
theorem blank_of_long (hsize : (PAGESIZE : ℤ) < size) : Blank H size i := by
  have hpos : 0 < size := by omega
  rcases scanPage_spec hpos 0 (.none rfl fun b hb => absurd hb (Nat.not_lt_zero b) :
    Scanning (H.page_table i).bit_stat i size 0 {}) with ⟨h, -⟩ | h
  · exact h
  · have := h.run.le
    omega

/-- A request for 0 or fewer bytes finds every free byte from `j` on. -/
theorem scanPage_nonpos (hsize : size ≤ 0) (j : ℕ) (hindex : best.page_allocated_index = none)
    (hchunk : best.best_fit_chunk_size = INF) :
    (scanPage bit i size j best).page_allocated_index = none ↔
      ∀ b : ℕ, j ≤ b → b < PAGESIZE → bit b = true := by
  fun_induction scanPage bit i size j best with
  | case1 j best hj hbit ih =>
    rw [ih hindex hchunk]
    refine ⟨fun h b hb hlt => ?_, fun h b hb hlt => h b (by omega) hlt⟩
    rcases Nat.eq_or_lt_of_le hb with rfl | hb
    · exact hbit
    · exact h b hb hlt
  | case2 j best hj hbit len hlen ih =>
    refine iff_of_false (fun hnone => ?_) fun h => hbit (h j (le_refl j) hj)
    rcases scanPage_or bit i size (j + 1) ⟨some i, j, len⟩ with h | h
    · rw [h] at hnone
      cases hnone
    · rw [h] at hnone
      cases hnone
  | case3 j best hj hbit len hlen ih =>
    -- the rest of the run is long enough, and shorter than `INF`
    obtain ⟨hrun, hle⟩ := run_runEnd hj (Bool.not_eq_true _ ▸ hbit)
    have hpage := hrun.le
    refine absurd ⟨?_, ?_⟩ hlen
    · omega
    · rw [hchunk]
      simp only [INF, PAGESIZE] at hpage ⊢
      omega
  | case4 j best hj =>
    exact iff_of_true hindex fun b hb hlt => by omega

theorem blank_iff_full (hsize : size ≤ 0) : Blank H size i ↔
    ∀ b ∈ Finset.Ico (0 : ℤ) PAGESIZE, (H.page_table i).bit_stat b = true := by
  have hiff := @scanPage_nonpos (H.page_table i).bit_stat i size {} hsize 0 rfl rfl
  have hblank : Blank H size i ↔
      (scanPage (H.page_table i).bit_stat i size 0 {}).page_allocated_index = none := by
    refine ⟨fun h => by rw [h], fun h => ?_⟩
    rcases scanPage_or (H.page_table i).bit_stat i size 0 {} with he | he
    · exact he
    · rw [he] at h
      cases h
  rw [hblank, hiff]
  refine ⟨fun h b hb => ?_, fun h b _ hlt => h b (Finset.mem_Ico.mpr (by omega))⟩
  obtain ⟨hb, hb'⟩ := Finset.mem_Ico.mp hb
  obtain ⟨c, rfl⟩ := Int.eq_ofNat_of_zero_le hb
  exact h c (Nat.zero_le c) (by omega)

end Scan

/-! ## What a refusal leaves behind -/

/-- The heaps after `init_alloc` and a sequence of any calls; `mmap` may succeed or fail. -/
inductive Used : Heap → Prop
  | init (H : Heap) : Used (init_alloc H)
  | alloc {H : Heap} (h : Used H) (size : ℤ) {mmap : Fin 4 → Option ℕ}
      (hm : ∀ i p, mmap i = some p → Region p) : Used (alloc size mmap H).2
  | dealloc {H : Heap} (h : Used H) (addr : ℕ) : Used (dealloc addr H)
  | cleanup {H : Heap} (h : Used H) : Used (cleanup H)

section Refuse

variable {H H' : Heap} {size : ℤ} {mmap : Fin 4 → Option ℕ} {best : Best}

theorem sane_of_used (h : Used H) : Sane H := by
  induction h with
  | init H => exact Sane.init H
  | alloc _ size hm ih => exact ih.alloc (fun i p _ => hm i p) size
  | dealloc _ addr ih => exact ih.dealloc addr
  | cleanup _ ih => exact ih.cleanup

theorem Sane.hasRun (h : Sane H) {i : Fin 4} (hi : (H.page_table i).page_start = 0)
    (hle : size ≤ PAGESIZE) : HasRun (H.page_table i).bit_stat size :=
  ⟨0, by omega, fun b _ _ => (h i).clear hi b⟩

/-- Where all pages are mapped and none has a place, `alloc` does nothing. -/
theorem alloc_blank (h : ∀ i, (H.page_table i).page_start ≠ 0 ∧ Blank H size i) :
    alloc size mmap H = (none, H) := by
  unfold alloc
  rw [scan_blank fun i _ => h i, ite_self]

/-- Otherwise it returns a block, or maps a page. -/
theorem alloc_acts (h : Sane H) (hm : ∀ i p, mmap i = some p → Region p)
    (hmul : size.tmod MINALLOC = 0)
    (hacts : ¬∀ i, (H.page_table i).page_start ≠ 0 ∧ Blank H size i) :
    (alloc size mmap H).1 ≠ none ∨ Touched H (alloc size mmap H).2 := by
  obtain ⟨i, hi⟩ := not_forall.mp hacts
  have hscan := @scan_acts size mmap H (fun i p hp => (hm i p hp).ne_zero) _
    ⟨i, List.mem_finRange i, (not_and_or.mp hi).imp_left not_not.mp⟩
  have hspec := @scan_spec (max size 1) mmap H (by omega) _ (List.nodup_finRange 4)
  rw [← scan_max_one] at hspec
  unfold alloc
  rw [if_neg (not_not_intro hmul)]
  generalize scan size mmap (List.finRange 4) {} H = out at hscan hspec
  obtain ⟨_ | best, H₁⟩ := out
  · exact Or.inr (hscan.resolve_left id)
  · rcases hspec with ⟨rfl, -, -⟩ | ⟨pre, j, post, -, hex, -, hg, hmap⟩
    · exact Or.inr (hscan.resolve_left fun hf => hf rfl)
    · -- the place that was found is not at `NULL`
      have hans : Answered H mmap := fun i p _ => hm i p
      have hnn := ((h.grown hans hg) j).ptr_ne_zero (hmap.ne_zero hans)
        (Int.emod_eq_zero_of_dvd (Int.dvd_of_tmod_eq_zero hmul)) (hmap.bit_stat.symm ▸ hex.run)
      simp only [hex.index, pointer_of_ne hnn]
      exact Or.inl (Option.some_ne_none _)

/-- A request for more than a page maps all pages on its way. -/
theorem scan_long (hlong : (PAGESIZE : ℤ) < size) (hm : ∀ i, ∃ p, mmap i = some p ∧ Region p)
    {is : List (Fin 4)} {i : Fin 4} (hi : i ∈ is) :
    ((scan size mmap is {} H).2.page_table i).page_start ≠ 0 := by
  induction is generalizing H with
  | nil => exact absurd hi List.not_mem_nil
  | cons l is ih =>
    have hblank : scanPage (H.page_table l).bit_stat l size 0 {} = {} := blank_of_long hlong
    unfold scan
    rw [hblank]
    by_cases h0 : (H.page_table l).page_start = 0
    · obtain ⟨p, hp, hreg⟩ := hm l
      rw [if_pos h0, if_pos rfl, hp]
      rcases List.mem_cons.mp hi with rfl | hi
      · refine scan_page_start is ?_
        rw [Heap.map_self]
        exact hreg.ne_zero
      · exact ih hi
    · rw [if_neg h0]
      rcases List.mem_cons.mp hi with rfl | hi
      · exact scan_page_start is h0
      · exact ih hi

theorem alloc_long (hlong : (PAGESIZE : ℤ) < size) (hmul : size.tmod MINALLOC = 0)
    (hm : ∀ i, ∃ p, mmap i = some p ∧ Region p) (i : Fin 4) :
    ((alloc size mmap H).2.page_table i).page_start ≠ 0 := by
  have hscan := scan_long (H := H) hlong hm (List.mem_finRange i)
  have hspec := @scan_spec size mmap H (by omega) _ (List.nodup_finRange 4)
  unfold alloc
  rw [if_neg (not_not_intro hmul)]
  generalize scan size mmap (List.finRange 4) {} H = out at hscan hspec
  obtain ⟨_ | best, H₁⟩ := out
  · exact hscan
  · rcases hspec with ⟨rfl, -, -⟩ | ⟨pre, j, post, -, hex, -, -, -⟩
    · exact hscan
    · have := hex.run.le
      omega

/-- A refused request leaves the pages as they were, and requests that are not a positive multiple
of `MINALLOC` up to a page are refused. -/
structure Refused (H : Heap) (size : ℤ) (mmap : Fin 4 → Option ℕ) : Prop where
  unchanged : (alloc size mmap H).1 = none → (alloc size mmap H).2.page_table = H.page_table
  refuses : ¬(0 < size ∧ size % MINALLOC = 0 ∧ size ≤ PAGESIZE) → (alloc size mmap H).1 = none

/-- The request fails the remainder test; or it is for at most a page, and where a page must be
mapped `mmap` succeeds; or it is for more than a page, or for 0 or fewer bytes, when all pages are
mapped, in the latter case without a free byte. -/
def Harmless (H : Heap) (size : ℤ) (mmap : Fin 4 → Option ℕ) : Prop :=
  size.tmod MINALLOC = 0 →
    (0 < size → size ≤ PAGESIZE → ∀ i, (H.page_table i).page_start = 0 →
      (∀ j < i, ¬HasRun (H.page_table j).bit_stat size) → mmap i ≠ none) ∧
    (size ≤ 0 ∨ (PAGESIZE : ℤ) < size → ∀ i, (H.page_table i).page_start ≠ 0) ∧
    (size ≤ 0 → ∀ i, ∀ b ∈ Finset.Ico (0 : ℤ) PAGESIZE, (H.page_table i).bit_stat b = true)

theorem not_touched_of_unchanged (h : H'.page_table = H.page_table) : ¬Touched H H' := by
  rintro ⟨i, hi, hi'⟩
  rw [h] at hi'
  exact hi' hi

/-- A request that can never be met is refused without a trace exactly where all pages are mapped
and the scan finds nothing. -/
theorem refused_iff_blank (hs : Sane H) (hm : ∀ i p, mmap i = some p → Region p)
    (hmul : size.tmod MINALLOC = 0)
    (hbad : ¬(0 < size ∧ size % MINALLOC = 0 ∧ size ≤ PAGESIZE)) :
    Refused H size mmap ↔ ∀ i, (H.page_table i).page_start ≠ 0 ∧ Blank H size i := by
  refine ⟨fun h => ?_, fun h => ?_⟩
  · by_contra hno
    rcases alloc_acts hs hm hmul hno with hsome | ht
    · exact hsome (h.refuses hbad)
    · exact not_touched_of_unchanged (h.unchanged (h.refuses hbad)) ht
  · have hno : alloc size mmap H = (none, H) := alloc_blank h
    exact ⟨fun _ => by rw [hno], fun _ => by rw [hno]⟩

/-- A request of a positive multiple of `MINALLOC` up to a page leaves the pages as they were, if it
is refused, exactly where the `mmap` that it needs succeeds. -/
theorem unchanged_iff (h : Sane H) (hm : ∀ i p, mmap i = some p → Region p)
    (hsize : 0 < size) (hmul : size.tmod MINALLOC = 0) (hle : size ≤ PAGESIZE) :
    ((alloc size mmap H).1 = none → (alloc size mmap H).2.page_table = H.page_table) ↔
      ∀ i, (H.page_table i).page_start = 0 →
        (∀ j < i, ¬HasRun (H.page_table j).bit_stat size) → mmap i ≠ none := by
  obtain ⟨r, H', ha⟩ : ∃ r H', alloc size mmap H = (r, H') := ⟨_, _, rfl⟩
  rw [ha]
  rcases alloc_spec hsize hmul ha with ⟨rfl, i, H₁, h0, hnone, hpre, -, rfl⟩ | ⟨rfl, hno, hg⟩ |
    ⟨i, off, H₁, is, -, hg, hmap, hrun, hfirst, -, rfl, rfl⟩
  · -- `mmap` fails for page `i`, which is marked as mapped
    refine iff_of_false (fun hun => ?_) fun hall => hall i h0 hpre hnone
    refine not_touched_of_unchanged (hun rfl) ⟨i, h0, ?_⟩
    rw [H₁.setPage_self]
    exact MAP_FAILED_ne_zero
  · have hmapped : ∀ i, (H.page_table i).page_start ≠ 0 := fun i h0 => hno i (h.hasRun h0 hle)
    refine iff_of_true (fun _ => funext fun i => ?_) fun i h0 => absurd h0 (hmapped i)
    rcases hg.page i with he | ⟨-, hmap⟩
    · exact he
    · exact hmap.eq_of_ne (hmapped i)
  · have hans : Answered H mmap := fun i p _ => hm i p
    have hmax : max size 1 = size := max_eq_left (by omega)
    have hnn := ((h.grown hans hg) i).ptr_ne_zero (hmap.ne_zero hans)
      (Int.emod_eq_zero_of_dvd (Int.dvd_of_tmod_eq_zero hmul))
      (hmax.symm ▸ hmap.bit_stat.symm ▸ hrun)
    rw [pointer_of_ne hnn]
    refine iff_of_true (fun hr => absurd hr (Option.some_ne_none _)) fun j h0 hpre hnone => ?_
    have hj := h.hasRun h0 hle
    obtain rfl : i = j := by
      rcases lt_trichotomy i j with hlt | he | hlt
      · exact absurd ⟨off, hrun.le, hrun.clear⟩ (hpre i hlt)
      · exact he
      · exact absurd hj (hfirst j hlt)
    rcases hmap with ⟨hne, -⟩ | ⟨-, p, hp, -⟩
    · exact hne h0
    · rw [hnone] at hp
      cases hp

/-- In every heap that calls of any kind lead to, a request is refused without a trace, and granted
only if it can be met, exactly where it is harmless. -/
theorem refused_unchanged_iff (h : Used H) (hm : ∀ i p, mmap i = some p → Region p) (size : ℤ) :
    Refused H size mmap ↔ Harmless H size mmap := by
  by_cases hmul : size.tmod MINALLOC = 0
  swap
  · have hno : alloc size mmap H = (none, H) := if_pos hmul
    exact iff_of_true ⟨fun _ => by rw [hno], fun _ => by rw [hno]⟩ fun he => absurd he hmul
  have hharm : Harmless H size mmap ↔ _ := ⟨fun hh => hh hmul, fun hh _ => hh⟩
  rw [hharm]
  by_cases hsize : 0 < size
  · by_cases hle : size ≤ PAGESIZE
    · -- a request that can be met
      have hgood : 0 < size ∧ size % MINALLOC = 0 ∧ size ≤ PAGESIZE :=
        ⟨hsize, by rwa [Int.tmod_eq_emod_of_nonneg hsize.le] at hmul, hle⟩
      have hun := unchanged_iff (sane_of_used h) hm hsize hmul hle
      refine ⟨fun hr => ⟨fun _ _ => hun.mp hr.unchanged, fun hor => by omega, fun hle => by omega⟩,
        fun hc => ⟨hun.mpr (hc.1 hsize hle), fun hbad => absurd hgood hbad⟩⟩
    · -- a request for more than a page
      rw [refused_iff_blank (sane_of_used h) hm hmul fun hgood => hle hgood.2.2]
      refine ⟨fun hb => ⟨fun _ h => absurd h hle, fun _ i => (hb i).1, fun h => by omega⟩,
        fun hc i => ⟨hc.2.1 (Or.inr (by omega)) i, blank_of_long (by omega)⟩⟩
  · -- a request for 0 or fewer bytes
    have hle : size ≤ 0 := not_lt.mp hsize
    rw [refused_iff_blank (sane_of_used h) hm hmul fun hgood => hsize hgood.1]
    exact ⟨fun hb => ⟨fun h => absurd h hsize, fun _ i => (hb i).1,
      fun _ i => (blank_iff_full hle).mp (hb i).2⟩,
      fun hc i => ⟨hc.2.1 (Or.inl hle) i, (blank_iff_full hle).mpr (hc.2.2 hle i)⟩⟩

end Refuse

/-- After `alloc(8192)`, which has mapped all four pages, a second one is refused without a
trace. -/
theorem refused_unchanged_full : ∃ H : Heap, Used H ∧ (∀ i, (H.page_table i).page_start ≠ 0) ∧
    Refused H 8192 sampleMmap := by
  have hm : ∀ i p, sampleMmap i = some p → Region p := fun _ _ => sampleMmap_region
  have hused := (Used.init {}).alloc 8192 hm
  have hmapped : ∀ i, ((alloc 8192 sampleMmap (init_alloc {})).2.page_table i).page_start ≠ 0 :=
    alloc_long (by decide) (by decide) fun i => ⟨_, rfl, sampleMmap_region rfl⟩
  generalize (alloc 8192 sampleMmap (init_alloc {})).2 = H at hused hmapped
  refine ⟨H, hused, hmapped, (refused_unchanged_iff hused hm 8192).mpr fun _ => ⟨?_, ?_, ?_⟩⟩
  · exact fun _ hle => absurd hle (by decide)
  · exact fun _ => hmapped
  · exact fun hle => absurd hle (by decide)

/-- Right after `init_alloc` a request for 0 bytes is granted, and one for two pages is refused
after all four pages have been mapped. -/
theorem refused_not_unchanged : ∃ H : Heap, Used H ∧ ¬Refused H 0 sampleMmap ∧
    ¬Refused H 8192 sampleMmap := by
  have hm : ∀ i p, sampleMmap i = some p → Region p := fun _ _ => sampleMmap_region
  have hacts : ∀ size : ℤ, size.tmod MINALLOC = 0 → ¬(0 < size ∧ size % MINALLOC = 0 ∧
      size ≤ PAGESIZE) → ¬Refused (init_alloc {}) size sampleMmap := fun size hmul hbad hr =>
    ((refused_iff_blank (Sane.init {}) hm hmul hbad).mp hr 0).1 rfl
  exact ⟨_, .init {}, hacts 0 (by decide) (by decide), hacts 8192 (by decide) (by decide)⟩

end OsLabs.Malloc.Ealloc
