import OsLabs.Malloc.Fit

/-!
# When the heap expands

`alloc` of `ealloc.c` maps pages while it looks for a place. For requests of positive multiples of
`MINALLOC` up to a page, while every `mmap` succeeds, a page is mapped exactly when no mapped page
has room, and a request is refused exactly when all four pages are mapped and none has room
(`ealloc_expands`).
-/

namespace OsLabs.Malloc.Ealloc

/-- The pages that are mapped. -/
def mappedPages (H : Heap) : Finset (Fin 4) :=
  Finset.univ.filter fun i => (H.page_table i).page_start ≠ 0

/-- The mapped pages come before the others. -/
def Prefix (H : Heap) : Prop :=
  ∀ i j, i ≤ j → (H.page_table j).page_start ≠ 0 → (H.page_table i).page_start ≠ 0

/-- The heaps after `init_alloc` and a sequence of calls: `alloc` of positive multiples of
`MINALLOC` up to a page, with every `mmap` successful, and `dealloc` of any address. -/
inductive Within : Heap → Prop
  | init (H : Heap) : Within (init_alloc H)
  | alloc {H : Heap} {size : ℤ} {mmap : Fin 4 → Option ℕ} (h : Within H) (hsize : 0 < size)
      (hmul : size % MINALLOC = 0) (hle : size ≤ PAGESIZE) (hm : MmapOk H mmap) :
      Within (alloc size mmap H).2
  | dealloc {H : Heap} (h : Within H) (addr : ℕ) : Within (dealloc addr H)

section Expand

variable {H H' : Heap} {size : ℤ} {mmap : Fin 4 → Option ℕ} {r : Option ℕ}

theorem mem_mappedPages {i : Fin 4} : i ∈ mappedPages H ↔ (H.page_table i).page_start ≠ 0 := by
  simp [mappedPages]

theorem Within.reachable (h : Within H) : Reachable H := by
  induction h with
  | init H => exact .init H
  | alloc _ hsize hmul _ hm ih => exact .alloc ih hsize hmul hm
  | dealloc _ addr ih => exact .dealloc ih addr

/-- `alloc` is refused where all pages are mapped and none has room, and then maps nothing; or it
takes the first page that has room. -/
theorem HeapOk.expands (h : HeapOk H) (hsize : 0 < size) (hmul : size % MINALLOC = 0)
    (hle : size ≤ PAGESIZE) (hm : MmapOk H mmap) (ha : Ealloc.alloc size mmap H = (r, H')) :
    (r = none ∧ (∀ i, (H.page_table i).page_start ≠ 0) ∧
      (∀ i, ¬HasRun (H.page_table i).bit_stat size) ∧ mappedPages H' = mappedPages H) ∨
    r ≠ none ∧ ∃ i, HasRun (H.page_table i).bit_stat size ∧
      (∀ j < i, ¬HasRun (H.page_table j).bit_stat size) ∧
      mappedPages H' = insert i (mappedPages H) := by
  cases r with
  | none =>
    rcases alloc_spec hsize (tmod_of_emod hsize hmul) ha with ⟨-, i, -, h0, hnone, -⟩ |
      ⟨-, hno, hg⟩ | ⟨i, off, H₁, is, -, hg, hmap, hrun, -, -, hr, -⟩
    · obtain ⟨p, hp, -⟩ := hm.succeeds i h0
      rw [hnone] at hp
      cases hp
    · have hmapped : ∀ i, (H.page_table i).page_start ≠ 0 := fun i h0 =>
        hno i (h.hasRun_of_unmapped h0 hle)
      refine Or.inl ⟨rfl, hmapped, hno, ?_⟩
      ext i
      rw [mem_mappedPages, mem_mappedPages]
      rcases hg.page i with he | ⟨-, hmap⟩
      · rw [he]
      · rw [hmap.eq_of_ne (hmapped i)]
    · have hle := hrun.le
      rw [(h.grown hm hg).pointer_eq (hmap.ne_zero hm.answered) (by omega)] at hr
      cases hr
  | some addr =>
    obtain ⟨i, off, len, hfirst, -, hmapped⟩ := alloc_takes_first h hsize hmul hle hm ha
    refine Or.inr ⟨Option.some_ne_none _, i, hfirst.run.hasRun hfirst.fits, hfirst.page, ?_⟩
    ext j
    rw [mem_mappedPages, hmapped, Finset.mem_insert, mem_mappedPages]

theorem dealloc_page_start (addr : ℕ) (i : Fin 4) :
    ((dealloc addr H).page_table i).page_start = (H.page_table i).page_start := by
  unfold dealloc
  split
  · rename_i j k hf
    by_cases hi : i = j
    · subst hi
      rw [H.setPage_self]
      rfl
    · rw [H.setPage_of_ne hi]
  · rfl

theorem Within.pre (h : Within H) : Prefix H := by
  induction h with
  | init H => exact fun i j _ hj => absurd rfl hj
  | @alloc H size mmap h hsize hmul hle hm ih =>
    have hok := heapOk_of_reachable h.reachable
    obtain ⟨r, H', ha⟩ : ∃ r H', Ealloc.alloc size mmap H = (r, H') := ⟨_, _, rfl⟩
    rw [ha]
    intro i j hij hj
    rw [← mem_mappedPages] at hj ⊢
    rcases hok.expands hsize hmul hle hm ha with ⟨-, -, -, he⟩ | ⟨-, k, -, hfirst, he⟩
    · rw [he, mem_mappedPages] at hj ⊢
      exact ih i j hij hj
    · rw [he, Finset.mem_insert, mem_mappedPages] at hj ⊢
      rcases hj with rfl | hj
      · -- the pages before the one with room are mapped, since they have no room
        rcases eq_or_lt_of_le hij with rfl | hlt
        · exact Or.inl rfl
        · exact Or.inr fun h0 => hfirst i hlt (hok.hasRun_of_unmapped h0 hle)
      · exact Or.inr (ih i j hij hj)
  | dealloc _ addr ih =>
    intro i j hij hj
    rw [dealloc_page_start] at hj ⊢
    exact ih i j hij hj

/-- In every reachable heap the mapped pages come first. `alloc` maps a page exactly when no mapped
page has `size` free bytes in a row and fewer than four are mapped, and then one page; and it
fails exactly when all four are mapped and none has them. -/
theorem ealloc_expands (h : Within H) (hsize : 0 < size) (hmul : size % MINALLOC = 0)
    (hle : size ≤ PAGESIZE) (hm : MmapOk H mmap) (ha : alloc size mmap H = (r, H')) :
    Prefix H ∧
    (mappedPages H' ≠ mappedPages H ↔
      (∀ i ∈ mappedPages H, ¬HasRun (H.page_table i).bit_stat size) ∧
        (mappedPages H).card < 4) ∧
    (mappedPages H' ≠ mappedPages H → mappedPages H ⊆ mappedPages H' ∧
      (mappedPages H').card = (mappedPages H).card + 1) ∧
    (r = none ↔ (mappedPages H).card = 4 ∧ ∀ i, ¬HasRun (H.page_table i).bit_stat size) := by
  have hpre := h.pre
  have hfull : (mappedPages H).card = 4 ↔ ∀ i, (H.page_table i).page_start ≠ 0 := by
    refine (Finset.card_eq_iff_eq_univ (mappedPages H)).trans ?_
    exact Finset.eq_univ_iff_forall.trans (forall_congr' fun i => mem_mappedPages)
  have hle4 : (mappedPages H).card ≤ 4 := (Finset.card_le_univ _).trans_eq (Fintype.card_fin 4)
  rcases (heapOk_of_reachable h.reachable).expands hsize hmul hle hm ha with
    ⟨hr, hall, hno, he⟩ | ⟨hr, i, hrun, hfirst, he⟩
  · refine ⟨hpre, iff_of_false (not_not_intro he) fun hlt => ?_, fun hne => absurd he hne,
      iff_of_true hr ⟨hfull.mpr hall, hno⟩⟩
    have := hfull.mpr hall
    omega
  · refine ⟨hpre, ?_, fun hne => ?_, iff_of_false hr fun hno => hno.2 i hrun⟩
    · rw [he]
      by_cases hi : i ∈ mappedPages H
      · rw [Finset.insert_eq_self.mpr hi]
        exact iff_of_false (fun hne => hne rfl) fun hno => hno.1 i hi hrun
      · refine iff_of_true (fun heq => hi (Finset.insert_eq_self.mp heq)) ⟨fun j hj => ?_, ?_⟩
        · refine hfirst j (lt_of_not_ge fun hij => hi ?_)
          exact mem_mappedPages.mpr (hpre i j hij (mem_mappedPages.mp hj))
        · refine lt_of_le_of_ne hle4 fun h4 => hi ?_
          exact mem_mappedPages.mpr (hfull.mp h4 i)
    · rw [he] at hne ⊢
      have hi : i ∉ mappedPages H := fun hi => hne (Finset.insert_eq_self.mpr hi)
      exact ⟨Finset.subset_insert _ _, Finset.card_insert_of_notMem hi⟩

end Expand

/-- The first request maps the first page. -/
theorem ealloc_expands_first : ∃ (H H' : Heap) (r : Option ℕ), Within H ∧
    alloc 256 sampleMmap H = (r, H') ∧ mappedPages H' ≠ mappedPages H ∧ r ≠ none := by
  have hw : Within (init_alloc {}) := .init {}
  have hs : Sampled (init_alloc {}) := fun r hr => absurd hr List.not_mem_nil
  rcases ha : alloc 256 sampleMmap (init_alloc {}) with ⟨r, H'⟩
  obtain ⟨-, hmaps, -, hnone⟩ := ealloc_expands hw (by decide) (by decide) (by decide) hs.mmapOk ha
  have hempty : mappedPages (init_alloc {}) = ∅ := by
    ext i
    rw [mem_mappedPages]
    exact iff_of_false (fun hne => hne rfl) (Finset.notMem_empty i)
  refine ⟨_, H', r, hw, ha, hmaps.mpr ?_, fun hr => ?_⟩
  · rw [hempty]
    exact ⟨fun i hi => absurd hi (Finset.notMem_empty i), by decide⟩
  · have := (hnone.mp hr).1
    rw [hempty] at this
    cases this

end OsLabs.Malloc.Ealloc
