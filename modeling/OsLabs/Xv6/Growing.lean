import OsLabs.Xv6.Unmapping

/-!
# Specifications of `setupkvm` and `allocuvm`

* `setupkvm_spec`: a new directory holds itself and its kernel page tables, maps no user page and
  gives user code no access to the kernel's pages; on failure nothing stays allocated. It takes
  65 frames and succeeds whenever as many are free.
* `allocuvm_spec`: on success the pages of the range are zero-filled, writable and in frames that
  nobody held before; on failure no page of the range is present and nothing of it stays
  allocated but page tables.
-/

namespace OsLabs.Xv6

open StateError Ledger

/-! ## The kernel part of a directory -/

/-- No entry at or above `KERNBASE` is accessible to user code, or marked by it; the pages up to
the first one of the kernel's text map physical memory from 0 on. -/
def Pgdir.KernelOk (d : Pgdir) : Prop :=
  ∀ v, UPAGES ≤ v → (d.ent v).U = false ∧ (d.ent v).CoW = false ∧ (d.ent v).LAZY = false ∧
    (v < UPAGES + 257 → (d.ent v).P = true ∧ (d.ent v).ppn = v - UPAGES)

theorem Pgdir.KernelOk.congr {d d' : Pgdir} (h : d.KernelOk)
    (he : ∀ v, UPAGES ≤ v → d'.ent v = d.ent v) : d'.KernelOk :=
  fun v hv => by rw [he v hv]; exact h v hv

/-- The first page of a kernel mapping. -/
def Kmap.first (k : Kmap) : ℕ := k.virt / 4096

/-- The last page of a kernel mapping. -/
def Kmap.last (k : Kmap) : ℕ :=
  uint (k.virt + uint (k.phys_end + 2 ^ 32 - k.phys_start) - 1) / 4096

/-- The entry that a kernel mapping makes for page `w`. -/
def Kmap.pte (k : Kmap) (w : ℕ) : Pte :=
  { k.perm with ppn := k.phys_start / PGSIZE + (w - k.first), P := true }

/-- The mappings are page aligned, ascending from page `lo` on, disjoint and closed to users. -/
def KmapOk : ℕ → List Kmap → Prop
  | _, [] => True
  | lo, k :: ks => k.virt = k.first * 4096 ∧ lo ≤ k.first ∧ k.first ≤ k.last ∧ k.last < 2 ^ 20 ∧
      (k.perm.U = false ∧ k.perm.CoW = false ∧ k.perm.LAZY = false) ∧ KmapOk (k.last + 1) ks

theorem KmapOk.perm {ks : List Kmap} : ∀ {lo : ℕ}, KmapOk lo ks → ∀ k ∈ ks,
    k.perm.U = false ∧ k.perm.CoW = false ∧ k.perm.LAZY = false := by
  induction ks with
  | nil => exact fun _ k hk => absurd hk List.not_mem_nil
  | cons k₀ ks ih =>
    intro lo ⟨_, _, _, _, hp, hks⟩ k hk
    rcases List.mem_cons.mp hk with rfl | hk
    · exact hp
    · exact ih hks k hk

/-- The page tables of the kernel mappings `ks`. -/
def KmapTable (ks : List Kmap) (i : ℕ) : Prop :=
  ∃ k ∈ ks, k.first / 1024 ≤ i ∧ i ≤ k.last / 1024

theorem KmapTable_nil {i : ℕ} : ¬KmapTable [] i := by simp [KmapTable]

theorem KmapTable_cons {k : Kmap} {ks : List Kmap} {i : ℕ} :
    KmapTable (k :: ks) i ↔ (k.first / 1024 ≤ i ∧ i ≤ k.last / 1024) ∨ KmapTable ks i := by
  simp [KmapTable]

/-- The indexes of the kernel's page tables: 224 MB of memory and 32 MB of devices. -/
def kernelTables : Finset ℕ := Finset.Ico 512 568 ∪ Finset.Ico 1016 1024

theorem mem_kernelTables {i : ℕ} :
    i ∈ kernelTables ↔ 512 ≤ i ∧ i < 568 ∨ 1016 ≤ i ∧ i < 1024 := by
  rw [kernelTables, Finset.mem_union, Finset.mem_Ico, Finset.mem_Ico]

theorem not_mem_kernelTables {i : ℕ} (h : i < 512) : i ∉ kernelTables := by
  rw [mem_kernelTables]
  omega

theorem card_kernelTables : kernelTables.card = 64 := by
  rw [kernelTables, Finset.card_union_of_disjoint, Nat.card_Ico, Nat.card_Ico]
  refine Finset.disjoint_left.mpr fun i h₁ h₂ => ?_
  rw [Finset.mem_Ico] at h₁ h₂
  omega

theorem kernelTables_subset : kernelTables ⊆ Finset.range NPDENTRIES := fun i hi => by
  rw [mem_kernelTables] at hi
  rw [Finset.mem_range, NPDENTRIES]
  omega

/-- Where the kernel's data start, in pages. -/
theorem exists_data_page [L : Layout] : ∃ k, L.data = k * 4096 ∧ 524544 < k ∧ k ≤ 525312 := by
  have h₁ := L.data_aligned
  have h₂ := L.text_lt
  have h₃ := L.data_le
  have h₄ := L.end_le
  simp only [PGSIZE, KERNLINK, KERNBASE, EXTMEM, INITSTOP] at h₁ h₂ h₄
  exact ⟨L.data / 4096, by omega, by omega, by omega⟩

theorem kmapOk_kmap [L : Layout] :
    KmapOk UPAGES kmap ∧ (∀ i, KmapTable kmap i ↔ i ∈ kernelTables) ∧
      ∀ v, UPAGES ≤ v → v < UPAGES + 257 →
        ∃ k ∈ kmap, k.first ≤ v ∧ v ≤ k.last ∧ (k.pte v).ppn = v - UPAGES := by
  obtain ⟨k, hk, hlo, hhi⟩ := exists_data_page
  have hdata : V2P (k * 4096) = (k - 524288) * 4096 := by
    simp only [V2P, uint, KERNBASE]
    omega
  have hlink : V2P KERNLINK = 1048576 := by decide
  have hio : uint (EXTMEM + 2 ^ 32 - 0) = 1048576 := by decide
  have htext : uint ((k - 524288) * 4096 + 2 ^ 32 - 1048576) = (k - 524544) * 4096 := by
    simp only [uint]
    omega
  have hmem : uint (PHYSTOP + 2 ^ 32 - (k - 524288) * 4096) = (581632 - k) * 4096 := by
    simp only [uint, PHYSTOP]
    omega
  have hdev : uint (0 + 2 ^ 32 - DEVSPACE) = 33554432 := by decide
  refine ⟨?_, fun i => ?_, fun v h₁ h₂ => ?_⟩
  · rw [UPAGES_eq]
    simp only [kmap, KmapOk, Kmap.first, Kmap.last, hk, hdata, hlink, hio, htext, hmem, hdev]
    simp only [uint, KERNLINK, KERNBASE, EXTMEM, DEVSPACE, and_true, true_and]
    omega
  · simp only [mem_kernelTables, kmap, KmapTable_cons, KmapTable_nil, or_false, Kmap.first,
      Kmap.last, hk, hdata, hlink, hio, htext, hmem, hdev]
    simp only [uint, KERNLINK, KERNBASE, EXTMEM, DEVSPACE]
    omega
  · rw [UPAGES_eq] at h₁ h₂ ⊢
    simp only [kmap, List.mem_cons, List.not_mem_nil, or_false, exists_eq_or_imp,
      exists_eq_left, Kmap.first, Kmap.last, Kmap.pte, hk, hdata, hlink, hio, htext]
    simp only [uint, KERNLINK, KERNBASE, EXTMEM, PGSIZE]
    omega

section Setup

variable {κ : Type} [Kalloc κ] [Layout] [LawfulKalloc κ]
variable {dom : ℕ → Prop} {s : Phys κ} {r : Ledger ℕ}

/-- Entering kernel mappings from page `lo` on in a directory without pages there. -/
theorem mapKernel_spec (ks : List Kmap) : ∀ {lo : ℕ} {s : Phys κ} {d : Pgdir},
    KmapOk lo ks → (∀ w, lo ≤ w → (d.ent w).P = false) → Acct dom s.kmem (r + d.tables) →
    wp (mapKernel ks d) (fun res s' =>
      Acct dom s'.kmem (r + res.1.tables) ∧ Grow (r + d.tables) (r + res.1.tables) ∧
      s'.mem = s.mem ∧ res.1.frame = d.frame ∧ (∀ w < lo, res.1.ent w = d.ent w) ∧
      (∀ w, res.1.ent w = d.ent w ∨ ∃ k ∈ ks, res.1.ent w = k.pte w) ∧
      (∀ i, res.1.has i → d.has i ∨ KmapTable ks i) ∧
      s'.free.length + res.1.numTables = s.free.length + d.numTables ∧
      (res.2 = true → s'.oom = s.oom ∧ (∀ i, d.has i ∨ KmapTable ks i → res.1.has i) ∧
        ∀ k ∈ ks, ∀ w, k.first ≤ w → w ≤ k.last → res.1.ent w = k.pte w) ∧
      (res.2 = false → s'.oom = true ∧ s'.free = [] ∧ ∃ i, KmapTable ks i ∧ ¬res.1.has i))
      (fun _ _ => False) s := by
  induction ks with
  | nil =>
    intro lo s d _ _ ha
    exact ⟨ha, .refl _, rfl, rfl, fun _ _ => rfl, fun _ => Or.inl rfl, fun i hi => Or.inl hi, rfl,
      fun _ => ⟨rfl, fun i hi => hi.resolve_right KmapTable_nil,
        fun k hk => absurd hk List.not_mem_nil⟩, by simp⟩
  | cons k ks ih =>
    intro lo s d hk hP ha
    obtain ⟨hvirt, hlo, hfl, hlast, -, hks⟩ := hk
    have hstart : PGROUNDDOWN k.virt = k.first * 4096 := by
      rw [PGROUNDDOWN, PGSIZE, ← Kmap.first]
    have hstop : PGROUNDDOWN (uint (k.virt + uint (k.phys_end + 2 ^ 32 - k.phys_start) - 1)) =
        (k.first + (k.last - k.first)) * 4096 := by
      rw [PGROUNDDOWN, PGSIZE, ← Kmap.last]
      congr 1
      omega
    unfold mapKernel mappages
    simp only [wp_bind]
    rw [hstart, hstop]
    refine wp_post (mappagesLoop_range (k.last - k.first) ?_ (by omega) ha fun w h₁ _ =>
      hP w (by omega)) fun res s₁ h => ?_
    · simp only [loopFuel]
      omega
    obtain ⟨ha₁, hg₁, hm₁, hf₁, hout, hin, honly, hlen, hok, hbad⟩ := h
    rw [Nat.add_sub_cancel' hfl] at hout hin honly hok hbad
    have hkent : ∀ w, res.1.ent w = d.ent w ∨ ∃ k' ∈ k :: ks, res.1.ent w = k'.pte w := by
      intro w
      by_cases hw : w < k.first ∨ k.last < w
      · exact Or.inl (hout w hw)
      · exact (hin w (by omega) (by omega)).imp And.right fun he => ⟨k, List.mem_cons_self, he⟩
    obtain ⟨d₁, ok⟩ := res
    cases ok with
    | false =>
      simp only [Bool.false_eq_true, if_false, wp_pure]
      obtain ⟨ho, hfree, i, h₁, h₂, hi⟩ := hbad rfl
      exact ⟨ha₁, hg₁, hm₁, hf₁, fun w hw => hout w (by omega), hkent,
        fun i hi => (honly i hi).imp_right fun h => KmapTable_cons.mpr (Or.inl h), hlen, by simp,
        fun _ => ⟨ho, hfree, i, KmapTable_cons.mpr (Or.inl ⟨h₁, h₂⟩), hi⟩⟩
    | true =>
      simp only [if_true]
      refine wp_post (ih hks (fun w hw => ?_) ha₁) fun res' s' h' => ?_
      · rw [hout w (by omega)]
        exact hP w (by omega)
      obtain ⟨ha', hg', hm', hf', hlt', hent', hhas', hlen', hok', hbad'⟩ := h'
      refine ⟨ha', hg₁.trans hg', hm'.trans hm₁, hf'.trans hf₁, fun w hw => ?_, fun w => ?_,
        fun i hi => ?_, hlen'.trans hlen,
        fun hr => ⟨(hok' hr).1.trans (hok rfl).1, fun i hi => (hok' hr).2.1 i ?_,
          fun k' hk' w h₁ h₂ => ?_⟩, fun hr => ?_⟩
      · rw [hlt' w (by omega)]
        exact hout w (by omega)
      · rcases hent' w with e | ⟨k', hk', e⟩
        · rw [e]
          exact hkent w
        · exact Or.inr ⟨k', List.mem_cons_of_mem k hk', e⟩
      · rw [KmapTable_cons, ← or_assoc]
        exact (hhas' i hi).imp_left (honly i)
      · rw [KmapTable_cons, ← or_assoc] at hi
        exact hi.imp_left ((hok rfl).2 i)
      · rcases List.mem_cons.mp hk' with rfl | hk'
        · rw [hlt' w (by omega)]
          exact (hin w h₁ h₂).resolve_left fun h => by cases h.1
        · exact (hok' hr).2.2 k' hk' w h₁ h₂
      · obtain ⟨ho, hfree, i, hk, hi⟩ := hbad' hr
        exact ⟨ho, hfree, i, KmapTable_cons.mpr (Or.inr hk), hi⟩

/-- A new directory, or none and nothing changed in the ledger. -/
theorem setupkvm_spec (ha : Acct dom s.kmem r) :
    wp setupkvm (fun res s' => match res with
      | none => Acct dom s'.kmem r ∧ Keeps r s s' ∧ s'.oom = true ∧ s.free.length < 65
      | some d => Acct dom s'.kmem (r + d.holds) ∧ Grow r (r + d.holds) ∧ s'.mem = s.mem ∧
          s'.oom = s.oom ∧ (∀ v < UPAGES, d.ent v = Pte.zero) ∧ d.KernelOk ∧
          s.free.length = s'.free.length + 65 ∧ ∀ i, d.has i ↔ i ∈ kernelTables)
      (fun _ _ => False) s := by
  unfold setupkvm
  simp only [wp_bind]
  refine wp_post (LawfulKalloc.kalloc_spec ha) fun res s₁ h₁ => ?_
  cases res with
  | none =>
    obtain ⟨rfl, hfree⟩ := h₁
    have hlen : s.free = [] := hfree
    exact ⟨ha, .of_mem_eq rfl, rfl, by rw [hlen]; simp⟩
  | some f =>
    obtain ⟨hf, hacct, hm₁, ho₁, hfree⟩ := h₁
    have hlen₁ : s.free.length = s₁.free.length + 1 := by
      change (Kalloc.freelist s.kmem).length = _
      rw [hfree]
      rfl
    dsimp only
    rw [if_neg (by decide)]
    simp only [wp_bind]
    set d₀ : Pgdir := { frame := f, pde := fun _ => none } with hd₀
    have hent₀ : ∀ v, d₀.ent v = Pte.zero := fun v => rfl
    have htab₀ : d₀.tables = 0 := Finset.sum_eq_zero fun _ _ => rfl
    have hnum₀ : d₀.numTables = 0 := by
      refine Finset.card_eq_zero.mpr (Finset.filter_eq_empty_iff.mpr fun i _ => ?_)
      simp [hd₀]
    have ha₁ : Acct dom s₁.kmem (r + excl f + d₀.tables) := by
      rw [htab₀, add_zero]
      exact hacct _ (isClaim_excl f)
    refine wp_post (mapKernel_spec kmap kmapOk_kmap.1 (fun w _ => by rw [hent₀]; rfl) ha₁)
      fun res s₂ h₂ => ?_
    obtain ⟨ha₂, hg₂, hm₂, hf₂, hlt, hent, hhas, hlen₂, hok, hbad⟩ := h₂
    have huse : res.1.uses = 0 := Finset.sum_eq_zero fun v hv => by
      rw [hlt v (Finset.mem_range.mp hv), hent₀]
      rfl
    have hholds : r + res.1.holds = r + excl f + res.1.tables := by
      rw [Pgdir.holds, huse, hf₂, add_zero, add_assoc]
    have hkern : ∀ i, res.1.has i → i ∈ kernelTables := fun i hi =>
      (hhas i hi).elim (fun h => absurd rfl h) (kmapOk_kmap.2.1 i).mp
    rw [htab₀, add_zero] at hg₂
    by_cases hres : res.2 = true
    · simp only [hres, if_true, wp_pure]
      have hall : ∀ i, res.1.has i ↔ i ∈ kernelTables := fun i =>
        ⟨hkern i, fun hi => (hok hres).2.1 i (Or.inr ((kmapOk_kmap.2.1 i).mpr hi))⟩
      have hnum : res.1.numTables = 64 :=
        (Pgdir.numTables_eq _ kernelTables_subset hall).trans card_kernelTables
      refine ⟨by rwa [hholds], ?_, hm₂.trans hm₁, (hok hres).1.trans ho₁, fun v hv => ?_,
        fun v hv => ?_, by omega, hall⟩
      · rw [hholds]
        exact (Grow.add_claim hf (isClaim_excl f)).trans hg₂
      · rw [hlt v hv, hent₀]
      · have hlow : v < UPAGES + 257 → (res.1.ent v).P = true ∧ (res.1.ent v).ppn = v - UPAGES := by
          intro h257
          obtain ⟨k, hk, h₁, h₂, hppn⟩ := kmapOk_kmap.2.2 v hv h257
          rw [(hok hres).2.2 k hk v h₁ h₂]
          exact ⟨rfl, hppn⟩
        rcases hent v with e | ⟨k, hk, e⟩
        · rw [e, hent₀] at hlow ⊢
          exact ⟨rfl, rfl, rfl, hlow⟩
        · obtain ⟨hU, hC, hL⟩ := kmapOk_kmap.1.perm k hk
          rw [e] at hlow ⊢
          exact ⟨hU, hC, hL, hlow⟩
    · obtain ⟨ho₂, hfree₂, i, hi, hnot⟩ := hbad (by simpa using hres)
      have hnum : res.1.numTables < 64 := by
        rw [← card_kernelTables]
        refine lt_of_le_of_lt (Pgdir.numTables_le (kernelTables.erase i) fun j hj => ?_)
          (Finset.card_erase_lt_of_mem ((kmapOk_kmap.2.1 i).mp hi))
        exact Finset.mem_erase.mpr ⟨fun e => hnot (e ▸ hj), hkern j hj⟩
      simp only [hres, Bool.false_eq_true, if_false, wp_bind, wp_pure]
      rw [hfree₂, hnum₀, List.length_nil] at hlen₂
      refine wp_post (freevm_spec (r := r) (by rwa [hholds])) fun _ s₃ h₃ => ?_
      exact ⟨h₃.1, (Keeps.of_mem_eq (hm₂.trans hm₁)).trans h₃.2.1, h₃.2.2.trans ho₂, by omega⟩

end Setup

/-! ## Growing the user part -/

/-- `d'` is `d` with the pages `lo ≤ w < hi` mapped for user reading and writing. -/
structure Pgdir.Grown (d d' : Pgdir) (lo hi : ℕ) : Prop where
  frame : d'.frame = d.frame
  has : ∀ i, d.has i → d'.has i
  out : ∀ w, w < lo ∨ hi ≤ w → d'.ent w = d.ent w
  flags : ∀ w, lo ≤ w → w < hi → (d'.ent w).toFlags = { P := true, W := true, U := true }

theorem Pgdir.Grown.refl (d : Pgdir) {lo hi : ℕ} (h : hi ≤ lo) : d.Grown d lo hi :=
  ⟨rfl, fun _ h => h, fun _ _ => rfl, fun w h₁ h₂ => by omega⟩

/-- `d'` is `d` with no page of `lo ≤ w < hi` present. -/
structure Pgdir.Undone (d d' : Pgdir) (lo hi : ℕ) : Prop where
  frame : d'.frame = d.frame
  has : ∀ i, d.has i → d'.has i
  out : ∀ w, w < lo ∨ hi ≤ w → d'.ent w = d.ent w
  absent : ∀ w, lo ≤ w → w < hi → (d'.ent w).P = false ∧ (d'.ent w = Pte.zero ∨ d'.ent w = d.ent w)

/-- An undone directory uses no frame more often than before. -/
theorem Pgdir.Undone.refs_uses_le {d d' : Pgdir} {lo hi : ℕ} (h : d.Undone d' lo hi) (f : ℕ) :
    refs d'.uses f ≤ refs d.uses f := by
  unfold Pgdir.uses
  rw [refs_sum, refs_sum]
  refine Finset.sum_le_sum fun w _ => ?_
  by_cases hw : lo ≤ w ∧ w < hi
  · rw [Pgdir.pteHold_of_not_P (h.absent w hw.1 hw.2).1]
    exact Nat.zero_le _
  · rw [h.out w (by omega)]

/-- The frames of the new pages were held by nobody and are zero-filled. -/
def NewPages {κ : Type} (o : Ledger ℕ) (s' : Phys κ) (d' : Pgdir) (lo hi : ℕ) : Prop :=
  ∀ w, lo ≤ w → w < hi → o (d'.ent w).ppn = 0 ∧ s'.mem (d'.ent w).ppn = zeroPage

section Alloc

variable {κ : Type} [Kalloc κ] [Layout] [LawfulKalloc κ] {dom : ℕ → Prop} {r : Ledger ℕ}

/-- What holds while `allocuvm` fills the pages from `lo` to `v`, since the directory `d₀` and the
memory `s₀` it started with. -/
structure Filling (dom : ℕ → Prop) (r : Ledger ℕ) (s₀ : Phys κ) (d₀ : Pgdir) (lo v : ℕ)
    (s : Phys κ) (d : Pgdir) : Prop where
  acct : Acct dom s.kmem (r + (d.tables + d.uses))
  grow : Grow (r + (d₀.tables + d₀.uses)) (r + (d.tables + d.uses))
  tables : ∀ f, refs d₀.tables f ≤ refs d.tables f
  held : ∀ f, (r + (d₀.tables + d₀.uses)) f ≠ 0 → (r + (d.tables + d.uses)) f ≠ 0
  keeps : Keeps (r + (d₀.tables + d₀.uses)) s₀ s
  grown : d₀.Grown d lo v
  fresh : NewPages (r + (d₀.tables + d₀.uses)) s d lo v
  len : s₀.free.length + d₀.numTables + lo = s.free.length + d.numTables + v

/-- Starting to fill. -/
theorem Filling.start {s : Phys κ} {d : Pgdir} {lo : ℕ}
    (ha : Acct dom s.kmem (r + (d.tables + d.uses))) : Filling dom r s d lo lo s d :=
  ⟨ha, .refl _, fun _ => le_refl _, fun _ h => h, .refl _ _, .refl d (le_refl _), fun w h₁ h₂ => by omega,
    rfl⟩

/-- One page further: the frame `mem` that `kalloc` returned, zeroed and mapped. -/
theorem Filling.next {s₀ s s' : Phys κ} {d₀ d d₁ : Pgdir} {lo v mem : ℕ}
    (h : Filling dom r s₀ d₀ lo v s d) (hlo : lo ≤ v) (hv : v < UPAGES)
    (habs : (d₀.ent v).P = false) (hmem : (r + (d.tables + d.uses)) mem = 0)
    (hext : d.Ext d₁) (hhas : d₁.has (v / 1024))
    (ha : Acct dom s'.kmem (r + d.uses + shared mem + d₁.tables))
    (hg : Grow (r + d.uses + shared mem + d.tables) (r + d.uses + shared mem + d₁.tables))
    (hs' : s'.mem = (s.fill mem zeroPage).mem)
    (hlen : s.free.length + d.numTables = s'.free.length + d₁.numTables + 1) :
    Filling dom r s₀ d₀ lo (v + 1) s'
      (d₁.store (v * 4096) { P := true, W := true, U := true, ppn := mem }) := by
  rw [UPAGES_eq] at hv
  have hva : v * 4096 < 2 ^ 32 := by omega
  have hvv : v * 4096 / 4096 = v := by omega
  have hhas' : d₁.has (v * 4096 / 4096 / 1024) := by rwa [hvv]
  set e : Pte := { P := true, W := true, U := true, ppn := mem } with he
  have hent : ∀ w, (d₁.store (v * 4096) e).ent w = if w = v then e else d.ent w := fun w => by
    rw [Pgdir.ent_store hva hhas', hvv, hext.ent]
  have hdv : d.ent v = d₀.ent v := h.grown.out v (Or.inr (le_refl _))
  have huse : (d₁.store (v * 4096) e).uses = d.uses + shared mem := by
    have := Pgdir.uses_store (e := e) (show v * 4096 < KERNBASE by rw [KERNBASE_eq]; omega) hhas'
    rwa [hvv, hext.ent, hdv, Pgdir.pteHold_of_not_P habs, add_zero, hext.uses,
      Pgdir.pteHold_of_P rfl] at this
  have hledger : r + ((d₁.store (v * 4096) e).tables + (d₁.store (v * 4096) e).uses) =
      r + d.uses + shared mem + d₁.tables := by
    rw [Pgdir.tables_store, huse]
    abel
  have hmem' : r + d.uses + shared mem + d.tables = r + (d.tables + d.uses) + shared mem := by abel
  rw [hmem'] at hg
  have hg' := (Grow.add_claim hmem (isClaim_shared mem)).trans hg
  have hmem₀ : (r + (d₀.tables + d₀.uses)) mem = 0 := by
    by_contra h0
    exact h.held mem h0 hmem
  have hframe : ∀ f, (r + (d.tables + d.uses)) f ≠ 0 → f ≠ mem := fun f hf e => hf (e ▸ hmem)
  refine ⟨by rwa [hledger], by rw [hledger]; exact h.grow.trans hg', fun f => ?_, fun f hf => ?_,
    h.keeps.trans fun f hf => ?_, ⟨?_, fun i hi => ?_, fun w hw => ?_, fun w h₁ h₂ => ?_⟩,
    fun w h₁ h₂ => ?_, ?_⟩
  · rw [Pgdir.tables_store]
    exact (h.tables f).trans (hext.refs_tables_le f)
  · have h₁ := refs_pos.mpr (h.held f hf)
    have h₂ := hext.refs_tables_le f
    rw [hledger, ← refs_pos]
    simp only [refs_add] at h₁ ⊢
    omega
  · rw [hs', s.fill_mem_ne mem zeroPage (hframe f (h.held f hf))]
  · rw [Pgdir.frame_store, hext.frame, h.grown.frame]
  · rw [Pgdir.has_store]
    exact hext.has i (h.grown.has i hi)
  · rw [hent, if_neg (by omega)]
    exact h.grown.out w (by omega)
  · rw [hent]
    split
    · rfl
    · exact h.grown.flags w h₁ (by omega)
  · rw [hent, hs']
    split
    · exact ⟨hmem₀, s.fill_mem_self mem zeroPage⟩
    · obtain ⟨h0, hz⟩ := h.fresh w h₁ (by omega)
      refine ⟨h0, ?_⟩
      by_cases hw : (d.ent w).ppn = mem
      · rw [hw, s.fill_mem_self]
      · rw [s.fill_mem_ne mem zeroPage hw, hz]
  · have := h.len
    rw [Pgdir.numTables_store]
    omega

/-- Giving back what was filled, when the memory runs out: from the pages filled up to `v`, the
present pages of the whole range are cleared. -/
theorem Filling.undone {s₀ s : Phys κ} {d₀ d d' : Pgdir} {lo hi v : ℕ}
    (h : Filling dom r s₀ d₀ lo v s d) (hv : v ≤ hi) (hcl : d.Cleared d' lo hi) :
    d₀.Undone d' lo hi := by
  refine ⟨hcl.frame.trans h.grown.frame, fun i hi => (hcl.has i).mpr (h.grown.has i hi),
    fun w hw => ?_, fun w h₁ h₂ => ?_⟩
  · rw [hcl.ent, if_neg (by omega)]
    exact h.grown.out w (by omega)
  · rw [hcl.ent]
    by_cases hP : (d.ent w).P = true
    · rw [if_pos ⟨h₁, h₂, hP⟩]
      exact ⟨rfl, Or.inl rfl⟩
    · rw [if_neg fun hc => hP hc.2.2]
      refine ⟨by simpa using hP, Or.inr (h.grown.out w (Or.inr ?_))⟩
      by_contra hlt
      have := h.grown.flags w h₁ (by omega)
      rw [this] at hP
      exact hP rfl

/-- What `allocuvm` leaves: the range filled, or memory run out and no page of the range
present. -/
def Grew (r : Ledger ℕ) (s₀ : Phys κ) (d₀ : Pgdir) (oldsz newsz : ℕ) (res : ℕ × Pgdir)
    (s' : Phys κ) : Prop :=
  (res.1 = newsz ∧ s'.oom = s₀.oom ∧ d₀.Grown res.2 (pages oldsz) (pages newsz) ∧
    NewPages (r + (d₀.tables + d₀.uses)) s' res.2 (pages oldsz) (pages newsz) ∧
    Keeps (r + d₀.uses) s₀ s' ∧
    s₀.free.length + pages oldsz ≤ s'.free.length + 1024 + pages newsz) ∨
  (res.1 = 0 ∧ s'.oom = true ∧ d₀.Undone res.2 (pages oldsz) (pages newsz) ∧
    Keeps (r + res.2.uses) s₀ s' ∧ s₀.free.length + pages oldsz ≤ 1024 + pages newsz)

/-- The failing ways out of the loop: `deallocuvm` over the range, with `r'` held besides. -/
theorem Filling.giveUp {oldsz newsz v : ℕ} (hnew : newsz < KERNBASE) {s₀ s : Phys κ}
    {d₀ d : Pgdir} (hF : Filling dom r s₀ d₀ (pages oldsz) v s d) (r' : Ledger ℕ) (s₁ : Phys κ)
    (hv : v ≤ pages newsz) (ha : Acct dom s₁.kmem (r + (d.tables + d.uses) + r')) :
    wp (deallocuvm d newsz oldsz) (fun res s' =>
      d₀.Undone res.2 (pages oldsz) (pages newsz) ∧
      Grow (r + (d₀.tables + d₀.uses)) (r + (res.2.tables + res.2.uses)) ∧
      Acct dom s'.kmem (r + (res.2.tables + res.2.uses) + r') ∧
      Keeps (r + res.2.uses) s₁ s' ∧ s'.oom = s₁.oom) (fun _ _ => False) s₁ := by
  have hl : ∀ u : Ledger ℕ, r + (d.tables + u) + r' = r + d.tables + r' + u := fun u => by abel
  rw [hl] at ha
  refine wp_mono (deallocuvm_spec (.of_le (le_of_lt hnew)) ha) (fun res s' h => ?_)
    fun _ _ h => Pgdir.not_overlaps (le_of_lt hnew) h.2
  obtain ⟨-, hcl, ha', hk, ho⟩ := h
  refine ⟨hF.undone hv hcl, hF.grow.trans (.of_le fun f => ?_), ?_, hk.mono fun f hf => ?_, ho⟩
  · have := hcl.refs_le f
    simp only [refs_add, hcl.tables]
    omega
  · rwa [hcl.tables, hl]
  · rw [← refs_pos] at hf ⊢
    simp only [refs_add] at hf ⊢
    omega

/-- The loop of `allocuvm` from page `v` on. -/
theorem allocuvmLoop_spec {oldsz newsz : ℕ} (hnew : newsz < KERNBASE) {s₀ : Phys κ}
    {d₀ : Pgdir} :
    ∀ {fuel v : ℕ} {s : Phys κ} {d : Pgdir}, pages newsz - v < fuel → pages oldsz ≤ v →
    v ≤ pages newsz → s.oom = s₀.oom → Filling dom r s₀ d₀ (pages oldsz) v s d →
    wp (allocuvmLoop oldsz newsz fuel d (v * 4096)) (fun res s' =>
      Acct dom s'.kmem (r + (res.2.tables + res.2.uses)) ∧
      Grow (r + (d₀.tables + d₀.uses)) (r + (res.2.tables + res.2.uses)) ∧
      Grew r s₀ d₀ oldsz newsz res s')
      (fun e _ => e = .remap ∧ ∃ w, pages oldsz ≤ w ∧ w < pages newsz ∧ (d₀.ent w).P = true)
      s := by
  have hpg := pages_le_UPAGES (le_of_lt hnew)
  rw [UPAGES_eq] at hpg
  intro fuel
  induction fuel with
  | zero => intro v s d h; exact absurd h (Nat.not_lt_zero _)
  | succ fuel ih =>
    intro v s d hfuel hlo hv ho hF
    have hlt : v * 4096 < newsz ↔ v < pages newsz := by
      simp only [pages]
      omega
    have hkeep : Keeps (r + d₀.uses) s₀ s := hF.keeps.mono fun f hf => by
      rw [← refs_pos] at hf ⊢
      simp only [refs_add] at hf ⊢
      omega
    have hlen := hF.len
    have hnum := d.numTables_le_max
    unfold allocuvmLoop
    by_cases hv' : v < pages newsz
    swap
    · -- the range is filled
      obtain rfl : v = pages newsz := by omega
      rw [if_neg (by rwa [hlt])]
      exact ⟨hF.acct, hF.grow, Or.inl ⟨rfl, ho, hF.grown, hF.fresh, hkeep, by omega⟩⟩
    rw [if_pos (hlt.mpr hv')]
    simp only [wp_bind]
    refine wp_mono (LawfulKalloc.kalloc_spec hF.acct) (fun res s₁ h₁ => ?_) fun _ _ h => h.elim
    -- the frames held at the end of a failure were held at the start
    have hback : ∀ {d' : Pgdir} {s₁ s' : Phys κ}, d₀.Undone d' (pages oldsz) (pages newsz) →
        Keeps (r + d₀.uses) s₀ s₁ → Keeps (r + d'.uses) s₁ s' → Keeps (r + d'.uses) s₀ s' :=
      fun hun hk hk' => .trans (hk.mono fun f hf => by
        have := hun.refs_uses_le f
        rw [← refs_pos] at hf ⊢
        simp only [refs_add] at hf ⊢
        omega) hk'
    cases res with
    | none =>
      -- no frame for the page
      obtain ⟨rfl, hnil⟩ := h₁
      have hnil' : s.free.length = 0 := congrArg List.length hnil
      simp only [wp_bind, wp_pure]
      refine wp_mono (hF.giveUp hnew 0 _ hv (by rw [add_zero]; exact hF.acct))
        (fun res s' h => ?_) fun _ _ h => h.elim
      obtain ⟨hun, hg, ha', hk, ho'⟩ := h
      rw [add_zero] at ha'
      exact ⟨ha', hg, Or.inr ⟨rfl, ho', hun, hback hun hkeep hk, by omega⟩⟩
    | some mem =>
      obtain ⟨hmem, hacct, hm₁, ho₁, hcons⟩ := h₁
      have hcons' : s.free.length = s₁.free.length + 1 := congrArg List.length hcons
      dsimp only
      simp only [wp_bind, wp_modify]
      have hacct₁ := hacct _ (isClaim_shared mem)
      by_cases hP : (d.ent v).P = true
      · -- the page is there already
        refine (mappages_remap (by omega) hP).mpr ⟨rfl, v, hlo, hv', ?_⟩
        rwa [← hF.grown.out v (Or.inr (le_refl _))]
      have hP' : (d.ent v).P = false := by simpa using hP
      have hmemd : ∀ f, (r + d₀.uses) f ≠ 0 → f ≠ mem := by
        rintro f hf rfl
        refine hF.held f ?_ hmem
        rw [← refs_pos] at hf ⊢
        simp only [refs_add] at hf ⊢
        omega
      have hkeep₁ : Keeps (r + d₀.uses) s₀ (s₁.fill mem zeroPage) := fun f hf => by
        rw [s₁.fill_mem_ne mem zeroPage (hmemd f hf), hm₁]
        exact hkeep f hf
      have hl : r + (d.tables + d.uses) + shared mem = r + d.uses + shared mem + d.tables := by abel
      refine wp_mono (mappages_page_spec (s := s₁.fill mem zeroPage) (r := r + d.uses + shared mem)
        (by omega) (by rw [Phys.fill_kmem, ← hl]; exact hacct₁) hP') (fun res s₂ h₂ => ?_)
        fun _ _ h => h.elim
      obtain ⟨ha₂, hg₂, hm₂, hok, hbad⟩ := h₂
      obtain ⟨d₂, ok⟩ := res
      cases ok with
      | true =>
        obtain ⟨ho₂, hlen₂, d₁, hext, hhas, -, rfl⟩ := hok rfl
        rw [Pgdir.tables_store] at ha₂ hg₂
        rw [Pgdir.numTables_store] at hlen₂
        have hfill : (s₁.fill mem zeroPage).free = s₁.free := rfl
        rw [hfill] at hlen₂
        have hnext : uint (v * 4096 + PGSIZE) = (v + 1) * 4096 := by
          simp only [uint, PGSIZE]
          omega
        rw [if_pos rfl, hnext]
        refine ih (by omega) (by omega) (by omega) (ho₂.trans (ho₁.trans ho))
          (hF.next hlo (by rw [UPAGES_eq]; omega) ?_ hmem hext hhas ha₂ hg₂ ?_ (by omega))
        · rw [← hF.grown.out v (Or.inr (le_refl _))]
          exact hP'
        · rw [hm₂]
          simp only [Phys.fill, hm₁]
      | false =>
        -- no frame for its page table
        obtain ⟨rfl, ho₂, hnil, -⟩ := hbad rfl
        have hnil' : s₁.free.length = 0 := congrArg List.length hnil
        simp only [Bool.false_eq_true, if_false, wp_bind, wp_pure]
        refine wp_mono (hF.giveUp hnew (shared mem) s₂ hv (by rwa [hl]))
          (fun res s₃ h₃ => ?_) fun _ _ h => h.elim
        obtain ⟨hun, hg, ha₃, hk₃, ho₃⟩ := h₃
        refine wp_mono (LawfulKalloc.kfree_spec (isClaim_shared mem) ha₃) (fun _ s' h => ?_)
          fun _ _ h => h.elim
        obtain ⟨ha', hk', -, ho'⟩ := h
        refine ⟨ha', hg, Or.inr ⟨rfl, ho'.trans (ho₃.trans ho₂), hun, ?_, by omega⟩⟩
        refine (hback hun (hkeep₁.trans (.of_mem_eq hm₂)) hk₃).trans (hk'.mono fun f hf => ?_)
        rw [← refs_pos] at hf ⊢
        simp only [refs_add] at hf ⊢
        omega

/-- Growing a directory from `oldsz` to `newsz`. A size from `KERNBASE` on and a smaller size
leave it as it is. -/
theorem allocuvm_spec {s : Phys κ} {d : Pgdir} {oldsz newsz : ℕ}
    (ha : Acct dom s.kmem (r + (d.tables + d.uses))) :
    wp (allocuvm d oldsz newsz) (fun res s' =>
      Acct dom s'.kmem (r + (res.2.tables + res.2.uses)) ∧
      Grow (r + (d.tables + d.uses)) (r + (res.2.tables + res.2.uses)) ∧
      ((KERNBASE ≤ newsz ∧ res = (0, d) ∧ s' = s) ∨
        (newsz < KERNBASE ∧ newsz < oldsz ∧ res = (oldsz, d) ∧ s' = s) ∨
        (newsz < KERNBASE ∧ oldsz ≤ newsz ∧ Grew r s d oldsz newsz res s')))
      (fun e _ => e = .remap ∧ newsz < KERNBASE ∧
        ∃ w, pages oldsz ≤ w ∧ w < pages newsz ∧ (d.ent w).P = true) s := by
  unfold allocuvm
  by_cases h₁ : newsz ≥ KERNBASE
  · rw [if_pos h₁]
    exact ⟨ha, .refl _, Or.inl ⟨h₁, rfl, rfl⟩⟩
  have h₁' : newsz < KERNBASE := by omega
  rw [if_neg h₁]
  by_cases h₂ : newsz < oldsz
  · rw [if_pos h₂]
    exact ⟨ha, .refl _, Or.inr (Or.inl ⟨h₁', h₂, rfl, rfl⟩)⟩
  have hle := pages_mono (show oldsz ≤ newsz by omega)
  have hpg := pages_le_UPAGES (le_of_lt h₁')
  rw [if_neg h₂, PGROUNDUP_eq (by omega)]
  refine wp_mono (allocuvmLoop_spec h₁' ?_ (le_refl _) hle rfl (.start ha)) (fun res s' h =>
    ⟨h.1, h.2.1, Or.inr (Or.inr ⟨h₁', by omega, h.2.2⟩)⟩) fun _ _ h => ⟨h.1, h₁', h.2⟩
  rw [UPAGES_eq] at hpg
  simp only [loopFuel]
  omega

end Alloc

end OsLabs.Xv6
