import OsLabs.Lazy.Vm

/-!
# Copying an address space with lazy pages

`copyuvm` goes through the pages of the parent in order. A present page is copied to a new frame, a
lazy page is marked in the child, and both may need a page table first.

* `Child`: what the child has after the pages below `v`;
* `need d v`: the frames it takes to get there;
* `copyuvmLoop_spec` and `copyuvm_spec`, with the outcomes listed in `CopyEffect` and the ways to
  stop in `CopyStop`. Every outcome says at which page it is decided and how many frames were
  there, so that at most one of them is possible.
-/

namespace OsLabs.Lazy

open Xv6 StateError Ledger
open Base (Kmem)

/-- The page can be used: it is present, or lazy. -/
def Covered (e : Pte) : Prop := e.P = true ∨ e.LAZY = true

/-- The pages below `v` that `copyuvm` copies. -/
def copied (d : Pgdir) (v : ℕ) : Finset ℕ :=
  (Finset.range v).filter fun w => (d.ent w).LAZY = false

theorem mem_copied {d : Pgdir} {v w : ℕ} : w ∈ copied d v ↔ w < v ∧ (d.ent w).LAZY = false := by
  rw [copied, Finset.mem_filter, Finset.mem_range]

/-- The frames that the child has for the pages below `v`: page tables below `KERNBASE` and
copies. -/
def need (d : Pgdir) (v : ℕ) : ℕ := min ((v + 1023) / 1024) 512 + (copied d v).card

theorem need_zero (d : Pgdir) : need d 0 = 0 := rfl

theorem need_mono {d : Pgdir} {v w : ℕ} (h : v ≤ w) : need d v ≤ need d w := by
  have hcard : (copied d v).card ≤ (copied d w).card := Finset.card_le_card fun u hu => by
    rw [mem_copied] at hu ⊢
    exact ⟨by omega, hu.2⟩
  simp only [need]
  omega

theorem need_succ {d : Pgdir} {v : ℕ} : need d (v + 1) = min ((v + 1 + 1023) / 1024) 512 +
    (copied d v).card + if (d.ent v).LAZY = false then 1 else 0 := by
  rw [need, copied, Finset.range_add_one, Finset.filter_insert, ← copied,
    Nat.add_assoc _ (Finset.card _)]
  split
  · rw [Finset.card_insert_of_notMem fun h => absurd (mem_copied.mp h).1 (Nat.lt_irrefl v)]
  · rfl

/-- A page that is copied takes a frame of its own. -/
theorem need_lt_succ {d : Pgdir} {v : ℕ} (hL : (d.ent v).LAZY = false) :
    need d v < need d (v + 1) := by
  rw [need_succ, if_pos hL, need]
  omega

/-- The first page of a page table takes the frame of the table. -/
theorem need_add_succ {d : Pgdir} {v : ℕ} (hv : v < UPAGES) (hmod : v % 1024 = 0) :
    need d (v + 1) = need d v + 1 + if (d.ent v).LAZY = false then 1 else 0 := by
  rw [UPAGES_eq] at hv
  rw [need_succ, need]
  omega

/-- The child `c` of `d` after the pages below `v`, where `c₀` is the directory it started from and
`m` the memory of the parent. -/
structure Child (d : Pgdir) (m : ℕ → Page) (c₀ : Pgdir) (v : ℕ) (s : Phys Kmem) (c : Pgdir) :
    Prop where
  has : ∀ i, c.has i ↔ i ∈ kernelTables ∨ ∃ w < v, w / 1024 = i
  marked : ∀ w < v, (d.ent w).LAZY = true → c.ent w = lazyPte (c₀.ent w)
  copy : ∀ w < v, (d.ent w).LAZY = false → w < UPAGES ∧
    (c.ent w).toFlags = (d.ent w).toFlags ∧ s.mem (c.ent w).ppn = m (d.ent w).ppn
  high : ∀ w, v ≤ w → c.ent w = c₀.ent w

/-- The page tables of the child. -/
theorem Child.numTables {d c₀ c : Pgdir} {m : ℕ → Page} {v : ℕ} {s : Phys Kmem}
    (h : Child d m c₀ v s c) (hv : v ≤ UPAGES + 257) :
    c.numTables = 64 + min ((v + 1023) / 1024) 512 := by
  rw [UPAGES_eq] at hv
  have hdisj : Disjoint kernelTables (Finset.range (min ((v + 1023) / 1024) 512)) := by
    refine Finset.disjoint_left.mpr fun i h₁ h₂ => ?_
    rw [Finset.mem_range] at h₂
    exact not_mem_kernelTables (by omega) h₁
  rw [Pgdir.numTables_eq (kernelTables ∪ Finset.range (min ((v + 1023) / 1024) 512)),
    Finset.card_union_of_disjoint hdisj, card_kernelTables, Finset.card_range]
  · refine Finset.union_subset kernelTables_subset fun i hi => ?_
    rw [Finset.mem_range] at hi ⊢
    rw [NPDENTRIES]
    omega
  · intro i
    rw [h.has, Finset.mem_union, Finset.mem_range, mem_kernelTables]
    constructor
    · rintro (hi | ⟨w, hw, rfl⟩)
      · exact Or.inl hi
      · omega
    · rintro (hi | hi)
      · exact Or.inl hi
      · exact Or.inr ⟨i * 1024, by omega, by omega⟩

/-- What holds after the pages below `v`. -/
structure Copying [Layout] (r : Ledger ℕ) (s₀ : Phys Kmem) (d c₀ : Pgdir) (v : ℕ) (s : Phys Kmem)
    (c : Pgdir) : Prop where
  acct : Acct InRange s.kmem (r + c.holds)
  keeps : Keeps r s₀ s
  oom : s.oom = s₀.oom
  covered : ∀ w < v, Covered (d.ent w)
  child : Child d s₀.mem c₀ v s c
  len : s.free.length + need d v = s₀.free.length

section Loop

variable [Layout] {r : Ledger ℕ} {s₀ s : Phys Kmem} {d c₀ c : Pgdir} {v : ℕ}

/-- The child with the page table of `v`. -/
theorem Copying.has_next {c' : Pgdir} (h : Copying r s₀ d c₀ v s c)
    (hhas : ∀ i, c'.has i ↔ c.has i ∨ i = v / 1024) (i : ℕ) :
    c'.has i ↔ i ∈ kernelTables ∨ ∃ w < v + 1, w / 1024 = i := by
  rw [hhas, h.child.has]
  constructor
  · rintro ((hi | ⟨w, hw, hi⟩) | hi)
    · exact Or.inl hi
    · exact Or.inr ⟨w, by omega, hi⟩
    · exact Or.inr ⟨v, Nat.lt_succ_self v, hi.symm⟩
  · rintro (hi | ⟨w, hw, hi⟩)
    · exact Or.inl (Or.inl hi)
    · by_cases hwv : w = v
      · exact Or.inr (hwv ▸ hi.symm)
      · exact Or.inl (Or.inr ⟨w, by omega, hi⟩)

/-- The frames left after page `v`. -/
theorem Copying.len_next {s' : Phys Kmem} {c' : Pgdir} {n : ℕ} (h : Copying r s₀ d c₀ v s c)
    (hv : v < UPAGES + 257) (hc : Child d s₀.mem c₀ (v + 1) s' c')
    (hn : n = if (d.ent v).LAZY = false then 1 else 0)
    (hlen : s'.free.length + c'.numTables + n = s.free.length + c.numTables) :
    s'.free.length + need d (v + 1) = s₀.free.length := by
  have h₁ := h.child.numTables (le_of_lt hv)
  have h₂ := hc.numTables hv
  have h₃ := h.len
  rw [need] at h₃
  rw [need_succ, ← hn]
  omega

/-- A lazy page is marked in the child. -/
theorem Copying.mark {s' : Phys Kmem} {c₁ : Pgdir} (h : Copying r s₀ d c₀ v s c)
    (hv : v < UPAGES + 257) (hz : ∀ w < UPAGES, c₀.ent w = Pte.zero)
    (hL : (d.ent v).LAZY = true) (hext : c.Ext c₁) (hhas : c₁.has (v / 1024))
    (honly : ∀ i, c₁.has i → c.has i ∨ i = v / 1024) (ha : Acct InRange s'.kmem (r + c₁.holds))
    (hm : s'.mem = s.mem) (ho : s'.oom = s.oom)
    (hlen : s'.free.length + c₁.numTables = s.free.length + c.numTables) :
    Copying r s₀ d c₀ (v + 1) s' (markLazy c₁ (v * 4096)) := by
  have hlt := hv
  rw [UPAGES_eq] at hlt
  have hr := @markLazy_replaced c₁ (v * 4096) v (by omega) (by omega) hhas
  have hcv : c₁.ent v = c₀.ent v := by rw [hext.ent, h.child.high v (le_refl v)]
  have hnum : (markLazy c₁ (v * 4096)).numTables = c₁.numTables := by
    rw [markLazy, Pgdir.numTables_store, Pgdir.numTables_store]
  have hsame : (markLazy c₁ (v * 4096)).holds = c₁.holds := by
    refine hr.holds_same ((Nat.lt_or_ge v UPAGES).symm.imp_right fun hlow => ⟨?_, rfl⟩)
    rw [hcv, hz v hlow]
    rfl
  have hchild : Child d s₀.mem c₀ (v + 1) s' (markLazy c₁ (v * 4096)) := by
    refine ⟨h.has_next fun i => ?_, fun w hw hLw => ?_, fun w hw hLw => ?_, fun w hw => ?_⟩
    · rw [hr.has]
      refine ⟨honly i, ?_⟩
      rintro (hi | rfl)
      · exact hext.has i hi
      · exact hhas
    · rw [hr.ent]
      split
      · rename_i hwv
        rw [hcv, hwv]
      · rw [hext.ent]
        exact h.child.marked w (by omega) hLw
    · have hwv : w ≠ v := fun e => by
        rw [e, hL] at hLw
        cases hLw
      rw [hr.ent, if_neg hwv, hext.ent, hm]
      exact h.child.copy w (by omega) hLw
    · rw [hr.ent, if_neg (by omega), hext.ent]
      exact h.child.high w (by omega)
  refine ⟨by rwa [hsame], h.keeps.trans (.of_mem_eq hm), ho.trans h.oom, fun w hw => ?_, hchild,
    h.len_next hv hchild (n := 0) (by simp [hL])
      (by rw [hnum, Nat.add_zero, hlen])⟩
  by_cases hwv : w = v
  · exact Or.inr (hwv ▸ hL)
  · exact h.covered w (by omega)

/-- A present page is copied to the frame `mem`. -/
theorem Copying.copy {s' : Phys Kmem} {c₁ : Pgdir} {mem : ℕ} (h : Copying r s₀ d c₀ v s c)
    (hv : v < UPAGES) (hz : ∀ w < UPAGES, c₀.ent w = Pte.zero)
    (hL : (d.ent v).LAZY = false) (hP : (d.ent v).P = true) (hr : r (d.ent v).ppn ≠ 0)
    (hmem : (r + c.holds) mem = 0) (hext : c.Ext c₁) (hhas : c₁.has (v / 1024))
    (honly : ∀ i, c₁.has i → c.has i ∨ i = v / 1024)
    (ha : Acct InRange s'.kmem (r + (c₁.holds + shared mem)))
    (hm : s'.mem = (s.fill mem (s.mem (d.ent v).ppn)).mem) (ho : s'.oom = s.oom)
    (hlen : s'.free.length + c₁.numTables + 1 = s.free.length + c.numTables) :
    Copying r s₀ d c₀ (v + 1) s'
      (c₁.store (v * 4096) { (d.ent v).toFlags with ppn := mem, P := true }) := by
  have hlt := hv
  rw [UPAGES_eq] at hlt
  set e : Pte := { (d.ent v).toFlags with ppn := mem, P := true } with he
  have hrep : Replaced c₁ (c₁.store (v * 4096) e) v e :=
    (Replaced.refl c₁ v).store (by omega) (by omega) hhas
  have hcv : c₁.ent v = Pte.zero := by rw [hext.ent, h.child.high v (le_refl v), hz v hv]
  have hholds := hrep.holds hv
  rw [hcv, Pgdir.pteHold_zero, add_zero, Pgdir.pteHold_of_P rfl] at hholds
  have hflags : e.toFlags = (d.ent v).toFlags := by
    rw [he, ← hP]
  have hrmem : r mem = 0 := by
    rw [Pi.add_apply, add_eq_zero] at hmem
    exact hmem.1
  have hkeep : ∀ {f : ℕ}, (r + c.holds) f ≠ 0 → s'.mem f = s.mem f := fun {f} hf => by
    have hne : f ≠ mem := fun e => hf (by rw [e, hmem])
    rw [hm, s.fill_mem_ne mem _ hne]
  have hchild : Child d s₀.mem c₀ (v + 1) s' (c₁.store (v * 4096) e) := by
    refine ⟨h.has_next fun i => ?_, fun w hw hLw => ?_, fun w hw hLw => ?_, fun w hw => ?_⟩
    · rw [hrep.has]
      refine ⟨honly i, ?_⟩
      rintro (hi | rfl)
      · exact hext.has i hi
      · exact hhas
    · have hwv : w ≠ v := fun e => by
        rw [e, hL] at hLw
        cases hLw
      rw [hrep.ent, if_neg hwv, hext.ent]
      exact h.child.marked w (by omega) hLw
    · rw [hrep.ent]
      split
      · rename_i hwv
        rw [hwv]
        refine ⟨hv, hflags, ?_⟩
        change s'.mem mem = _
        rw [hm, s.fill_mem_self, h.keeps _ hr]
      · obtain ⟨hup, hfl, hcont⟩ := h.child.copy w (by omega) hLw
        rw [hext.ent]
        refine ⟨hup, hfl, (hkeep ?_).trans hcont⟩
        have hPw : (c.ent w).P = true := by
          rw [hfl]
          exact (h.covered w (by omega)).resolve_right (by rw [hLw]; simp)
        have hpos := Pgdir.refs_uses_pos hup hPw
        rw [← refs_pos, refs_add, Pgdir.holds, refs_add]
        omega
    · rw [hrep.ent, if_neg (by omega), hext.ent]
      exact h.child.high w (by omega)
  refine ⟨by rwa [hholds], h.keeps.trans fun f hf => hkeep fun h0 => hf ?_, ho.trans h.oom,
    fun w hw => ?_, hchild, h.len_next (by rw [UPAGES_eq]; omega) hchild (n := 1) (by simp [hL]) ?_⟩
  · rw [Pi.add_apply, add_eq_zero] at h0
    exact h0.1
  · by_cases hwv : w = v
    · exact Or.inl (hwv ▸ hP)
    · exact h.covered w (by omega)
  · rw [Pgdir.numTables_store]
    exact hlen

/-- With `free` frames, the copy of page `v` is the first one that does not fit. -/
def CopyShort (d : Pgdir) (sz free : ℕ) : Prop :=
  ∃ v < pages sz, (∀ w < v, Covered (d.ent w)) ∧ need d v ≤ free ∧ free < need d (v + 1) ∧
    (d.ent v).LAZY = false

/-- How `copyuvm` can stop at page `v`, with `free` frames for the pages: it is neither present nor
lazy, it is a page of the kernel, or it is lazy and there is no frame for the page table. -/
def CopyStop (d : Pgdir) (sz free : ℕ) (e : Panic) : Prop :=
  ∃ v < pages sz, (∀ w < v, Covered (d.ent w)) ∧ need d v ≤ free ∧
    ((e = .copyuvmExist ∨ e = .copyuvmPresent) ∧ ¬Covered (d.ent v) ∨
      e = .remap ∧ UPAGES ≤ v ∧ (d.ent v).P = true ∨
      e = .nullDeref ∧ v < UPAGES ∧ v % 1024 = 0 ∧ (d.ent v).LAZY = true ∧ need d v = free)

omit [Layout] in
/-- Where the page table of `v` is missing in the child. -/
theorem Child.not_has {m : ℕ → Page} (h : Child d m c₀ v s c) (hv : v < UPAGES + 257)
    (hnot : ¬c.has (v / 1024)) : v < UPAGES ∧ v % 1024 = 0 := by
  rw [h.has, mem_kernelTables] at hnot
  rw [UPAGES_eq] at hv ⊢
  obtain ⟨h₁, h₂⟩ := not_or.mp hnot
  refine ⟨by omega, ?_⟩
  by_contra hmod
  exact h₂ ⟨v - 1, by omega, by omega⟩

/-- The ledger with the claims of the child taken apart. -/
theorem Copying.acct_tables (h : Copying r s₀ d c₀ v s c) :
    Acct InRange s.kmem (r + (excl c.frame + c.uses) + c.tables) := by
  have : r + (excl c.frame + c.uses) + c.tables = r + c.holds := by
    rw [Pgdir.holds]
    abel
  rw [this]
  exact h.acct

/-- One round of the loop of `copyuvm` for a lazy page. -/
theorem copyuvmLoop_lazy {Q : Option Pgdir → Phys Kmem → Prop} {E : Panic → Phys Kmem → Prop}
    (h : Copying r s₀ d c₀ v s c) (hv : v < UPAGES + 257)
    (hz : ∀ w < UPAGES, c₀.ent w = Pte.zero) (hL : (d.ent v).LAZY = true)
    (hnone : ∀ s', v < UPAGES → v % 1024 = 0 → need d v = s₀.free.length → Q none s')
    (hsome : ∀ c₁ s', Copying r s₀ d c₀ (v + 1) s' (markLazy c₁ (v * 4096)) → Q (some c₁) s') :
    wp (walkpgdir c (v * 4096) true) Q E s := by
  have hlt := hv
  rw [UPAGES_eq] at hlt
  have hvv : v * 4096 / 4096 = v := by omega
  refine wp_mono (walkpgdir_ext (by omega) h.acct_tables) (fun res s' h' => ?_)
    fun _ _ h => h.elim
  cases res with
  | none =>
    rw [hvv] at h'
    obtain ⟨-, hfree, hnot⟩ := h'
    obtain ⟨h₁, h₂⟩ := h.child.not_has hv hnot
    refine hnone s' h₁ h₂ ?_
    have := h.len
    rw [hfree, List.length_nil] at this
    omega
  | some c₁ =>
    rw [hvv] at h'
    obtain ⟨hext, hhas, honly, ha, -, hm, ho, hlen⟩ := h'
    refine hsome c₁ s' (h.mark hv hz hL hext hhas honly ?_ hm ho hlen)
    have : r + c₁.holds = r + (excl c.frame + c.uses) + c₁.tables := by
      rw [Pgdir.holds, hext.frame, hext.uses]
      abel
    rwa [this]

/-- The rest of a round for a present page below `KERNBASE`, when `kalloc` has returned `mem`. -/
theorem copyuvmLoop_copy {Q : Pgdir × Bool → Phys Kmem → Prop} {E : Panic → Phys Kmem → Prop}
    {s₁ : Phys Kmem} {mem : ℕ} (h : Copying r s₀ d c₀ v s c) (hv : v < UPAGES)
    (hz : ∀ w < UPAGES, c₀.ent w = Pte.zero) (hL : (d.ent v).LAZY = false)
    (hP : (d.ent v).P = true) (hr : r (d.ent v).ppn ≠ 0) (hmem : (r + c.holds) mem = 0)
    (ha : Acct InRange s₁.kmem (r + c.holds + shared mem)) (hm : s₁.mem = s.mem)
    (ho : s₁.oom = s.oom) (hfree : s.free = mem :: s₁.free)
    (hfail : ∀ s', Acct InRange s'.kmem (r + c.holds + shared mem) → Keeps r s₀ s' →
      s'.oom = true → s₀.free.length < need d (v + 1) → Q (c, false) s')
    (hok : ∀ c' s', Copying r s₀ d c₀ (v + 1) s' c' → Q (c', true) s') :
    wp (mappages c (v * 4096) PGSIZE mem (d.ent v).toFlags) Q E
      (s₁.fill mem (s₁.mem (d.ent v).ppn)) := by
  have hlt := hv
  rw [UPAGES_eq] at hlt
  have hcv : (c.ent v).P = false := by
    rw [h.child.high v (le_refl v), hz v hv]
    rfl
  have hl : ∀ c' : Pgdir, c'.frame = c.frame → c'.uses = c.uses →
      r + c'.holds + shared mem = r + (excl c.frame + c.uses + shared mem) + c'.tables :=
    fun c' h₁ h₂ => by
      rw [Pgdir.holds, h₁, h₂]
      abel
  have ha' : Acct InRange (s₁.fill mem (s₁.mem (d.ent v).ppn)).kmem
      (r + (excl c.frame + c.uses + shared mem) + c.tables) := by
    rw [← hl c rfl rfl]
    exact ha
  refine wp_mono (mappages_page_spec (by omega) ha' hcv) (fun res s' h' => ?_) fun _ _ h => h.elim
  obtain ⟨hacct, -, hm', hyes, hno⟩ := h'
  obtain ⟨c', ok⟩ := res
  dsimp only at hacct hyes hno
  cases ok with
  | false =>
    obtain ⟨rfl, ho', hfree', hnot⟩ := hno rfl
    have hmod := (h.child.not_has (by rw [UPAGES_eq]; omega) hnot).2
    refine hfail s' (by rw [hl c' rfl rfl]; exact hacct) (h.keeps.trans fun f hf => ?_) ho' ?_
    · have hne : f ≠ mem := fun e => by
        rw [Pi.add_apply, add_eq_zero] at hmem
        exact hf (e ▸ hmem.1)
      rw [hm', s₁.fill_mem_ne mem _ hne, hm]
    · have hlen := h.len
      have hnil : s₁.free = [] := hfree'
      rw [hfree, hnil, List.length_singleton] at hlen
      rw [need_add_succ hv hmod, if_pos hL]
      omega
  | true =>
    obtain ⟨ho', hlen, c₁, hext, hhas, honly, rfl⟩ := hyes rfl
    rw [Pgdir.tables_store] at hacct
    rw [Pgdir.numTables_store] at hlen
    refine hok _ s' (h.copy hv hz hL hP hr hmem hext hhas honly ?_ ?_ (ho'.trans ho) ?_)
    · rw [← add_assoc, hl c₁ hext.frame hext.uses]
      exact hacct
    · rw [hm', hm, Phys.fill, Phys.fill, hm]
    · rw [hlen, hfree]
      change s₁.free.length + c.numTables + 1 = (s₁.free.length + 1) + c.numTables
      omega

/-- The loop of `copyuvm` from page `v` on. -/
theorem copyuvmLoop_spec {sz : ℕ} (hpg : pages sz ≤ UPAGES + 257)
    (hz : ∀ w < UPAGES, c₀.ent w = Pte.zero) (hk : c₀.KernelOk)
    (hr : ∀ w < UPAGES, (d.ent w).P = true → r (d.ent w).ppn ≠ 0) :
    ∀ {fuel v : ℕ} {s : Phys Kmem} {c : Pgdir}, pages sz - v < fuel → v ≤ pages sz →
    Copying r s₀ d c₀ v s c →
    wp (copyuvmLoop d sz fuel c (v * 4096)) (fun res s' =>
      (res.1 = true ∧ Copying r s₀ d c₀ (pages sz) s' res.2) ∨
      (res.1 = false ∧ CopyShort d sz s₀.free.length ∧ Acct InRange s'.kmem (r + res.2.holds) ∧
        Keeps r s₀ s' ∧ s'.oom = true))
      (fun e _ => CopyStop d sz s₀.free.length e) s := by
  have hlt := hpg
  rw [UPAGES_eq] at hlt
  intro fuel
  induction fuel with
  | zero => intro v s c h; exact absurd h (Nat.not_lt_zero _)
  | succ fuel ih =>
    intro v s c hfuel hv hC
    have hsz : v * 4096 < sz ↔ v < pages sz := by
      simp only [pages]
      omega
    unfold copyuvmLoop
    by_cases hv' : v < pages sz
    swap
    · obtain rfl : v = pages sz := by omega
      rw [if_neg (by rwa [hsz])]
      exact Or.inl ⟨rfl, hC⟩
    rw [if_pos (hsz.mpr hv')]
    have hnext : uint (v * 4096 + PGSIZE) = (v + 1) * 4096 := by
      simp only [uint, PGSIZE]
      omega
    have hle : need d v ≤ s₀.free.length := by
      rw [← hC.len]
      exact Nat.le_add_left ..
    have hgo : ∀ {s' : Phys Kmem} {c' : Pgdir}, Copying r s₀ d c₀ (v + 1) s' c' → _ :=
      fun h => ih (by omega) hv' h
    by_cases hhas : d.has (v / 1024)
    swap
    · have hnot : ¬d.has (v * 4096 / 4096 / 1024) := by rwa [show v * 4096 / 4096 = v by omega]
      rw [Pgdir.find_of_not_has (by omega) hnot]
      refine ⟨v, hv', hC.covered, hle, Or.inl ⟨Or.inl rfl, ?_⟩⟩
      rw [Pgdir.ent_of_not_has hhas]
      rintro (h | h) <;> cases h
    rw [Pgdir.find_page (by omega) hhas]
    dsimp only
    cases hL : (d.ent v).LAZY with
    | true =>
      simp only [Bool.not_true, Bool.false_eq_true, if_false, wp_bind, hnext]
      refine copyuvmLoop_lazy hC (by omega) hz hL (fun s' h₁ h₂ h₃ => ?_) fun c₁ s' h => hgo h
      exact ⟨v, hv', hC.covered, hle, Or.inr (Or.inr ⟨rfl, h₁, h₂, hL, h₃⟩)⟩
    | false =>
      simp only [Bool.not_false, if_true]
      by_cases hP : (d.ent v).P = true
      swap
      · rw [if_pos (by simpa using hP)]
        refine ⟨v, hv', hC.covered, hle, Or.inl ⟨Or.inr rfl, ?_⟩⟩
        rintro (h | h)
        · exact hP h
        · rw [hL] at h
          cases h
      rw [if_neg (by simpa using hP)]
      simp only [wp_bind]
      refine wp_mono (LawfulKalloc.kalloc_spec hC.acct) (fun res s₁ h₁ => ?_) fun _ _ h => h.elim
      cases res with
      | none =>
        obtain ⟨rfl, hfree⟩ := h₁
        have hnil : s.free = [] := hfree
        have hlen := hC.len
        rw [hnil, List.length_nil] at hlen
        have := need_lt_succ (d := d) hL
        exact Or.inr ⟨rfl, ⟨v, hv', hC.covered, hle, by omega, hL⟩, hC.acct,
          hC.keeps.trans (.of_mem_eq rfl), rfl⟩
      | some mem =>
        obtain ⟨hmem, hacct, hm₁, ho₁, hfree⟩ := h₁
        simp only [wp_bind, wp_modify, hnext]
        rcases Nat.lt_or_ge v UPAGES with hup | hup
        swap
        · refine (mappages_remap (by omega) ?_).mpr ?_
          · rw [hC.child.high v (le_refl v)]
            exact ((hk v hup).2.2.2 (by omega)).1
          · exact ⟨v, hv', hC.covered, hle, Or.inr (Or.inl ⟨rfl, hup, hP⟩)⟩
        refine copyuvmLoop_copy hC hup hz hL hP (hr v hup hP) hmem
          (hacct _ (isClaim_shared mem)) hm₁ ho₁ hfree (fun s' ha hk' ho hshort => ?_)
          fun c' s' h => ?_
        · simp only [Bool.false_eq_true, if_false, wp_bind, wp_pure]
          refine wp_mono (LawfulKalloc.kfree_spec (isClaim_shared mem) ha) (fun _ s'' h'' => ?_)
            fun _ _ h => h.elim
          exact Or.inr ⟨trivial, ⟨v, hv', hC.covered, hle, hshort, hL⟩, h''.1,
            hk'.trans h''.2.1.left, h''.2.2.2.trans ho⟩
        · simp only [if_true]
          exact hgo h

/-- What `copyuvm` does for the directory `d` of a process of size `sz`. The kernel's part of the
child takes 65 frames. -/
inductive CopyEffect (d : Pgdir) (sz : ℕ) (r : Ledger ℕ) (s : Phys Kmem) :
    Option Pgdir × Pgdir → Phys Kmem → Prop
  | copied {c₀ c : Pgdir} {s' : Phys Kmem} (hz : ∀ w < UPAGES, c₀.ent w = Pte.zero)
      (hker : c₀.KernelOk) (hcov : ∀ w < pages sz, Covered (d.ent w))
      (hc : Child d s.mem c₀ (pages sz) s' c) (hk : Keeps (r + d.holds) s s')
      (ho : s'.oom = s.oom) (hlen : s'.free.length + need d (pages sz) + 65 = s.free.length) :
      CopyEffect d sz r s (some c, d) s'
  | failed {s' : Phys Kmem}
      (hshort : s.free.length < 65 ∨ ∃ n, s.free.length = n + 65 ∧ CopyShort d sz n)
      (hk : Keeps (r + d.holds) s s') (ho : s'.oom = true) : CopyEffect d sz r s (none, d) s'

theorem copyuvm_spec {sz : ℕ} (hpg : pages sz ≤ UPAGES + 257)
    (ha : Acct InRange s.kmem (r + d.holds)) :
    wp (copyuvm d sz) (fun res s' => CopyEffect d sz r s res s' ∧
      Acct InRange s'.kmem (r + res.2.holds + res.1.elim 0 Pgdir.holds))
      (fun e _ => ∃ n, s.free.length = n + 65 ∧ CopyStop d sz n e) s := by
  have hlt := hpg
  rw [UPAGES_eq] at hlt
  unfold copyuvm
  simp only [wp_bind]
  refine wp_mono (setupkvm_spec ha) (fun res s₁ h => ?_) fun _ _ h => h.elim
  cases res with
  | none =>
    obtain ⟨ha₁, hk₁, ho₁, hlen⟩ := h
    refine ⟨.failed (Or.inl hlen) hk₁ ho₁, ?_⟩
    rw [Option.elim_none, add_zero]
    exact ha₁
  | some c₀ =>
    obtain ⟨ha₁, -, hm₁, ho₁, hz, hker, hlen, hhas⟩ := h
    have hstart : Copying (r + d.holds) s₁ d c₀ 0 s₁ c₀ := by
      refine ⟨ha₁, .refl _ _, rfl, fun w hw => absurd hw (Nat.not_lt_zero w), ⟨fun i => ?_,
        fun w hw => absurd hw (Nat.not_lt_zero w), fun w hw => absurd hw (Nat.not_lt_zero w),
        fun w _ => rfl⟩, by rw [need_zero, Nat.add_zero]⟩
      rw [hhas]
      refine ⟨Or.inl, fun h => h.resolve_right ?_⟩
      rintro ⟨w, hw, -⟩
      exact Nat.not_lt_zero w hw
    have hr : ∀ w < UPAGES, (d.ent w).P = true → (r + d.holds) (d.ent w).ppn ≠ 0 := by
      intro w hw hP
      have := Pgdir.refs_uses_pos hw hP
      rw [← refs_pos, refs_add, Pgdir.holds, refs_add]
      omega
    have hloop : wp (copyuvmLoop d sz loopFuel c₀ (0 * 4096)) _ _ s₁ :=
      copyuvmLoop_spec hpg hz hker hr (by simp only [loopFuel]; omega) (Nat.zero_le _) hstart
    rw [Nat.zero_mul] at hloop
    simp only [wp_bind]
    refine wp_mono hloop (fun res s₂ h => ?_) fun e _ he => ⟨_, hlen, he⟩
    obtain ⟨ok, c⟩ := res
    rcases h with ⟨hok, hC⟩ | ⟨hok, hshort, ha₂, hk₂, ho₂⟩
    · dsimp only at hok hC ⊢
      rw [if_pos hok]
      have hchild := hC.child
      rw [hm₁] at hchild
      refine ⟨.copied hz hker hC.covered hchild ?_ (hC.oom.trans ho₁) ?_, ?_⟩
      · exact (Keeps.of_mem_eq hm₁).trans hC.keeps
      · rw [hlen, hC.len]
      · rw [Option.elim_some]
        exact hC.acct
    · dsimp only at hok ha₂ ⊢
      rw [if_neg (by rw [hok]; simp)]
      simp only [wp_bind, wp_pure]
      refine wp_mono (freevm_spec ha₂) (fun _ s₃ h₃ => ?_) fun _ _ h => h.elim
      obtain ⟨ha₃, hk₃, ho₃⟩ := h₃
      refine ⟨.failed (Or.inr ⟨_, hlen, hshort⟩)
        ((Keeps.of_mem_eq hm₁).trans (hk₂.trans hk₃)) (ho₃.trans ho₂), ?_⟩
      rw [Option.elim_none, add_zero]
      exact ha₃

end Loop

end OsLabs.Lazy
