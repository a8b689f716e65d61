import OsLabs.Base.Kalloc
import OsLabs.Xv6.Access

/-!
# Lazily mapped memory

The tree with `mmap`. The system call only marks entries with `PTE_LAZY`; the first access to such
a page faults, and the fault handler gives it a frame. `copyuvm` copies present pages and marks the
lazy ones in the child.

* the code: `sys_mmap`, the page-fault branch `pgflt`, `copyuvm` and the page counters;
* `Marked`: what marking a range of pages does to a directory;
* `pgflt_spec`, with the outcomes listed in `FaultEffect`.

`sys_mmap` checks neither its argument against the size of the address space nor the pointers that
`walkpgdir` returns. It can mark entries of the kernel's part; a run ends where the mapping of the
kernel's own text, from `KERNLINK` on, is lost that way.
-/

namespace OsLabs.Lazy

open Xv6 StateError Ledger
open Base (Kmem)

section Code

variable [Layout]

/-- Clear `PTE_P`, then set `PTE_LAZY`. -/
def markLazy (pgdir : Pgdir) (va : ℕ) : Pgdir :=
  let pte := pgdir.deref va
  (pgdir.store va { pte with P := false }).store va { pte with P := false, LAZY := true }

/-- A missing page table counts as not lazy. -/
def check_if_lazy_or_not (pgdir : Pgdir) (va : ℕ) : Bool :=
  match pgdir.find va with
  | none => false
  | some pte => pte.LAZY

def remove_lazy_bit (pgdir : Pgdir) (va : ℕ) : K Kmem Pgdir :=
  match pgdir.find va with
  | none => throw .nullDeref
  | some pte => return pgdir.store va { pte with LAZY := false }

/-- The page-fault branch of `trap`; the result of `allocuvm` is not looked at. -/
def pgflt (pgdir : Pgdir) (va : ℕ) : K Kmem (Option Pgdir) :=
  if check_if_lazy_or_not pgdir va then do
    let r ← allocuvm pgdir (PGROUNDDOWN va) (uint (PGROUNDDOWN va + PGSIZE))
    let d ← remove_lazy_bit r.2 va
    return some d
  else return none

/-- The loop of `copyuvm` from the address `i` on, with the directory `d` of the child; the flag is
false where the source goes to `bad`. The pointer to the child's entry of a lazy page is used
unchecked. -/
def copyuvmLoop (pgdir : Pgdir) (sz : ℕ) : ℕ → Pgdir → ℕ → K Kmem (Bool × Pgdir)
  | 0, _, _ => throw .hang
  | fuel + 1, d, i =>
    if i < sz then
      match pgdir.find i with
      | none => throw .copyuvmExist
      | some pte =>
        if !pte.LAZY then
          if !pte.P then throw .copyuvmPresent
          else do
            match ← kalloc with
            | none => return (false, d)
            | some mem => do
              modify fun s => s.fill mem (s.mem pte.ppn)
              let r ← mappages d i PGSIZE mem pte.toFlags
              if r.2 then copyuvmLoop pgdir sz fuel r.1 (uint (i + PGSIZE))
              else do
                kfree mem
                return (false, r.1)
        else do
          match ← walkpgdir d i true with
          | none => throw .nullDeref
          | some d => copyuvmLoop pgdir sz fuel (markLazy d i) (uint (i + PGSIZE))
    else return (true, d)

/-- Given a parent's directory, create a copy of it for a child. -/
def copyuvm (pgdir : Pgdir) (sz : ℕ) : K Kmem (Option Pgdir × Pgdir) := do
  match ← setupkvm with
  | none => return (none, pgdir)
  | some d => do
    let r ← copyuvmLoop pgdir sz loopFuel d 0
    if r.1 then return (some r.2, pgdir)
    else do
      freevm r.2
      return (none, pgdir)

/-- `make_mmap_pte_with_present_bit_zero_and_set_lazy_bit_one`; the pointer that `walkpgdir`
returns is used unchecked. -/
def make_mmap_pte (cur : ProcPtr) (va : ℕ) : KM Kmem Unit := do
  let d ← getPgdir cur
  match ← onPhys (walkpgdir d va true) with
  | none => throw .nullDeref
  | some d => do
    setPgdir cur (some (markLazy d va))
    -- `switchuvm` reloads `cr3`, and the text of the kernel is no longer mapped
    if KERNLINK ≤ va then throw .kernelUnmapped
    else switchuvm cur

/-- The loop of `sys_mmap` from the address `va` on. -/
def mmapLoop (cur : ProcPtr) : ℕ → ℕ → KM Kmem Unit
  | 0, _ => throw .hang
  | fuel + 1, va => do
    if va < ((← get).proc cur).sz then do
      make_mmap_pte cur va
      mmapLoop cur fuel (uint (va + PGSIZE))
    else return ()

/-- Map `n` bytes behind the end of the process. -/
def sys_mmap (cur : ProcPtr) (n : ℤ) : KM Kmem Result := do
  if argint n < 0 ∨ (argint n).tmod PGSIZE ≠ 0 then return .ret 0
  else do
    let addr := ((← get).proc cur).sz
    setProc cur fun q => { q with sz := addInt q.sz (argint n) }
    mmapLoop cur loopFuel addr
    return .ret addr

/-- The lazy tree. -/
def tree : Xv6.Tree Kmem where
  copyuvm := copyuvm
  reload := false
  pgflt := pgflt
  switch := true
  mmap := sys_mmap

/-- Whether the page of `va` is present; the pointer that `walkpgdir` returns is used unchecked. -/
def present_or_not (cur : ProcPtr) (va : ℕ) : KM Kmem Bool := do
  let d ← getPgdir cur
  match d.find va with
  | none => throw .nullDeref
  | some pte => return pte.P

/-- `get_count_of_virtual_pages_of_current_process` -/
def numvp (cur : ProcPtr) : KM Kmem ℕ := do
  return ((← get).proc cur).sz / PGSIZE

/-- The loop of `numpp` from the address `addr` on. -/
def numppLoop (cur : ProcPtr) : ℕ → ℕ → ℕ → KM Kmem ℕ
  | 0, _, _ => throw .hang
  | fuel + 1, addr, count => do
    if addr < ((← get).proc cur).sz then do
      if ← present_or_not cur addr then numppLoop cur fuel (uint (addr + PGSIZE)) (count + 1)
      else numppLoop cur fuel (uint (addr + PGSIZE)) count
    else return count

/-- `get_count_of_physical_pages_of_current_process` -/
def numpp (cur : ProcPtr) : KM Kmem ℕ := numppLoop cur loopFuel 0 0

end Code

/-! ## Marked pages -/

/-- An entry after it has been marked. -/
def lazyPte (e : Pte) : Pte := { e with P := false, LAZY := true }

theorem markLazy_replaced {d : Pgdir} {va v : ℕ} (hva : va < 2 ^ 32) (hv : va / 4096 = v)
    (hd : d.has (v / 1024)) : Replaced d (markLazy d va) v (lazyPte (d.ent v)) := by
  have hder : d.deref va = d.ent v := by rw [Pgdir.deref_of_has hva (by rwa [hv]), hv]
  unfold markLazy
  rw [hder]
  exact ((Replaced.refl d v).store hva hv hd).store hva hv ((Pgdir.has_store _).mpr hd)

/-- `d'` is `d` with the pages `lo ≤ w < hi` marked; their page tables are there. -/
structure Marked (d d' : Pgdir) (lo hi : ℕ) : Prop where
  frame : d'.frame = d.frame
  has : ∀ i, d'.has i ↔ d.has i ∨ ∃ w, lo ≤ w ∧ w < hi ∧ w / 1024 = i
  ent : ∀ w, d'.ent w = if lo ≤ w ∧ w < hi then lazyPte (d.ent w) else d.ent w

/-- The indexes of the page tables that marking the pages `lo ≤ w < hi` adds. -/
def missing (d : Pgdir) (lo hi : ℕ) : Finset ℕ :=
  ((Finset.Ico lo hi).image (· / 1024)).filter fun i => (d.pde i).isNone

theorem mem_missing {d : Pgdir} {lo hi i : ℕ} :
    i ∈ missing d lo hi ↔ (∃ w, lo ≤ w ∧ w < hi ∧ w / 1024 = i) ∧ ¬d.has i := by
  simp only [missing, Finset.mem_filter, Finset.mem_image, Finset.mem_Ico, Pgdir.has, ne_eq,
    not_not, Option.isNone_iff_eq_none, and_assoc]

theorem card_missing_le (d : Pgdir) (lo hi : ℕ) : (missing d lo hi).card ≤ hi - lo := by
  refine (Finset.card_filter_le _ _).trans (Finset.card_image_le.trans ?_)
  rw [Nat.card_Ico]

theorem card_missing_le_tables {d : Pgdir} {lo hi : ℕ} (hhi : hi ≤ 2 ^ 20) :
    (missing d lo hi).card ≤ NPDENTRIES := by
  have hsub : missing d lo hi ⊆ Finset.range NPDENTRIES := fun i hi' => by
    obtain ⟨⟨w, -, hw, rfl⟩, -⟩ := mem_missing.mp hi'
    rw [Finset.mem_range, NPDENTRIES]
    omega
  exact (Finset.card_le_card hsub).trans (le_of_eq (Finset.card_range _))

namespace Marked

variable {d d' d₁ : Pgdir} {lo hi v : ℕ}

theorem refl (d : Pgdir) (v : ℕ) : Marked d d v v := by
  refine ⟨rfl, fun i => ⟨Or.inl, fun h => ?_⟩, fun w => ?_⟩
  · rcases h with h | ⟨w, h₁, h₂, -⟩
    · exact h
    · omega
  · rw [if_neg (by omega)]

theorem flush (h : Marked d d' lo hi) : Marked d d'.flush lo hi := ⟨h.frame, h.has, h.ent⟩

/-- One page further. -/
theorem next {va : ℕ} (h : Marked d d' lo v) (hlo : lo ≤ v) (hva : va < 2 ^ 32)
    (hv : va / 4096 = v) (hext : d'.Ext d₁) (hhas : d₁.has (v / 1024))
    (honly : ∀ i, d₁.has i → d'.has i ∨ i = v / 1024) : Marked d (markLazy d₁ va) lo (v + 1) := by
  have hr := markLazy_replaced hva hv hhas
  refine ⟨hr.frame.trans (hext.frame.trans h.frame), fun i => ?_, fun w => ?_⟩
  · rw [hr.has]
    constructor
    · intro hi
      rcases honly i hi with hi | rfl
      · exact ((h.has i).mp hi).imp_right fun ⟨w, h₁, h₂, h₃⟩ => ⟨w, h₁, by omega, h₃⟩
      · exact Or.inr ⟨v, hlo, Nat.lt_succ_self v, rfl⟩
    · rintro (hi | ⟨w, h₁, h₂, rfl⟩)
      · exact hext.has i ((h.has i).mpr (Or.inl hi))
      · by_cases hwv : w = v
        · rw [hwv]
          exact hhas
        · exact hext.has _ ((h.has _).mpr (Or.inr ⟨w, h₁, by omega, rfl⟩))
  · have hout : d₁.ent v = d.ent v := by rw [hext.ent, h.ent, if_neg (by omega)]
    rw [hr.ent]
    by_cases hwv : w = v
    · rw [if_pos hwv, if_pos (by omega), hwv, hout]
    · have : lo ≤ w ∧ w < v + 1 ↔ lo ≤ w ∧ w < v := by omega
      simp only [if_neg hwv, hext.ent, h.ent, this]

/-- The page tables that are new. -/
theorem numTables (h : Marked d d' lo hi) (hhi : hi ≤ 2 ^ 20) :
    d'.numTables = d.numTables + (missing d lo hi).card := by
  have hsome : ∀ (d : Pgdir) (i : ℕ), (d.pde i).isSome = true ↔ d.has i := fun _ _ =>
    Option.isSome_iff_ne_none
  rw [Pgdir.numTables, Pgdir.numTables, ← Finset.card_union_of_disjoint]
  · refine congrArg Finset.card (Finset.ext fun i => ?_)
    simp only [Finset.mem_union, Finset.mem_filter, Finset.mem_range, mem_missing, hsome, h.has,
      NPDENTRIES]
    constructor
    · rintro ⟨hi, hd | hw⟩
      · exact Or.inl ⟨hi, hd⟩
      · by_cases hd : d.has i
        · exact Or.inl ⟨hi, hd⟩
        · exact Or.inr ⟨hw, hd⟩
    · rintro (⟨hi, hd⟩ | ⟨⟨w, h₁, h₂, rfl⟩, -⟩)
      · exact ⟨hi, Or.inl hd⟩
      · exact ⟨by omega, Or.inr ⟨w, h₁, h₂, rfl⟩⟩
  · refine Finset.disjoint_left.mpr fun i hi hm => ?_
    exact (mem_missing.mp hm).2 ((hsome d i).mp (Finset.mem_filter.mp hi).2)

end Marked

/-! ## The page-fault handler -/

section Fault

variable [Layout] {r : Ledger ℕ} {s : Phys Kmem} {d : Pgdir} {v va : ℕ}

omit [Layout] in
/-- A loop over one page has two rounds. -/
theorem exists_loopFuel : ∃ fuel, loopFuel = fuel + 2 :=
  ⟨2 ^ 20 - 1, by simp only [loopFuel]; omega⟩

/-- `deallocuvm` over a single page that is not present. -/
theorem deallocuvm_absent (hv : v + 1 < UPAGES) (hhas : d.has (v / 1024))
    (hP : (d.ent v).P = false) {Q : ℕ × Pgdir → Phys Kmem → Prop} {E : Panic → Phys Kmem → Prop} :
    wp (deallocuvm d ((v + 1) * 4096) (v * 4096)) Q E s ↔ Q (v * 4096, d) s := by
  rw [UPAGES_eq] at hv
  have hround : PGROUNDUP (v * 4096) = v * 4096 := by
    simp only [PGROUNDUP, uint, PGSIZE]
    omega
  have hnext : uint (v * 4096 + PGSIZE) = (v + 1) * 4096 := by
    simp only [uint, PGSIZE]
    omega
  obtain ⟨fuel, hfuel⟩ := exists_loopFuel
  unfold deallocuvm
  rw [if_neg (by omega), hround, hfuel, deallocuvmLoop, if_pos (by omega),
    Pgdir.find_page (by omega) hhas]
  simp only [hP, Bool.false_eq_true, if_false, hnext]
  rw [deallocuvmLoop, if_neg (Nat.lt_irrefl _)]
  simp only [wp_bind, wp_pure]

/-- `allocuvm` for a single page with a page table. -/
theorem allocuvm_page (hv : v + 1 < UPAGES) (hhas : d.has (v / 1024)) (hP : (d.ent v).P = false)
    {Q : ℕ × Pgdir → Phys Kmem → Prop} {E : Panic → Phys Kmem → Prop} :
    wp (allocuvm d (v * 4096) ((v + 1) * 4096)) Q E s ↔
      match s.kmem.freelist with
      | [] => Q (0, d) { s with oom := true }
      | mem :: next => Q ((v + 1) * 4096,
          d.store (v * 4096) { P := true, W := true, U := true, ppn := mem })
          { s.fill mem zeroPage with kmem := ⟨next⟩ } := by
  rw [UPAGES_eq] at hv
  have hround : PGROUNDUP (v * 4096) = v * 4096 := by
    simp only [PGROUNDUP, uint, PGSIZE]
    omega
  have hnext : uint (v * 4096 + PGSIZE) = (v + 1) * 4096 := by
    simp only [uint, PGSIZE]
    omega
  obtain ⟨fuel, hfuel⟩ := exists_loopFuel
  unfold allocuvm
  rw [if_neg (by rw [KERNBASE_eq]; omega), if_neg (by omega), hround, hfuel, allocuvmLoop,
    if_pos (by omega)]
  change wp (Base.kalloc >>= _) Q E s ↔ _
  unfold Base.kalloc
  simp only [wp_bind, wp_get]
  cases hfl : s.kmem.freelist with
  | nil =>
    simp only [wp_bind, wp_set, wp_pure]
    exact deallocuvm_absent (by rw [UPAGES_eq]; omega) hhas hP
  | cons mem next =>
    simp only [wp_bind, wp_set, wp_pure, wp_modify]
    refine (mappages_has (by omega) hhas hP).trans ?_
    dsimp only
    rw [if_pos rfl, hnext, allocuvmLoop, if_neg (Nat.lt_irrefl _), wp_pure]
    rfl

/-- `allocuvm` for a page that ends at or above `KERNBASE`. -/
theorem allocuvm_beyond (hv : UPAGES ≤ v + 1) :
    ∃ n, (allocuvm d (v * 4096) (uint (v * 4096 + PGSIZE)) : K Kmem _) = pure (n, d) := by
  rw [UPAGES_eq] at hv
  unfold allocuvm
  by_cases hbig : uint (v * 4096 + PGSIZE) ≥ KERNBASE
  · rw [if_pos hbig]
    exact ⟨0, rfl⟩
  · -- the new size has wrapped around
    have hless : uint (v * 4096 + PGSIZE) < v * 4096 := by
      simp only [uint, PGSIZE, KERNBASE] at hbig ⊢
      omega
    rw [if_neg hbig, if_pos hless]
    exact ⟨v * 4096, rfl⟩

/-- What the handler does for the lazy page `v` of `d`, beside the ledger `r`. -/
inductive FaultEffect (d : Pgdir) (v : ℕ) (r : Ledger ℕ) (s : Phys Kmem) :
    Pgdir → Phys Kmem → Prop
  /-- The page gets a zeroed frame. -/
  | filled {d' : Pgdir} {mem : ℕ} {s' : Phys Kmem} (hv : v + 1 < UPAGES)
      (hmem : (r + d.holds) mem = 0) (hfree : s.free = mem :: s'.free)
      (hd : Replaced d d' v { P := true, W := true, U := true, ppn := mem })
      (hm : s'.mem = (s.fill mem zeroPage).mem) (ho : s'.oom = s.oom) : FaultEffect d v r s d' s'
  /-- There is no frame; the mark is gone all the same. -/
  | spent {d' : Pgdir} (hv : v + 1 < UPAGES) (hfree : s.free = [])
      (hd : Replaced d d' v { d.ent v with LAZY := false }) :
      FaultEffect d v r s d' { s with oom := true }
  /-- The page ends at or above `KERNBASE`, where `allocuvm` does nothing. -/
  | beyond {d' : Pgdir} (hv : UPAGES ≤ v + 1)
      (hd : Replaced d d' v { d.ent v with LAZY := false }) : FaultEffect d v r s d' s

/-- Whatever happens, one entry is replaced. -/
theorem FaultEffect.replaced {d' : Pgdir} {s' : Phys Kmem} (h : FaultEffect d v r s d' s') :
    ∃ e, Replaced d d' v e := by
  cases h with
  | filled _ _ _ hd => exact ⟨_, hd⟩
  | spent _ _ hd => exact ⟨_, hd⟩
  | beyond _ hd => exact ⟨_, hd⟩

omit [Layout] in
theorem check_eq (hva : va < 2 ^ 32) (hv : va / 4096 = v) :
    check_if_lazy_or_not d va = (d.ent v).LAZY := by
  subst hv
  unfold check_if_lazy_or_not
  by_cases hd : d.has (va / 4096 / 1024)
  · rw [Pgdir.find_of_has hva hd]
  · rw [Pgdir.find_of_not_has hva hd, Pgdir.ent_of_not_has hd]
    rfl

omit [Layout] in
theorem wp_remove_lazy_bit (hva : va < 2 ^ 32) (hv : va / 4096 = v) (hd : d.has (v / 1024))
    {Q : Pgdir → Phys Kmem → Prop} {E : Panic → Phys Kmem → Prop} :
    wp (remove_lazy_bit d va) Q E s ↔ Q (d.store va { d.ent v with LAZY := false }) s := by
  subst hv
  unfold remove_lazy_bit
  rw [Pgdir.find_of_has hva hd]
  rfl

/-- The handler on a lazy page, from what `allocuvm` does for it. -/
theorem wp_pgflt (hva : va < 2 ^ 32) (hv : va / 4096 = v) (hL : (d.ent v).LAZY = true)
    {Q : Option Pgdir → Phys Kmem → Prop} {E : Panic → Phys Kmem → Prop} :
    wp (pgflt d va) Q E s ↔ wp (allocuvm d (v * 4096) (uint (v * 4096 + PGSIZE)))
      (fun r s' => wp (remove_lazy_bit r.2 va) (fun d' s' => Q (some d') s') E s') E s := by
  have hdown : PGROUNDDOWN va = v * 4096 := by rw [PGROUNDDOWN, PGSIZE, hv]
  unfold pgflt
  rw [if_pos ((check_eq hva hv).trans hL), hdown]
  simp only [wp_bind, wp_pure]

theorem pgflt_beyond (hva : va < 2 ^ 32) (hv : va / 4096 = v) (hL : (d.ent v).LAZY = true)
    (hP : (d.ent v).P = false) (hge : UPAGES ≤ v + 1)
    (ha : Acct InRange s.kmem (r + d.holds)) :
    wp (pgflt d va) (fun res s' => ∃ d', res = some d' ∧ FaultEffect d v r s d' s' ∧
      Acct InRange s'.kmem (r + d'.holds)) (fun _ _ => False) s := by
  have hhas : d.has (v / 1024) := Pgdir.has_of_ent_ne fun e => by
    rw [e] at hL
    cases hL
  have hclear : Replaced d (d.store va { d.ent v with LAZY := false }) v
      { d.ent v with LAZY := false } := (Replaced.refl d v).store hva hv hhas
  obtain ⟨n, hsame⟩ := @allocuvm_beyond _ d v hge
  rw [wp_pgflt hva hv hL, hsame, wp_pure, wp_remove_lazy_bit hva hv hhas]
  refine ⟨_, rfl, .beyond hge hclear, ?_⟩
  rw [hclear.holds_same (Or.inr ⟨hP, hP⟩)]
  exact ha

theorem pgflt_within (hva : va < 2 ^ 32) (hv : va / 4096 = v) (hL : (d.ent v).LAZY = true)
    (hP : (d.ent v).P = false) (hlt : v + 1 < UPAGES)
    (ha : Acct InRange s.kmem (r + d.holds)) :
    wp (pgflt d va) (fun res s' => ∃ d', res = some d' ∧ FaultEffect d v r s d' s' ∧
      Acct InRange s'.kmem (r + d'.holds)) (fun _ _ => False) s := by
  have hhas : d.has (v / 1024) := Pgdir.has_of_ent_ne fun e => by
    rw [e] at hL
    cases hL
  have hnext : uint (v * 4096 + PGSIZE) = (v + 1) * 4096 := by
    rw [UPAGES_eq] at hlt
    simp only [uint, PGSIZE]
    omega
  rw [wp_pgflt hva hv hL, hnext, allocuvm_page hlt hhas hP]
  cases hfl : s.kmem.freelist with
  | nil =>
    have hclear : Replaced d (d.store va { d.ent v with LAZY := false }) v
        { d.ent v with LAZY := false } := (Replaced.refl d v).store hva hv hhas
    refine (wp_remove_lazy_bit hva hv hhas).mpr ?_
    refine ⟨_, rfl, .spent hlt hfl hclear, ?_⟩
    rw [hclear.holds_same (Or.inr ⟨hP, hP⟩)]
    exact ha
  | cons mem next =>
    set e : Pte := { P := true, W := true, U := true, ppn := mem } with he
    have hvv : v * 4096 / 4096 = v := by omega
    have hhas₁ : (d.store (v * 4096) e).has (v / 1024) := (Pgdir.has_store _).mpr hhas
    have hr₁ : Replaced d (d.store (v * 4096) e) v e :=
      (Replaced.refl d v).store (by omega) hvv hhas
    have hent : (d.store (v * 4096) e).ent v = e := by rw [hr₁.ent, if_pos rfl]
    refine (wp_remove_lazy_bit hva hv hhas₁).mpr ?_
    rw [hent]
    have hr : Replaced d ((d.store (v * 4096) e).store va e) v e := hr₁.store hva hv hhas₁
    have hh := hr.holds (Nat.lt_of_succ_lt hlt)
    rw [Pgdir.pteHold_of_not_P hP, add_zero, Pgdir.pteHold_of_P rfl] at hh
    -- the frame is the one that `kalloc` returns
    have hkalloc : (Base.kalloc : K Kmem (Option ℕ)) s =
        .ok (some mem) { s with kmem := ⟨next⟩ } := by
      refine eq_ok_of_wp ?_
      unfold Base.kalloc
      simp only [wp_bind, wp_get, hfl, wp_set, wp_pure, and_self]
    obtain ⟨hmem, hacct, -, -, hfree⟩ := of_ok (LawfulKalloc.kalloc_spec ha) hkalloc
    refine ⟨_, rfl, .filled hlt hmem hfree hr rfl rfl, ?_⟩
    rw [hh, ← add_assoc]
    exact hacct _ (isClaim_shared mem)

/-- The handler on a lazy page. -/
theorem pgflt_spec (hva : va < 2 ^ 32) (hv : va / 4096 = v) (hL : (d.ent v).LAZY = true)
    (hP : (d.ent v).P = false) (ha : Acct InRange s.kmem (r + d.holds)) :
    wp (pgflt d va) (fun res s' => ∃ d', res = some d' ∧ FaultEffect d v r s d' s' ∧
      Acct InRange s'.kmem (r + d'.holds)) (fun _ _ => False) s :=
  (Nat.lt_or_ge (v + 1) UPAGES).elim (fun hlt => pgflt_within hva hv hL hP hlt ha)
    fun hge => pgflt_beyond hva hv hL hP hge ha

end Fault

end OsLabs.Lazy
