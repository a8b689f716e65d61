import OsLabs.Lazy.Steps

/-!
# Two counts of physical pages

`numpp` walks the pages below the end of the process; `getpasize` scans the lower half of the page
directory. They agree where no page is present between the end and `KERNBASE`, none in the
kernel's part is counted, and all page tables are there (`Tallied`).

* `getpasize_spec`: `getpasize` returns the number of present pages below `KERNBASE`;
* `numpp_eq_getpasize`: the two agree in every run whose operations meet `KeepsTally`;
* `numpp_ne_getpasize`: `mmap`, `sbrk` down, and an access.
-/

namespace OsLabs.Lazy

open Xv6 StateError Ledger
open Base (Kmem)

/-! ## The code -/

/-- The number of entries of a page table. -/
def NPTENTRIES : ℕ := 1024

/-- The inner loop of `getpasize`, over one page table. -/
def countTable (t : PTable) (count : ℕ) : ℕ :=
  (List.range NPTENTRIES).foldl (fun count i => if (t.pte i).P then count + 1 else count) count

/-- One round of the outer loop. -/
def countPde (d : Pgdir) (count i : ℕ) : ℕ :=
  match d.pde i with
  | none => count
  | some pgtable => countTable pgtable count

/-- The number of present pages of the process with the given pid, or -1. -/
def getpasize (pid : ℕ) : KM Kmem ℤ := do
  match (← get).proc.first (·.pid = pid) with
  | none => return -1
  | some p => do
    let d ← getPgdir p
    return ((List.range (NPDENTRIES / 2)).foldl (countPde d) 0 : ℕ)

section Getpasize

variable {d : Pgdir}

/-- The inner loop counts the pages of one table. -/
theorem countTable_spec {t : PTable} {i : ℕ} (ht : d.pde i = some t) :
    countTable t (present d (1024 * i)).card = (present d (1024 * (i + 1))).card := by
  have hloop : ∀ n ≤ 1024, (List.range n).foldl (fun count j =>
      if (t.pte j).P then count + 1 else count) (present d (1024 * i)).card =
      (present d (1024 * i + n)).card := by
    intro n
    induction n with
    | zero => exact fun _ => rfl
    | succ n ih =>
      intro hn
      have hent : d.ent (1024 * i + n) = t.pte n := by
        have h₁ : (1024 * i + n) / 1024 = i := by omega
        have h₂ : (1024 * i + n) % 1024 = n := by omega
        rw [Pgdir.ent, h₁, h₂, ht]
        rfl
      rw [List.range_succ, List.foldl_append, ih (by omega), ← Nat.add_assoc, card_present_succ,
        hent]
      dsimp only [List.foldl]
      split <;> rfl
  exact hloop 1024 (le_refl _)

/-- A table that is not there has no present pages. -/
theorem card_present_none {i : ℕ} (hi : d.pde i = none) :
    (present d (1024 * (i + 1))).card = (present d (1024 * i)).card := by
  refine congrArg Finset.card (Finset.ext fun v => ?_)
  rw [mem_present, mem_present]
  refine ⟨fun ⟨hv, hP⟩ => ⟨?_, hP⟩, fun ⟨hv, hP⟩ => ⟨by omega, hP⟩⟩
  by_contra hge
  have hdiv : v / 1024 = i := by omega
  rw [Pgdir.ent, hdiv, hi] at hP
  cases hP

/-- The outer loop counts the pages of the tables it has been through. -/
theorem foldl_countPde (n : ℕ) :
    (List.range n).foldl (countPde d) 0 = (present d (1024 * n)).card := by
  induction n with
  | zero => rfl
  | succ n ih =>
    rw [List.range_succ, List.foldl_append, ih]
    dsimp only [List.foldl, countPde]
    split
    · rename_i hn
      exact (card_present_none hn).symm
    · rename_i t ht
      exact countTable_spec ht

/-- `getpasize` of a process, by its pid. -/
theorem getpasize_spec {k : Kernel Kmem} {p : ProcPtr} (h : PidsOk k.proc k.nextpid)
    (hl : k.live p) (hd : k.pgdir p = some d) :
    getpasize (k.proc p).pid k = .ok ((present d UPAGES).card : ℤ) k := by
  have hfirst : k.proc.first (·.pid = (k.proc p).pid) = some p := by
    cases hf : k.proc.first (·.pid = (k.proc p).pid) with
    | none => exact absurd (Table.first_none hf p) (by simp)
    | some q =>
      by_contra hne
      have hpid : (k.proc q).pid = (k.proc p).pid := by simpa using Table.first_some hf
      have hpq : p ≠ q := fun e => hne (by rw [e])
      exact h.ne p q hpq (h.pos p hl).ne' hpid.symm
  refine eq_ok_of_wp ?_
  unfold getpasize
  simp only [wp_bind, wp_get, hfirst, wp_getPgdir hd, wp_pure, foldl_countPde]
  exact ⟨rfl, trivial⟩

end Getpasize

/-! ## Where the two agree -/

/-- No page from the end of the process to `KERNBASE` is present, and none below the end that is
the kernel's; and every page below the end has a page table. -/
structure Tallied (sz : ℕ) (d : Pgdir) : Prop where
  beyond : ∀ v, pages sz ≤ v → v < UPAGES → (d.ent v).P = false
  kernel : ∀ v, UPAGES ≤ v → v < pages sz → (d.ent v).P = false
  tables : ∀ v < pages sz, d.has (v / 1024)

/-- The operation touches no lazy page beyond the end of the process with a frame for it, and is no
`mmap` that wraps around or ends within a page that has no page table or is the kernel's. -/
structure KeepsTally [Layout] (k : Kernel Kmem) (op : Op) (res : Result) : Prop where
  access : ∀ p va d, access? op = some (p, va) → (k.proc p).state = .RUNNING →
    k.pgdir p = some d → pages (k.proc p).sz ≤ va / PGSIZE → (d.ent (va / PGSIZE)).LAZY = true →
    k.phys.free = [] ∨ UPAGES ≤ va / PGSIZE + 1
  wraps : ∀ p n, op = .mmap p n → (k.proc p).state = .RUNNING → argint n % PGSIZE = 0 →
    (k.proc p).sz + argint n < 2 ^ 32
  ends : ∀ (p : ProcPtr) (n : ℤ) (d : Pgdir) (new : ℕ), op = .mmap p n →
    (k.proc p).state = .RUNNING → k.pgdir p = some d → 0 < argint n → argint n % PGSIZE = 0 →
    (new : ℤ) = (k.proc p).sz + argint n → new % PGSIZE ≠ 0 →
    (d.has (new / PGSIZE / 1024) ∨ new / PGSIZE % 1024 ≠ 0) ∧
      (UPAGES ≤ new / PGSIZE → (d.ent (new / PGSIZE)).P = false)

section Tallied

variable [Layout] {x : Ledger ℕ} {k k' : Kernel Kmem} {op : Op} {res : Result} {p q : ProcPtr}
variable {d : Pgdir}

omit [Layout] in
theorem Tallied.image {r : Ledger ℕ} {sz : ℕ} (hsz : sz < KERNBASE)
    (hi : Image r d (pages sz)) : Tallied sz d := by
  have hle := pages_le_UPAGES (le_of_lt hsz)
  refine ⟨fun v h₁ h₂ => ?_, fun v h₁ h₂ => absurd h₂ (by omega),
    fun v hv => Pgdir.has_of_P (hi.low v hv).1⟩
  rw [hi.high v h₁ h₂]
  rfl

theorem Tallied.sbrk {r : Ledger ℕ} {s s' : Phys Kmem} {sz sz' : ℕ} {d' : Pgdir} {n : ℤ}
    (h : Tallied sz d) (he : SbrkEffect r s d sz n res s' sz' d') : Tallied sz' d' := by
  cases he with
  | same => exact ⟨h.beyond, h.kernel, h.tables⟩
  | refused => exact h
  | @grown _ _ d' hpos hnew hlt ho hg =>
    have hle : pages sz ≤ pages sz' := pages_mono (by omega)
    have hup := pages_le_UPAGES (le_of_lt hlt)
    refine ⟨fun v h₁ h₂ => ?_, fun v h₁ h₂ => absurd h₂ (by omega), fun v hv => ?_⟩
    · rw [Pgdir.ent_flush, hg.out v (Or.inr h₁)]
      exact h.beyond v (hle.trans h₁) h₂
    · rcases Nat.lt_or_ge v (pages sz) with hlow | hhigh
      · exact hg.has _ (h.tables v hlow)
      · exact Pgdir.has_of_P (d := d') (by rw [hg.flags v hhigh hv])
  | @failed _ new _ hpos hnew hlt ho hu =>
    refine ⟨fun v h₁ h₂ => ?_, fun v h₁ h₂ => ?_, fun v hv => hu.has _ (h.tables v hv)⟩
    · by_cases hin : v < pages new
      · exact (hu.absent v h₁ hin).1
      · rw [hu.out v (by omega)]
        exact h.beyond v h₁ h₂
    · rw [hu.out v (Or.inl h₂)]
      exact h.kernel v h₁ h₂
  | @shrunk _ _ d₁ hneg hnew hpos ho hc =>
    have hle : pages sz' ≤ pages sz := pages_mono (by omega)
    refine ⟨fun v h₁ h₂ => ?_, fun v h₁ h₂ => ?_, fun v hv =>
      (hc.has _).mpr (h.tables v (hv.trans_le hle))⟩
    · rw [Pgdir.ent_flush, hc.ent]
      split
      · rfl
      · rename_i hno
        rcases Nat.lt_or_ge v (pages sz) with hlow | hhigh
        · simpa using fun hP => hno ⟨h₁, hlow, hP⟩
        · exact h.beyond v hhigh h₂
    · rw [Pgdir.ent_flush, hc.kernel v h₁]
      exact h.kernel v h₁ (h₂.trans_le hle)
  | emptied hneg hz ho hc =>
    refine ⟨fun v h₁ h₂ => ?_, fun v h₁ h₂ => ?_, fun v hv => (hc.has _).mpr (h.tables v hv)⟩
    · rw [hc.ent]
      split
      · rfl
      · exact h.beyond v h₁ h₂
    · rw [hc.kernel v h₁]
      exact h.kernel v h₁ h₂

omit [Layout] in
/-- The pages that the two count. -/
theorem Tallied.present_eq {sz : ℕ} (h : Tallied sz d) :
    present d UPAGES = present d (pages sz) := by
  ext v
  rw [mem_present, mem_present]
  refine ⟨fun ⟨hv, hP⟩ => ⟨by_contra fun hge => ?_, hP⟩,
    fun ⟨hv, hP⟩ => ⟨by_contra fun hge => ?_, hP⟩⟩
  · rw [h.beyond v (Nat.le_of_not_lt hge) hv] at hP
    cases hP
  · rw [h.kernel v (Nat.le_of_not_lt hge) hv] at hP
    cases hP

omit [Layout] in
/-- `mmap` of `m` pages. -/
theorem Tallied.marked {sz m : ℕ} {d' : Pgdir} (h : Tallied sz d)
    (hm : Marked d d' (sz / 4096) (sz / 4096 + m))
    (hend : 0 < m → (sz + m * 4096) % 4096 ≠ 0 →
      (d.has ((sz + m * 4096) / 4096 / 1024) ∨ (sz + m * 4096) / 4096 % 1024 ≠ 0) ∧
        (UPAGES ≤ (sz + m * 4096) / 4096 → (d.ent ((sz + m * 4096) / 4096)).P = false)) :
    Tallied (sz + m * 4096) d' := by
  have hpg : pages (sz + m * 4096) = pages sz + m := by
    simp only [pages]
    omega
  have hold : pages sz = sz / 4096 ∨ pages sz = sz / 4096 + 1 ∧
      (0 < m → (sz + m * 4096) % 4096 ≠ 0) := by
    simp only [pages]
    omega
  have hnew : (sz + m * 4096) / 4096 = sz / 4096 + m := by omega
  rw [hnew] at hend
  -- the page of the new end, where it is neither old nor marked
  have hlast : ∀ v, pages sz ≤ v → v < pages sz + m → ¬(sz / 4096 ≤ v ∧ v < sz / 4096 + m) →
      v = sz / 4096 + m ∧ 0 < m ∧ (sz + m * 4096) % 4096 ≠ 0 := by
    intro v h₁ h₂ h₃
    rcases hold with e | ⟨e, hne⟩
    · omega
    · exact ⟨by omega, by omega, hne (by omega)⟩
  refine ⟨fun v h₁ h₂ => ?_, fun v h₁ h₂ => ?_, fun v hv => (hm.has _).mpr ?_⟩
  · rw [hm.ent, if_neg (by omega)]
    exact h.beyond v (by omega) h₂
  · rw [hm.ent]
    split
    · rfl
    · rename_i hno
      rcases Nat.lt_or_ge v (pages sz) with hlow | hhigh
      · exact h.kernel v h₁ hlow
      · obtain ⟨rfl, hpos, hne⟩ := hlast v hhigh (by omega) hno
        exact (hend hpos hne).2 h₁
  · by_cases hin : sz / 4096 ≤ v ∧ v < sz / 4096 + m
    · exact Or.inr ⟨v, hin.1, hin.2, rfl⟩
    rcases Nat.lt_or_ge v (pages sz) with hlow | hhigh
    · exact Or.inl (h.tables v hlow)
    · obtain ⟨rfl, hpos, hne⟩ := hlast v hhigh (by omega) hin
      rcases (hend hpos hne).1 with hhas | hmod
      · exact Or.inl hhas
      · exact Or.inr ⟨sz / 4096 + m - 1, by omega, by omega, by omega⟩

omit [Layout] in
/-- A page gets a new entry; only one below the end and `KERNBASE` may be present. -/
theorem Tallied.replace {sz v : ℕ} {d' : Pgdir} {e : Pte} (h : Tallied sz d)
    (hr : Replaced d d' v e) (he : e.P = true → v < pages sz ∧ v < UPAGES) : Tallied sz d' := by
  have hent : ∀ w, (d.ent w).P = false → (e.P = true → w ≠ v) → (d'.ent w).P = false := by
    intro w hP hne
    rw [hr.ent]
    split
    · rename_i hwv
      by_contra hn
      exact hne (by simpa using hn) hwv
    · exact hP
  refine ⟨fun w h₁ h₂ => hent w (h.beyond w h₁ h₂) fun hP => ?_,
    fun w h₁ h₂ => hent w (h.kernel w h₁ h₂) fun hP => ?_,
    fun w hw => (hr.has _).mpr (h.tables w hw)⟩
  · have := he hP
    omega
  · have := he hP
    omega

/-- Every operation of such a run keeps the address spaces tallied. -/
theorem DirStep.tallied {d' : Pgdir} (hx : InvOf LazyOk x k) (h : AllDirs Tallied k)
    (hc : KeepsTally k op res) (hs : DirStep x k op res k' q d') : Tallied (k'.proc q).sz d' := by
  cases hs with
  | common hs =>
    cases hs with
    | same hl hd hsz hs =>
      have hold := h q _ hl hd
      rw [hsz]
      rcases hs with ⟨rfl, -⟩ | rfl
      · exact hold
      · exact ⟨hold.beyond, hold.kernel, hold.tables⟩
    | @sbrk d n s' sz' hop hp hd hs' hsz he ht =>
      rw [hsz]
      exact (h q d (live_of_running hp) hd).sbrk he
    | @image d _ _ hop hp hd hsz hal hpos ht hi =>
      subst hd
      have := Tallied.image hsz hi
      exact ⟨this.beyond, this.kernel, this.tables⟩
  | @marked d n m hop hp hd hn hsz hm =>
    have hend := hc.ends q n d (k'.proc q).sz hop hp hd
    rw [hsz] at hend ⊢
    simp only [PGSIZE] at hend hm hn ⊢
    exact (h q d (live_of_running hp) hd).marked hm fun hpos hne =>
      hend (by omega) (by omega) (by omega) hne
  | @wrapped n m hop hp hd hn hsz =>
    have hlt := hc.wraps q n hop hp
    simp only [hn, PGSIZE] at hlt
    simp only [PGSIZE] at hsz
    omega
  | @fault d d₁ va v s' hop hp hd hv hL hf hd' hsz hs =>
    have hl := live_of_running hp
    have hold := h q d hl hd
    have hP := ((hx.of_live hl hd).2.ent v).excl hL
    have hacc := hc.access q va d hop hp hd
    subst hd' hv
    rw [hsz]
    simp only [PGSIZE] at hacc
    have hnew : Tallied (k.proc q).sz d₁ := by
      cases hf with
      | filled hlt hmem hfree hr =>
        refine hold.replace hr fun _ => ⟨?_, Nat.lt_of_succ_lt hlt⟩
        by_contra hge
        rcases hacc (Nat.le_of_not_lt hge) hL with hnil | hup
        · simp [hnil] at hfree
        · exact absurd hup (Nat.not_le.mpr hlt)
      | spent _ _ hr => exact hold.replace hr fun hP' => by cases hP.symm.trans hP'
      | beyond _ hr => exact hold.replace hr fun hP' => by cases hP.symm.trans hP'
    exact ⟨hnew.beyond, hnew.kernel, hnew.tables⟩
  | @child p d c₀ m s' hop hp hd hun hsz hz hker hcov hc =>
    rw [hsz]
    refine ⟨fun v h₁ h₂ => ?_, fun v h₁ h₂ => ?_, fun v hv => ?_⟩
    · rw [hc.high v h₁, hz v h₂]
      rfl
    · cases hL : (d.ent v).LAZY with
      | true =>
        rw [hc.marked v h₂ hL]
        rfl
      | false => exact absurd (hc.copy v h₂ hL).1 (Nat.not_lt.mpr h₁)
    · exact (hc.has _).mpr (Or.inr ⟨v, hv, rfl⟩)

/-- In every run whose operations all meet the condition, `numpp` of a running process and
`getpasize` of its pid return the same number. -/
theorem numpp_eq_getpasize (h : Reachable tree KeepsTally k) (hp : (k.proc p).state = .RUNNING) :
    ∃ c : ℕ, numpp p k = .ok c k ∧ getpasize (k.proc p).pid k = .ok (c : ℤ) k := by
  obtain ⟨⟨x, hx⟩, hall⟩ := dirs_of_reachable (P := Tallied)
    (fun _ _ hi => .image (by decide) hi)
    (fun _ _ _ _ _ _ _ hx hall hc hs => hs.tallied hx hall hc) h
  have hl := live_of_running hp
  obtain ⟨d, -, hd, -, hok⟩ := hx.live p hl
  have ht := hall p d hl hd
  refine ⟨_, numpp_spec hd hok.lt ht.tables, ?_⟩
  rw [getpasize_spec hx.pids hl hd, ht.present_eq]

end Tallied

/-- The run that has started `init`. -/
theorem numpp_eq_getpasize_started : ∃ (_ : Layout) (k : Kernel Kmem) (p : ProcPtr) (c : ℕ),
    Reachable tree KeepsTally k ∧ (k.proc p).state = .RUNNING ∧ numpp p k = .ok c k ∧
    getpasize (k.proc p).pid k = .ok (c : ℤ) k := by
  let L := sampleLayout
  obtain ⟨k, d, hr, hk⟩ := exists_started (C := KeepsTally) fun _ _ _ _ _ =>
    ⟨fun _ _ _ h => (by cases h), fun _ _ h => (by cases h), fun _ _ _ _ h => (by cases h)⟩
  obtain ⟨c, h₁, h₂⟩ := numpp_eq_getpasize hr hk.running
  exact ⟨L, k, initSlot, c, hr, hk.running, h₁, h₂⟩

/-- `init` maps a page, gives it back with `sbrk(-4096)` and reads it all the same: `getpasize`
counts the page and `numpp` does not. -/
theorem numpp_ne_getpasize : ∃ (_ : Layout) (k : Kernel Kmem) (p : ProcPtr),
    Reachable tree anyOp k ∧ (k.proc p).state = .RUNNING ∧ numpp p k = .ok 1 k ∧
    getpasize (k.proc p).pid k = .ok 2 k := by
  let L := sampleLayout
  obtain ⟨k, d, hr, hk⟩ := exists_shrunk
  obtain ⟨x, hx⟩ := ok_of_reachable hr
  obtain ⟨b, s', d', mem, hs, hrep, -⟩ := @step_load_lazy _ _ k initSlot d 4096 hx hk.running hk.dir
    (by decide) hk.lazy (by decide) hk.free
  rw [hk.sz] at hs
  set k' := k.setMem initSlot s' PGSIZE d'.flush
  have hr' : Reachable tree anyOp k' := .step hr hs trivial
  obtain ⟨x', hx'⟩ := ok_of_reachable hr'
  have hrun : (k'.proc initSlot).state = .RUNNING :=
    (congrArg Proc.state (Table.set_self ..)).trans hk.running
  have hl := live_of_running hrun
  obtain ⟨hsz, hdir⟩ : (k'.proc initSlot).sz = PGSIZE ∧ k'.pgdir initSlot = some d'.flush :=
    Kernel.setMem_self
  have hpg : pages (k'.proc initSlot).sz = 1 := by rw [hsz]; rfl
  have hlow : (d'.flush.ent 0).P = true := by
    rw [Pgdir.ent_flush, hrep.ent, if_neg (by decide)]
    exact hk.low
  have hone : present d'.flush 1 = {0} := by
    ext v
    rw [mem_present, Finset.mem_singleton]
    refine ⟨fun h => by omega, ?_⟩
    rintro rfl
    exact ⟨Nat.one_pos, hlow⟩
  have htwo : present d'.flush UPAGES = {0, 1} := by
    ext v
    rw [mem_present, Finset.mem_insert, Finset.mem_singleton]
    constructor
    · rintro ⟨hv, hP⟩
      by_contra hne
      rw [Pgdir.ent_flush, hrep.ent, if_neg (by omega), hk.high v (by omega) hv] at hP
      cases hP
    · rintro (rfl | rfl)
      · exact ⟨by decide, hlow⟩
      · exact ⟨by decide, by rw [Pgdir.ent_flush, hrep.ent, if_pos rfl]⟩
  have hpp := numpp_spec hdir (hx'.of_live hl hdir).2.lt (by
    rw [hpg]
    intro v hv
    obtain rfl : v = 0 := by omega
    exact Pgdir.has_of_P hlow)
  rw [hpg, hone, Finset.card_singleton] at hpp
  have hpa := getpasize_spec hx'.pids hl hdir
  rw [htwo] at hpa
  exact ⟨L, k', initSlot, hr', hrun, hpp, hpa⟩

end OsLabs.Lazy
