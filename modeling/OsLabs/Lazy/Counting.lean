import OsLabs.Lazy.Steps

/-!
# Virtual and physical pages

`numvp` divides the size of a process by `PGSIZE` and rounds down; `numpp` looks at every page that
begins below the end. Where the size is a number of pages the two agree on what a page is, and
every page below the end has a page table (`Whole`).

* `whole_of_reachable`: this holds throughout a run in which no `sbrk` leaves a part of a page;
* `numpp_le_numvp`: there `numpp` is at most `numvp`, the number of pages below the end;
* `numpp_gt_numvp`: after `sbrk(1)` it is not.
-/

namespace OsLabs.Lazy

open Xv6 StateError Ledger
open Base (Kmem)

/-- The address space ends at a page boundary, and its pages have their page tables. -/
structure Whole (sz : ℕ) (d : Pgdir) : Prop where
  aligned : sz % PGSIZE = 0
  tables : ∀ v < pages sz, d.has (v / 1024)

/-- An `sbrk` leaves the size a multiple of `PGSIZE`: it asks for whole pages, or it is refused, or
the new size is none of a `uint` and `growproc` changes nothing. -/
def wholeSbrk (k : Kernel Kmem) (op : Op) (res : Result) : Prop :=
  match op with
  | .sbrk p n => argint n % PGSIZE = 0 ∨ res = .ret (-1) ∨
      (k.proc p).sz + argint n < 0 ∨ 2 ^ 32 ≤ (k.proc p).sz + argint n
  | _ => True

section Whole

variable [Layout] {x : Ledger ℕ} {k k' : Kernel Kmem} {op : Op} {res : Result} {q : ProcPtr}

omit [Layout] in
/-- The page tables stay where the size does not grow. -/
theorem Whole.of_le {sz sz' : ℕ} {d d' : Pgdir} (h : Whole sz d) (hle : sz' ≤ sz)
    (hal : sz' % PGSIZE = 0) (hhas : ∀ i, d.has i → d'.has i) : Whole sz' d' :=
  ⟨hal, fun v hv => hhas _ (h.tables v (hv.trans_le (pages_mono hle)))⟩

theorem Whole.sbrk {r : Ledger ℕ} {s s' : Phys Kmem} {sz sz' : ℕ} {d d' : Pgdir} {n : ℤ}
    (h : Whole sz d) (hal : sz' % PGSIZE = 0) (he : SbrkEffect r s d sz n res s' sz' d') :
    Whole sz' d' := by
  cases he with
  | same => exact ⟨hal, h.tables⟩
  | refused => exact h
  | @grown _ _ d₁ hpos hnew hlt ho hg hf hk hlen =>
    refine ⟨hal, fun v hv => ?_⟩
    rcases Nat.lt_or_ge v (pages sz) with hlow | hhigh
    · exact hg.has _ (h.tables v hlow)
    · have hP : (d₁.ent v).P = true := by rw [hg.flags v hhigh hv]
      exact Pgdir.has_of_P (d := d₁) hP
  | failed hpos hnew hlt ho hu hk hlen => exact h.of_le (le_refl _) hal hu.has
  | shrunk hneg hnew hpos ho hc hk => exact h.of_le (by omega) hal fun i => (hc.has i).mpr
  | emptied hneg hz ho hc hk => exact h.of_le (le_refl _) hal fun i => (hc.has i).mpr

/-- The new size is a multiple of `PGSIZE` where the old one is and the call adds whole pages, or
changes nothing. -/
theorem aligned_of_sbrk {r : Ledger ℕ} {s s' : Phys Kmem} {sz sz' : ℕ} {d d' : Pgdir} {n : ℤ}
    (hal : sz % PGSIZE = 0) (hsz : sz < 2 ^ 32)
    (hc : n % PGSIZE = 0 ∨ res = .ret (-1) ∨ sz + n < 0 ∨ 2 ^ 32 ≤ sz + n)
    (he : SbrkEffect r s d sz n res s' sz' d') : sz' % PGSIZE = 0 := by
  simp only [PGSIZE] at hal hc ⊢
  cases he with
  | same | refused | failed | emptied => exact hal
  | grown hpos hnew hlt =>
    rw [KERNBASE_eq] at hlt
    rcases hc with hn | hr | hlow | hhigh
    · omega
    · exact absurd (Result.ret.inj hr) (by omega)
    · omega
    · omega
  | shrunk hneg hnew =>
    rcases hc with hn | hr | hlow | hhigh
    · omega
    · exact absurd (Result.ret.inj hr) (by omega)
    · omega
    · omega

/-- The process `q` has a whole address space, if the slot is in use. -/
def WholeSlot (k : Kernel Kmem) (q : ProcPtr) : Prop :=
  ∀ d, k.live q → k.pgdir q = some d → Whole (k.proc q).sz d

/-- An operation that leaves a page boundary at the end of `q` keeps its address space whole. -/
theorem DirStep.whole {d' : Pgdir} (h : WholeSlot k q) (hal : (k'.proc q).sz % PGSIZE = 0)
    (hs : DirStep x k op res k' q d') : Whole (k'.proc q).sz d' := by
  cases hs with
  | common hs =>
    cases hs with
    | same hl hd hsz hs =>
      rw [hsz] at hal ⊢
      rcases hs with ⟨rfl, -⟩ | rfl
      · exact h _ hl hd
      · exact (h _ hl hd).of_le (le_refl _) hal fun _ hi => hi
    | @sbrk d n s' sz' hop hp hd hs' hsz he ht =>
      rw [hsz] at hal ⊢
      exact (h d (live_of_running hp) hd).sbrk hal he
    | @image d _ _ _ hp hd' hsz hal hpos ht hi =>
      subst hd'
      exact ⟨hal, fun v hv => Pgdir.has_of_P (d := d) (hi.low v hv).1⟩
  | @marked d n m hop hp hd hn hsz hm =>
    have hold := h d (live_of_running hp) hd
    have hal₀ := hold.aligned
    simp only [PGSIZE] at hal₀ hsz hm
    refine ⟨hal, fun v hv => (hm.has _).mpr ?_⟩
    rcases Nat.lt_or_ge v (pages (k.proc q).sz) with hlow | hhigh
    · exact Or.inl (hold.tables v hlow)
    · rw [hsz] at hv
      simp only [pages] at hhigh hv
      exact Or.inr ⟨v, by omega, by omega, rfl⟩
  | @wrapped n m hop hp hd hn hsz =>
    have hmax := (argint_bounds n).2
    simp only [PGSIZE] at hsz hn
    exact (h d' (live_of_running hp) hd).of_le (by omega) hal fun _ hi => hi
  | @fault d d₁ va v s' hop hp hd hv hL hf hd' hsz hs =>
    obtain ⟨e, hr⟩ := hf.replaced
    subst hd'
    rw [hsz] at hal ⊢
    exact (h d (live_of_running hp) hd).of_le (le_refl _) hal fun i => (hr.has i).mpr
  | @child p d c₀ m s' hop hp hd hun hsz hz hker hcov hc =>
    refine ⟨hal, fun v hv => (hc.has _).mpr (Or.inr ⟨v, ?_, rfl⟩)⟩
    rwa [hsz] at hv

/-- With whole `sbrk`s the end of every process stays at a page boundary. -/
theorem DirStep.aligned {d' : Pgdir} (hx : InvOf LazyOk x k) (h : AllDirs Whole k) (hc : wholeSbrk k op res)
    (hs : DirStep x k op res k' q d') : (k'.proc q).sz % PGSIZE = 0 := by
  have hold : ∀ {q d}, k.live q → k.pgdir q = some d → (k.proc q).sz % 4096 = 0 :=
    fun hl hd => (h _ _ hl hd).aligned
  simp only [PGSIZE]
  cases hs with
  | common hs =>
    cases hs with
    | same hl hd hsz _ => rw [hsz, hold hl hd]
    | @sbrk d n s' sz' hop hp hd hs' hsz he ht =>
      subst hop
      have hal := hold (live_of_running hp) hd
      have hlt := (hx.of_live (live_of_running hp) hd).2.lt
      rw [hsz]
      exact aligned_of_sbrk hal (hlt.trans (by decide)) hc he
    | image hop hp hd hsz hal => exact hal
  | marked hop hp hd hn hsz hm =>
    have hal := hold (live_of_running hp) hd
    simp only [PGSIZE] at hsz
    omega
  | wrapped hop hp hd hn hsz =>
    have hal := hold (live_of_running hp) hd
    simp only [PGSIZE] at hsz
    omega
  | fault hop hp hd hv hL hf hd' hsz => rw [hsz, hold (live_of_running hp) hd]
  | child hop hp hd hun hsz => rw [hsz, hold (live_of_running hp) hd]

omit [Layout] in
theorem Whole.image {r : Ledger ℕ} {d : Pgdir} (hi : Image r d 1) : Whole PGSIZE d :=
  ⟨rfl, fun v hv => Pgdir.has_of_P (hi.low v hv).1⟩

/-- In every run with whole `sbrk`s all address spaces are whole. -/
theorem whole_of_reachable (h : Reachable tree wholeSbrk k) : Ok k ∧ AllDirs Whole k :=
  dirs_of_reachable (fun _ _ hi => .image hi)
    (fun _ _ _ _ _ q _ hx hw hc hs => hs.whole (hw q) (hs.aligned hx hw hc)) h

/-- A process of such a run never has more physical than virtual pages, and the number of its
virtual pages is that of the pages below its end. -/
theorem numpp_le_numvp (h : Reachable tree wholeSbrk k) {p : ProcPtr}
    (hp : (k.proc p).state = .RUNNING) :
    ∃ v c, numvp p k = .ok v k ∧ numpp p k = .ok c k ∧ c ≤ v ∧ v = pages (k.proc p).sz := by
  obtain ⟨⟨x, hx⟩, hw⟩ := whole_of_reachable h
  have hl := live_of_running hp
  obtain ⟨d, -, hd, -, hok⟩ := hx.live p hl
  have hwhole := hw p d hl hd
  have hal := hwhole.aligned
  have hpg : (k.proc p).sz / PGSIZE = pages (k.proc p).sz := by
    simp only [PGSIZE, pages] at hal ⊢
    omega
  refine ⟨_, _, numvp_eq, numpp_spec hd hok.lt hwhole.tables, ?_, hpg⟩
  rw [hpg]
  exact card_present_le d _

end Whole

/-- The run that has started `init`. -/
theorem numpp_le_numvp_started : ∃ (_ : Layout) (k : Kernel Kmem) (p : ProcPtr),
    Reachable tree wholeSbrk k ∧ (k.proc p).state = .RUNNING ∧
    ∃ v c, numvp p k = .ok v k ∧ numpp p k = .ok c k ∧ c ≤ v ∧ v = pages (k.proc p).sz := by
  let L := sampleLayout
  obtain ⟨k, d, hr, hk⟩ := exists_started (C := wholeSbrk) fun _ _ _ _ _ => trivial
  exact ⟨L, k, initSlot, hr, hk.running, numpp_le_numvp hr hk.running⟩

/-- After `sbrk(1)` the process has two physical pages, and `numvp` returns 1. -/
theorem numpp_gt_numvp : ∃ (_ : Layout) (k : Kernel Kmem) (p : ProcPtr) (v c : ℕ),
    Reachable tree anyOp k ∧ (k.proc p).state = .RUNNING ∧ numvp p k = .ok v k ∧
    numpp p k = .ok c k ∧ v < c ∧ v ≠ pages (k.proc p).sz := by
  let L := sampleLayout
  obtain ⟨k, d, hr, hk⟩ := exists_started (C := anyOp) fun _ _ _ _ _ => trivial
  have htwo : pages 4097 = 2 := by decide
  obtain ⟨s', d', hs, hg⟩ := hk.grow (n := 1) (by decide) (by decide)
  change d.Grown d' 1 (pages 4097) at hg
  rw [htwo] at hg
  obtain ⟨hsz, hdir⟩ := @Kernel.setMem_self _ k initSlot s' (PGSIZE + 1) d'.flush
  change _ = 4097 at hsz
  have hP : ∀ v < 2, (d'.ent v).P = true := by
    intro v hv
    by_cases hv0 : v = 0
    · rw [hv0, hg.out 0 (Or.inl Nat.one_pos)]
      exact hk.low
    · rw [hg.flags v (by omega) (by omega)]
  have hcount : (present d'.flush 2).card = 2 := by
    have : present d'.flush 2 = Finset.range 2 :=
      Finset.filter_true_of_mem fun v hv => hP v (Finset.mem_range.mp hv)
    rw [this, Finset.card_range]
  have hpp := numpp_spec hdir (by rw [hsz]; decide) (by
    rw [hsz, htwo]
    exact fun v hv => Pgdir.has_of_P (d := d') (hP v hv))
  rw [hsz, htwo, hcount] at hpp
  have hvp := @numvp_eq (k.setMem initSlot s' (PGSIZE + 1) d'.flush) initSlot
  rw [hsz] at hvp
  refine ⟨L, _, initSlot, 1, 2, .step hr hs trivial, ?_, hvp, hpp, by decide, ?_⟩
  · exact (congrArg Proc.state (Table.set_self ..)).trans hk.running
  · rw [hsz, htwo]
    decide

end OsLabs.Lazy
