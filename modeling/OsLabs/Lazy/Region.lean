import OsLabs.Lazy.Steps

/-!
# What `mmap` leaves alone

`sys_mmap` moves the end of the process first and then marks entries from the page of the old end
on, without a look at what they hold or at how far they reach.

* `mmap_keeps_iff`: a call that fits keeps what the process had if and only if none of the entries
  it marks is present. After `sbrk(100)` the page of the old end is (`mmap_loses_page`);
* `mmap_clean_iff`: a call stays in user space, or fails without a trace, if and only if the
  argument is refused or the request can be met (`mmap_reaches_KERNBASE`).
-/

namespace OsLabs.Lazy

open Xv6 StateError Ledger
open Base (Kmem)

/-! ## The pages that were there -/

/-- A user page of some process has the frame `f`. -/
def Mapped (k : Kernel Kmem) (f : ℕ) : Prop :=
  ∃ q d v, k.live q ∧ k.pgdir q = some d ∧ v < UPAGES ∧ (d.ent v).P = true ∧ (d.ent v).ppn = f

/-- From `k` to `k'` the process `p` keeps its present pages and what is in them, and no frame is
lost. -/
structure PagesKept [Layout] (p : ProcPtr) (k k' : Kernel Kmem) : Prop where
  pages : ∀ d v, k.pgdir p = some d → (d.ent v).P = true → ∃ d', k'.pgdir p = some d' ∧
    (d'.ent v).P = true ∧ (d'.ent v).ppn = (d.ent v).ppn ∧
    k'.phys.mem (d.ent v).ppn = k.phys.mem (d.ent v).ppn
  frames : ∀ f, Mapped k f → Mapped k' f ∨ f ∈ k'.phys.free

section Kept

variable [Layout] {k : Kernel Kmem} {p : ProcPtr} {d : Pgdir} {n : ℤ} {m : ℕ}

/-- Marking pages that are not present keeps the pages that are. -/
theorem PagesKept.of_marked {d' : Pgdir} {s' : Phys Kmem} {new lo hi : ℕ}
    (hd : k.pgdir p = some d) (hm : Marked d d' lo hi) (hmem : s'.mem = k.phys.mem)
    (hno : ∀ v, lo ≤ v → v < hi → (d.ent v).P = false) : PagesKept p k (k.setMem p s' new d') := by
  have hout : ∀ v, (d.ent v).P = true → d'.ent v = d.ent v := fun v hP => by
    rw [hm.ent, if_neg]
    rintro ⟨h₁, h₂⟩
    rw [hno v h₁ h₂] at hP
    cases hP
  refine ⟨fun d₁ v hd₁ hP => ?_, fun f hf => Or.inl ?_⟩
  · obtain rfl : d = d₁ := Option.some.inj (hd.symm.trans hd₁)
    refine ⟨d', Kernel.setMem_self.2, ?_⟩
    rw [hout v hP]
    exact ⟨hP, rfl, congrFun hmem _⟩
  · obtain ⟨q, d₁, v, hl, hd₁, hv, hP, rfl⟩ := hf
    by_cases hq : q = p
    · subst hq
      obtain rfl : d = d₁ := Option.some.inj (hd.symm.trans hd₁)
      refine ⟨q, d', v, (Kernel.live_setMem q).mpr hl, Kernel.setMem_self.2, hv, ?_⟩
      rw [hout v hP]
      exact ⟨hP, rfl⟩
    · exact ⟨q, d₁, v, (Kernel.live_setMem q).mpr hl, (Kernel.setMem_of_ne hq).2.trans hd₁, hv, hP,
        rfl⟩

/-- A call of `mmap` that fits into user space and gets its page tables keeps what the process had
exactly when the entries from the page of the old end on are not present. -/
theorem mmap_keeps_iff (h : Reachable tree anyOp k) (hp : (k.proc p).state = .RUNNING)
    (hd : k.pgdir p = some d) (hn : argint n = m * PGSIZE)
    (hlt : (k.proc p).sz + m * PGSIZE < KERNBASE)
    (hfree : (missing d ((k.proc p).sz / PGSIZE) ((k.proc p).sz / PGSIZE + m)).card ≤
      k.phys.free.length) :
    (∃ res k', step tree (.mmap p n) k = .ok res k' ∧ PagesKept p k k') ↔
      ∀ v, (k.proc p).sz / PGSIZE ≤ v → v < (k.proc p).sz / PGSIZE + m → (d.ent v).P = false := by
  obtain ⟨x, hx⟩ := ok_of_reachable h
  obtain ⟨s', d', hs, hm⟩ := step_mmap hx hp hd hn (lt_of_lt_KERNBASE hlt) hfree
  constructor
  · rintro ⟨res, k', hs', hk⟩ v h₁ h₂
    cases hs.symm.trans hs'
    by_contra hP
    obtain ⟨d₁, hd₁, hP₁, -⟩ := hk.pages d v hd (by simpa using hP)
    obtain rfl : d' = d₁ := Option.some.inj (Kernel.setMem_self.2.symm.trans hd₁)
    rw [hm.marked.ent, if_pos ⟨h₁, h₂⟩] at hP₁
    cases hP₁
  · exact fun hno => ⟨_, _, hs, .of_marked hd hm.marked hm.mem hno⟩

end Kept

/-- `init` maps a page behind the one it has. -/
theorem mmap_keeps_started : ∃ (_ : Layout) (k k' : Kernel Kmem) (p : ProcPtr) (res : Result),
    Reachable tree anyOp k ∧ (k.proc p).state = .RUNNING ∧
    step tree (.mmap p PGSIZE) k = .ok res k' ∧ PagesKept p k k' := by
  let L := sampleLayout
  obtain ⟨k, d, hr, hk⟩ := exists_started (C := anyOp) fun _ _ _ _ _ => trivial
  have hone : (k.proc initSlot).sz / PGSIZE = 1 := by rw [hk.sz]; rfl
  have hcard := card_missing_le d 1 (1 + 1)
  have hroom := hk.free
  have hiff := @mmap_keeps_iff _ k initSlot d PGSIZE 1 hr hk.running hk.dir (by decide)
    (by rw [hk.sz]; decide) (by rw [hone]; omega)
  rw [hone] at hiff
  obtain ⟨res, k', hs, hkeep⟩ := hiff.mpr fun v h₁ h₂ => by
    rw [hk.high v h₁ (by rw [UPAGES_eq]; omega)]
    rfl
  exact ⟨L, k, k', initSlot, res, hr, hk.running, hs, hkeep⟩

/-- After `sbrk(100)` the call `mmap(4096)` takes the page that `sbrk` has added. -/
theorem mmap_loses_page : ∃ (_ : Layout) (k k' : Kernel Kmem) (p : ProcPtr) (d d' : Pgdir)
    (res : Result), Reachable tree anyOp k ∧ (k.proc p).state = .RUNNING ∧
    k.pgdir p = some d ∧ (k.proc p).sz + PGSIZE < KERNBASE ∧
    (missing d ((k.proc p).sz / PGSIZE) ((k.proc p).sz / PGSIZE + 1)).card ≤ k.phys.free.length ∧
    step tree (.mmap p PGSIZE) k = .ok res k' ∧ k'.pgdir p = some d' ∧
    (d.ent 1).P = true ∧ (d'.ent 1).P = false ∧ ¬PagesKept p k k' := by
  let L := sampleLayout
  obtain ⟨k, k', d, d', hr, hk⟩ := exists_unaligned
  have hlo : (k.proc initSlot).sz / PGSIZE = 1 := by rw [hk.sz]; rfl
  have hmiss : missing d 1 2 = ∅ := by
    refine Finset.eq_empty_of_forall_notMem fun i hi => ?_
    obtain ⟨⟨w, h₁, h₂, rfl⟩, hno⟩ := mem_missing.mp hi
    obtain rfl : w = 1 := by omega
    exact hno (Pgdir.has_of_P hk.added)
  have hP : (d'.ent 1).P = false := by
    rw [hk.marked.ent]
    rfl
  refine ⟨L, k, k', initSlot, d, d', _, hr, hk.running, hk.dir, ?_, ?_, hk.step, hk.dir', hk.added,
    hP, fun hkeep => ?_⟩
  · rw [hk.sz]
    decide
  · rw [hlo, hmiss]
    exact Nat.zero_le _
  · obtain ⟨d₁, hd₁, hP₁, -⟩ := hkeep.pages d 1 hk.dir hk.added
    obtain rfl : d' = d₁ := Option.some.inj (hk.dir'.symm.trans hd₁)
    rw [hP] at hP₁
    cases hP₁

/-! ## Requests that cannot be met -/

/-- `n` more bytes end below `KERNBASE`, and there are frames for the page tables they need. -/
structure Feasible [Layout] (k : Kernel Kmem) (p : ProcPtr) (d : Pgdir) (n : ℤ) : Prop where
  lt : (k.proc p).sz + n < (KERNBASE : ℤ)
  tables : (missing d ((k.proc p).sz / PGSIZE) (((k.proc p).sz + n).toNat / PGSIZE)).card ≤
    k.phys.free.length

/-- The call `mmap(n)` of the process `p` with the directory `d` has stayed in user space, or has
failed without a trace. -/
structure Clean [Layout] (k : Kernel Kmem) (p : ProcPtr) (d : Pgdir) (n : ℤ) (res : Result)
    (k' : Kernel Kmem) (d' : Pgdir) : Prop where
  sz : (k'.proc p).sz < KERNBASE
  kernel : ∀ v, UPAGES ≤ v → d'.ent v = d.ent v
  failed : ¬Feasible k p d (argint n) → res = .ret 0 ∧ (k'.proc p).sz = (k.proc p).sz ∧
    ∀ v, (d'.ent v).P = (d.ent v).P ∧ (d'.ent v).LAZY = (d.ent v).LAZY

/-- Every `mmap` that is not refused ends below `KERNBASE`. -/
def inUser (k : Kernel Kmem) (op : Op) (_ : Result) : Prop :=
  match op with
  | .mmap p n => argint n < 0 ∨ argint n % PGSIZE ≠ 0 ∨ (k.proc p).sz + argint n < (KERNBASE : ℤ)
  | _ => True

section Clean

variable [Layout] {k : Kernel Kmem} {p : ProcPtr} {d : Pgdir} {n : ℤ}

/-- In a run in which every `mmap` ends below `KERNBASE`, so does every process. -/
theorem sz_lt_of_inUser (h : Reachable tree inUser k) :
    AllDirs (fun sz _ => sz < KERNBASE) k := by
  refine (dirs_of_reachable (fun _ _ _ => by decide) (fun x k op res k' q d' _ hlt hc hs => ?_) h).2
  have hold : ∀ {q d}, k.live q → k.pgdir q = some d → (k.proc q).sz < 2147483648 := fun hl hd => by
    rw [← KERNBASE_eq]
    exact hlt _ _ hl hd
  rw [KERNBASE_eq]
  cases hs with
  | common hs =>
    cases hs with
    | same hl₀ hd hsz =>
      rw [hsz]
      exact hold hl₀ hd
    | @sbrk d n s' sz' hop hp hd hs' hsz he =>
      have := hold (live_of_running hp) hd
      rw [hsz]
      cases he with
      | grown _ _ hnew => rwa [KERNBASE_eq] at hnew
      | shrunk => omega
      | _ => omega
    | image hop hp hd hsz => rwa [KERNBASE_eq] at hsz
  | marked hop hp hd hn hsz hm =>
    subst hop
    simp only [inUser, hn, PGSIZE, KERNBASE_eq] at hc
    simp only [PGSIZE] at hsz
    omega
  | wrapped hop hp hd hn hsz =>
    subst hop
    simp only [inUser, hn, PGSIZE, KERNBASE_eq] at hc
    simp only [PGSIZE] at hsz
    omega
  | fault hop hp hd hv hL hf hd' hsz =>
    rw [hsz]
    exact hold (live_of_running hp) hd
  | child hop hp hd hun hsz =>
    rw [hsz]
    exact hold (live_of_running hp) hd

theorem feasible_iff {m : ℕ} (hn : n = m * PGSIZE) : Feasible k p d n ↔
    (k.proc p).sz + m * PGSIZE < KERNBASE ∧
    (missing d ((k.proc p).sz / PGSIZE) ((k.proc p).sz / PGSIZE + m)).card ≤
      k.phys.free.length := by
  have hsum : ((k.proc p).sz + n).toNat / PGSIZE = (k.proc p).sz / PGSIZE + m := by
    simp only [PGSIZE] at hn ⊢
    omega
  have hlt : (k.proc p).sz + n < (KERNBASE : ℤ) ↔ (k.proc p).sz + m * PGSIZE < KERNBASE := by
    rw [hn]
    norm_cast
  rw [← hlt, ← hsum]
  exact ⟨fun h => ⟨h.lt, h.tables⟩, fun h => ⟨h.1, h.2⟩⟩

/-- A call that is clean has been refused or could be met. -/
theorem MmapEffect.feasible {x : Ledger ℕ} {res : Result} {k' : Kernel Kmem} {d' : Pgdir}
    (he : MmapEffect x k p d (argint n) res k') (hc : Clean k p d n res k' d') :
    (k.proc p).sz < KERNBASE ∧
      (argint n < 0 ∨ argint n % PGSIZE ≠ 0 ∨ Feasible k p d (argint n)) := by
  have hsz := hc.sz
  have hfail := fun hno => (hc.failed hno).2.1
  have hmax := (argint_bounds n).2
  cases he with
  | refused hbad => exact ⟨hsz, hbad.elim Or.inl fun hb => Or.inr (Or.inl hb)⟩
  | @marked m s' d' hn hlt hm =>
    rw [Kernel.setMem_self.1] at hsz hfail
    refine ⟨lt_of_le_of_lt (Nat.le_add_right _ _) hsz, Or.inr (Or.inr (by_contra fun hno => ?_))⟩
    -- nothing has been asked for, so nothing is missing
    have hz : m = 0 := by
      have := hfail hno
      simp only [PGSIZE] at this
      omega
    rw [feasible_iff hn, hz, Nat.add_zero, Nat.zero_mul] at hno
    have hcard := card_missing_le d ((k.proc p).sz / PGSIZE) ((k.proc p).sz / PGSIZE)
    rw [hz, Nat.zero_mul] at hsz
    exact hno ⟨hsz, by omega⟩
  | @wrapped m new hn hnew =>
    rw [Kernel.setMem_self.1] at hsz hfail
    rw [KERNBASE_eq] at hsz
    have hno : ¬Feasible k p d (argint n) := by
      rw [feasible_iff hn, KERNBASE_eq]
      omega
    have hsame := hfail hno
    simp only [PGSIZE] at hn hnew
    omega

/-- A call of `mmap` stays in user space or fails without a trace exactly when the process ends
below `KERNBASE` and the argument is refused or the request can be met. Where all earlier calls
were of this kind the process does end there. -/
theorem mmap_clean_iff (h : Reachable tree anyOp k) (hp : (k.proc p).state = .RUNNING)
    (hd : k.pgdir p = some d) :
    ((∃ res k' d', step tree (.mmap p n) k = .ok res k' ∧ k'.pgdir p = some d' ∧
        Clean k p d n res k' d') ↔
      (k.proc p).sz < KERNBASE ∧
        (argint n < 0 ∨ argint n % PGSIZE ≠ 0 ∨ Feasible k p d (argint n))) ∧
    (Reachable tree inUser k → (k.proc p).sz < KERNBASE) := by
  obtain ⟨x, hx⟩ := ok_of_reachable h
  refine ⟨⟨?_, ?_⟩, fun hu => sz_lt_of_inUser hu p d (live_of_running hp) hd⟩
  · rintro ⟨res, k', d', hs, hd', hc⟩
    exact (mmapEffect_of_step hx hp hd hs).feasible hc
  · rintro ⟨hsz, hcond⟩
    by_cases hbad : argint n < 0 ∨ argint n % PGSIZE ≠ 0
    · refine ⟨_, k, d, step_mmap_refused hx hp hbad, hd, hsz, fun v _ => rfl, fun _ => ?_⟩
      exact ⟨rfl, rfl, fun v => ⟨rfl, rfl⟩⟩
    · obtain ⟨hpos, hmod⟩ := not_or.mp hbad
      have hf := (hcond.resolve_left hpos).resolve_left hmod
      obtain ⟨m, hm⟩ : ∃ m : ℕ, argint n = m * PGSIZE := by
        refine ⟨(argint n / PGSIZE).toNat, ?_⟩
        simp only [PGSIZE] at hmod ⊢
        omega
      obtain ⟨hlt, hfree⟩ := (feasible_iff hm).mp hf
      obtain ⟨s', d', hs, hmk⟩ := step_mmap hx hp hd hm (lt_of_lt_KERNBASE hlt) hfree
      refine ⟨_, _, d', hs, Kernel.setMem_self.2, ?_, fun v hv => ?_, fun hno => absurd hf hno⟩
      · rw [Kernel.setMem_self.1]
        exact hlt
      · rw [KERNBASE_eq] at hlt
        rw [UPAGES_eq] at hv
        simp only [PGSIZE] at hlt hmk
        rw [hmk.marked.ent, if_neg (by omega)]

end Clean

/-- `mmap(4096)` of `init` can be met, and moves the end of the process by a page. -/
theorem mmap_clean_page : ∃ (_ : Layout) (k k' : Kernel Kmem) (p : ProcPtr) (d d' : Pgdir)
    (res : Result), Reachable tree anyOp k ∧ (k.proc p).state = .RUNNING ∧ k.pgdir p = some d ∧
    Feasible k p d (argint 4096) ∧ step tree (.mmap p 4096) k = .ok res k' ∧
    Clean k p d 4096 res k' d' := by
  let L := sampleLayout
  obtain ⟨k, d, hr, hk⟩ := exists_started (C := anyOp) fun _ _ _ _ _ => trivial
  have hn : argint 4096 = (1 : ℕ) * PGSIZE := by decide
  have hlo : (k.proc initSlot).sz / PGSIZE = 1 := by rw [hk.sz]; rfl
  have hroom := hk.free
  have hf : Feasible k initSlot d (argint 4096) := by
    rw [feasible_iff hn, hlo]
    have hcard := card_missing_le d 1 (1 + 1)
    exact ⟨by rw [hk.sz]; decide, by omega⟩
  obtain ⟨res, k', d', hs, -, hc⟩ := (mmap_clean_iff (n := 4096) hr hk.running hk.dir).1.mpr
    ⟨by rw [hk.sz]; decide, Or.inr (Or.inr hf)⟩
  exact ⟨L, k, k', initSlot, d, d', res, hr, hk.running, hk.dir, hf, hs, hc⟩

/-- `init` asks for everything up to `KERNBASE`, and the call succeeds. -/
theorem mmap_reaches_KERNBASE : ∃ (_ : Layout) (k k' : Kernel Kmem) (p : ProcPtr) (d : Pgdir)
    (n : ℤ), Reachable tree anyOp k ∧ (k.proc p).state = .RUNNING ∧ k.pgdir p = some d ∧
    ¬Feasible k p d (argint n) ∧ step tree (.mmap p n) k = .ok (.ret (k.proc p).sz) k' ∧
    (k'.proc p).sz = KERNBASE ∧ ∀ res d', ¬Clean k p d n res k' d' := by
  let L := sampleLayout
  obtain ⟨k, d, hr, hk⟩ := exists_started (C := anyOp) fun _ _ _ _ _ => trivial
  have hn : argint 2147479552 = (524287 : ℕ) * PGSIZE := by decide
  have hsum : (k.proc initSlot).sz + 524287 * PGSIZE = KERNBASE := by rw [hk.sz]; rfl
  have hlo : (k.proc initSlot).sz / PGSIZE = 1 := by rw [hk.sz]; rfl
  have htab := @card_missing_le_tables d 1 (1 + 524287) (by decide)
  have hroom := hk.free
  obtain ⟨s', d', hs, hm⟩ := step_mmap hk.inv hk.running hk.dir hn
    (by rw [hsum]; decide) (by rw [hlo]; rw [NPDENTRIES] at htab; omega)
  have hsz := (@Kernel.setMem_self _ k initSlot s' _ d').1.trans hsum
  refine ⟨L, k, _, initSlot, d, 2147479552, hr, hk.running, hk.dir, fun hf => ?_, hs, hsz,
    fun res d'' hc => ?_⟩
  · have := ((feasible_iff hn).mp hf).1
    rw [hsum] at this
    exact Nat.lt_irrefl _ this
  · have := hc.sz
    rw [hsz] at this
    exact Nat.lt_irrefl _ this

end OsLabs.Lazy
