import OsLabs.Lazy.Vm

/-!
# The system call `mmap`

`sys_mmap` moves the end of the process and marks one entry for every `PGSIZE` bytes from the old
end on.

* `mmapLoop_spec` and `sys_mmap_spec`, with the outcomes listed in `MmapEffect`: what is marked,
  how many page tables are added, and when the loop follows a null pointer.
-/

namespace OsLabs.Lazy

open Xv6 StateError Ledger
open Base (Kmem)

section Mmap

variable [Layout] {x r : Ledger ℕ} {s s₀ : Phys Kmem} {d d₀ : Pgdir} {lo v : ℕ}
variable {k : Kernel Kmem} {p : ProcPtr}

/-- What holds while `mmap` marks the pages from `lo` to `v`, since the directory `d₀` and the
memory `s₀` it started with. The frames of present pages that it marks are lost. -/
structure Marking (x r : Ledger ℕ) (s₀ : Phys Kmem) (d₀ : Pgdir) (lo v : ℕ) (s : Phys Kmem)
    (d : Pgdir) : Prop where
  acct : ∃ x', Acct InRange s.kmem (x' + r + d.holds) ∧
    ((∀ w, lo ≤ w → w < v → (d₀.ent w).P = false) → x' = x)
  mem : s.mem = s₀.mem
  oom : s.oom = s₀.oom
  marked : Marked d₀ d lo v
  len : s.free.length + d.numTables = s₀.free.length + d₀.numTables

theorem Marking.start (ha : Acct InRange s.kmem (x + r + d.holds)) : Marking x r s d v v s d :=
  ⟨⟨x, ha, fun _ => rfl⟩, rfl, rfl, .refl d v, rfl⟩

/-- One page further. -/
theorem Marking.next {s' : Phys Kmem} {d₁ : Pgdir} {va : ℕ} {x' : Ledger ℕ}
    (h : Marking x r s₀ d₀ lo v s d) (hlo : lo ≤ v) (hva : va < 2 ^ 32) (hv : va / 4096 = v)
    (hx' : (∀ w, lo ≤ w → w < v → (d₀.ent w).P = false) → x' = x)
    (ha : Acct InRange s'.kmem (x' + r + d₁.holds)) (hext : d.Ext d₁) (hhas : d₁.has (v / 1024))
    (honly : ∀ i, d₁.has i → d.has i ∨ i = v / 1024) (hm : s'.mem = s.mem) (ho : s'.oom = s.oom)
    (hlen : s'.free.length + d₁.numTables = s.free.length + d.numTables) :
    Marking x r s₀ d₀ lo (v + 1) s' (markLazy d₁ va).flush := by
  have hr := markLazy_replaced hva hv hhas
  have hent : d₁.ent v = d₀.ent v := by
    rw [hext.ent, h.marked.ent, if_neg (by omega)]
  have hnum : (markLazy d₁ va).flush.numTables = d₁.numTables := by
    change (markLazy d₁ va).numTables = _
    rw [markLazy, Pgdir.numTables_store, Pgdir.numTables_store]
  refine ⟨?_, hm.trans h.mem, ho.trans h.oom, (h.marked.next hlo hva hv hext hhas honly).flush,
    by rw [hnum, hlen, h.len]⟩
  rw [Pgdir.holds_flush]
  by_cases hkeep : UPAGES ≤ v ∨ (d₁.ent v).P = false
  · refine ⟨x', ?_, fun hno => hx' fun w h₁ h₂ => hno w h₁ (by omega)⟩
    rw [hr.holds_same (hkeep.imp_right fun hP => ⟨hP, rfl⟩)]
    exact ha
  · obtain ⟨hup, hP⟩ := not_or.mp hkeep
    have hP' : (d₁.ent v).P = true := by simpa using hP
    have hh := hr.holds (Nat.lt_of_not_le hup)
    rw [Pgdir.pteHold_of_P hP', Pgdir.pteHold_of_not_P rfl, add_zero] at hh
    refine ⟨x' + shared (d₁.ent v).ppn, ?_, fun hno => ?_⟩
    · have : x' + shared (d₁.ent v).ppn + r + (markLazy d₁ va).holds = x' + r + d₁.holds := by
        rw [← hh]
        abel
      rwa [this]
    · rw [hent, hno v hlo (Nat.lt_succ_self v)] at hP'
      cases hP'

/-- Marking one page of the process `p`. -/
theorem make_mmap_pte_spec {va new : ℕ} (hks : k.kstack p ≠ none) (hlo : lo ≤ v)
    (hva : va < 2 ^ 32) (hv : va / 4096 = v) (h : Marking x r s₀ d₀ lo v s d) :
    wp (make_mmap_pte p va)
      (fun _ k' => va < KERNLINK ∧ ∃ s' d', k' = k.setMem p s' new d' ∧
        Marking x r s₀ d₀ lo (v + 1) s' d')
      (fun e _ => e = .nullDeref ∧ s.free = [] ∧ ¬d.has (v / 1024) ∨
        e = .kernelUnmapped ∧ KERNLINK ≤ va) (k.setMem p s new d) := by
  obtain ⟨x', ha, hx'⟩ := h.acct
  -- what remains when the page table is there
  have hgo : ∀ {s' : Phys Kmem} {d₁ : Pgdir}, Acct InRange s'.kmem (x' + r + d₁.holds) →
      d.Ext d₁ → d₁.has (v / 1024) → (∀ i, d₁.has i → d.has i ∨ i = v / 1024) →
      s'.mem = s.mem → s'.oom = s.oom →
      s'.free.length + d₁.numTables = s.free.length + d.numTables →
      wp (do
          setPgdir p (some (markLazy d₁ va))
          if KERNLINK ≤ va then throw .kernelUnmapped else switchuvm p : KM Kmem Unit)
        (fun _ k' => va < KERNLINK ∧ ∃ s' d', k' = k.setMem p s' new d' ∧
          Marking x r s₀ d₀ lo (v + 1) s' d')
        (fun e _ => e = .nullDeref ∧ s.free = [] ∧ ¬d.has (v / 1024) ∨
          e = .kernelUnmapped ∧ KERNLINK ≤ va)
        { k.setMem p s new d with phys := s' } := by
    intro s' d₁ ha₁ hext hhas honly hm ho hlen
    simp only [wp_bind, wp_setPgdir]
    by_cases hker : KERNLINK ≤ va
    · rw [if_pos hker]
      exact Or.inr ⟨rfl, hker⟩
    · rw [if_neg hker]
      refine (wp_switchuvm (d := markLazy d₁ va) ?_ ?_).mpr ?_
      · exact Function.update_self ..
      · exact hks
      refine ⟨Nat.lt_of_not_le hker, s', (markLazy d₁ va).flush, ?_,
        h.next hlo hva hv hx' ha₁ hext hhas honly hm ho hlen⟩
      simp only [Kernel.setMem, Function.update_idem]
  have hd : (k.setMem p s new d).pgdir p = some d := Kernel.setMem_self.2
  unfold make_mmap_pte
  simp only [wp_bind, wp_getPgdir hd, wp_onPhys]
  have hl : ∀ d' : Pgdir, d'.frame = d.frame → d'.uses = d.uses →
      x' + r + d'.holds = x' + r + (excl d.frame + d.uses) + d'.tables := fun d' h₁ h₂ => by
    rw [Pgdir.holds, h₁, h₂]
    abel
  rw [hl d rfl rfl] at ha
  refine wp_mono (walkpgdir_ext hva ha) (fun res s' h' => ?_) fun _ _ h => h.elim
  cases res with
  | none =>
    rw [hv] at h'
    exact Or.inl ⟨rfl, h'.2⟩
  | some d₁ =>
    rw [hv] at h'
    obtain ⟨hext, hhas, honly, hacct, -, hm, ho, hlen⟩ := h'
    rw [← hl d₁ hext.frame hext.uses] at hacct
    exact hgo hacct hext hhas honly hm ho hlen

/-- The loop of `mmap` when `j` of the `n` pages from `a` on have been marked. -/
theorem mmapLoop_spec {a n : ℕ} (hks : k.kstack p ≠ none) (ha : a / 4096 = lo)
    (hnew : a + n * 4096 < 2 ^ 32) : ∀ {fuel j : ℕ} {s : Phys Kmem} {d : Pgdir},
    n - j < fuel → j ≤ n → a + j * 4096 < 2148536320 →
    Marking x r s₀ d₀ lo (lo + j) s d →
    wp (mmapLoop p fuel (a + j * 4096))
      (fun _ k' => a + n * 4096 < 2148536320 ∧ ∃ s' d',
        k' = k.setMem p s' (a + n * 4096) d' ∧ Marking x r s₀ d₀ lo (lo + n) s' d')
      (fun e _ => e = .nullDeref ∧ s₀.free.length < (missing d₀ lo (lo + n)).card ∨
        e = .kernelUnmapped ∧ 2148536320 ≤ a + n * 4096)
      (k.setMem p s (a + n * 4096) d) := by
  intro fuel
  induction fuel with
  | zero => intro j s d h; exact absurd h (Nat.not_lt_zero _)
  | succ fuel ih =>
    intro j s d hfuel hj hlt hM
    unfold mmapLoop
    simp only [wp_bind, wp_get, Kernel.setMem_self.1]
    by_cases hjn : j = n
    · subst hjn
      rw [if_neg (Nat.lt_irrefl _)]
      exact ⟨hlt, s, d, rfl, hM⟩
    have hsucc : a + j * 4096 + PGSIZE = a + (j + 1) * 4096 := by
      rw [PGSIZE, Nat.succ_mul, Nat.add_assoc]
    have hle : a + (j + 1) * 4096 ≤ a + n * 4096 :=
      Nat.add_le_add_left (Nat.mul_le_mul_right 4096 (lt_of_le_of_ne hj hjn)) a
    have hva : a + j * 4096 < a + (j + 1) * 4096 := by
      rw [← hsucc]
      exact Nat.lt_add_of_pos_right (by decide)
    have hv : (a + j * 4096) / 4096 = lo + j := by rw [Nat.add_mul_div_right _ _ (by decide), ha]
    have hnext : uint (a + j * 4096 + PGSIZE) = a + (j + 1) * 4096 := by
      rw [hsucc]
      exact Nat.mod_eq_of_lt (hle.trans_lt hnew)
    rw [if_pos (hva.trans_le hle)]
    simp only [wp_bind, hnext]
    refine wp_mono (make_mmap_pte_spec hks (Nat.le_add_right lo j)
      ((hva.trans_le hle).trans hnew) hv hM)
      (fun _ k' h => ?_) fun e k' he => ?_
    · obtain ⟨hker, s', d', rfl, hM'⟩ := h
      refine ih (by omega) (lt_of_le_of_ne hj hjn) ?_ hM'
      rw [← hsucc, ← KERNLINK_PGSIZE]
      exact Nat.add_lt_add_right hker PGSIZE
    · rcases he with ⟨rfl, hfree, hhas⟩ | ⟨rfl, hker⟩
      · -- all free frames have become page tables, and one more is missing
        have hpage : lo + j ≤ 2 ^ 20 := by
          rw [← hv]
          exact (Nat.div_le_div_right (le_of_lt ((hva.trans_le hle).trans hnew))).trans (by decide)
        have hnum := hM.marked.numTables hpage
        have hlen := hM.len
        rw [hfree, List.length_nil] at hlen
        have hsub : insert ((lo + j) / 1024) (missing d₀ lo (lo + j)) ⊆ missing d₀ lo (lo + n) := by
          refine Finset.insert_subset (mem_missing.mpr ⟨⟨lo + j, by omega, by omega, rfl⟩, ?_⟩)
            fun i hi => ?_
          · exact fun hd => hhas ((hM.marked.has _).mpr (Or.inl hd))
          · obtain ⟨⟨w, h₁, h₂, h₃⟩, h₄⟩ := mem_missing.mp hi
            exact mem_missing.mpr ⟨⟨w, h₁, by omega, h₃⟩, h₄⟩
        have hnot : (lo + j) / 1024 ∉ missing d₀ lo (lo + j) := fun hi =>
          hhas ((hM.marked.has _).mpr (Or.inr (mem_missing.mp hi).1))
        have hcard := Finset.card_le_card hsub
        rw [Finset.card_insert_of_notMem hnot] at hcard
        exact Or.inl ⟨rfl, by omega⟩
      · refine Or.inr ⟨rfl, le_trans ?_ hle⟩
        rw [← hsucc, ← KERNLINK_PGSIZE]
        exact Nat.add_le_add_right hker PGSIZE

/-- What `mmap` of `n` bytes does to the process `p` with the directory `d`. -/
inductive MmapEffect (x : Ledger ℕ) (k : Kernel Kmem) (p : ProcPtr) (d : Pgdir) (n : ℤ) :
    Result → Kernel Kmem → Prop
  /-- The argument is negative or not a number of pages. -/
  | refused (h : n < 0 ∨ n % PGSIZE ≠ 0) : MmapEffect x k p d n (.ret 0) k
  /-- The pages from the one of the old end on are marked. -/
  | marked {m : ℕ} {s' : Phys Kmem} {d' : Pgdir} (hn : n = m * PGSIZE)
      (hlt : (k.proc p).sz + m * PGSIZE < KERNLINK + PGSIZE)
      (hm : Marking x (k.rest p) k.phys d ((k.proc p).sz / PGSIZE) ((k.proc p).sz / PGSIZE + m)
        s' d') :
      MmapEffect x k p d n (.ret (k.proc p).sz) (k.setMem p s' ((k.proc p).sz + m * PGSIZE) d')
  /-- The new size wraps around, and there is nothing to mark. -/
  | wrapped {m new : ℕ} (hn : n = m * PGSIZE) (hnew : (k.proc p).sz + m * PGSIZE = 2 ^ 32 + new) :
      MmapEffect x k p d n (.ret (k.proc p).sz) (k.setMem p k.phys new d)

/-- How `mmap` of `n` bytes can stop. -/
def MmapStop (k : Kernel Kmem) (p : ProcPtr) (d : Pgdir) (n : ℤ) (e : Panic) : Prop :=
  ∃ m : ℕ, n = m * PGSIZE ∧ (k.proc p).sz + m * PGSIZE < 2 ^ 32 ∧
    (e = .nullDeref ∧ k.phys.free.length <
        (missing d ((k.proc p).sz / PGSIZE) ((k.proc p).sz / PGSIZE + m)).card ∨
      e = .kernelUnmapped ∧ KERNLINK + PGSIZE ≤ (k.proc p).sz + m * PGSIZE)

theorem sys_mmap_spec {n : ℤ} (hks : k.kstack p ≠ none) (hd : k.pgdir p = some d)
    (hsz : (k.proc p).sz < KERNLINK + PGSIZE)
    (ha : Acct InRange k.phys.kmem (x + k.rest p + d.holds)) :
    wp (sys_mmap p n) (MmapEffect x k p d (argint n)) (fun e _ => MmapStop k p d (argint n) e)
      k := by
  obtain ⟨hlo, hhi⟩ := argint_bounds n
  unfold sys_mmap
  by_cases hbad : argint n < 0 ∨ (argint n).tmod PGSIZE ≠ 0
  · rw [if_pos hbad, wp_pure]
    refine .refused (hbad.imp_right fun hmod => ?_)
    rcases lt_or_ge (argint n) 0 with hneg | hpos
    · intro he
      exact hmod (Int.tmod_eq_zero_of_dvd (Int.dvd_of_emod_eq_zero he))
    · rwa [Int.tmod_eq_emod_of_nonneg hpos] at hmod
  rw [if_neg hbad]
  obtain ⟨hpos, hmod⟩ := not_or.mp hbad
  rw [not_not, Int.tmod_eq_emod_of_nonneg (by omega)] at hmod
  obtain ⟨m, hm⟩ : ∃ m : ℕ, argint n = m * PGSIZE := by
    refine ⟨(argint n / PGSIZE).toNat, ?_⟩
    simp only [PGSIZE] at hmod ⊢
    omega
  simp only [wp_bind, wp_get, wp_setProc, wp_pure]
  have hstart : ∀ new, addInt (k.proc p).sz (argint n) = new →
      { k with proc := k.proc.set p fun q => { q with sz := addInt q.sz (argint n) } } =
        k.setMem p k.phys new d := by
    rintro new rfl
    rw [Kernel.setMem, ← hd, Function.update_eq_self]
    rfl
  have hadd := hm
  simp only [PGSIZE] at hadd
  rw [KERNLINK_PGSIZE] at hsz
  rcases Nat.lt_or_ge ((k.proc p).sz + m * 4096) (2 ^ 32) with hlt | hge
  · rw [hstart ((k.proc p).sz + m * 4096) (by unfold addInt; omega)]
    have hloop := @mmapLoop_spec _ x (k.rest p) k.phys d _ k p (k.proc p).sz m hks rfl hlt
      loopFuel 0 k.phys d (by simp only [loopFuel]; omega) (Nat.zero_le m)
      (by rwa [Nat.zero_mul]) (.start ha)
    rw [Nat.zero_mul] at hloop
    refine wp_mono hloop (fun _ k' h => ?_) fun e _ he => ?_
    · obtain ⟨hnew, s', d', rfl, hM⟩ := h
      exact .marked hm hnew hM
    · exact ⟨m, hm, hlt, he⟩
  · obtain ⟨new, hnew⟩ := Nat.exists_eq_add_of_le hge
    rw [hstart new (by unfold addInt; omega), loopFuel, mmapLoop]
    simp only [wp_bind, wp_get, Kernel.setMem_self.1]
    rw [if_neg (by omega), wp_pure]
    exact .wrapped hm hnew

end Mmap

end OsLabs.Lazy
