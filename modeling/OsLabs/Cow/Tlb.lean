import OsLabs.Cow.Refcount

/-!
# No stale writable translation

`fork` takes the right to write from the parent's live page table, but reloads `cr3` only when it
succeeds. The TLB of the processor that runs the parent may then still hold the old writable
entries. `NoStale` is why this does no harm: an entry overwritten since the last `lcr3` that
permitted writing refers to a frame that the process still maps and that nobody else uses.

* `NoStale.step`: every operation but a failing `sbrk` keeps it;
* `no_stale_writable`: so no page table entry and no translation that permits writing refers to a
  frame with a count above 1.
-/

namespace OsLabs.Cow

open Xv6 StateError Ledger

/-- A translation that permits writing, of the page `t.1` by the entry `t.2`, refers to a frame
that `d` still maps there and that has no second claim in `o`. -/
def Harmless (o : Ledger ℕ) (d : Pgdir) (t : ℕ × Pte) : Prop :=
  t.1 < UPAGES → t.2.P = true → t.2.W = true →
    refs o t.2.ppn ≤ 1 ∧ (d.ent t.1).P = true ∧ (d.ent t.1).ppn = t.2.ppn

/-- The overwritten entries of running processes are harmless. -/
def NoStale (k : Kernel Kmem) : Prop :=
  ∀ p d, (k.proc p).state = .RUNNING → k.pgdir p = some d → ∀ t ∈ d.stale,
    Harmless (0 + k.total) d t

theorem Harmless.grow {o o' : Ledger ℕ} {d : Pgdir} {t : ℕ × Pte} (h : Harmless o d t)
    (hg : Grow o o') : Harmless o' d t := by
  intro ht hP hW
  obtain ⟨h1, h2⟩ := h ht hP hW
  have := hg t.2.ppn
  exact ⟨by omega, h2⟩

section Step

variable [Layout] {k k' : Kernel Kmem} {p : ProcPtr} {op : Op} {res : Result}

omit [Layout] in
/-- Running processes keep their directories, or have just loaded them. -/
theorem NoStale.mono (h : NoStale k) (hg : Grow (0 + k.total) (0 + k'.total))
    (hd : ∀ q d, (k'.proc q).state = .RUNNING → k'.pgdir q = some d →
      (k.proc q).state = .RUNNING ∧ k.pgdir q = some d ∨ d.stale = []) : NoStale k' := by
  intro q d hr hq t ht
  rcases hd q d hr hq with ⟨hr', hq'⟩ | h0
  · exact (h q d hr' hq' t ht).grow hg
  · rw [h0] at ht
    exact absurd ht (List.not_mem_nil)

theorem NoStale.common (h : NoStale k) (he : CommonEffect 0 k op res k')
    (hs : ∀ q n, op = .sbrk q n → res ≠ .ret (-1)) : NoStale k' := by
  refine h.mono he.grow fun q d' hr hd' => ?_
  cases he.dir (live_of_running hr) hd' with
  | same hl hd hsz hs =>
    rcases hs with ⟨rfl, hr'⟩ | rfl
    · exact Or.inl ⟨hr' hr, hd⟩
    · exact Or.inr rfl
  | sbrk hop _ _ _ _ he _ =>
    cases he with
    | same => exact Or.inr rfl
    | grown => exact Or.inr rfl
    | shrunk => exact Or.inr rfl
    | refused => exact absurd rfl (hs q _ hop)
    | failed => exact absurd rfl (hs q _ hop)
    | emptied => exact absurd rfl (hs q _ hop)
  | image _ _ hd => exact Or.inr (by rw [hd]; rfl)

omit [Layout] in
/-- The handler ends with `lcr3`. -/
theorem NoStale.fault (h : NoStale k) (hl : k.live p) {d d' : Pgdir} {v : ℕ} {s' : Phys Kmem}
    (hd : k.pgdir p = some d) (hv : v < UPAGES) (hP : (d.ent v).P = true)
    (hf : FaultEffect d v (0 + k.rest p) k.phys d' s') :
    NoStale (k.setMem p s' (k.proc p).sz d'.flush) := by
  refine h.mono ?_ fun q d₁ hr hq => ?_
  · rw [Kernel.total_setMem hl, Kernel.total_eq_rest hl hd, ← add_assoc, ← add_assoc]
    exact hf.grow hv hP
  · by_cases hqp : q = p
    · subst hqp
      obtain rfl : d'.flush = d₁ := Option.some.inj (Kernel.setMem_self.2.symm.trans hq)
      exact Or.inr rfl
    · rw [(Kernel.setMem_of_ne hqp).1] at hr
      exact Or.inl ⟨hr, (Kernel.setMem_of_ne hqp).2.symm.trans hq⟩

omit [Layout] in
theorem NoStale.same (h : NoStale k) (hs : SameDirs k k') : NoStale k' := by
  refine h.mono (by rw [hs.same.total]; exact .refl _) fun q d hr hq => ?_
  exact Or.inl ⟨hs.running q hr, hs.pgdir ▸ hq⟩

theorem NoStale.access (h : NoStale k) (hl : k.live p) {va : ℕ} {w : Option UInt8}
    (he : AccessEffect p va w k res k') : NoStale k' := by
  cases he with
  | direct he => exact h.same (he.same hl)
  | fault hv hup hd hP hC hno hf ha he =>
    exact (h.fault hl hd hup hP hf).same (he.same ((Kernel.live_setMem p).mpr hl))

/-- A `fork` that fails part way leaves old entries behind, of pages that were writable and so
had one owner. -/
theorem NoStale.unborn (h : NoStale k) (hok : Ok k) (hl : k.live p) {np : ProcPtr} {n : ℕ}
    {s' : Phys Kmem} {d d' : Pgdir} {pgdir : ProcPtr → Option Pgdir}
    (hnp : (k.proc np).state = .UNUSED) (hd : k.pgdir p = some d) (hp : Protected d d' n)
    (hcur : pgdir p = some d') (hpg : ∀ j, j ≠ p → j ≠ np → pgdir j = k.pgdir j) :
    NoStale (k.unborn np s' pgdir) := by
  have htot : (k.unborn np s' pgdir).total = k.total := by
    rw [Kernel.total_unborn hl hnp hcur hpg, hp.holds, ← Kernel.total_eq_rest hl hd]
  have hrun : ∀ q, ((k.unborn np s' pgdir).proc q).state = .RUNNING →
      q ≠ np ∧ (k.proc q).state = .RUNNING := by
    intro q hr
    by_cases hq : q = np
    · subst hq
      simp [Kernel.unborn] at hr
    · exact ⟨hq, by simpa [Kernel.unborn, Table.set_ne, hq] using hr⟩
  intro q d₁ hr hq t ht
  obtain ⟨hqn, hr'⟩ := hrun q hr
  rw [htot]
  by_cases hqp : q = p
  swap
  · exact h q d₁ hr' ((hpg q hqp hqn).symm.trans hq) t ht
  subst hqp
  obtain rfl : d' = d₁ := Option.some.inj (hcur.symm.trans hq)
  intro htu hP hW
  have hent : (d'.ent t.1).P = (d.ent t.1).P ∧ (d'.ent t.1).ppn = (d.ent t.1).ppn := by
    rw [hp.ent]
    split
    · exact ⟨protect_P _, protect_ppn _⟩
    · exact ⟨rfl, rfl⟩
  rw [hent.1, hent.2]
  rcases hp.stale t ht with ht₀ | ⟨-, hW₀, heq⟩
  · exact h q d hr' hd t ht₀ htu hP hW
  · -- the entry was writable when it was replaced
    have hsame : (d.ent t.1).P = true ∧ t.2.ppn = (d.ent t.1).ppn := by
      rcases heq with e | e
      · exact ⟨by rw [← e]; exact hP, by rw [e]⟩
      · rw [e] at hP
        exact ⟨hP, by rw [e]⟩
    rcases hok.pages q d hl hd t.1 htu with hz | ⟨-, -, -, h1⟩
    · rw [hz] at hW₀
      cases hW₀
    · exact ⟨by rw [hsame.2]; exact h1 hW₀, hsame.1, hsame.2.symm⟩

theorem NoStale.fork (h : NoStale k) (hok : Ok k) (hl : k.live p) {d : Pgdir}
    (hd : k.pgdir p = some d) (he : ForkEffect (CopyEffect d (k.proc p).sz) true 0 k p res k') :
    NoStale k' := by
  cases he with
  | full => exact h
  | @noStack np hnp hfree =>
    have hun : (k.proc np).state = .UNUSED := by simpa using Table.first_some hnp
    exact h.unborn hok hl hun hd (.refl d) hd fun _ _ _ => rfl
  | @noCopy np f s₁ s₂ s' d' hnp hf hm₁ ho₁ hfree hc ha hk ho =>
    have hun : (k.proc np).state = .UNUSED := by simpa using Table.first_some hnp
    have hne : p ≠ np := fun e => hl (by rw [e]; exact hun)
    cases hc with
    | failed hn hp hk' ho' hlen =>
      refine h.unborn hok hl hun hd hp ?_ fun j hjp hjn => ?_
      · rw [Function.update_of_ne hne, Function.update_self]
      · rw [Function.update_of_ne hjn, Function.update_of_ne hjp]
  | @born np f s₁ s' d' c hnp hf hm₁ ho₁ hfree hc ha =>
    have hun : (k.proc np).state = .UNUSED := by simpa using Table.first_some hnp
    have hne : p ≠ np := fun e => hl (by rw [e]; exact hun)
    cases hc with
    | copied hp hP hc hm ho hlen =>
      have htot : (k.born p np f s' (if true = true then d'.flush else d') c).total =
          0 + k.rest p + excl f + d'.holds + c.holds := by
        rw [Kernel.total_born hl hun, if_pos rfl, Pgdir.holds_flush]
        abel
      intro q d₁ hr hq t ht htu hPt hWt
      have hqn : q ≠ np := fun e => by
        subst e
        simp [Kernel.born] at hr
      have hqp : q ≠ p := fun e => by
        subst e
        have : d'.flush = d₁ := by simpa [Kernel.born, hne] using hq
        rw [← this] at ht
        exact absurd ht (List.not_mem_nil)
      have hr' : (k.proc q).state = .RUNNING := by
        simpa [Kernel.born, Table.set_ne, hqn] using hr
      have hq' : k.pgdir q = some d₁ := by simpa [Kernel.born, hqn, hqp] using hq
      obtain ⟨h1, h2, h3⟩ := h q d₁ hr' hq' t ht htu hPt hWt
      refine ⟨?_, h2, h3⟩
      have hrest : 0 < refs (k.rest p) t.2.ppn := by
        have := Pgdir.refs_uses_pos htu h2
        rw [h3] at this
        exact lt_of_lt_of_le this (refs_uses_le_rest hqp (live_of_running hr') hq' _)
      rw [Kernel.total_eq_rest hl hd, ← hp.holds] at h1
      rw [htot, zero_add]
      exact hc.refs_born_le ha h1 hrest

/-- The operations whose result is not that of a failing `sbrk`. -/
def sbrkSucceeds (_ : Kernel Kmem) (op : Op) (res : Result) : Prop :=
  ∀ p n, op = .sbrk p n → res ≠ .ret (-1)

omit [Layout] in
theorem sbrkSucceeds_of_ne (h : ∀ p n, op ≠ .sbrk p n) : sbrkSucceeds k op res :=
  fun p n he => absurd he (h p n)

theorem NoStale.step (h : NoStale k) (hok : Ok k) (he : Effect k op res k')
    (hc : sbrkSucceeds k op res) : NoStale k' := by
  cases he with
  | common he => exact h.common he hc
  | fork hp hd he => exact h.fork hok (live_of_running hp) hd he
  | load hp he => exact h.access (live_of_running hp) he
  | store hp he => exact h.access (live_of_running hp) he
  | mmap => exact h

theorem noStale_of_reachable (h : Reachable tree sbrkSucceeds k) : NoStale k := by
  have hboth := h.induct (P := fun k => Ok k ∧ NoStale k) (fun M k hb => ⟨ok_of_booted hb, ?_⟩)
    fun k op res k' ih hc hs => ⟨(ih.1.effect hs).ok ih.1, ih.2.step ih.1 (ih.1.effect hs) hc⟩
  · exact hboth.2
  · intro p d hr
    rw [hb.table] at hr
    dsimp only at hr
    split at hr
    · cases hr
    · cases hr

/-- The handler, when it returns to the instruction. -/
theorem trapPgflt_spec (h : NoStale k) (hok : Ok k) (hl : k.live p) {va : ℕ} (hva : va < 2 ^ 32) :
    wp (trapPgflt tree p va) (fun b k' => b = true → Ok k' ∧ NoStale k') (fun _ _ => True) k := by
  obtain ⟨d, f, hd, hf, -, -⟩ := hok.inv.live p hl
  unfold trapPgflt
  simp only [wp_bind, wp_getPgdir hd, wp_onPhys]
  by_cases hk : kills d va
  · rw [kills] at hk
    simp only [tree, pgflt, hk, Bool.false_eq_true, if_false, wp_pure, wp_bind, wp_setProc, exit,
      wp_get, wp_ite, wp_throw, wp_set]
    exact ⟨fun _ => trivial, fun _ h => by cases h⟩
  refine wp_mono (pgflt_spec hok hl hd hva hk) (fun r s' hs => ?_) fun _ _ _ => trivial
  obtain ⟨d', v, rfl, hv, hup, hP, hC, hfault, ha⟩ := hs
  simp only [tree, wp_bind, wp_setPgdir, Bool.false_eq_true, if_false]
  refine (wp_lcr3 (d := d') (Function.update_self ..)).mpr ?_
  simp only [Function.update_idem, wp_pure]
  have h₁ := h.fault hl hd hup hP hfault
  have h₂ := hok.fault hl hd hup hP hfault ha
  rw [Kernel.setMem_sz_self] at h₁ h₂
  exact fun _ => ⟨h₂, h₁⟩

/-- A page below `KERNBASE` that can be written is not copy-on-write, and its frame has no second
user; and no translation the TLB of a running process may hold permits writing to a frame that has
one. -/
structure WritersAlone (k : Kernel Kmem) : Prop where
  not_both : ∀ p d, k.live p → k.pgdir p = some d → ∀ v < UPAGES, (d.ent v).P = true →
    ¬((d.ent v).W = true ∧ (d.ent v).CoW = true)
  pte : ∀ p d, k.live p → k.pgdir p = some d → ∀ v < UPAGES, (d.ent v).P = true →
    (d.ent v).W = true → k.phys.kmem.refcount_list (d.ent v).ppn ≤ 1
  tlb : ∀ p d, (k.proc p).state = .RUNNING → k.pgdir p = some d → ∀ v < UPAGES, ∀ e,
    d.Cached v e → e.W = true → k.phys.kmem.refcount_list e.ppn ≤ 1

theorem writersAlone (hok : Ok k) (h : NoStale k) : WritersAlone k := by
  have hpte : ∀ p d, k.live p → k.pgdir p = some d → ∀ v < UPAGES, (d.ent v).P = true →
      (d.ent v).CoW = !(d.ent v).W ∧
        ((d.ent v).W = true → k.phys.kmem.refcount_list (d.ent v).ppn ≤ 1) := by
    intro p d hl hd v hv hP
    rcases hok.pages p d hl hd v hv with hz | ⟨-, -, hC, h1⟩
    · rw [hz] at hP
      cases hP
    · refine ⟨hC, fun hW => ?_⟩
      rw [hok.inv.acct.count]
      exact_mod_cast h1 hW
  refine ⟨fun p d hl hd v hv hP hboth => ?_, fun p d hl hd v hv hP => (hpte p d hl hd v hv hP).2,
    fun p d hr hd v hv e he hW => ?_⟩
  · rw [(hpte p d hl hd v hv hP).1, hboth.1] at hboth
    cases hboth.2
  · obtain ⟨hP, rfl | hs⟩ := he
    · exact (hpte p d (live_of_running hr) hd v hv hP).2 hW
    · rw [hok.inv.acct.count]
      exact_mod_cast (h p d hr hd (v, e) hs hv hP hW).1

/-- In every state reached without a failing `sbrk`, and when the page-fault handler returns to
the instruction, nothing that can be written through has a second user. -/
theorem no_stale_writable (h : Reachable tree sbrkSucceeds k) :
    WritersAlone k ∧ ∀ p va k', (k.proc p).state = .RUNNING → va < 2 ^ 32 →
      trapPgflt tree p va k = .ok true k' → WritersAlone k' := by
  have hok := ok_of_reachable h
  have hs := noStale_of_reachable h
  refine ⟨writersAlone hok hs, fun p va k' hr hva ht => ?_⟩
  obtain ⟨hok', hs'⟩ := of_ok (trapPgflt_spec hs hok (live_of_running hr) hva) ht rfl
  exact writersAlone hok' hs'

end Step

/-- So it is after `init` has forked, and again after it has written to the page it shares. -/
theorem no_stale_writable_written : ∃ (_ : Layout) (k k' : Kernel Kmem) (d d' : Pgdir),
    Reachable tree sbrkSucceeds k ∧ k.pgdir initSlot = some d ∧
      1 < k.phys.kmem.refcount_list (d.ent 0).ppn ∧
      step tree (.store initSlot 0 0x41) k = .ok (.written 1) k' ∧
      k'.pgdir initSlot = some d' ∧ (d'.ent 0).ppn ≠ (d.ent 0).ppn ∧
      WritersAlone k ∧ WritersAlone k' := by
  let L := sampleLayout
  obtain ⟨k, k', d, d', hr, -, -, hd, hsh, hs, hd', hne⟩ :=
    exists_written (C := sbrkSucceeds) fun _ _ _ => sbrkSucceeds_of_ne
  exact ⟨L, k, k', d, d', hr, hd, hsh, hs, hd', hne, (no_stale_writable hr).1,
    (no_stale_writable (.step hr hs (sbrkSucceeds_of_ne nofun))).1⟩

end OsLabs.Cow
