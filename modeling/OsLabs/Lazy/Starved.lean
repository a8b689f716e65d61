import OsLabs.Lazy.Steps

/-!
# When the lazy kernel runs out of memory

The page-fault handler does not look at the result of `allocuvm`, and `copyuvm` does not look at
the pointer that `walkpgdir` returns for a lazy page of the child.

* `faultSafe_iff`: a fault on a lazy page leaves it usable, or the process killed, if and only if
  there was a frame and the page lies below `KERNBASE` (or the process had been killed before);
* `forkSafe_iff`: `copyuvm` gives everything back, unless memory runs out exactly where a lazy
  page needs a page table (`Stuck`);
* `starved_safe_iff`: both, in every reachable state.
-/

namespace OsLabs.Lazy

open Xv6 StateError Ledger
open Base (Kmem)

section Starved

variable [Layout] {x : Ledger ℕ} {k : Kernel Kmem} {p : ProcPtr} {d : Pgdir}

/-! ## A fault without a frame -/

/-- After the fault of `p` at `va` the page is present or still lazy, or the process is killed. -/
def FaultSafe (k : Kernel Kmem) (p : ProcPtr) (va : ℕ) : Prop :=
  ∃ b k' d', trapPgflt tree p va k = .ok b k' ∧ k'.pgdir p = some d' ∧
    ((d'.ent (va / 4096)).P = true ∨ (d'.ent (va / 4096)).LAZY = true ∨ (k'.proc p).killed = true)

/-- The handler on a lazy page. -/
theorem trapPgflt_lazy {va : ℕ} (h : InvOf LazyOk x k) (hl : k.live p) (hd : k.pgdir p = some d)
    (hva : va < 2 ^ 32) (hL : (d.ent (va / 4096)).LAZY = true) :
    ∃ s' d', trapPgflt tree p va k = .ok true (k.setMem p s' (k.proc p).sz d'.flush) ∧
      FaultEffect d (va / 4096) (x + k.rest p) k.phys d' s' := by
  obtain ⟨d₀, f, hd₀, hf, hok⟩ := h.live p hl
  obtain rfl : d = d₀ := Option.some.inj (hd.symm.trans hd₀)
  have hwp : wp (trapPgflt tree p va) (fun b k' => b = true ∧ ∃ s' d',
      k' = k.setMem p s' (k.proc p).sz d'.flush ∧
      FaultEffect d (va / 4096) (x + k.rest p) k.phys d' s') (fun _ _ => False) k := by
    unfold trapPgflt
    simp only [wp_bind, wp_getPgdir hd, wp_onPhys]
    refine wp_mono (pgflt_spec hva rfl hL ((hok.ent _).excl hL) (h.acct_rest hl hd))
      (fun r s' hs => ?_) fun _ _ h => h.elim
    obtain ⟨d', rfl, hfault, -⟩ := hs
    simp only [wp_bind, wp_setPgdir, show tree.switch = true from rfl, if_true, wp_pure]
    refine (wp_switchuvm (d := d') ?_ ?_).mpr ⟨trivial, s', d', ?_, hfault⟩
    · exact Function.update_self ..
    · simp [hf]
    · rw [Kernel.setMem_sz_self]
      simp only [Function.update_idem]
  obtain ⟨b, k', hs, rfl, s', d', rfl, hf⟩ := wp_ok hwp
  exact ⟨s', d', hs, hf⟩

/-- A fault on a lazy page is safe exactly when it finds a frame for a page below `KERNBASE`, up to
processes that had been killed before. -/
theorem faultSafe_iff {va : ℕ} (h : InvOf LazyOk x k) (hl : k.live p) (hd : k.pgdir p = some d)
    (hva : va < 2 ^ 32) (hL : (d.ent (va / 4096)).LAZY = true) :
    FaultSafe k p va ↔
      (k.proc p).killed = true ∨ k.phys.free ≠ [] ∧ va / 4096 + 1 < UPAGES := by
  obtain ⟨s', d', hs, hf⟩ := trapPgflt_lazy h hl hd hva hL
  have hP := ((h.of_live hl hd).2.ent (va / 4096)).excl hL
  have hkilled : ((k.setMem p s' (k.proc p).sz d'.flush).proc p).killed = (k.proc p).killed := by
    rw [Kernel.setMem_sz_self]
  have hsafe : FaultSafe k p va ↔ ((d'.ent (va / 4096)).P = true ∨
      (d'.ent (va / 4096)).LAZY = true ∨ (k.proc p).killed = true) := by
    constructor
    · rintro ⟨b, k', d₁, hs', hd₁, hor⟩
      cases hs.symm.trans hs'
      cases Kernel.setMem_self.2.symm.trans hd₁
      rwa [hkilled] at hor
    · exact fun hor => ⟨_, _, d'.flush, hs, Kernel.setMem_self.2, by rwa [hkilled]⟩
  rw [hsafe]
  cases hf with
  | filled hv hmem hfree hr =>
    have hne : k.phys.free ≠ [] := by simp [hfree]
    simp [hr.ent, hne, hv]
  | spent hv hfree hr => simp [hr.ent, hP, hfree]
  | beyond hv hr => simp [hr.ent, hP, Nat.not_lt.mpr hv]

/-! ## A fork without a frame -/

/-- `copyuvm` follows no null pointer, and where a `kalloc` fails it returns no directory and has
freed what it had taken. -/
def ForkSafe (d : Pgdir) (sz : ℕ) (s : Phys Kmem) : Prop :=
  wp (copyuvm d sz) (fun r s' => s'.oom = true → r.1 = none ∧ ∀ f, f ∈ s'.free ↔ f ∈ s.free)
    (fun e _ => e ≠ .nullDeref) { s with oom := false }

/-- With `free` frames, `copyuvm` gets to the lazy page `v` and has none left for the page table
that the child needs there. -/
structure Stuck (d : Pgdir) (sz free v : ℕ) : Prop where
  lt : v < pages sz
  user : v < UPAGES
  first : v % 1024 = 0
  LAZY : (d.ent v).LAZY = true
  covered : ∀ w < v, Covered (d.ent w)
  need : need d v = free

omit [Layout] in
/-- It does not get further. -/
theorem Stuck.need_gt {sz free v w : ℕ} (h : Stuck d sz free v) (hw : v < w) :
    free < Lazy.need d w := by
  have h₁ := @need_add_succ d v h.user h.first
  have h₂ := @need_mono d (v + 1) w hw
  have h₃ := h.need
  omega

omit [Layout] in
theorem Stuck.not_short {sz free v : ℕ} (h : Stuck d sz free v) : ¬CopyShort d sz free := by
  rintro ⟨w, -, -, hle, hlt, hL⟩
  rcases lt_trichotomy v w with hw | rfl | hw
  · exact absurd hle (Nat.not_le.mpr (h.need_gt hw))
  · rw [h.LAZY] at hL
    cases hL
  · have := @need_mono d (w + 1) v hw
    rw [h.need] at this
    omega

omit [Layout] in
theorem Stuck.nullDeref {sz free v : ℕ} {e : Panic} (h : Stuck d sz free v)
    (hs : CopyStop d sz free e) : e = .nullDeref := by
  obtain ⟨w, -, hcov, hle, hw⟩ := hs
  have hwv : ¬v < w := fun hlt => absurd hle (Nat.not_le.mpr (h.need_gt hlt))
  rcases hw with ⟨-, hno⟩ | ⟨-, hge, -⟩ | ⟨rfl, -⟩
  · refine absurd ?_ hno
    by_cases hv : w = v
    · exact Or.inr (hv ▸ h.LAZY)
    · exact h.covered w (by omega)
  · have := h.user
    omega
  · rfl

/-- `copyuvm` is safe exactly when it cannot get stuck; 65 frames go into the kernel's part of the
child. -/
theorem forkSafe_iff {r : Ledger ℕ} {sz : ℕ} {s : Phys Kmem} (hpg : pages sz ≤ UPAGES + 257)
    (ha : Acct InRange s.kmem (r + d.holds)) :
    ForkSafe d sz s ↔ ¬∃ free v, s.free.length = free + 65 ∧ Stuck d sz free v := by
  have hspec := @copyuvm_spec _ r { s with oom := false } d sz hpg ha
  constructor
  · rintro hsafe ⟨free, v, hfree, hst⟩
    have hlen : Phys.free { s with oom := false } = s.free := rfl
    cases hm : copyuvm d sz { s with oom := false } with
    | error e s' =>
      obtain ⟨n, hn, hstop⟩ := of_error hspec hm
      rw [hlen] at hn
      obtain rfl : n = free := by omega
      exact of_error hsafe hm (hst.nullDeref hstop)
    | ok res s' =>
      obtain ⟨he, -⟩ := of_ok hspec hm
      cases he with
      | copied _ _ _ _ _ _ hcount =>
        rw [hlen] at hcount
        have := hst.need_gt hst.lt
        omega
      | failed hshort =>
        rw [hlen] at hshort
        rcases hshort with hlt | ⟨n, hn, hshort⟩
        · omega
        · obtain rfl : n = free := by omega
          exact hst.not_short hshort
  · intro hno
    refine wp_mono hspec (fun res s' h => ?_) fun e s' h => ?_
    · obtain ⟨he, ha'⟩ := h
      intro ho
      cases he with
      | copied _ _ _ _ _ hsame =>
        rw [ho] at hsame
        cases hsame
      | failed =>
        rw [Option.elim_none, add_zero] at ha'
        refine ⟨rfl, fun f => ?_⟩
        change f ∈ s'.kmem.freelist ↔ f ∈ s.kmem.freelist
        rw [(ha'.exact).mem_free, (ha.exact).mem_free]
    · rintro rfl
      obtain ⟨n, hn, v, hv, hcov, -, hcase⟩ := h
      rcases hcase with ⟨h | h, -⟩ | ⟨h, -⟩ | ⟨-, hup, hmod, hL, hneed⟩
      · cases h
      · cases h
      · cases h
      · exact hno ⟨n, v, hn, hv, hup, hmod, hL, hcov, hneed⟩

theorem forkSafe_iff_of_kalloc {s : Phys Kmem} {f : ℕ} (h : InvOf LazyOk x k) (hl : k.live p)
    (hd : k.pgdir p = some d) (hs : (kalloc : K Kmem (Option ℕ)) k.phys = .ok (some f) s) :
    ForkSafe d (k.proc p).sz s ↔
      ¬∃ free v, k.phys.free.length = free + 66 ∧ Stuck d (k.proc p).sz free v := by
  obtain ⟨-, hacct, -, -, hfree⟩ := of_ok (LawfulKalloc.kalloc_spec (h.acct_rest hl hd)) hs
  have ha : Acct InRange s.kmem (x + k.rest p + excl f + d.holds) := by
    have := hacct _ (isClaim_excl f)
    rwa [add_right_comm] at this
  have hlen : k.phys.free.length = s.free.length + 1 := by
    change (Kalloc.freelist k.phys.kmem).length = _
    rw [hfree]
    rfl
  have heq : ∀ free, s.free.length = free + 65 ↔ k.phys.free.length = free + 66 := by omega
  rw [forkSafe_iff (h.of_live hl hd).2.pages_le ha]
  simp only [heq]

/-- In every reachable state: when a fault on a lazy page of a running process is safe, and when
its `fork` is, which calls `copyuvm` after it has taken a frame for the stack of the child. -/
theorem starved_safe_iff (h : Reachable tree anyOp k) (hp : (k.proc p).state = .RUNNING)
    (hd : k.pgdir p = some d) :
    (∀ va < 2 ^ 32, (d.ent (va / 4096)).LAZY = true → (FaultSafe k p va ↔
      (k.proc p).killed = true ∨ k.phys.free ≠ [] ∧ va / 4096 + 1 < UPAGES)) ∧
    ∀ f s, (kalloc : K Kmem (Option ℕ)) k.phys = .ok (some f) s →
      (ForkSafe d (k.proc p).sz s ↔
        ¬∃ free v, k.phys.free.length = free + 66 ∧ Stuck d (k.proc p).sz free v) := by
  obtain ⟨x, hx⟩ := ok_of_reachable h
  have hl := live_of_running hp
  refine ⟨fun va hva hL => faultSafe_iff hx hl hd hva hL, fun f s hs => ?_⟩
  exact forkSafe_iff_of_kalloc hx hl hd hs

end Starved

/-! ## Runs that run out of memory -/

/-- `init` maps a page, and there is a free frame when it is touched. -/
theorem starved_safe_started : ∃ (_ : Layout) (k : Kernel Kmem) (p : ProcPtr),
    Reachable tree anyOp k ∧ (k.proc p).state = .RUNNING ∧ FaultSafe k p PGSIZE := by
  let L := sampleLayout
  obtain ⟨k, d, hr, hk, hfree⟩ := @exists_extended 1 1 (by decide) (by decide)
  refine ⟨L, k, initSlot, hr, hk.running, ?_⟩
  refine ((starved_safe_iff hr hk.running hk.dir).1 PGSIZE (by decide)
    (hk.lazy 1 (le_refl 1) (by decide))).mpr (Or.inr ⟨fun hnil => ?_, by decide⟩)
  rw [hnil] at hfree
  cases hfree

/-- `copyuvm` gets stuck at page 1024, with its kernel part, a page table and a copy of page 0. -/
theorem Extended.stuck {k : Kernel Kmem} {d : Pgdir} (hk : Extended 1024 k d)
    (hex : ∀ v, EntryOk v (d.ent v)) : Stuck d (k.proc initSlot).sz 2 1024 := by
  have hzero : (d.ent 0).LAZY = false := by
    by_contra hL
    have := (hex 0).excl (by simpa using hL)
    rw [hk.low] at this
    cases this
  have hcopied : copied d 1024 = {0} := by
    ext w
    rw [mem_copied, Finset.mem_singleton]
    constructor
    · rintro ⟨hw, hL⟩
      by_contra hne
      rw [hk.lazy w (Nat.pos_of_ne_zero hne) (by omega)] at hL
      cases hL
    · rintro rfl
      exact ⟨by decide, hzero⟩
  refine ⟨?_, by decide, rfl, hk.lazy 1024 (by decide) (by decide), fun w hw => ?_, ?_⟩
  · rw [hk.sz]
    decide
  · by_cases hw0 : w = 0
    · exact Or.inl (hw0 ▸ hk.low)
    · exact Or.inr (hk.lazy w (Nat.pos_of_ne_zero hw0) (by omega))
  · rw [need, hcopied]
    rfl

/-- `init` maps a page, the kernel uses up all frames, and the page is touched: it is neither
present nor lazy, and the process goes on. With 1024 pages mapped and 68 frames left, `fork`
follows a null pointer. -/
theorem starved_unsafe : ∃ (_ : Layout) (k₁ k₂ : Kernel Kmem) (p : ProcPtr) (d₁ d₂ : Pgdir),
    (Reachable tree anyOp k₁ ∧ (k₁.proc p).state = .RUNNING ∧ k₁.pgdir p = some d₁ ∧
      (d₁.ent 1).LAZY = true ∧ ¬FaultSafe k₁ p PGSIZE) ∧
    (Reachable tree anyOp k₂ ∧ (k₂.proc p).state = .RUNNING ∧ k₂.pgdir p = some d₂ ∧
      k₂.phys.free.length = 68 ∧ ∃ f s, (kalloc : K Kmem (Option ℕ)) k₂.phys = .ok (some f) s ∧
        ¬ForkSafe d₂ (k₂.proc p).sz s) := by
  let L := sampleLayout
  obtain ⟨k₁, d₁, hr₁, hk₁, hf₁⟩ := @exists_extended 1 0 (by decide) (by decide)
  obtain ⟨k₂, d₂, hr₂, hk₂, hf₂⟩ := @exists_extended 1024 68 (by decide) (by decide)
  obtain ⟨x₁, hx₁⟩ := ok_of_reachable hr₁
  obtain ⟨x₂, hx₂⟩ := ok_of_reachable hr₂
  have hL := hk₁.lazy 1 (le_refl 1) (by decide)
  have hlive₁ := live_of_running hk₁.running
  have hlive₂ := live_of_running hk₂.running
  have hex := (hx₂.of_live hlive₂ hk₂.dir).2.ent
  refine ⟨L, k₁, k₂, initSlot, d₁, d₂, ⟨hr₁, hk₁.running, hk₁.dir, hL, fun hsafe => ?_⟩,
    hr₂, hk₂.running, hk₂.dir, hf₂, ?_⟩
  · rcases (faultSafe_iff hx₁ hlive₁ hk₁.dir (by decide) hL).mp hsafe with hkill | ⟨hne, -⟩
    · rw [hk₁.killed] at hkill
      cases hkill
    · exact hne (List.eq_nil_of_length_eq_zero hf₁)
  · obtain ⟨res, s, hs, hres⟩ := wp_ok (LawfulKalloc.kalloc_spec hx₂.acct)
    cases res with
    | none =>
      obtain ⟨-, hnil⟩ := hres
      change (Kalloc.freelist k₂.phys.kmem).length = 68 at hf₂
      rw [hnil] at hf₂
      cases hf₂
    | some f =>
      refine ⟨f, s, hs, fun hsafe => ?_⟩
      exact (forkSafe_iff_of_kalloc hx₂ hlive₂ hk₂.dir hs).mp hsafe ⟨2, 1024, hf₂, hk₂.stuck hex⟩

end OsLabs.Lazy
