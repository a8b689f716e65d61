import OsLabs.Xv6.Access

/-!
# Boot

What `main` does before the first process runs: `kinit1` and `kinit2` put the frames from the end
of the kernel up to `PHYSTOP` on the free list, `kvmalloc` and `startothers` take some of them,
and `userinit` makes the first process.

* `freerange_spec`: the frames of the range come under the allocator's control;
* `boot_spec`: a boot that ends leaves a `Booted` kernel, and it ends where the kernel image
  leaves room for the boot stacks and the initial code fits a page (`Fits`);
* `Reachable.induct`: the rule by which invariants of all reachable states are proved;
* `exists_free`: the kernel can use up the free frames, down to any number.
-/

namespace OsLabs.Xv6

open StateError Ledger

section Freerange

variable {κ : Type} [Kalloc κ] [L : Layout] [LawfulKalloc κ]

/-- The number of frames below `PHYSTOP`. -/
def NFRAMES : ℕ := PHYSTOP / PGSIZE

/-- The number of frames that `kinit1` sees. -/
def EFRAMES : ℕ := INITSTOP / PGSIZE

omit L in
theorem NFRAMES_eq : NFRAMES = 57344 := by decide

omit L in
theorem EFRAMES_eq : EFRAMES = 1024 := by decide

/-- The first frame after the kernel. -/
def firstFrame : ℕ := (L.end_ + 4095) / 4096 - UPAGES

/-- The kernel's address of frame `m`. -/
@[irreducible] def frameAddr (m : ℕ) : ℕ := P2V (m * PGSIZE)

/-- The frames below `m` that the allocator knows. -/
def Below (m f : ℕ) : Prop := InRange f ∧ f < m

theorem layout_bounds : 524288 < (L.end_ + 4095) / 4096 ∧ (L.end_ + 4095) / 4096 ≤ 525312 := by
  have h₁ := L.data_le
  have h₂ := L.text_lt
  have h₃ := L.end_le
  simp only [KERNLINK, KERNBASE, EXTMEM, INITSTOP] at h₂ h₃
  omega

theorem inRange_iff {f : ℕ} : InRange f ↔ firstFrame ≤ f ∧ f < NFRAMES := by
  have := layout_bounds
  rw [NFRAMES_eq]
  simp only [InRange, firstFrame, UPAGES_eq, PGSIZE, KERNBASE, PHYSTOP]
  omega

theorem freerangeLoop_spec {o : Ledger ℕ} {M : ℕ} (hM : M ≤ NFRAMES) :
    ∀ {fuel m : ℕ} {s : Phys κ}, M - m < fuel → m ≤ M → firstFrame ≤ m →
    Acct (Below m) s.kmem o →
    wp (freerangeLoop (frameAddr M) fuel (frameAddr m)) (fun _ s' =>
      Acct (Below M) s'.kmem o ∧ s'.oom = s.oom ∧ s'.free.length + m = s.free.length + M)
      (fun _ _ => False) s := by
  intro fuel
  induction fuel with
  | zero => intro m s h; exact absurd h (Nat.not_lt_zero _)
  | succ fuel ih =>
    intro m s hfuel hm h0 ha
    unfold freerangeLoop
    by_cases hlt : m < M
    · rw [if_pos (by simp only [PGSIZE, frameAddr, P2V]; omega)]
      have hv2p : V2P (frameAddr m) / PGSIZE = m := by
        rw [NFRAMES_eq] at hM
        simp only [V2P, frameAddr, P2V, uint, KERNBASE, PGSIZE]
        omega
      have hnext : frameAddr m + PGSIZE = frameAddr (m + 1) := by
        simp only [frameAddr, P2V, PGSIZE]
        omega
      have hin : InRange m := inRange_iff.mpr ⟨h0, by omega⟩
      rw [hv2p, hnext]
      simp only [wp_bind]
      refine wp_mono (LawfulKalloc.kfree_seed ha (fun h => Nat.lt_irrefl m h.2) hin)
        (fun _ s₁ h₁ => ?_) fun _ _ h => h
      obtain ⟨ha₁, ho₁, hf₁⟩ := h₁
      have hdom : (fun g => Below m g ∨ g = m) = Below (m + 1) := by
        funext g
        refine propext ⟨fun h => ?_, fun h => ?_⟩
        · rcases h with h | rfl
          · exact ⟨h.1, by have := h.2; omega⟩
          · exact ⟨hin, by omega⟩
        · by_cases hg : g = m
          · exact Or.inr hg
          · exact Or.inl ⟨h.1, by have := h.2; omega⟩
      rw [hdom] at ha₁
      have hlen : s₁.free.length = s.free.length + 1 := by
        rw [Phys.free, hf₁, List.length_cons, Phys.free]
      refine wp_post (ih (by omega) (by omega) (by omega) ha₁) fun _ s₂ h₂ => ?_
      exact ⟨h₂.1, h₂.2.1.trans ho₁, by have := h₂.2.2; omega⟩
    · obtain rfl : m = M := by omega
      rw [if_neg (by simp only [PGSIZE, frameAddr, P2V]; omega)]
      exact ⟨ha, rfl, by omega⟩

/-- `freerange` of the pages from `m` up to `M`. -/
theorem freerange_spec {o : Ledger ℕ} {m M vstart vend : ℕ} {s : Phys κ} (hM : M ≤ NFRAMES)
    (hm : m ≤ M) (h0 : firstFrame ≤ m) (hv : PGROUNDUP vstart = frameAddr m)
    (hvend : vend = frameAddr M) (ha : Acct (Below m) s.kmem o) :
    wp (freerange vstart vend) (fun _ s' =>
      Acct (Below M) s'.kmem o ∧ s'.oom = s.oom ∧ s'.free.length + m = s.free.length + M)
      (fun _ _ => False) s := by
  unfold freerange
  rw [hv, hvend]
  refine freerangeLoop_spec hM ?_ hm h0 ha
  rw [NFRAMES_eq] at hM
  simp only [loopFuel]
  omega

theorem firstFrame_le : firstFrame ≤ EFRAMES := by
  have := layout_bounds
  rw [firstFrame, UPAGES_eq, EFRAMES_eq]
  omega

omit L in
theorem EFRAMES_le : EFRAMES ≤ NFRAMES := by
  rw [EFRAMES_eq, NFRAMES_eq]
  decide

/-- The range of `kinit1` begins at the end of the kernel. -/
theorem PGROUNDUP_end : PGROUNDUP L.end_ = frameAddr firstFrame := by
  have hb := layout_bounds
  rw [firstFrame, UPAGES_eq]
  simp only [PGROUNDUP, uint, frameAddr, PGSIZE, P2V, KERNBASE]
  omega

omit L in
theorem P2V_INITSTOP : P2V INITSTOP = frameAddr EFRAMES := by
  simp only [frameAddr, P2V, PGSIZE, INITSTOP, EFRAMES_eq]

omit L in
theorem PGROUNDUP_INITSTOP : PGROUNDUP (P2V INITSTOP) = frameAddr EFRAMES := by
  unfold PGROUNDUP uint frameAddr P2V INITSTOP PGSIZE KERNBASE
  rewrite [EFRAMES_eq]
  omega

omit L in
theorem P2V_PHYSTOP : P2V PHYSTOP = frameAddr NFRAMES := by
  simp only [frameAddr, P2V, PGSIZE, PHYSTOP, NFRAMES_eq]

theorem Below_firstFrame : Below firstFrame = fun _ => False := by
  funext f
  exact propext ⟨fun h => absurd (inRange_iff.mp h.1).1 (Nat.not_le.mpr h.2), False.elim⟩

theorem Below_NFRAMES : Below NFRAMES = InRange := by
  funext f
  exact propext ⟨fun h => h.1, fun h => ⟨h, (inRange_iff.mp h).2⟩⟩

/-- `kinit1`, on the frames below 4 MB. -/
theorem kinit1_spec {s : Phys κ} (ha : Acct (fun _ => False) s.kmem 0) :
    wp (freerange L.end_ (P2V INITSTOP)) (fun _ s' => Acct (Below EFRAMES) s'.kmem 0 ∧
      s'.oom = s.oom ∧ s'.free.length + firstFrame = s.free.length + EFRAMES)
      (fun _ _ => False) s := by
  rw [← Below_firstFrame] at ha
  exact freerange_spec EFRAMES_le firstFrame_le (le_refl _) PGROUNDUP_end P2V_INITSTOP ha

/-- `kinit2`, on the rest. -/
theorem kinit2_spec {s : Phys κ} {o : Ledger ℕ} (ha : Acct (Below EFRAMES) s.kmem o) :
    wp (freerange (P2V INITSTOP) (P2V PHYSTOP)) (fun _ s' => Acct InRange s'.kmem o ∧
      s'.oom = s.oom ∧ s'.free.length + EFRAMES = s.free.length + NFRAMES)
      (fun _ _ => False) s := by
  rw [← Below_NFRAMES]
  exact freerange_spec (le_refl NFRAMES) EFRAMES_le firstFrame_le PGROUNDUP_INITSTOP P2V_PHYSTOP ha

end Freerange

section Boot

variable {κ : Type}

/-- The slot of the first process. -/
def initSlot : ProcPtr := ⟨0, Nat.zero_lt_succ 63⟩

/-- The kernel before there are processes. -/
def early (s : Phys κ) (d : Pgdir) (h : List ℕ) : Kernel κ :=
  { phys := s, kpgdir := some d, held := h }

/-- The ledger of a kernel in which no slot is in use. -/
theorem total_early (s : Phys κ) (d : Pgdir) (h : List ℕ) :
    (early s d h).total = d.holds + (h.map excl).sum := by
  have : ∀ p ∈ Finset.univ, (early s d h).slotHolds p = 0 := fun p _ => rfl
  rw [Kernel.total, Finset.sum_eq_zero this, add_zero]
  rfl

theorem first_early (s : Phys κ) (d : Pgdir) (h : List ℕ) :
    (early s d h).proc.first (·.state = .UNUSED) = some initSlot := rfl

variable [Kalloc κ] [L : Layout] [LawfulKalloc κ]

/-- A booted kernel: one process, with the initial code in its only page. -/
structure Booted (M : Machine) (k : Kernel κ) : Prop where
  inv : Inv 0 k
  oom : k.phys.oom = false
  table : k.proc = fun q => if q = initSlot then { sz := PGSIZE, state := .RUNNABLE, pid := 1 } else {}
  nextpid : k.nextpid = 2
  initproc : k.initproc = some initSlot
  free : 50000 ≤ k.phys.free.length
  dir : ∃ d, k.pgdir initSlot = some d ∧ Image (0 + k.rest initSlot) d 1 ∧ (d.ent 0).U = true ∧
    k.phys.mem (d.ent 0).ppn = writeBytes zeroPage 0 M.initcode ∧ ∀ i < 512, d.has i → i = 0

/-- The kernel with its first process. -/
def firstKernel (s : Phys κ) (d : Pgdir) (h : List ℕ) (f : ℕ) (d₂ : Pgdir) : Kernel κ :=
  { phys := s
    proc := fun q =>
      if q = initSlot then { sz := PGSIZE, state := .RUNNABLE, pid := 1 } else {}
    pgdir := Function.update (fun _ => none) initSlot (some d₂)
    kstack := Function.update (fun _ => none) initSlot (some f)
    nextpid := 2
    initproc := some initSlot
    kpgdir := some d
    held := h }

theorem booted_firstKernel {M : Machine} {s₀ s : Phys κ} {d d₂ : Pgdir} {h : List ℕ} {f : ℕ}
    (ha : Acct InRange s.kmem ((early s₀ d h).total + excl f + d₂.holds))
    (hi : Image ((early s₀ d h).total + excl f) d₂ 1) (ho : s.oom = false)
    (hU : (d₂.ent 0).U = true) (hm : s.mem (d₂.ent 0).ppn = writeBytes zeroPage 0 M.initcode)
    (hfree : 50000 ≤ s.free.length) (hhas : ∀ i < 512, d₂.has i → i = 0) :
    Booted M (firstKernel s d h f d₂) := by
  have hunused : ∀ q, q ≠ initSlot → (firstKernel s d h f d₂).proc q = {} := fun q hq => if_neg hq
  have hused : (firstKernel s d h f d₂).proc initSlot =
      { sz := PGSIZE, state := .RUNNABLE, pid := 1 } := by simp [firstKernel]
  have hlive : ∀ {q}, (firstKernel s d h f d₂).live q → q = initSlot := fun {q} hq => by
    by_contra hne
    exact hq (by rw [hunused q hne])
  have hl : (firstKernel s d h f d₂).live initSlot := by simp [Kernel.live, hused]
  have hd : (firstKernel s d h f d₂).pgdir initSlot = some d₂ := by simp [firstKernel]
  have hks : (firstKernel s d h f d₂).kstack initSlot = some f := by simp [firstKernel]
  have hrest : (firstKernel s d h f d₂).rest initSlot = (early s₀ d h).total + excl f := by
    have : ∀ q ∈ Finset.univ.erase initSlot, (firstKernel s d h f d₂).slotHolds q = 0 :=
      fun q hq => by rw [Kernel.slotHolds, hunused q (Finset.ne_of_mem_erase hq)]; rfl
    rw [Kernel.rest, Finset.sum_eq_zero this, add_zero, hks, total_early]
    rfl
  refine ⟨⟨?_, fun q hq => ?_, ⟨fun q hq => ?_, fun q => ?_, fun q q' hqq h0 => ?_⟩⟩, ho, rfl, rfl,
    rfl, hfree, d₂, hd, by rw [hrest, zero_add]; exact hi, hU, hm, hhas⟩
  · rw [Kernel.total_eq_rest hl hd, hrest, zero_add]
    exact ha
  · obtain rfl := hlive hq
    refine ⟨d₂, f, hd, hks, ?_, hi.kernel⟩
    rw [hused]
    simp only [PGSIZE, KERNBASE]
    omega
  · rw [hlive hq, hused]
    exact Nat.one_pos
  · by_cases hq : q = initSlot
    · rw [hq, hused]
      exact Nat.lt_succ_self 1
    · rw [hunused q hq]
      exact Nat.zero_lt_succ 1
  · by_cases hq : q = initSlot
    · rw [hunused q' fun e => hqq (hq.trans e.symm)]
      exact h0
    · rw [hunused q hq] at h0
      exact absurd rfl h0

/-- The initial code fits a page, and the kernel image leaves room for the kernel's page table and
the boot stacks below 4 MB. -/
def Fits (M : Machine) : Prop :=
  M.initcode.length < PGSIZE ∧ firstFrame + M.others + 514 ≤ EFRAMES

/-- The boot stacks of the other processors, before a continuation. -/
theorem wp_startothers {dom : ℕ → Prop} {d : Pgdir} {Q : Unit → Kernel κ → Prop}
    {E : Panic → Kernel κ → Prop} :
    ∀ {n : ℕ} {s : Phys κ} {h : List ℕ}, Acct dom s.kmem (early s d h).total →
    (∀ s' h', Acct dom s'.kmem (early s' d h').total → s'.oom = s.oom → Q () (early s' d h')) →
    (s.free.length < n → ∀ k', E .nullDeref k') → wp (startothers n) Q E (early s d h) := by
  intro n
  induction n with
  | zero => exact fun {s h} ha hQ _ => hQ s h ha rfl
  | succ n ih =>
    intro s h ha hQ hE
    unfold startothers
    simp only [wp_bind, wp_onPhys]
    refine wp_mono (LawfulKalloc.kalloc_spec ha) (fun res s₁ h₁ => ?_) fun _ _ h => h.elim
    cases res with
    | none =>
      have hfree : s.free = [] := h₁.2
      exact hE (by simp [hfree]) _
    | some f =>
      obtain ⟨-, hacct, -, ho, hfree⟩ := h₁
      have hfree' : s.free = f :: s₁.free := hfree
      have ha₁ : Acct dom s₁.kmem (early s₁ d (f :: h)).total := by
        have := hacct _ (isClaim_excl f)
        rw [total_early] at this ⊢
        rwa [List.map_cons, List.sum_cons, add_comm (excl f), ← add_assoc]
      refine ih ha₁ (fun s' h' ha' ho' => hQ s' h' ha' (ho'.trans ho)) fun hlt => hE ?_
      rw [hfree', List.length_cons]
      exact Nat.succ_lt_succ hlt

/-- With enough memory `userinit` makes the first process. -/
theorem userinit_spec {M : Machine} {s : Phys κ} {d : Pgdir} {h : List ℕ}
    (ha : Acct InRange s.kmem (early s d h).total) (ho : s.oom = false)
    (hfree : 55000 ≤ s.free.length) :
    wp (userinit M.initcode) (fun _ k' => Booted M k')
      (fun e _ => e = .inituvm ∧ ¬M.initcode.length < PGSIZE)
      (early s d h) := by
  unfold userinit allocproc
  simp only [wp_bind, wp_get, first_early]
  rw [if_neg (by simp [early, INT_MAX])]
  simp only [wp_bind, wp_set, wp_onPhys]
  refine wp_mono (LawfulKalloc.kalloc_spec ha) (fun res s₁ h₁ => ?_) fun _ _ h => h.elim
  cases res with
  | none =>
    have : s.free = [] := h₁.2
    simp [this] at hfree
  | some f =>
    obtain ⟨-, hacct, -, ho₁, hfree₁⟩ := h₁
    have hfree' : s.free = f :: s₁.free := hfree₁
    rw [hfree', List.length_cons] at hfree
    simp only [wp_setKstack, wp_pure, wp_bind, wp_modify, wp_onPhys]
    refine wp_mono (setupkvm_image (hacct _ (isClaim_excl f))) (fun res s₂ h₂ => ?_)
      fun _ _ h => h.elim
    cases res with
    | none => omega
    | some d₁ =>
      obtain ⟨ha₂, -, -, ho₂, hi, hlen₂, hhas₁⟩ := h₂
      simp only [wp_bind, wp_onPhys, wp_setPgdir, wp_setProc]
      by_cases hinit : M.initcode.length < PGSIZE
      swap
      · unfold inituvm
        rw [if_pos (Nat.le_of_not_lt hinit)]
        exact ⟨rfl, hinit⟩
      refine wp_mono (inituvm_image hi ha₂ (by omega) hinit) (fun d₂ s₃ h₃ => ?_)
        fun _ _ h => h.elim
      obtain ⟨ha₃, hi₂, ho₃, hU, hmem, hlen₃, hhas₂⟩ := h₃
      have htable : ((early s d h).proc.set initSlot fun q =>
          { q with sz := PGSIZE, state := .RUNNABLE, pid := 1 }) =
          fun q => if q = initSlot then { sz := PGSIZE, state := .RUNNABLE, pid := 1 } else {} := by
        funext q
        rw [Table.set_apply]
        rfl
      rw [Table.set_set]
      have hfin : Booted M (firstKernel s₃ d h f d₂) :=
        booted_firstKernel ha₃ hi₂ (ho₃.trans (ho₂.trans (ho₁.trans ho))) hU hmem
          (by omega) fun i hi h => (hhas₂ i h).resolve_left fun h₁ =>
            not_mem_kernelTables hi ((hhas₁ i).mp h₁)
      rw [firstKernel, ← htable] at hfin
      exact hfin

/-- A boot that ends leaves a booted kernel. -/
theorem boot_spec (M : Machine) :
    wp (boot M) (fun _ k => Booted M k) (fun e _ => (e = .nullDeref ∨ e = .inituvm) ∧ ¬Fits M)
      (powerOn M : Kernel κ) := by
  have hE := EFRAMES_eq
  have hN := NFRAMES_eq
  unfold boot
  simp only [wp_bind, wp_onPhys]
  refine wp_mono (kinit1_spec LawfulKalloc.acct_init) (fun _ s₁ h₁ => ?_) fun _ _ h => h.elim
  obtain ⟨ha₁, ho₁, hlen₁⟩ := h₁
  refine wp_mono (setupkvm_image ha₁) (fun res s₂ h₂ => ?_) fun _ _ h => h.elim
  cases res with
  | none =>
    have := h₂.2.2.2
    refine ⟨Or.inl rfl, ?_⟩
    rintro ⟨-, h⟩
    omega
  | some d =>
    obtain ⟨ha₂, -, -, ho₂, -, hlen₂, -⟩ := h₂
    simp only [wp_modify, wp_bind]
    have ha₂' : Acct (Below EFRAMES) s₂.kmem (early s₂ d []).total := by
      rw [total_early]
      simpa using ha₂
    refine wp_startothers ha₂' (fun s₃ h ha₃ ho₃ => ?_) fun hlt k' => ?_
    · rw [wp_onPhys]
      refine wp_mono (kinit2_spec ha₃) (fun _ s₄ h₄ => ?_) fun _ _ h => h.elim
      obtain ⟨ha₄, ho₄, hlen₄⟩ := h₄
      refine wp_mono (userinit_spec (s := s₄) (d := d) (h := h) ha₄ ?_ (by omega))
        (fun _ _ h => h) fun _ _ h => ⟨Or.inr h.1, fun hf => h.2 hf.1⟩
      exact ho₄.trans (ho₃.trans (ho₂.trans ho₁))
    · refine ⟨Or.inl rfl, ?_⟩
      rintro ⟨-, hfit⟩
      omega

/-- With enough room the kernel boots. -/
theorem boot_ok {M : Machine} (h : Fits M) :
    ∃ k : Kernel κ, boot M (powerOn M) = .ok () k ∧ Booted M k := by
  obtain ⟨⟨⟩, k, hk, hb⟩ := wp_ok (wp_mono (boot_spec (κ := κ) M) (fun _ _ h => h)
    fun _ _ he => he.2 h)
  exact ⟨k, hk, hb⟩

/-! ## Reachable states -/

section Booted

variable {M : Machine} {k : Kernel κ}

/-- The only process of a booted kernel. -/
theorem Booted.eq_of_live (h : Booted M k) {q : ProcPtr} (hl : k.live q) : q = initSlot := by
  by_contra hne
  rw [Kernel.live, h.table] at hl
  exact hl (by simp [hne])

theorem Booted.live (h : Booted M k) : k.live initSlot := by
  rw [Kernel.live, h.table]
  simp

theorem Booted.sz (h : Booted M k) : (k.proc initSlot).sz = PGSIZE := by
  rw [h.table]
  simp

theorem Booted.invOf {ok : ℕ → Pgdir → Prop} (hs : Shape κ ok) (h : Booted M k) :
    InvOf ok 0 k := by
  refine ⟨h.inv.acct, fun q hq => ?_, h.inv.pids⟩
  obtain ⟨d, f, hd, hf, -⟩ := h.inv.live q hq
  obtain rfl := h.eq_of_live hq
  obtain ⟨d', hd', hi, -, -⟩ := h.dir
  obtain rfl : d' = d := Option.some.inj (hd'.symm.trans hd)
  refine ⟨d', f, hd, hf, ?_⟩
  rw [h.sz]
  exact hs.image (by decide) hi

theorem Booted.pages {ok : ℕ → Pte → Prop} (hok : Policy ok) (h : Booted M k) :
    Pages ok 0 k := by
  intro q d hl hd v hv
  obtain rfl := h.eq_of_live hl
  obtain ⟨d', hd', hi, -, -⟩ := h.dir
  obtain rfl : d' = d := Option.some.inj (hd'.symm.trans hd)
  by_cases hv0 : v < 1
  · obtain ⟨hP, hW, hC, hL⟩ := hi.low v hv0
    rw [Kernel.total_eq_rest hl hd, ← add_assoc, hi.alone v hv hP]
    exact hok.fresh _ hP hW hC hL
  · rw [hi.high v (Nat.le_of_not_lt hv0) hv]
    exact hok.zero _

theorem Booted.tight (h : Booted M k) : Tight k := by
  intro q d hl hd v hge hv
  obtain rfl := h.eq_of_live hl
  obtain ⟨d', hd', hi, -, -⟩ := h.dir
  obtain rfl : d' = d := Option.some.inj (hd'.symm.trans hd)
  rw [h.sz] at hge
  rw [hi.high v hge hv]
  rfl

theorem Booted.injective (h : Booted M k) : Injective k := by
  intro q d hl hd v w hv hw hPv hPw he
  obtain rfl := h.eq_of_live hl
  obtain ⟨d', hd', hi, -, -⟩ := h.dir
  obtain rfl : d' = d := Option.some.inj (hd'.symm.trans hd)
  have hzero : ∀ u < UPAGES, (d'.ent u).P = true → u = 0 := fun u hu hP => by
    by_contra hne
    rw [hi.high u (Nat.pos_of_ne_zero hne) hu] at hP
    cases hP
  rw [hzero v hv hPv, hzero w hw hPw]

end Booted

/-- What holds after boot and is kept by every operation holds in every reachable state. -/
theorem Reachable.induct {T : Tree κ} {C : Kernel κ → Op → Result → Prop} {P : Kernel κ → Prop}
    (hboot : ∀ M k, Booted M k → P k)
    (hstep : ∀ k op res k', P k → C k op res → Xv6.step T op k = .ok res k' → P k') {k : Kernel κ}
    (h : Reachable T C k) : P k := by
  induction h with
  | @boot M k hb =>
    have hbooted := of_ok (boot_spec M) hb
    exact hboot M k hbooted
  | step _ hs hc ih => exact hstep _ _ _ _ ih hc hs

/-- The kernel takes the first free frame for itself. -/
theorem step_kalloc {T : Tree κ} {o : Ledger ℕ} {k : Kernel κ} (h : Acct InRange k.phys.kmem o)
    {g : ℕ} {l : List ℕ} (hfree : k.phys.free = g :: l) :
    ∃ s', Xv6.step T .kalloc k = .ok (.ret g) { k with phys := s', held := g :: k.held } ∧
      s'.free = l := by
  have hwp : wp (Xv6.step T .kalloc) (fun res k' => res = .ret g ∧ ∃ s',
      k' = { k with phys := s', held := g :: k.held } ∧ s'.free = l) (fun _ _ => False) k := by
    unfold Xv6.step
    simp only [wp_bind, wp_onPhys]
    refine wp_mono (LawfulKalloc.kalloc_spec h) (fun r s' hs => ?_) fun _ _ h => h.elim
    cases r with
    | none =>
      rw [show k.phys.free = [] from hs.2] at hfree
      cases hfree
    | some f =>
      obtain ⟨-, -, -, -, hf⟩ := hs
      obtain ⟨rfl, rfl⟩ := List.cons.inj (hfree.symm.trans hf)
      simp only [wp_bind, wp_modify, wp_pure]
      exact ⟨trivial, s', rfl, rfl⟩
  obtain ⟨res, k', hs, rfl, s', rfl, hl⟩ := wp_ok hwp
  exact ⟨s', hs, hl⟩

/-- The kernel can take free frames until `n` of them are left. -/
theorem exists_free {T : Tree κ} {C : Kernel κ → Op → Result → Prop}
    (hC : ∀ k g, C k .kalloc (.ret g))
    (hok : ∀ k, Reachable T C k → ∃ o, Acct InRange k.phys.kmem o)
    {k : Kernel κ} (h : Reachable T C k) {n : ℕ} (hn : n ≤ k.phys.free.length) :
    ∃ k', Reachable T C k' ∧ k'.phys.free.length = n ∧ k'.proc = k.proc ∧
      k'.pgdir = k.pgdir ∧ k'.nextpid = k.nextpid ∧ ∀ f, refs k.total f ≤ refs k'.total f := by
  generalize hl : k.phys.free = l at hn
  induction l generalizing k with
  | nil =>
    refine ⟨k, h, ?_, rfl, rfl, rfl, fun _ => le_refl _⟩
    rw [hl]
    exact (Nat.le_zero.mp hn).symm
  | cons g l ih =>
    by_cases hlen : n = l.length + 1
    · exact ⟨k, h, by rw [hl, hlen, List.length_cons], rfl, rfl, rfl, fun _ => le_refl _⟩
    obtain ⟨o, ho⟩ := hok k h
    obtain ⟨s', hs, hl'⟩ := step_kalloc (T := T) ho hl
    rw [List.length_cons] at hn
    obtain ⟨k', hk', hfree, hproc, hpg, hpid, hle⟩ := ih (.step h hs (hC ..)) hl' (by omega)
    refine ⟨k', hk', hfree, hproc, hpg, hpid, fun f => le_trans ?_ (hle f)⟩
    rw [Kernel.total_cons_held, refs_add]
    exact Nat.le_add_right _ _

end Boot

/-! ## A machine -/

/-- The addresses of a kernel as the linker might lay it out. -/
abbrev sampleLayout : Layout where
  data := 0x80109000
  end_ := 0x8014e4d0
  data_aligned := by decide
  text_lt := by decide
  data_le := by decide
  end_le := by decide

/-- A machine with two processors and a few bytes of initial code. -/
def sampleMachine : Machine where
  mem := fun _ => zeroPage
  others := 1
  initcode := [0x90, 0xeb, 0xfd]

theorem sample_fits : @Fits sampleLayout sampleMachine := ⟨by decide, by decide⟩

end OsLabs.Xv6
