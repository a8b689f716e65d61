import OsLabs.Lazy.Dirs

/-!
# Operations of the lazy kernel that are possible

* `step_mmap`, `step_sbrk` and `step_load_lazy`: with enough memory `mmap`, a growing `sbrk` and
  a first access succeed;
* `exists_started`: a run that has started `init`.
-/

namespace OsLabs.Lazy

open Xv6 StateError Ledger
open Base (Kmem)

section Steps

variable [Layout] {x : Ledger ℕ} {k : Kernel Kmem} {p : ProcPtr} {d : Pgdir} {n : ℤ}

/-- `mmap` of a running process. -/
theorem mmapEffect_of_step (h : InvOf LazyOk x k) (hp : (k.proc p).state = .RUNNING)
    (hd : k.pgdir p = some d) {res : Result} {k' : Kernel Kmem}
    (hs : step tree (.mmap p n) k = .ok res k') : MmapEffect x k p d (argint n) res k' := by
  cases effect_of_step h hs with
  | common he =>
    cases he with
    | disabled hno => exact absurd hp hno
  | mmap _ hd₁ he => rwa [Option.some.inj (hd.symm.trans hd₁)]

/-- `mmap` with an argument that it does not accept. -/
theorem step_mmap_refused (h : InvOf LazyOk x k) (hp : (k.proc p).state = .RUNNING)
    (hbad : argint n < 0 ∨ argint n % PGSIZE ≠ 0) :
    step tree (.mmap p n) k = .ok (.ret 0) k := by
  have hno : ∀ m : ℕ, argint n ≠ m * PGSIZE := fun m hn => by
    simp only [PGSIZE] at hn hbad
    omega
  obtain ⟨d, -, hd, -⟩ := h.live p (live_of_running hp)
  obtain ⟨res, k', hs, -⟩ := wp_ok (wp_mono (step_spec h (.mmap p n)) (fun _ _ h => h)
    fun e _ he => by
      obtain ⟨d₁, -, m, hn, -⟩ := he
      exact hno m hn)
  cases mmapEffect_of_step h hp hd hs with
  | refused => exact hs
  | marked hn => exact absurd hn (hno _)
  | wrapped hn => exact absurd hn (hno _)

/-- `mmap` up to the text of the kernel, with a frame for every page table it needs. -/
theorem step_mmap (h : InvOf LazyOk x k) (hp : (k.proc p).state = .RUNNING)
    (hd : k.pgdir p = some d) {m : ℕ} (hn : argint n = m * PGSIZE)
    (hlt : (k.proc p).sz + m * PGSIZE < KERNLINK + PGSIZE)
    (hfree : (missing d ((k.proc p).sz / PGSIZE) ((k.proc p).sz / PGSIZE + m)).card ≤
      k.phys.free.length) :
    ∃ s' d', step tree (.mmap p n) k = .ok (.ret (k.proc p).sz)
        (k.setMem p s' ((k.proc p).sz + m * PGSIZE) d') ∧
      Marking x (k.rest p) k.phys d ((k.proc p).sz / PGSIZE) ((k.proc p).sz / PGSIZE + m) s'
        d' := by
  have hmax := (argint_bounds n).2
  rw [KERNLINK_PGSIZE] at hlt
  simp only [PGSIZE] at hn hlt hfree
  have hstop : ∀ e, ¬Stop k (.mmap p n) e := by
    rintro e ⟨d₁, hd₁, m', hn', -, he⟩
    obtain rfl : d₁ = d := Option.some.inj (hd₁.symm.trans hd)
    rw [KERNLINK_PGSIZE] at he
    simp only [PGSIZE] at hn' he
    obtain rfl : m' = m := by omega
    rcases he with ⟨-, hshort⟩ | ⟨-, hbig⟩
    · exact absurd hfree (Nat.not_le.mpr hshort)
    · omega
  obtain ⟨res, k', hs, -⟩ :=
    wp_ok (wp_mono (step_spec h (.mmap p n)) (fun _ _ h => h) fun e _ he => hstop e he)
  cases mmapEffect_of_step h hp hd hs with
  | refused hbad =>
    simp only [PGSIZE] at hbad
    omega
  | @marked m' s' d' hn' _ hm =>
    simp only [PGSIZE] at hn'
    obtain rfl : m' = m := by omega
    exact ⟨s', d', hs, hm⟩
  | wrapped hn' hnew =>
    simp only [PGSIZE] at hn' hnew
    omega

/-- `sbrk` of a running process. -/
theorem sbrkEffect_of_step (h : InvOf LazyOk x k) (hp : (k.proc p).state = .RUNNING)
    (hd : k.pgdir p = some d) {res : Result} {k' : Kernel Kmem}
    (hs : step tree (.sbrk p n) k = .ok res k') : ∃ s' sz' d', k' = k.setMem p s' sz' d' ∧
      Acct InRange s'.kmem (x + k.rest p + d'.holds) ∧
      SbrkEffect (x + k.rest p) k.phys d (k.proc p).sz (argint n) res s' sz' d' := by
  cases effect_of_step h hs with
  | common he =>
    cases he with
    | disabled hno => exact absurd hp hno
    | sbrk _ hd₁ he =>
      obtain rfl := Option.some.inj (hd₁.symm.trans hd)
      obtain ⟨s', sz', d', rfl, ha, -, he⟩ := he
      exact ⟨s', sz', d', rfl, ha, he⟩

/-- `sbrk` returns where no page is in the way. -/
theorem exists_sbrkEffect (h : InvOf LazyOk x k) (hp : (k.proc p).state = .RUNNING)
    (hd : k.pgdir p = some d) (hsz : (k.proc p).sz ≤ KERNBASE)
    (hno : ∀ v, pages (k.proc p).sz ≤ v → v < UPAGES → (d.ent v).P = false) :
    ∃ res s' sz' d', step tree (.sbrk p n) k = .ok res (k.setMem p s' sz' d') ∧
      Acct InRange s'.kmem (x + k.rest p + d'.holds) ∧
      SbrkEffect (x + k.rest p) k.phys d (k.proc p).sz (argint n) res s' sz' d' := by
  have hstop : ∀ e, ¬Stop k (.sbrk p n) e := by
    rintro e ⟨d₁, hd₁, ⟨-, v, h₁, h₂, hP⟩ | ⟨-, ho⟩⟩
    · obtain rfl : d₁ = d := Option.some.inj (hd₁.symm.trans hd)
      rw [hno v h₁ h₂] at hP
      cases hP
    · exact Pgdir.not_overlaps hsz ho
  obtain ⟨res, k', hs, -⟩ :=
    wp_ok (wp_mono (step_spec h (.sbrk p n)) (fun _ _ h => h) fun e _ he => hstop e he)
  obtain ⟨s', sz', d', rfl, ha, he⟩ := sbrkEffect_of_step h hp hd hs
  exact ⟨res, s', sz', d', hs, ha, he⟩

/-- `sbrk` by a positive amount, with memory for all it may need and no page in the way. -/
theorem step_sbrk (h : InvOf LazyOk x k) (hp : (k.proc p).state = .RUNNING)
    (hd : k.pgdir p = some d) (hpos : 0 < argint n) {new : ℕ}
    (hnew : (new : ℤ) = (k.proc p).sz + argint n) (hlt : new < KERNBASE)
    (hno : ∀ v, pages (k.proc p).sz ≤ v → v < UPAGES → (d.ent v).P = false)
    (hfree : 1024 + pages new < k.phys.free.length + pages (k.proc p).sz) :
    ∃ s' d', step tree (.sbrk p n) k = .ok (.ret (k.proc p).sz) (k.setMem p s' new d'.flush) ∧
      d.Grown d' (pages (k.proc p).sz) (pages new) := by
  obtain ⟨res, s', sz', d', hs, -, he⟩ := exists_sbrkEffect (n := n) h hp hd (by omega) hno
  cases he with
  | same hz =>
    rw [KERNBASE_eq] at hlt
    omega
  | refused hz => omega
  | grown _ hnew' _ _ hg =>
    obtain rfl : sz' = new := by omega
    exact ⟨s', _, hs, hg⟩
  | @failed _ new' _ _ hnew' _ _ _ _ hlen =>
    obtain rfl : new' = new := by omega
    omega
  | shrunk hn => omega
  | emptied hn => omega

/-- `sbrk` by a negative amount, down to a positive size. -/
theorem step_shrink (h : InvOf LazyOk x k) (hp : (k.proc p).state = .RUNNING)
    (hd : k.pgdir p = some d) (hneg : argint n < 0) {new : ℕ}
    (hnew : (new : ℤ) = (k.proc p).sz + argint n) (hpos : 0 < new) (hsz : (k.proc p).sz ≤ KERNBASE)
    (hno : ∀ v, pages (k.proc p).sz ≤ v → v < UPAGES → (d.ent v).P = false) :
    ∃ s' d', step tree (.sbrk p n) k = .ok (.ret (k.proc p).sz) (k.setMem p s' new d'.flush) ∧
      d.Cleared d' (pages new) (pages (k.proc p).sz) ∧
      k.phys.free.length ≤ s'.free.length := by
  obtain ⟨res, s', sz', d', hs, ha, he⟩ := exists_sbrkEffect (n := n) h hp hd hsz hno
  rw [KERNBASE_eq] at hsz
  cases he with
  | same hz => omega
  | refused hz =>
    rw [KERNBASE_eq] at hz
    omega
  | grown hn => omega
  | failed hn => omega
  | shrunk _ hnew' _ _ hc =>
    obtain rfl : sz' = new := by omega
    refine ⟨s', _, hs, hc, ?_⟩
    -- nobody holds more than before
    refine (LawfulKalloc.exact_of_acct (h.acct_rest (live_of_running hp) hd)).length_le
      (LawfulKalloc.exact_of_acct ha) fun f hf => ?_
    have hle := hc.refs_le f
    rw [← refs_eq_zero, refs_add] at hf ⊢
    rw [Pgdir.holds_flush]
    simp only [Pgdir.holds, refs_add, hc.frame, hc.tables] at hf ⊢
    omega
  | emptied _ hz => omega

omit [Layout] in
/-- An entry with all permissions. -/
theorem allows_of_flags {d : Pgdir} {va v : ℕ} {write : Bool} (hva : va < 2 ^ 32)
    (hv : va / 4096 = v) (h : (d.ent v).toFlags = { P := true, W := true, U := true }) :
    ∃ e, d.allows va write e := by
  rw [Pgdir.exists_allows hva hv, Pte.permits, h]
  simp

/-- A write to a page that is present and open to user code. -/
theorem step_store {va : ℕ} {b : UInt8} (hx : InvOf LazyOk x k) (hp : (k.proc p).state = .RUNNING)
    (hd : k.pgdir p = some d) (hw : (d.ent (uint va / 4096)).permits true = true) :
    ∃ k', step tree (.store p va b) k = .ok (.written 0) k' ∧ k'.phys.oom = k.phys.oom := by
  have hva : uint va < 2 ^ 32 := Nat.mod_lt _ (by decide)
  have hall : ∃ e, d.allows (uint va) true e := (Pgdir.exists_allows hva rfl).mpr hw
  have hstop : ∀ e, ¬Stop k (.store p va b) e := by
    rintro e ⟨-, -, d', hd', hno, -⟩
    obtain rfl := Option.some.inj (hd.symm.trans hd')
    exact hno hall
  obtain ⟨res, k', hs, he⟩ :=
    wp_ok (wp_mono (step_spec hx (.store p va b)) (fun _ _ h => h) fun e _ he => hstop e he)
  cases he with
  | common hc =>
    cases hc with
    | disabled hno => exact absurd hp hno
  | store _ ha =>
    cases ha with
    | direct hend =>
      cases hend with
      | load hw' => cases hw'
      | store => exact ⟨_, hs, rfl⟩
      | killed hd' hno =>
        obtain rfl := Option.some.inj (hd.symm.trans hd')
        exact absurd hall hno
    | @fault v _ d₀ _ _ _ hv hd' hL =>
      obtain rfl := Option.some.inj (hd.symm.trans hd')
      subst hv
      have hP := ((hx.of_live (live_of_running hp) hd).2.ent _).excl hL
      rw [Pte.permits, hP] at hw
      cases hw

/-- A first access to a lazy page below `KERNBASE`, with a free frame. -/
theorem step_load_lazy {va : ℕ} (hx : InvOf LazyOk x k) (hp : (k.proc p).state = .RUNNING)
    (hd : k.pgdir p = some d) (hva : va < 2 ^ 32) (hL : (d.ent (va / 4096)).LAZY = true)
    (hv : va / 4096 + 1 < UPAGES) (hfree : k.phys.free ≠ []) :
    ∃ b s' d' mem, step tree (.load p va) k =
        .ok (.byte b 1) (k.setMem p s' (k.proc p).sz d'.flush) ∧
      Replaced d d' (va / 4096) { P := true, W := true, U := true, ppn := mem } ∧
      s'.oom = k.phys.oom := by
  have hmod : uint va = va := Nat.mod_eq_of_lt hva
  have hP := ((hx.of_live (live_of_running hp) hd).2.ent (va / 4096)).excl hL
  have hno : ¬∃ e, d.allows va false e := by
    rw [Pgdir.exists_allows hva rfl, Pte.permits, hP]
    simp
  have hstop : ∀ e, ¬Stop k (.load p va) e := by
    rintro e ⟨-, -, d', hd', -, hno⟩
    obtain rfl := Option.some.inj (hd.symm.trans hd')
    rw [hmod] at hno
    rcases hno hL with hnil | hge
    · exact hfree hnil
    · exact absurd hge (Nat.not_le.mpr hv)
  obtain ⟨res, k', hs, he⟩ :=
    wp_ok (wp_mono (step_spec hx (.load p va)) (fun _ _ h => h) fun e _ he => hstop e he)
  cases he with
  | common hc =>
    cases hc with
    | disabled hno => exact absurd hp hno
  | load _ ha =>
    rw [hmod] at ha
    cases ha with
    | direct hend =>
      cases hend with
      | load hw hd' ha => exact absurd ⟨_, Option.some.inj (hd'.symm.trans hd) ▸ ha⟩ hno
      | store hw => cases hw
      | killed hd' _ hkill =>
        obtain rfl := Option.some.inj (hd.symm.trans hd')
        rw [kills, check_eq hva rfl, hL] at hkill
        cases hkill
    | @fault v _ d₀ d₁ s' _ hv' hd' hL' hf ha hend =>
      obtain rfl := Option.some.inj (hd.symm.trans hd')
      subst hv'
      cases hf with
      | filled _ _ _ hr _ ho =>
        have hfl : (d₁.flush.ent (va / 4096)).toFlags = { P := true, W := true, U := true } := by
          rw [Pgdir.ent_flush, hr.ent, if_pos rfl]
        cases hend with
        | load => exact ⟨_, s', d₁, _, hs, hr, ho⟩
        | store hw => cases hw
        | killed hd₁ hno₁ =>
          cases Kernel.setMem_self.2.symm.trans hd₁
          exact absurd (allows_of_flags hva rfl hfl) hno₁
      | spent _ hnil => exact absurd hnil hfree
      | beyond hge => exact absurd hge (Nat.not_le.mpr hv)

end Steps

/-! ## The start of a run -/

/-- `init` is running with its first page, and most of the memory is free. -/
structure Started [Layout] (k : Kernel Kmem) (d : Pgdir) : Prop where
  inv : InvOf LazyOk 0 k
  running : (k.proc initSlot).state = .RUNNING
  killed : (k.proc initSlot).killed = false
  sz : (k.proc initSlot).sz = PGSIZE
  dir : k.pgdir initSlot = some d
  low : (d.ent 0).P = true
  high : ∀ v, 1 ≤ v → v < UPAGES → d.ent v = Pte.zero
  oom : k.phys.oom = false
  free : 50000 ≤ k.phys.free.length
  user : (d.ent 0).permits true = true
  slot : k.proc.first (·.state = .UNUSED) = some ⟨1, by decide⟩
  nextpid : k.nextpid = 2

/-- After boot `init` is scheduled. -/
theorem exists_scheduled : letI := sampleLayout
    ∃ (k₀ k : Kernel Kmem) (d : Pgdir), boot sampleMachine (powerOn sampleMachine) = .ok () k₀ ∧
      step tree (.sched initSlot) k₀ = .ok (.ret 0) k ∧ Started k d := by
  let L := sampleLayout
  obtain ⟨k, hk, hb⟩ := boot_ok (κ := Kmem) sample_fits
  obtain ⟨d, hd, hi, hU, -⟩ := hb.dir
  have hrun : (k.proc initSlot).state = .RUNNABLE := by
    rw [hb.table]
    simp
  obtain ⟨-, f, -, hf, -⟩ := hb.inv.live initSlot hb.live
  have hs := step_sched (T := tree) hrun hd (by simp [hf])
  obtain ⟨hP, hW, -⟩ := hi.low 0 Nat.one_pos
  have hslot : (k.proc.set initSlot fun q => { q with state := .RUNNING, chan := none }).first
      (·.state = .UNUSED) = some ⟨1, by decide⟩ := by
    rw [hb.table]
    rfl
  have hinv := (CommonEffect.sched (x := 0) hrun hd).inv shape_lazyOk (hb.invOf shape_lazyOk)
  have hdir : Function.update k.pgdir initSlot (some d.flush) initSlot = some d.flush :=
    Function.update_self ..
  have hkill : (k.proc initSlot).killed = false := by
    rw [hb.table]
    simp
  exact ⟨k, _, d.flush, hk, hs, hinv, congrArg Proc.state (Table.set_self ..),
    (congrArg Proc.killed (Table.set_self ..)).trans hkill,
    (congrArg Proc.sz (Table.set_self ..)).trans hb.sz, hdir, hP, hi.high, hb.oom, hb.free,
    by rw [Pgdir.ent_flush, Pte.permits, hP, hU, hW]; rfl, hslot, hb.nextpid⟩

/-- `init` can be started under any condition that lets it be scheduled. -/
theorem exists_started {C : Kernel Kmem → Op → Result → Prop} (hC : letI := sampleLayout
      ∀ k k' d, step tree (.sched initSlot) k = .ok (.ret 0) k' → Started k' d →
        C k (.sched initSlot) (.ret 0)) : letI := sampleLayout
    ∃ k d, Reachable tree C k ∧ Started k d := by
  let L := sampleLayout
  obtain ⟨k₀, k, d, hboot, hs, hk⟩ := exists_scheduled
  exact ⟨k, d, .step (.boot hboot) hs (hC k₀ k d hs hk), hk⟩

/-- From the start `init` can grow by `n` bytes. -/
theorem Started.grow [Layout] {k : Kernel Kmem} {d : Pgdir} (hk : Started k d) {n : ℕ}
    (hpos : 0 < n) (hn : n ≤ 2 ^ 20) : ∃ s' d', step tree (.sbrk initSlot n) k =
      .ok (.ret PGSIZE) (k.setMem initSlot s' (PGSIZE + n) d'.flush) ∧
      d.Grown d' 1 (pages (PGSIZE + n)) := by
  have hone : pages (k.proc initSlot).sz = 1 := by rw [hk.sz]; rfl
  have harg : argint n = n := by
    simp only [argint, Int.bmod_def]
    omega
  have hpg : pages (PGSIZE + n) ≤ 258 := by
    simp only [pages, PGSIZE]
    omega
  have hroom := hk.free
  obtain ⟨s', d', hs, hg⟩ := @step_sbrk _ _ k initSlot d n hk.inv hk.running hk.dir (by omega)
    (PGSIZE + n) (by rw [harg, hk.sz, Nat.cast_add]) (by rw [KERNBASE_eq, PGSIZE]; omega)
    (fun v h₁ h₂ => by rw [hk.high v (hone ▸ h₁) h₂]; rfl) (by omega)
  rw [hone] at hg
  refine ⟨s', d', ?_, hg⟩
  rw [hs, hk.sz]

/-- From the start `init` can fork, and the child has slot 1. -/
theorem Started.fork [Layout] {k : Kernel Kmem} {d : Pgdir} (hk : Started k d) :
    ∃ f s' c, step tree (.fork initSlot) k =
      .ok (.ret 2) (k.born initSlot ⟨1, by decide⟩ f s' d c) := by
  have hone : pages (k.proc initSlot).sz = 1 := by rw [hk.sz]; rfl
  have hL : (d.ent 0).LAZY = false := by
    by_contra hL
    have := ((hk.inv.of_live (live_of_running hk.running) hk.dir).2.ent 0).excl (by simpa using hL)
    rw [hk.low] at this
    cases this
  have hroom := hk.free
  have hstop : ∀ e, ¬Stop k (.fork initSlot) e := by
    rintro e ⟨-, ⟨-, hpid⟩ | ⟨d', n, hd', -, v, hv, -, -, hwhy⟩⟩
    · exact absurd (hk.nextpid.symm.trans hpid) (by decide)
    · obtain rfl := Option.some.inj (hk.dir.symm.trans hd')
      obtain rfl : v = 0 := Nat.lt_one_iff.mp (hone ▸ hv)
      rcases hwhy with ⟨-, hno⟩ | ⟨-, hge, -⟩ | ⟨-, -, -, hlazy, -⟩
      · exact hno (Or.inl hk.low)
      · exact absurd hge (by decide)
      · rw [hL] at hlazy
        cases hlazy
  obtain ⟨res, k', hs, he⟩ :=
    wp_ok (wp_mono (step_spec hk.inv (.fork initSlot)) (fun _ _ h => h) fun e _ he => hstop e he)
  cases he with
  | common hc =>
    cases hc with
    | disabled hno => exact absurd hk.running hno
  | fork _ hd he =>
    obtain rfl := Option.some.inj (hk.dir.symm.trans hd)
    cases he with
    | full hnone => exact absurd (hk.slot.symm.trans hnone) (by simp)
    | noStack _ hnil =>
      rw [hnil, List.length_nil] at hroom
      omega
    | noCopy _ _ _ _ hcons hc =>
      rw [hcons, List.length_cons] at hroom
      cases hc with
      | failed hshort =>
        rcases hshort with hlt | ⟨n, hn, v, hv, -, -, hlt, -⟩
        · omega
        · obtain rfl : v = 0 := Nat.lt_one_iff.mp (hone ▸ hv)
          have hcard : (copied d (0 + 1)).card ≤ 1 := (Finset.card_filter_le _ _).trans (by simp)
          simp only [need] at hlt
          omega
    | born hnp _ _ _ _ hc =>
      obtain rfl := Option.some.inj (hk.slot.symm.trans hnp)
      cases hc with
      | copied =>
        rw [hk.nextpid] at hs
        exact ⟨_, _, _, hs⟩

/-- `init` has grown by 100 bytes, and maps a page. -/
structure Unaligned [Layout] (k k' : Kernel Kmem) (d d' : Pgdir) : Prop where
  running : (k.proc initSlot).state = .RUNNING
  dir : k.pgdir initSlot = some d
  sz : (k.proc initSlot).sz = PGSIZE + 100
  added : (d.ent 1).P = true
  high : d.ent 2 = Pte.zero
  step : step tree (.mmap initSlot PGSIZE) k = .ok (.ret (PGSIZE + 100)) k'
  running' : (k'.proc initSlot).state = .RUNNING
  dir' : k'.pgdir initSlot = some d'
  sz' : (k'.proc initSlot).sz = 2 * PGSIZE + 100
  marked : Marked d d' 1 2

theorem exists_unaligned : letI := sampleLayout
    ∃ k k' d d', Reachable tree anyOp k ∧ Unaligned k k' d d' := by
  let L := sampleLayout
  obtain ⟨k₀, d₀, hr₀, hk₀⟩ := exists_started (C := anyOp) fun _ _ _ _ _ => trivial
  obtain ⟨s, d, hs, hg⟩ := hk₀.grow (n := 100) (by decide) (by decide)
  set k := k₀.setMem initSlot s (PGSIZE + 100) d.flush
  have hr : Reachable tree anyOp k := .step hr₀ hs trivial
  obtain ⟨x, hx⟩ := ok_of_reachable hr
  have hrun : (k.proc initSlot).state = .RUNNING :=
    (congrArg Proc.state (Table.set_self ..)).trans hk₀.running
  obtain ⟨hsz, hdir⟩ : (k.proc initSlot).sz = PGSIZE + 100 ∧ k.pgdir initSlot = some d.flush :=
    Kernel.setMem_self
  have hP : (d.ent 1).P = true := by rw [hg.flags 1 (le_refl 1) (by decide)]
  have hlo : (k.proc initSlot).sz / PGSIZE = 1 := by rw [hsz]; rfl
  have hmiss : missing d.flush 1 (1 + 1) = ∅ := by
    refine Finset.eq_empty_of_forall_notMem fun i hi => ?_
    obtain ⟨⟨w, h₁, h₂, rfl⟩, hno⟩ := mem_missing.mp hi
    obtain rfl : w = 1 := by omega
    exact hno (Pgdir.has_of_P (d := d) hP)
  obtain ⟨s', d', hs', hm⟩ := @step_mmap _ x k initSlot d.flush PGSIZE hx hrun hdir 1 (by decide)
    (by rw [hsz]; decide) (by rw [hlo, hmiss]; exact Nat.zero_le _)
  have hmk := hm.marked
  rw [hlo] at hmk
  refine ⟨k, k.setMem initSlot s' (PGSIZE + 100 + 1 * PGSIZE) d', d.flush, d', hr, hrun, hdir, hsz,
    hP, ?_, ?_, (congrArg Proc.state (Table.set_self ..)).trans hrun, Kernel.setMem_self.2,
    Kernel.setMem_self.1.trans rfl, hmk⟩
  · exact (hg.out 2 (Or.inr (by decide))).trans (hk₀.high 2 (by decide) (by decide))
  · rw [hs', hsz, Nat.cast_add]
    rfl

/-- `init` has mapped `m` pages behind its first one. -/
structure Extended (m : ℕ) (k : Kernel Kmem) (d : Pgdir) : Prop where
  running : (k.proc initSlot).state = .RUNNING
  killed : (k.proc initSlot).killed = false
  sz : (k.proc initSlot).sz = (m + 1) * PGSIZE
  dir : k.pgdir initSlot = some d
  low : (d.ent 0).P = true
  lazy : ∀ v, 1 ≤ v → v < m + 1 → (d.ent v).LAZY = true
  high : ∀ v, m + 1 ≤ v → v < UPAGES → d.ent v = Pte.zero

/-- From the start `init` can map `m` pages. -/
theorem Started.extend [Layout] {k : Kernel Kmem} {d : Pgdir} (hk : Started k d) {m : ℕ}
    (hm : m < 500000) : ∃ k' d', step tree (.mmap initSlot (m * PGSIZE)) k =
      .ok (.ret PGSIZE) k' ∧ Extended m k' d' ∧ k'.phys.oom = false ∧
      40000 ≤ k'.phys.free.length := by
  have hn : argint (m * PGSIZE) = m * PGSIZE := by
    simp only [argint, PGSIZE, Int.bmod_def]
    omega
  have hlo : (k.proc initSlot).sz / PGSIZE = 1 := by rw [hk.sz]; rfl
  have hhi : 1 + m ≤ 2 ^ 20 := by omega
  have htab := @card_missing_le_tables d 1 (1 + m) hhi
  have hroom := hk.free
  rw [NPDENTRIES] at htab
  have hret : Result.ret (k.proc initSlot).sz = .ret PGSIZE := by rw [hk.sz]
  obtain ⟨s', d', hs, hM⟩ := step_mmap hk.inv hk.running hk.dir hn
    (by rw [hk.sz, KERNLINK_PGSIZE]; simp only [PGSIZE]; omega) (by rw [hlo]; omega)
  have hmk := hM.marked
  rw [hlo] at hmk
  have hlen := hM.len
  rw [hmk.numTables hhi] at hlen
  rw [hret] at hs
  obtain ⟨hsz, hdir⟩ := @Kernel.setMem_self _ k initSlot s' ((k.proc initSlot).sz + m * PGSIZE) d'
  refine ⟨_, d', hs, ⟨(congrArg Proc.state (Table.set_self ..)).trans hk.running,
    (congrArg Proc.killed (Table.set_self ..)).trans hk.killed, ?_, hdir, ?_, fun v h₁ h₂ => ?_,
    fun v h₁ h₂ => ?_⟩, hM.oom.trans hk.oom, ?_⟩
  · rw [hsz, hk.sz, Nat.succ_mul, Nat.add_comm]
  · rw [hmk.ent, if_neg (by omega)]
    exact hk.low
  · rw [hmk.ent, if_pos (by omega)]
    rfl
  · rw [hmk.ent, if_neg (by omega)]
    exact hk.high v (by omega) h₂
  · change 40000 ≤ s'.free.length
    omega

/-- `init` has mapped `m` pages, and the kernel has used up all but `n` frames. -/
theorem exists_extended {m n : ℕ} (hm : m < 500000) (hn : n ≤ 40000) : letI := sampleLayout
    ∃ k d, Reachable tree anyOp k ∧ Extended m k d ∧ k.phys.free.length = n := by
  let L := sampleLayout
  obtain ⟨k₀, d₀, hr₀, hk₀⟩ := exists_started (C := anyOp) fun _ _ _ _ _ => trivial
  obtain ⟨k, d, hs, hk, -, hroom⟩ := hk₀.extend hm
  have hok : ∀ k, Reachable tree anyOp k → ∃ o, Acct InRange k.phys.kmem o := fun k hr => by
    obtain ⟨x, hx⟩ := ok_of_reachable hr
    exact ⟨_, hx.acct⟩
  obtain ⟨k', hr, hfree, hproc, hpg, -⟩ :=
    exists_free (fun _ _ => trivial) hok (.step hr₀ hs trivial) (hn.trans hroom)
  refine ⟨k', d, hr, ⟨?_, ?_, ?_, ?_, hk.low, hk.lazy, hk.high⟩, hfree⟩
  · rw [hproc]
    exact hk.running
  · rw [hproc]
    exact hk.killed
  · rw [hproc]
    exact hk.sz
  · rw [hpg]
    exact hk.dir

/-- `init` has mapped a page and given it back with `sbrk(-4096)`; there is a free frame. -/
structure Shrunk [Layout] (k : Kernel Kmem) (d : Pgdir) : Prop where
  running : (k.proc initSlot).state = .RUNNING
  sz : (k.proc initSlot).sz = PGSIZE
  dir : k.pgdir initSlot = some d
  low : (d.ent 0).P = true
  lazy : (d.ent 1).LAZY = true
  high : ∀ v, 2 ≤ v → v < UPAGES → d.ent v = Pte.zero
  free : k.phys.free ≠ []

theorem exists_shrunk : letI := sampleLayout
    ∃ k d, Reachable tree anyOp k ∧ Shrunk k d := by
  let L := sampleLayout
  obtain ⟨k, d, hr, hk, hfree⟩ := @exists_extended 1 1 (by decide) (by decide)
  obtain ⟨x, hx⟩ := ok_of_reachable hr
  have hn : argint (-4096) = -4096 := by decide
  obtain ⟨s', d', hs, hc, hlen⟩ := @step_shrink _ _ k initSlot d (-4096) hx hk.running hk.dir
    (by rw [hn]; decide) 4096 (by rw [hn, hk.sz]; rfl) (by decide) (by rw [hk.sz]; decide)
    fun v h₁ h₂ => by rw [hk.high v (by rwa [hk.sz] at h₁) h₂]; rfl
  have hlazy := hk.lazy 1 (le_refl 1) (by decide)
  have hP := ((hx.of_live (live_of_running hk.running) hk.dir).2.ent 1).excl hlazy
  -- the only page in the range is not present
  have hent : ∀ v, d'.ent v = d.ent v := fun v => by
    have hlo : pages 4096 = 1 := rfl
    have hhi : pages ((1 + 1) * PGSIZE) = 2 := rfl
    rw [hk.sz, hlo, hhi] at hc
    rw [hc.ent, if_neg]
    rintro ⟨h₁, h₂, h₃⟩
    obtain rfl : v = 1 := by omega
    cases hP.symm.trans h₃
  obtain ⟨hsz, hdir⟩ := @Kernel.setMem_self _ k initSlot s' 4096 d'.flush
  refine ⟨_, d'.flush, .step hr hs trivial,
    (congrArg Proc.state (Table.set_self ..)).trans hk.running, hsz, hdir, ?_, ?_,
    fun v h₁ h₂ => ?_, fun hnil => ?_⟩
  · rw [Pgdir.ent_flush, hent]
    exact hk.low
  · rw [Pgdir.ent_flush, hent]
    exact hlazy
  · rw [Pgdir.ent_flush, hent]
    exact hk.high v h₁ h₂
  · change s'.free = [] at hnil
    rw [hnil, hfree] at hlen
    exact absurd hlen (by decide)

end OsLabs.Lazy
